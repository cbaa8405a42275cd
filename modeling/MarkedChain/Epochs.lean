import MarkedChain.Fault
import MarkedChain.Limbo
import MarkedChain.Roster
import MarkedChain.Tuning

/-!
# Reclaiming by epochs

A global epoch only grows. A participant pins its record while it works on the chain, and the
record shows the epoch at which it was pinned. `Epochs.advance` moves the global epoch on unless a
pinned record shows another epoch, so a pinned record is at most one epoch behind. A node is
retired under the epoch of that moment, and `Epochs.collect` frees it two epochs later, when every
participant that was pinned at its retirement has been unpinned since.
-/

namespace MarkedChain

/-- The record of a participant. -/
structure Pin where
  /-- How many guards the participant holds. -/
  depth : Nat := 0
  /-- Whether the participant holds a guard, as the others see it. -/
  pinned : Bool := false
  /-- The global epoch at the last outermost pin. -/
  epoch : Nat := 0
  /-- How many nodes the participant has retired since it last tried to collect. -/
  sinceCollection : Nat := 0
  deriving DecidableEq, Repr

namespace Pin

/-- Takes a guard. The outermost one shows the global epoch. -/
def enter (p : Pin) (epoch : Nat) : Pin :=
  if p.depth = 0 then { p with depth := 1, pinned := true, epoch }
  else { p with depth := p.depth + 1 }

/-- Drops a guard. The outermost one unpins the record, which still shows its epoch. -/
def exit (p : Pin) : Except Fault Pin :=
  if p.depth = 0 then .error .notPinned
  else .ok { p with depth := p.depth - 1, pinned := p.pinned && p.depth != 1 }

/-- Whether the record keeps the global epoch from moving on. -/
def lags (p : Pin) (epoch : Nat) : Bool := p.pinned && p.epoch != epoch

end Pin

/-- Reclamation by epochs. -/
structure Epochs (α : Type) where
  epoch : Nat := 0
  collectEvery : UInt64
  roster : Roster Pin
  limbo : Limbo α := {}
  deriving DecidableEq, Repr

namespace Epochs

variable {α : Type}

/-- Epochs of a new set. -/
def ofTuning (t : Tuning) : Epochs α where
  collectEvery := t.collectEvery
  roster := { limit := t.handleLimit }

/-- The number of epochs after which generations repeat. -/
def generations : Nat := 3

/-- The generation of the global epoch. -/
def generation (e : Epochs α) : Nat := e.epoch % generations

/-- Pins a record. -/
def pin (e : Epochs α) (record : Nat) : Epochs α :=
  { e with roster := e.roster.update record fun p => p.enter e.epoch }

/-- Drops one guard of a record. -/
def unpin (e : Epochs α) (record : Nat) : Except Fault (Epochs α) :=
  match e.roster.record? record with
  | none => .error (.notRegistered record)
  | some p => do
    let q ← p.exit
    return { e with roster := e.roster.update record fun _ => q }

/-- Moves the global epoch on by one, unless a record lags. Says whether it did. -/
def advance (e : Epochs α) : Bool × Epochs α :=
  if e.roster.any fun p => p.lags e.epoch then (false, e)
  else (true, { e with epoch := e.epoch + 1 })

/-- Whether an entry is old enough to be freed. -/
def isRipe (e : Epochs α) (entry : Retired α) : Bool := decide (entry.tag + 2 ≤ e.epoch)

/-- Takes out the nodes that were retired at least two epochs ago. -/
def collect (e : Epochs α) : List α × Epochs α :=
  let swept := e.limbo.sweep e.isRipe
  (swept.1, { e with limbo := swept.2 })

/-- Moves the global epoch on if possible and collects. -/
def reclaim (e : Epochs α) : List α × Epochs α := e.advance.2.collect

/-- Retires a node under the global epoch. Every so many retirements of a record it reclaims. -/
def retire (e : Epochs α) (record : Nat) (node : α) : List α × Epochs α :=
  let since := (e.roster.record? record).elim 0 Pin.sinceCollection + 1
  let due := decide (e.collectEvery.toNat ≤ since)
  let pushed := { e with
    limbo := e.limbo.push node e.epoch
    roster := e.roster.update record fun p =>
      { p with sinceCollection := if due then 0 else since } }
  if due then pushed.reclaim else ([], pushed)

end Epochs

end MarkedChain
