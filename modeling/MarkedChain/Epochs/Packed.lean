import MarkedChain.Epochs

/-!
# Pins packed into words

The others see of a participant one machine word: the epoch at which it was pinned, shifted to the
left, with the pin in the lowest bit. Only the outermost guard writes the word. The number of guards
stands apart, where nobody else reads it, and changes with every guard. `PackedPin.unpack` reads the
word back as an epoch and a pin, which are the ones that were packed as long as epochs leave the
highest bit free.
-/

namespace MarkedChain

/-- The record of a participant, with epoch and pin in one word. -/
structure PackedPin where
  /-- The epoch at the last outermost pin, and the pin. -/
  word : UInt64 := 0
  /-- How many guards the participant holds. -/
  depth : Nat := 0
  /-- How many nodes the participant has retired since it last tried to collect. -/
  sinceCollection : Nat := 0
  deriving DecidableEq, Repr

namespace PackedPin

/-- The bit that holds the pin. -/
def pinBit : UInt64 := 1

/-- Whether the participant is pinned. -/
def isPinned (p : PackedPin) : Bool := p.word &&& pinBit != 0

/-- The epoch that the record shows. -/
def epoch (p : PackedPin) : UInt64 := p.word >>> 1

/-- Takes a guard. The outermost one writes the word. -/
def enter (p : PackedPin) (epoch : UInt64) : PackedPin :=
  if p.depth = 0 then { p with depth := 1, word := epoch <<< 1 ||| pinBit }
  else { p with depth := p.depth + 1 }

/-- Drops a guard. The outermost one takes the pin out of the word. -/
def exit (p : PackedPin) : Except Fault PackedPin :=
  if p.depth = 0 then .error .notPinned
  else .ok { p with
    depth := p.depth - 1
    word := if p.depth = 1 then p.word &&& ~~~pinBit else p.word }

/-- Whether the record keeps the global epoch from moving on. -/
def lags (p : PackedPin) (epoch : UInt64) : Bool := p.isPinned && p.epoch != epoch

/-- What the record says. -/
def unpack (p : PackedPin) : Pin where
  depth := p.depth
  pinned := p.isPinned
  epoch := p.epoch.toNat
  sinceCollection := p.sinceCollection

end PackedPin

/-- Reclamation by epochs, on records that are packed. -/
structure PackedEpochs (α : Type) where
  epoch : UInt64 := 0
  collectEvery : UInt64
  roster : Roster PackedPin
  limbo : Limbo α := {}
  deriving DecidableEq, Repr

namespace PackedEpochs

variable {α : Type}

/-- Epochs of a new set. -/
def ofTuning (t : Tuning) : PackedEpochs α where
  collectEvery := t.collectEvery
  roster := { limit := t.handleLimit }

/-- The generation of the global epoch. -/
def generation (e : PackedEpochs α) : Nat := e.epoch.toNat % Epochs.generations

/-- Moves the global epoch on by one, unless a record lags. Says whether it did. -/
def advance (e : PackedEpochs α) : Bool × PackedEpochs α :=
  if e.roster.any fun p => p.lags e.epoch then (false, e)
  else (true, { e with epoch := e.epoch + 1 })

/-- Whether an entry is old enough to be freed. -/
def isRipe (e : PackedEpochs α) (entry : Retired α) : Bool :=
  decide (entry.tag + 2 ≤ e.epoch.toNat)

/-- Takes out the nodes that were retired at least two epochs ago. -/
def collect (e : PackedEpochs α) : List α × PackedEpochs α :=
  let swept := e.limbo.sweep e.isRipe
  (swept.1, { e with limbo := swept.2 })

/-- Moves the global epoch on if possible and collects. -/
def reclaim (e : PackedEpochs α) : List α × PackedEpochs α := e.advance.2.collect

/-- Retires a node under the global epoch. Every so many retirements of a record it reclaims. -/
def retire (e : PackedEpochs α) (record : Nat) (node : α) : List α × PackedEpochs α :=
  let since := (e.roster.record? record).elim 0 PackedPin.sinceCollection + 1
  let due := decide (e.collectEvery.toNat ≤ since)
  let pushed := { e with
    limbo := e.limbo.push node e.epoch.toNat
    roster := e.roster.update record fun p =>
      { p with sinceCollection := if due then 0 else since } }
  if due then pushed.reclaim else ([], pushed)

/-- What all records say. -/
def unpack (e : PackedEpochs α) : Epochs α where
  epoch := e.epoch.toNat
  collectEvery := e.collectEvery
  roster := e.roster.map PackedPin.unpack
  limbo := e.limbo

end PackedEpochs

end MarkedChain
