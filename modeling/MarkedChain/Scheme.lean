import MarkedChain.Epochs
import MarkedChain.Hazards

/-!
# The two schemes of reclamation

A set reclaims its nodes either by epochs or by hazard slots. `Scheme` is what both have in common:
participants are registered and released, pin and unpin their records around an operation, publish
what they use, and retire what they unlink. Publishing means nothing under epochs, where the pin
protects every node, and a walk has to validate what it reads only under hazard slots
(`Scheme.validates`).
-/

namespace MarkedChain

/-- The reclamation of a set. -/
inductive Scheme (α : Type) where
  | epochs (e : Epochs α)
  | hazards (h : Hazards α)
  deriving DecidableEq, Repr

namespace Scheme

/-- The kinds of reclamation. -/
inductive Kind where
  | epochs
  | hazards
  deriving DecidableEq, Repr

variable {α : Type}

/-- The reclamation of a new set. -/
def ofTuning (t : Tuning) : Kind → Scheme α
  | .epochs => .epochs (Epochs.ofTuning t)
  | .hazards => .hazards (Hazards.ofTuning t)

/-- Whether a walk has to check that the node it publishes is still linked. -/
def validates : Scheme α → Bool
  | .epochs _ => false
  | .hazards _ => true

/-- The retired nodes. -/
def limbo : Scheme α → Limbo α
  | .epochs e => e.limbo
  | .hazards h => h.limbo

/-- The number of records that are held. -/
def active : Scheme α → Nat
  | .epochs e => e.roster.active
  | .hazards h => h.roster.active

/-- The number of records ever made. -/
def records : Scheme α → Nat
  | .epochs e => e.roster.size
  | .hazards h => h.roster.size

/-- The global epoch, if there is one. -/
def epoch? : Scheme α → Option Nat
  | .epochs e => some e.epoch
  | .hazards _ => none

/-- Hands out a record. -/
def register : Scheme α → Except Misuse (Nat × Scheme α)
  | .epochs e => do
    let (i, roster) ← e.roster.acquire {}
    return (i, .epochs { e with roster })
  | .hazards h => do
    let (i, roster) ← h.roster.acquire {}
    return (i, .hazards { h with roster })

/-- Takes a record back, with nothing published in it. -/
def release (s : Scheme α) (record : Nat) : Scheme α :=
  match s with
  | .epochs e => .epochs { e with roster := e.roster.release record }
  | .hazards h => .hazards { h with roster := (h.clear record).roster.release record }

/-- Begins an operation on a record. -/
def pin (s : Scheme α) (record : Nat) : Except Fault (Scheme α) :=
  match s with
  | .epochs e => .ok (.epochs (e.pin record))
  | .hazards h => do return .hazards (← h.pin record)

/-- Ends an operation on a record. -/
def unpin (s : Scheme α) (record : Nat) : Except Fault (Scheme α) :=
  match s with
  | .epochs e => do return .epochs (← e.unpin record)
  | .hazards h => .ok (.hazards (h.unpin record))

/-- Publishes a node in a slot of a record. -/
def publish (s : Scheme α) (record : Nat) (slot : Slot) (node : Option α) : Scheme α :=
  match s with
  | .epochs e => .epochs e
  | .hazards h => .hazards (h.publish record slot node)

/-- Publishes the node of one slot of a record in another one too. -/
def transfer (s : Scheme α) (record : Nat) (source target : Slot) : Scheme α :=
  match s with
  | .epochs e => .epochs e
  | .hazards h => .hazards (h.transfer record source target)

/-- Retires a node. Hands out the nodes that may be freed now. -/
def retire [DecidableEq α] (s : Scheme α) (record : Nat) (node : α) :
    Except Fault (List α × Scheme α) :=
  match s with
  | .epochs e => .ok ((e.retire record node).1, .epochs (e.retire record node).2)
  | .hazards h => do
    let (freed, h) ← h.retire node
    return (freed, .hazards h)

/-- Frees what can be freed. -/
def reclaim [DecidableEq α] : Scheme α → List α × Scheme α
  | .epochs e => (e.reclaim.1, .epochs e.reclaim.2)
  | .hazards h => (h.scan.1, .hazards h.scan.2)

end Scheme

end MarkedChain
