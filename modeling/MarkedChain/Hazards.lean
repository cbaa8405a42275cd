import MarkedChain.Fault
import MarkedChain.Limbo
import MarkedChain.Roster
import MarkedChain.Tuning

/-!
# Reclaiming by hazard slots

A participant publishes the nodes it is about to use in the three slots of its record
(`Shield.publish`) and makes sure afterwards that they are still in the chain. `Hazards.scan` frees
the retired nodes that no record publishes. A retirement scans when more nodes wait than the
threshold of `Tuning.scanThreshold?`.
-/

namespace MarkedChain

/-- The places in a record where a node can be published. -/
inductive Slot where
  | pred
  | curr
  | succ
  deriving DecidableEq, Repr

/-- The record of a participant. -/
structure Shield (α : Type) where
  pred : Option α := none
  curr : Option α := none
  succ : Option α := none
  /-- Whether an operation is using the slots. -/
  guarded : Bool := false
  deriving DecidableEq, Repr

namespace Shield

variable {α : Type}

/-- The node published in a slot. -/
def published (s : Shield α) : Slot → Option α
  | .pred => s.pred
  | .curr => s.curr
  | .succ => s.succ

/-- Publishes a node in a slot, or nothing. -/
def publish (s : Shield α) (slot : Slot) (node : Option α) : Shield α :=
  match slot with
  | .pred => { s with pred := node }
  | .curr => { s with curr := node }
  | .succ => { s with succ := node }

/-- Publishes the node of one slot in another one too. -/
def transfer (s : Shield α) (source target : Slot) : Shield α :=
  s.publish target (s.published source)

/-- Empties all slots. -/
def clear (s : Shield α) : Shield α := { s with pred := none, curr := none, succ := none }

/-- Takes the slots for one operation. -/
def enter (s : Shield α) : Except Fault (Shield α) :=
  if s.guarded then .error .alreadyGuarded else .ok { s with guarded := true }

/-- Empties the slots and gives them back. -/
def exit (s : Shield α) : Shield α := { s.clear with guarded := false }

/-- Whether some slot publishes a node. -/
def covers [DecidableEq α] (s : Shield α) (node : α) : Bool :=
  s.pred == some node || s.curr == some node || s.succ == some node

end Shield

/-- Reclamation by hazard slots. -/
structure Hazards (α : Type) where
  scanFactor : UInt64
  scanFloor : UInt64
  roster : Roster (Shield α)
  limbo : Limbo α := {}
  deriving DecidableEq, Repr

namespace Hazards

variable {α : Type}

/-- Hazard slots of a new set. -/
def ofTuning (t : Tuning) : Hazards α where
  scanFactor := t.scanFactor
  scanFloor := t.scanFloor
  roster := { limit := t.handleLimit }

/-- Whether some record, held or not, publishes a node. -/
def protects [DecidableEq α] (h : Hazards α) (node : α) : Bool :=
  h.roster.any fun s => s.covers node

/-- Takes the slots of a record for one operation. -/
def pin (h : Hazards α) (record : Nat) : Except Fault (Hazards α) :=
  match h.roster.record? record with
  | none => .error (.notRegistered record)
  | some s => do
    let t ← s.enter
    return { h with roster := h.roster.update record fun _ => t }

/-- Empties the slots of a record and gives them back. -/
def unpin (h : Hazards α) (record : Nat) : Hazards α :=
  { h with roster := h.roster.update record Shield.exit }

/-- Empties the slots of a record. -/
def clear (h : Hazards α) (record : Nat) : Hazards α :=
  { h with roster := h.roster.update record Shield.clear }

/-- Publishes a node in a slot of a record. -/
def publish (h : Hazards α) (record : Nat) (slot : Slot) (node : Option α) : Hazards α :=
  { h with roster := h.roster.update record fun s => s.publish slot node }

/-- Publishes the node of one slot of a record in another one too. -/
def transfer (h : Hazards α) (record : Nat) (source target : Slot) : Hazards α :=
  { h with roster := h.roster.update record fun s => s.transfer source target }

/-- Takes out the nodes that no record publishes. -/
def scan [DecidableEq α] (h : Hazards α) : List α × Hazards α :=
  let swept := h.limbo.sweep fun entry => !h.protects entry.node
  (swept.1, { h with limbo := swept.2 })

/-- Retires a node, and scans if more nodes wait than the threshold. -/
def retire [DecidableEq α] (h : Hazards α) (node : α) : Except Fault (List α × Hazards α) :=
  let pushed := { h with limbo := h.limbo.push node 0 }
  match Tuning.scanThreshold? h.scanFactor h.scanFloor h.roster.active with
  | none => .error .thresholdTooLarge
  | some threshold =>
    .ok (if threshold < pushed.limbo.pending then pushed.scan else ([], pushed))

end Hazards

end MarkedChain
