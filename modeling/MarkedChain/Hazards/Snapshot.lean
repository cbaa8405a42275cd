import MarkedChain.Hazards

/-!
# Looking nodes up in a snapshot of the slots

What all records publish is read once and sorted (`Hazards.snapshot`), and a node is then looked up
by halving (`bisect`). `Hazards.isProtected` says whether a node is published by some record.
-/

namespace MarkedChain

variable {α : Type} [Ord α]

/-- Narrows a stretch of a sorted array, given by its first position and its length, down to the one
position at which a value has to be if it is in the stretch. -/
def bisect (xs : Array α) (x : α) (base size : Nat) : Nat :=
  if 1 < size then
    match xs[base + size / 2]? with
    | some y =>
      if (compare y x).isGT then bisect xs x base (size - size / 2)
      else bisect xs x (base + size / 2) (size - size / 2)
    | none => base
  else base
termination_by size

/-- Whether a value is in a sorted array. -/
def foundIn (xs : Array α) (x : α) : Bool :=
  match xs[bisect xs x 0 xs.size]? with
  | some y => (compare y x).isEq
  | none => false

/-- What the slots of a record publish, the last slot first. -/
def Shield.readout {α : Type} (s : Shield α) : List α :=
  s.succ.toList ++ s.curr.toList ++ s.pred.toList

namespace Hazards

/-- What all records publish, held or not, in ascending order. -/
def snapshot (h : Hazards α) : Array α :=
  ((h.roster.seats.toList.reverse.flatMap fun seat => seat.record.readout).mergeSort
    fun a b => (compare a b).isLE).toArray

/-- Whether some record publishes a node, as the snapshot says. -/
def isProtected (h : Hazards α) (node : α) : Bool := foundIn h.snapshot node

end Hazards

end MarkedChain
