/-!
# Retired nodes

A node that has left the chain is retired: it waits in limbo until nobody can still be reading it.
`Limbo.sweep` walks the waiting nodes from the top, hands out those that may be freed, and puts the
others back. Each one put back goes on top of the one before, so a sweep turns the order of what it
keeps.
-/

namespace MarkedChain

/-- A retired node with the tag it was retired under. -/
structure Retired (α : Type) where
  node : α
  tag : Nat
  deriving DecidableEq, Repr

/-- Retired nodes as a stack, the top first. Their number is counted as they come and go. -/
structure Limbo (α : Type) where
  entries : List (Retired α) := []
  count : Int := 0
  deriving DecidableEq, Repr

namespace Limbo

variable {α : Type}

/-- The number of waiting nodes, as counted. -/
def pending (l : Limbo α) : Nat := l.count.toNat

/-- Puts a node on top. -/
def push (l : Limbo α) (node : α) (tag : Nat) : Limbo α :=
  ⟨⟨node, tag⟩ :: l.entries, l.count + 1⟩

/-- Parts entries into the nodes to free, in order, and the entries to keep, which pile up on
`kept`. -/
def sift (frees : Retired α → Bool) : List (Retired α) → List (Retired α) →
    List α × List (Retired α)
  | [], kept => ([], kept)
  | e :: es, kept =>
    if frees e then (e.node :: (sift frees es kept).1, (sift frees es kept).2)
    else sift frees es (e :: kept)

/-- Takes out the nodes to free, in the order they are met from the top, and keeps the others. -/
def sweep (l : Limbo α) (frees : Retired α → Bool) : List α × Limbo α :=
  let sifted := sift frees l.entries []
  (sifted.1, ⟨sifted.2, l.count - l.entries.length + sifted.2.length⟩)

end Limbo

end MarkedChain
