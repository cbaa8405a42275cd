/-!
# Links

A link refers to the next node of a chain, if there is one, and carries the mark that says whether
the node that owns the link has been removed. Reference and mark change together.
-/

namespace MarkedChain

/-- A reference with a mark. -/
structure Link (α : Type) where
  target : Option α
  marked : Bool
  deriving DecidableEq, Repr

namespace Link

variable {α : Type}

/-- The unmarked link to nothing. -/
def null : Link α := ⟨none, false⟩

/-- The unmarked link to `target`. -/
def unmarked (target : Option α) : Link α := ⟨target, false⟩

/-- The same reference under another mark. -/
def setMark (l : Link α) (marked : Bool) : Link α := { l with marked }

end Link

end MarkedChain
