/-!
# Kinds of keys

A set asks of its keys only that they can be compared. Integers, strings and lists of integers have
their usual orders. `Descending` turns the order of integers, and `Residue` compares them by their
last decimal digit alone, so that different keys can be equal in the order.
-/

namespace MarkedChain

/-- An integer in descending order. -/
structure Descending where
  value : Int
  deriving DecidableEq, Repr

instance : Ord Descending := ⟨fun a b => compare b.value a.value⟩

/-- An integer compared by its non-negative remainder. -/
structure Residue where
  value : Int
  deriving DecidableEq, Repr

namespace Residue

/-- What the remainder is taken by. -/
def modulus : Int := 10

/-- The non-negative remainder. -/
def digit (r : Residue) : Int := r.value.emod modulus

instance : Ord Residue := ⟨fun a b => compare a.digit b.digit⟩

end Residue

/-- Evenly spaced integers. -/
structure Ramp where
  first : Int
  stride : Int
  count : Nat
  deriving DecidableEq, Repr

namespace Ramp

/-- The integers of a ramp in order. -/
def keys (r : Ramp) : List Int := (List.range r.count).map fun i => r.first + Int.ofNat i * r.stride

/-- The text stored under a key of a ramp. -/
def value (key : Int) : String := s!"v{key}"

end Ramp

end MarkedChain
