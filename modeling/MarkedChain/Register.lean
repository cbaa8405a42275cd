/-!
# Registers

A register holds one value and is read, written, or written only if it holds an expected value.
Every link of a chain is such a register. `Register.history` runs a sequence of requests and pairs
each result with the contents after it.
-/

namespace MarkedChain

/-- A cell that holds one value. -/
structure Register (α : Type) where
  contents : α
  deriving DecidableEq, Repr

/-- What a conditional write came to, with the value it found. -/
inductive Exchange (α : Type) where
  | written (previous : α)
  | refused (seen : α)
  deriving DecidableEq, Repr

namespace Register

variable {α : Type}

/-- Replaces the contents. -/
def store (_ : Register α) (new : α) : Register α := ⟨new⟩

/-- Replaces the contents if they are the expected ones. -/
def compareExchange [DecidableEq α] (r : Register α) (expected new : α) :
    Exchange α × Register α :=
  if r.contents = expected then (.written r.contents, ⟨new⟩) else (.refused r.contents, r)

/-- A request to a register. -/
inductive Request (α : Type) where
  | load
  | store (new : α)
  | compareExchange (expected new : α)
  deriving DecidableEq, Repr

/-- The answer to a request. -/
inductive Response (α : Type) where
  | loaded (value : α)
  | stored
  | exchanged (result : Exchange α)
  deriving DecidableEq, Repr

/-- Serves one request. -/
def perform [DecidableEq α] (r : Register α) : Request α → Response α × Register α
  | .load => (.loaded r.contents, r)
  | .store new => (.stored, r.store new)
  | .compareExchange expected new =>
    (.exchanged (r.compareExchange expected new).1, (r.compareExchange expected new).2)

/-- The responses to requests in order, each with the contents after it. -/
def history [DecidableEq α] (r : Register α) : List (Request α) → List (Response α × α)
  | [] => []
  | q :: qs => ((r.perform q).1, (r.perform q).2.contents) :: (r.perform q).2.history qs

end Register

end MarkedChain
