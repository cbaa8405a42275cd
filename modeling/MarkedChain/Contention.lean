/-!
# Waiting under contention

Between two failed attempts a participant waits: it spins at first and gives up its time slice
later. `Contention.wait` decides which, by the number of attempts so far, and counts the attempt.
The count stops at `Contention.ceiling`, beyond the last count at which a participant spins.
-/

namespace MarkedChain

/-- How a participant waits before it tries again. -/
inductive Wait where
  | spin
  | yieldSlice
  deriving DecidableEq, Repr

/-- The attempts made since the start or the last reset. -/
structure Contention where
  attempts : Nat := 0
  deriving DecidableEq, Repr

namespace Contention

/-- The last count of attempts at which a participant still spins. -/
def spinLimit : Nat := 6

/-- The count at which attempts are no longer counted. -/
def ceiling : Nat := 11

/-- Waits once: spins up to `spinLimit` attempts and yields beyond. -/
def wait (c : Contention) : Wait × Contention :=
  (if c.attempts ≤ spinLimit then .spin else .yieldSlice, ⟨min (c.attempts + 1) ceiling⟩)

/-- A request of a participant. -/
inductive Request where
  | wait
  | reset
  deriving DecidableEq, Repr

/-- What a request waits for, and the attempts after it. A reset forgets all attempts. -/
def perform (c : Contention) : Request → Option Wait × Contention
  | .wait => (some c.wait.1, c.wait.2)
  | .reset => (none, {})

/-- The waits of a sequence of requests, each with the attempts counted after it. -/
def history (c : Contention) : List Request → List (Option Wait × Nat)
  | [] => []
  | r :: rs => ((c.perform r).1, (c.perform r).2.attempts) :: (c.perform r).2.history rs

end Contention

end MarkedChain
