/-!
# Faults

A fault is a broken assumption that stops the program, as opposed to an answer it gives.
`Fault.message` is what the stopped program says. Most faults guard memory: a node that is read,
written or freed must still be allocated, and memory taken from a pool must still be marked free.
-/

namespace MarkedChain

/-- Nodes live in numbered cells of memory. The number is the node's address, and a cell can hold
several nodes one after the other. -/
abbrev Address := Nat

/-- Code runs on a lane. Each lane keeps its own pool of freed memory. -/
abbrev Lane := Nat

/-- What stops the program. -/
inductive Fault where
  /-- A link word was built from an odd address, whose lowest bit belongs to the mark. -/
  | misaligned
  /-- A node was reached at an address that holds none. -/
  | notAllocated (address : Address)
  /-- Memory in a pool no longer looked the way freed memory is left. -/
  | poolDisturbed (address : Address)
  /-- A pool was asked to reserve more memory than a program can address. -/
  | poolTooLarge
  /-- The length at which retired nodes are scanned does not fit a machine word. -/
  | thresholdTooLarge
  /-- A participant used a record that is not on the roster. -/
  | notRegistered (record : Nat)
  /-- A participant left a pinned region that it had not entered. -/
  | notPinned
  /-- A participant that holds hazard slots asked for them again. -/
  | alreadyGuarded
  deriving DecidableEq, Repr

/-- The text of a fault. -/
def Fault.message : Fault → String
  | .misaligned => "pointer is not aligned"
  | .notAllocated _ => "dereferenced a reclaimed node"
  | .poolDisturbed _ => "reclaimed node was written after it was freed"
  | .poolTooLarge => "capacity overflow"
  | .thresholdTooLarge => "attempt to multiply with overflow"
  | .notRegistered _ => "participant record is not registered"
  | .notPinned => "exit without a matching enter"
  | .alreadyGuarded => "one hazard guard per participant at a time"

end MarkedChain
