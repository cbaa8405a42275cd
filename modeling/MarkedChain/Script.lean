import MarkedChain.Key
import MarkedChain.World

/-!
# Scripts

A script makes sets and runs instructions on them. An instruction may carry hooks: further
instructions that run to their end when its operation pauses for the n-th time. So a script fixes
one interleaving of operations. Each instruction yields a `Report` with its result, what the set
looks like afterwards, and the values dropped meanwhile, those of its hooks apart.
-/

namespace MarkedChain

/-- Work on the reclamation of a set. Each kind of it belongs to one scheme. -/
inductive Upkeep where
  | advance
  | collect
  | generation
  | scan
  deriving DecidableEq, Repr

/-- What an instruction does. Handles and guards go by names. A part that could not be read is
`none`, which counts only once all that comes before it has been found in order: the handle first,
then the name of a guard, then the rest. -/
inductive Command (κ ν : Type) where
  | register (handle : String)
  | release (handle : String)
  | call (handle : String) (call : Option (Call κ ν))
  /-- Looks for a key and keeps the protection under a name. -/
  | hold (handle : String) (guard : Option String) (key : Option κ)
  | resume (guard : String)
  /-- Performs calls in order. -/
  | series (handle : String) (calls : Option (List (Option (Call κ ν))))
  | retries (handle : String)
  | stats
  | registry
  /-- Work on the scheme of the set. A handle that is named along with it counts only if the scheme
  knows no such work. -/
  | upkeep (work : Upkeep) (handle : Option String)
  /-- Something that no set can do, and the handle that is named along with it. -/
  | unknown (handle : Option String)
  /-- An instruction that makes no sense. -/
  | malformed
  deriving Repr

/-- A command on a set, with what runs when its operations pause for the n-th time. -/
inductive Instruction (κ ν : Type) where
  | on (set : Nat) (command : Command κ ν) (hooks : Option (List (Nat × List (Instruction κ ν))))
  /-- An instruction without a set to run on or without hooks that make sense. -/
  | unreadable

/-- A script: the kind of its sets, their thresholds, and instructions with their lanes. A lane that
does not exist is `none`, which spoils the script once its instruction has its turn. -/
structure Script (κ ν : Type) where
  kind : Scheme.Kind
  tunings : List Tuning
  steps : List (Option Lane × Instruction κ ν)

/-- The number of lanes that a script can use. -/
def Script.lanes : Nat := 4

/-- A lane by its number. -/
def Script.lane? (n : Nat) : Option Lane := if n < Script.lanes then some n else none

/-- Insertions of the keys of a ramp, each with its text as value. A number may stand for no key. -/
def Ramp.insertions {κ : Type} (r : Ramp) (key? : Int → Option κ) :
    List (Option (Call κ String)) :=
  r.keys.map fun n => (key? n).map fun k => .insert k (Ramp.value n)

/-- Removals of the keys of a ramp. -/
def Ramp.removals {κ ν : Type} (r : Ramp) (key? : Int → Option κ) : List (Option (Call κ ν)) :=
  r.keys.map fun n => (key? n).map .remove

/-- What can be counted about a set. -/
structure Gauge where
  allocated : Nat
  freed : Nat
  pending : Nat
  recycled : Nat
  epoch : Option Nat
  deriving DecidableEq, Repr

/-- The counts of a set. -/
def SharedSet.gauge {κ ν : Type} (s : SharedSet κ ν) : Gauge where
  allocated := s.memory.allocated
  freed := s.memory.freed
  pending := s.pending
  recycled := s.memory.recycled
  epoch := s.scheme.epoch?

/-- The result of an instruction. -/
inductive Result (κ ν : Type) where
  | answer (answer : Answer κ ν)
  /-- How many of the operations changed the set and how many did not. -/
  | tally (changed unchanged : Nat)
  | retries (n : Nat)
  | stats (gauge : Gauge)
  | registry (active records : Nat)
  | generation (n : Nat)
  | refused (reason : Refusal)
  deriving DecidableEq, Repr

/-- The report on an instruction: its result, the set afterwards, the values dropped, and, if it has
hooks, the number of pauses with the reports of the hooks that ran. -/
inductive Report (κ ν : Type) where
  | report (result : Result κ ν) (gauge : Option Gauge) (drops : List ν)
      (trace : Option (Nat × List (Nat × List (Report κ ν))))

namespace Command

variable {κ ν : Type}

/-- How many operations a command comes to. -/
def weight : Command κ ν → Nat
  | .series _ calls => (calls.getD []).length + 1
  | _ => 1

end Command

namespace Instruction

variable {κ ν : Type}

mutual

/-- How many operations an instruction and its hooks come to. -/
def weight : Instruction κ ν → Nat
  | .on _ command none => command.weight
  | .on _ command (some hooks) => command.weight + weightHooks hooks
  | .unreadable => 1

/-- How many operations hooks come to. -/
def weightHooks : List (Nat × List (Instruction κ ν)) → Nat
  | [] => 0
  | (_, steps) :: hooks => weightAll steps + weightHooks hooks + 1

/-- How many operations instructions come to. -/
def weightAll : List (Instruction κ ν) → Nat
  | [] => 0
  | step :: steps => weight step + weightAll steps

end

end Instruction

/-- How many operations a script comes to. -/
def Script.weight {κ ν : Type} (s : Script κ ν) : Nat :=
  Instruction.weightAll (s.steps.map Prod.snd)

end MarkedChain
