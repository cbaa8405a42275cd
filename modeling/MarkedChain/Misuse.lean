/-!
# Misuse

A set refuses a call for two reasons only: the handle belongs to another set, or the set has as
many handles as it may. Contention and absent keys are results and never misuse. `Misuse.message`
explains a refusal to a person and `Misuse.describe` shows it to a programmer.
-/

namespace MarkedChain

/-- Why a set refuses a call. -/
inductive Misuse where
  /-- The handle was registered with a different set. -/
  | foreignHandle
  /-- As many handles are registered as `limit` allows. -/
  | tooManyParticipants (limit : UInt64)
  deriving DecidableEq, Repr

namespace Misuse

/-- One sentence on the refusal. -/
def message : Misuse → String
  | .foreignHandle => "handle was registered with a different set"
  | .tooManyParticipants limit => s!"participant limit of {limit} reached"

/-- The name of the refusal. -/
def name : Misuse → String
  | .foreignHandle => "ForeignHandle"
  | .tooManyParticipants _ => "TooManyParticipants"

/-- The refusal with its data. -/
def describe : Misuse → String
  | .foreignHandle => "ForeignHandle"
  | .tooManyParticipants limit => s!"TooManyParticipants \x7b limit: {limit} \x7d"

end Misuse

end MarkedChain
