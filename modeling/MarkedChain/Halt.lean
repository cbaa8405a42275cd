import MarkedChain.Fault

/-!
# What ends a run early

A run ends early for one of three reasons (`Halt`): the program stopped with a fault, the script
asked for something that cannot be done at that point, or the run took more steps than it was
given. A `Refusal` says what could not be done and leaves everything as it was.
-/

namespace MarkedChain

/-- Why a request of a script cannot be carried out. -/
inductive Refusal where
  /-- The request does not make sense. -/
  | malformed
  /-- There is no set with that number. -/
  | noSuchSet
  /-- No handle goes by that name. -/
  | noSuchHandle
  /-- No guard goes by that name. -/
  | noSuchGuard
  /-- Something else already goes by that name. -/
  | nameInUse
  /-- An operation on the handle has not ended. -/
  | handleBusy
  /-- The set reclaims nodes in another way. -/
  | otherScheme
  /-- An operation is between two comparisons. -/
  | outOfTurn
  deriving DecidableEq, Repr

/-- Why a run ended early. -/
inductive Halt where
  | fault (cause : Fault)
  | refused (reason : Refusal)
  | outOfFuel
  deriving DecidableEq, Repr

/-- A computation whose only failures are faults, as a part of a run. -/
def Halt.lift {α : Type} (x : Except Fault α) : Except Halt α := x.mapError Halt.fault

/-- What a script asked for, if it could be read. -/
def Halt.demand {α : Type} : Option α → Except Halt α
  | some a => .ok a
  | none => .error (.refused .malformed)

end MarkedChain
