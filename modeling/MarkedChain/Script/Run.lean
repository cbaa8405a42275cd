import MarkedChain.Script

/-!
# Running scripts

A script runs on a `Desk`: a world with the names that the script has given to handles and guards.
`Desk.act` carries out an action of the world, and `Desk.drive` moves the running operation on to
its end, letting the hooks run at its pauses. Every change of the world is a `World.step`.

An operation starts its walk again only if another one came between, and a walk has at most as many
steps as there were ever nodes, a few times over. So the steps that a run takes are bounded by the
size of the script (`Script.fuel`).
-/

namespace MarkedChain

/-- A world with names for handles and guards. A guard stands for the handle that keeps it. -/
structure Desk (κ ν : Type) where
  world : World κ ν
  handles : List (String × Nat) := []
  guards : List (String × Nat) := []
  /-- Handles whose guards have lost their names to others. Nothing can resume them any more, so
  they are busy for good. -/
  stranded : List Nat := []

/-- What is noted while one instruction runs: the pauses so far, and the hooks that ran and the
values dropped, both the last one first. -/
structure Watch (κ ν : Type) where
  hooks : List (Nat × List (Instruction κ ν))
  pauses : Nat := 0
  fired : List (Nat × List (Report κ ν)) := []
  drops : List ν := []

/-- Notes values that were dropped. -/
def Watch.note {κ ν : Type} (w : Watch κ ν) (drops : List ν) : Watch κ ν :=
  { w with drops := drops.reverse ++ w.drops }

namespace Desk

variable {κ ν : Type}

/-! ## Names -/

/-- The handle of a name. -/
def handle (d : Desk κ ν) (name : String) : Except Halt Nat :=
  match d.handles.lookup name with
  | some h => .ok h
  | none => .error (.refused .noSuchHandle)

/-- The handle of a name, if it is free for an operation. -/
def idleHandle (d : Desk κ ν) (name : String) : Except Halt Nat := do
  let h ← d.handle name
  if d.stranded.contains h then
    .error (.refused .handleBusy)
  else
    let _ ← d.world.idleHandle h
    return h

/-- Gives a handle a name that is not taken. -/
def nameHandle (d : Desk κ ν) (name : String) (h : Nat) : Desk κ ν :=
  { d with handles := (name, h) :: d.handles }

/-- Forgets the name of a handle. -/
def forgetHandle (d : Desk κ ν) (name : String) : Desk κ ν :=
  { d with handles := d.handles.filter fun x => x.1 != name }

/-- Forgets the name of a guard. -/
def forgetGuard (d : Desk κ ν) (name : String) : Desk κ ν :=
  { d with guards := d.guards.filter fun x => x.1 != name }

/-- Gives a guard a name. A guard that got the name while the new one was being made loses it: its
protection ends, and its handle is stranded. -/
def nameGuard [Ord κ] (d : Desk κ ν) (name : String) (h : Nat) : Except Halt (Desk κ ν) :=
  match d.guards.lookup name with
  | none => .ok { d with guards := (name, h) :: d.guards }
  | some other => do
    let o ← d.world.step (.resume other)
    let d := d.forgetGuard name
    return { d with
      world := o.world
      guards := (name, h) :: d.guards
      stranded := other :: d.stranded }

/-- Refuses an instruction, first of all for a handle named in it that is not there or not free. -/
def decline {α : Type} (d : Desk κ ν) (name : Option String) (reason : Refusal) :
    Except Halt α := do
  if let some name := name then
    let _ ← d.idleHandle name
  .error (.refused reason)

/-! ## Actions that end at once -/

/-- The result of an outcome, which is there unless an operation goes on. -/
def resultOf (o : Outcome κ ν) : Result κ ν := .answer (o.answer.getD .done)

/-- Carries out an action that ends at once. -/
def act [Ord κ] (d : Desk κ ν) (w : Watch κ ν) (a : Action κ ν) :
    Except Halt (Result κ ν × Watch κ ν × Desk κ ν) := do
  let o ← d.world.step a
  return (resultOf o, w.note o.drops, { d with world := o.world })

/-- Registers a handle under a name. -/
def register [Ord κ] (d : Desk κ ν) (w : Watch κ ν) (set : Nat) (name : String) :
    Except Halt (Result κ ν × Watch κ ν × Desk κ ν) := do
  if (d.handles.lookup name).isSome then
    .error (.refused .nameInUse)
  else
    let (result, w, d) ← d.act w (.register set)
    match result with
    | .answer (.registered h) => return (.answer .done, w, d.nameHandle name h)
    | result => return (result, w, d)

/-- Gives the handle of a name back. -/
def release [Ord κ] (d : Desk κ ν) (w : Watch κ ν) (name : String) :
    Except Halt (Result κ ν × Watch κ ν × Desk κ ν) := do
  let h ← d.idleHandle name
  let (result, w, d) ← d.act w (.release h)
  return (result, w, d.forgetHandle name)

/-- Ends the protection that a guard stands for. -/
def resume [Ord κ] (d : Desk κ ν) (w : Watch κ ν) (name : String) :
    Except Halt (Result κ ν × Watch κ ν × Desk κ ν) := do
  match d.guards.lookup name with
  | none => .error (.refused .noSuchGuard)
  | some h =>
    let (result, w, d) ← d.act w (.resume h)
    return (result, w, d.forgetGuard name)

/-- Does work on the scheme of a set, if it is of the kind that the work is for. -/
def upkeep [Ord κ] (d : Desk κ ν) (w : Watch κ ν) (set : Nat) (lane : Lane) (work : Upkeep)
    (name : Option String) : Except Halt (Result κ ν × Watch κ ν × Desk κ ν) := do
  let s ← d.world.set set
  match work, s.scheme with
  | .advance, .epochs _ => d.act w (.advance set)
  | .collect, .epochs _ => d.act w (.collect set lane)
  | .generation, .epochs e => return (.generation e.generation, w, d)
  | .scan, .hazards _ => d.act w (.scan set lane)
  | .advance, .hazards _ => d.decline name .otherScheme
  | .collect, .hazards _ => d.decline name .otherScheme
  | .generation, .hazards _ => d.decline name .otherScheme
  | .scan, .epochs _ => d.decline name .otherScheme

/-- The retries counted for the handle of a name. -/
def retries (d : Desk κ ν) (name : String) : Except Halt (Result κ ν) := do
  let h ← d.handle name
  let x ← d.world.handle h
  return .retries x.retries

/-! ## Operations with pauses -/

/-- Whether a result says that an operation changed the set. A result that is no reply of an
operation ends a series of operations. -/
def changed? : Result κ ν → Option Bool
  | .answer (.reply .inserted) | .answer (.reply .removed) => some true
  | .answer (.reply _) => some false
  | _ => none

mutual

/-- Moves the running operation on to its end. -/
def drive [Ord κ] (fuel : Nat) (lane : Lane) (d : Desk κ ν) (w : Watch κ ν) :
    Except Halt (Result κ ν × Watch κ ν × Desk κ ν) :=
  match fuel with
  | 0 => .error .outOfFuel
  | fuel + 1 => do
    let (w, d) ← if d.world.pauses then pause fuel lane d w else .ok (w, d)
    let o ← d.world.step .proceed
    let w := w.note o.drops
    let d := { d with world := o.world }
    match o.answer with
    | some answer => return (.answer answer, w, d)
    | none => drive fuel lane d w

/-- Counts a pause and runs the hook that waits for it. -/
def pause [Ord κ] (fuel : Nat) (lane : Lane) (d : Desk κ ν) (w : Watch κ ν) :
    Except Halt (Watch κ ν × Desk κ ν) :=
  match fuel with
  | 0 => .error .outOfFuel
  | fuel + 1 =>
    let n := w.pauses + 1
    match w.hooks.lookup n with
    | none => .ok ({ w with pauses := n }, d)
    | some steps => do
      let (reports, d) ← runAll fuel lane d steps
      return ({ w with pauses := n, fired := (n, reports) :: w.fired }, d)

/-- Starts an operation and moves it on to its end. -/
def perform [Ord κ] (fuel : Nat) (lane : Lane) (d : Desk κ ν) (w : Watch κ ν) (h set : Nat)
    (call : Call κ ν) : Except Halt (Result κ ν × Watch κ ν × Desk κ ν) :=
  match fuel with
  | 0 => .error .outOfFuel
  | fuel + 1 => do
    let o ← d.world.step (.invoke h set lane call none)
    let w := w.note o.drops
    let d := { d with world := o.world }
    match o.answer with
    | some answer => return (.answer answer, w, d)
    | none => drive fuel lane d w

/-- Performs calls in order and counts those that changed the set, up to the first that could not
be read. -/
def series [Ord κ] (fuel : Nat) (lane : Lane) (d : Desk κ ν) (w : Watch κ ν) (h set : Nat)
    (calls : List (Option (Call κ ν))) (changed unchanged : Nat) :
    Except Halt (Result κ ν × Watch κ ν × Desk κ ν) :=
  match fuel, calls with
  | 0, _ => .error .outOfFuel
  | _ + 1, [] => .ok (.tally changed unchanged, w, d)
  | _ + 1, none :: _ => .ok (.refused .malformed, w, d)
  | fuel + 1, some call :: calls => do
    let (result, w, d) ← perform fuel lane d w h set call
    match changed? result with
    | some true => series fuel lane d w h set calls (changed + 1) unchanged
    | some false => series fuel lane d w h set calls changed (unchanged + 1)
    | none => return (result, w, d)

/-- Carries out a command. -/
def carryOut [Ord κ] (fuel : Nat) (lane : Lane) (d : Desk κ ν) (w : Watch κ ν) (set : Nat)
    (command : Command κ ν) : Except Halt (Result κ ν × Watch κ ν × Desk κ ν) :=
  match fuel with
  | 0 => .error .outOfFuel
  | fuel + 1 => do
    let s ← d.world.set set
    match command with
    | .register name => d.register w set name
    | .release name => d.release w name
    | .call name call =>
      let h ← d.idleHandle name
      let call ← Halt.demand call
      perform fuel lane d w h set call
    | .hold name guard key =>
      let h ← d.idleHandle name
      let guard ← Halt.demand guard
      if (d.guards.lookup guard).isSome then
        .error (.refused .nameInUse)
      else
        let key ← Halt.demand key
        let (result, w, d) ← perform fuel lane d w h set (.hold key)
        match result with
        | .answer (.reply (.held _)) => return (result, w, ← d.nameGuard guard h)
        | result => return (result, w, d)
    | .resume name => d.resume w name
    | .series name calls =>
      let h ← d.idleHandle name
      let calls ← Halt.demand calls
      series fuel lane d w h set calls 0 0
    | .retries name => return (← d.retries name, w, d)
    | .stats => return (.stats s.gauge, w, d)
    | .registry => return (.registry s.scheme.active s.scheme.records, w, d)
    | .upkeep work name => d.upkeep w set lane work name
    | .unknown name => d.decline name .malformed
    | .malformed => .error (.refused .malformed)

/-- Runs one instruction. -/
def run [Ord κ] (fuel : Nat) (lane : Lane) (d : Desk κ ν) (i : Instruction κ ν) :
    Except Halt (Report κ ν × Desk κ ν) :=
  match fuel with
  | 0 => .error .outOfFuel
  | fuel + 1 =>
    match i with
    | .unreadable => .ok (.report (.refused .malformed) none [] none, d)
    | .on set command hooks => do
      let start : Watch κ ν := { hooks := hooks.getD [] }
      let (result, w, d) ←
        match carryOut fuel lane d start set command with
        | .ok x => .ok x
        | .error (.refused reason) => .ok (.refused reason, start, d)
        | .error h => .error h
      let trace := hooks.map fun _ => (w.pauses, w.fired.reverse)
      return (.report result (d.world.sets[set]?.map SharedSet.gauge) w.drops.reverse trace, d)

/-- Runs instructions in order. -/
def runAll [Ord κ] (fuel : Nat) (lane : Lane) (d : Desk κ ν) (is : List (Instruction κ ν)) :
    Except Halt (List (Report κ ν) × Desk κ ν) :=
  match fuel, is with
  | 0, _ => .error .outOfFuel
  | _ + 1, [] => .ok ([], d)
  | fuel + 1, i :: is => do
    let (report, d) ← run fuel lane d i
    let (reports, d) ← runAll fuel lane d is
    return (report :: reports, d)

end

/-- Runs instructions in order, each on its own lane. -/
def runLanes [Ord κ] (fuel : Nat) (d : Desk κ ν) :
    List (Option Lane × Instruction κ ν) → Except Halt (List (Report κ ν) × Desk κ ν)
  | [] => .ok ([], d)
  | (lane, i) :: is => do
    let lane ← Halt.demand lane
    let (report, d) ← d.run fuel lane i
    let (reports, d) ← runLanes fuel d is
    return (report :: reports, d)

end Desk

namespace Script

variable {κ ν : Type}

/-- The reports of a script, and for each set the values dropped with it in the end. -/
structure Record (κ ν : Type) where
  reports : List (Report κ ν)
  teardown : List (List ν)

/-- As many steps as an instruction of a script can take. -/
def fuel (s : Script κ ν) : Nat := (s.weight + 4) * (s.weight + 4) * (4 * s.weight + 16)

/-- Runs a script and ends everything. -/
def run [Ord κ] (s : Script κ ν) : Except Halt (Record κ ν) := do
  let start : Desk κ ν := { world := World.ofTunings s.kind s.tunings }
  let (reports, d) ← start.runLanes s.fuel s.steps
  let teardown ← d.world.close 0
  return { reports, teardown }

end Script

end MarkedChain
