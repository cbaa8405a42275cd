import MarkedChain.Halt
import MarkedChain.Operation.Step

/-!
# Sets, handles and operations together

A `World` holds several sets, the handles registered with them, and the operations in progress.
An operation that pauses lets others run to their end before it goes on, so operations in progress
form a stack with the running one on top. `World.step` carries out one `Action`: everything but
`Action.proceed`, which moves the running operation on by one step, needs that operation to pause
or the stack to be empty.

A handle belongs to the set it was registered with. It is busy while an operation on it is in
progress, and also afterwards if the operation holds on to its protection, until it is resumed.
-/

namespace MarkedChain

/-! ## Handles, activations, actions -/

/-- What a handle is doing. -/
inductive Handle.Status where
  | idle
  /-- An operation is in progress. -/
  | running
  /-- The last operation has kept its protection. -/
  | holding
  /-- The handle is gone. -/
  | released
  deriving DecidableEq, Repr

/-- A registration with a set. -/
structure Handle where
  set : Nat
  record : Nat
  retries : Nat := 0
  status : Handle.Status := .idle
  deriving DecidableEq, Repr

/-- An operation in progress on a handle. -/
structure Activation (κ : Type) where
  handle : Nat
  lane : Lane
  frame : Frame κ
  deriving DecidableEq, Repr

/-- All sets and handles ever made, and the operations in progress, the running one first. -/
structure World (κ ν : Type) where
  sets : Array (SharedSet κ ν)
  handles : Array Handle := #[]
  running : List (Activation κ) := []

/-- What can be done next. -/
inductive Action (κ ν : Type) where
  /-- Registers a handle with a set. -/
  | register (set : Nat)
  /-- Gives a handle back. -/
  | release (handle : Nat)
  /-- Starts an operation. The system may offer a released cell for its node. -/
  | invoke (handle set : Nat) (lane : Lane) (call : Call κ ν) (offer : Option Address)
  /-- Moves the running operation on. -/
  | proceed
  /-- Ends the protection that an operation has kept. -/
  | resume (handle : Nat)
  /-- Tries to move the global epoch of a set on. -/
  | advance (set : Nat)
  /-- Collects the retired nodes of a set by their epochs. -/
  | collect (set : Nat) (lane : Lane)
  /-- Scans the retired nodes of a set for those that no slot publishes. -/
  | scan (set : Nat) (lane : Lane)
  deriving DecidableEq, Repr

/-- What an action answers. -/
inductive Answer (κ ν : Type) where
  | done
  | registered (handle : Nat)
  | misuse (reason : Misuse)
  | reply (reply : Reply κ ν)
  | advanced (moved : Bool)
  | freed (nodes : Nat)
  deriving DecidableEq, Repr

/-- The world after an action, the values dropped, and the answer, which is missing while an
operation goes on. -/
structure Outcome (κ ν : Type) where
  world : World κ ν
  drops : List ν := []
  answer : Option (Answer κ ν) := none

namespace World

variable {κ ν : Type}

/-! ## Looking things up -/

/-- Empty sets of one kind. -/
def ofTunings (kind : Scheme.Kind) (ts : List Tuning) : World κ ν where
  sets := (ts.map (SharedSet.ofTuning kind)).toArray

/-- Whether other operations may run now. -/
def pauses (w : World κ ν) : Bool :=
  match w.running with
  | [] => true
  | a :: _ => a.frame.pauses

/-- Refuses unless other operations may run now. -/
def turn (w : World κ ν) : Except Halt Unit :=
  if w.pauses then .ok () else .error (.refused .outOfTurn)

/-- A set by its number. -/
def set (w : World κ ν) (i : Nat) : Except Halt (SharedSet κ ν) :=
  match w.sets[i]? with
  | some s => .ok s
  | none => .error (.refused .noSuchSet)

/-- A handle that has not been released. -/
def handle (w : World κ ν) (h : Nat) : Except Halt Handle :=
  match w.handles[h]? with
  | some x => if x.status = .released then .error (.refused .noSuchHandle) else .ok x
  | none => .error (.refused .noSuchHandle)

/-- A handle that is free for an operation. -/
def idleHandle (w : World κ ν) (h : Nat) : Except Halt Handle := do
  let x ← w.handle h
  if x.status = .idle then return x else .error (.refused .handleBusy)

/-- Replaces a set. -/
def setSet (w : World κ ν) (i : Nat) (s : SharedSet κ ν) : World κ ν :=
  { w with sets := w.sets.setIfInBounds i s }

/-- Replaces a handle. -/
def setHandle (w : World κ ν) (h : Nat) (x : Handle) : World κ ν :=
  { w with handles := w.handles.setIfInBounds h x }

/-! ## The actions -/

/-- Registers a handle with a set. -/
def register (w : World κ ν) (i : Nat) : Except Halt (Outcome κ ν) := do
  let s ← w.set i
  match s.scheme.register with
  | .error reason => return { world := w, answer := some (.misuse reason) }
  | .ok (record, scheme) =>
    let w := w.setSet i { s with scheme }
    return {
      world := { w with handles := w.handles.push { set := i, record } }
      answer := some (.registered w.handles.size) }

/-- Gives a handle back. -/
def release (w : World κ ν) (h : Nat) : Except Halt (Outcome κ ν) := do
  let x ← w.idleHandle h
  let s ← w.set x.set
  let w := w.setSet x.set { s with scheme := s.scheme.release x.record }
  return { world := w.setHandle h { x with status := .released }, answer := some .done }

/-- Frees nodes of a set. -/
def freeNodes (w : World κ ν) (i : Nat) (lane : Lane) (s : SharedSet κ ν)
    (nodes : List Address) (answer : Answer κ ν) : Except Halt (Outcome κ ν) := do
  let (drops, s) ← Halt.lift (s.freeAll lane nodes)
  return { world := w.setSet i s, drops, answer := some answer }

/-- The task of a call, for which an insertion makes its node. Reclaiming needs no walk. -/
def task (s : SharedSet κ ν) (lane : Lane) (offer : Option Address) :
    Call κ ν → Except Fault (Option (Task κ) × SharedSet κ ν)
  | .insert key value => do
    let (node, memory) ← s.memory.allocate lane offer key value
    return (some (.insert node key), { s with memory })
  | .remove key => .ok (some (.remove key), s)
  | .contains key => .ok (some (.contains key), s)
  | .get key => .ok (some (.get key), s)
  | .size => .ok (some (.size 0), s)
  | .isEmpty => .ok (some .isEmpty, s)
  | .keys => .ok (some (.keys []), s)
  | .hold key => .ok (some (.hold key), s)
  | .reclaim => .ok (none, s)

/-- Starts an operation of a handle on a set, which has to be the one it belongs to. -/
def invoke (w : World κ ν) (h i : Nat) (lane : Lane) (call : Call κ ν)
    (offer : Option Address) : Except Halt (Outcome κ ν) := do
  let s ← w.set i
  let x ← w.idleHandle h
  if x.set = i then
    let (task, t) ← Halt.lift (task s lane offer call)
    match task with
    | none =>
      let (nodes, scheme) := t.scheme.reclaim
      w.freeNodes i lane { t with scheme } nodes (.reply (.freed nodes.length))
    | some task =>
      let scheme ← Halt.lift (t.scheme.pin x.record)
      let w := (w.setSet i { t with scheme }).setHandle h { x with status := .running }
      return { world := { w with running := ⟨h, lane, ⟨task, .start⟩⟩ :: w.running } }
  else
    return { world := w, drops := call.payload, answer := some (.misuse .foreignHandle) }

/-- What becomes of a handle when its operation ends. -/
def statusAfter : Reply κ ν → Handle.Status
  | .held _ => .holding
  | _ => .idle

/-- Ends an operation on a handle, with its protection or without. -/
def finish (w : World κ ν) (h : Nat) (x : Handle) (s : SharedSet κ ν) (reply : Reply κ ν) :
    Except Fault (World κ ν) :=
  match statusAfter reply with
  | .idle => do
    let scheme ← s.scheme.unpin x.record
    return (w.setSet x.set { s with scheme }).setHandle h { x with status := .idle }
  | status => .ok ((w.setSet x.set s).setHandle h { x with status })

/-- Moves the running operation on by one step. -/
def proceed [Ord κ] (w : World κ ν) : Except Halt (Outcome κ ν) :=
  match w.running with
  | [] => .error (.refused .outOfTurn)
  | a :: rest => do
    let x ← w.handle a.handle
    let s ← w.set x.set
    let stride ← Halt.lift (a.frame.step s ⟨x.record, a.lane⟩)
    let x := { x with retries := x.retries + stride.retries }
    match stride.next with
    | .goes frame =>
      let w := (w.setSet x.set stride.set).setHandle a.handle x
      return { world := { w with running := { a with frame } :: rest }, drops := stride.drops }
    | .ends reply =>
      let w ← Halt.lift ({ w with running := rest }.finish a.handle x stride.set reply)
      return { world := w, drops := stride.drops, answer := some (.reply reply) }

/-- Ends the protection that an operation has kept. -/
def resume (w : World κ ν) (h : Nat) : Except Halt (Outcome κ ν) := do
  let x ← w.handle h
  if x.status = .holding then
    let s ← w.set x.set
    let scheme ← Halt.lift (s.scheme.unpin x.record)
    let w := (w.setSet x.set { s with scheme }).setHandle h { x with status := .idle }
    return { world := w, answer := some .done }
  else
    .error (.refused .noSuchGuard)

/-- Tries to move the global epoch of a set on. -/
def advance (w : World κ ν) (i : Nat) : Except Halt (Outcome κ ν) := do
  let s ← w.set i
  match s.scheme with
  | .epochs e =>
    let (moved, e) := e.advance
    return { world := w.setSet i { s with scheme := .epochs e }, answer := some (.advanced moved) }
  | .hazards _ => .error (.refused .otherScheme)

/-- Collects the retired nodes of a set by their epochs. -/
def collect (w : World κ ν) (i : Nat) (lane : Lane) : Except Halt (Outcome κ ν) := do
  let s ← w.set i
  match s.scheme with
  | .epochs e =>
    let (nodes, e) := e.collect
    w.freeNodes i lane { s with scheme := .epochs e } nodes (.freed nodes.length)
  | .hazards _ => .error (.refused .otherScheme)

/-- Scans the retired nodes of a set for those that no slot publishes. -/
def scan (w : World κ ν) (i : Nat) (lane : Lane) : Except Halt (Outcome κ ν) := do
  let s ← w.set i
  match s.scheme with
  | .epochs _ => .error (.refused .otherScheme)
  | .hazards h =>
    let (nodes, h) := h.scan
    w.freeNodes i lane { s with scheme := .hazards h } nodes (.freed nodes.length)

/-! ## Steps and the end -/

/-- Carries out one action. -/
def step [Ord κ] (w : World κ ν) (a : Action κ ν) : Except Halt (Outcome κ ν) :=
  match a with
  | .proceed => w.proceed
  | .register i => do w.turn; w.register i
  | .release h => do w.turn; w.release h
  | .invoke h i lane call offer => do w.turn; w.invoke h i lane call offer
  | .resume h => do w.turn; w.resume h
  | .advance i => do w.turn; w.advance i
  | .collect i lane => do w.turn; w.collect i lane
  | .scan i lane => do w.turn; w.scan i lane

/-- Ends what protection a handle still keeps. -/
def dropGuard (w : World κ ν) (h : Nat) : Except Halt (World κ ν) :=
  match w.handles[h]? with
  | some x => if x.status = .holding then do return (← w.resume h).world else .ok w
  | none => .ok w

/-- Gives a handle back if it is still there. -/
def dropHandle (w : World κ ν) (h : Nat) : Except Halt (World κ ν) :=
  match w.handles[h]? with
  | some x => if x.status = .idle then do return (← w.release h).world else .ok w
  | none => .ok w

/-- Ends everything: all protection, then all handles, then the sets in order. Lists for each set
the values dropped with it. -/
def close (w : World κ ν) (lane : Lane) : Except Halt (List (List ν)) := do
  let handles := List.range w.handles.size
  let w ← handles.foldlM dropGuard w
  let w ← handles.foldlM dropHandle w
  w.sets.toList.mapM fun s => do return (← Halt.lift (s.teardown lane)).1

end World

end MarkedChain
