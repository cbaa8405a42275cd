import MarkedChain.Fault
import MarkedChain.Link
import MarkedChain.SharedSet

/-!
# Operations in progress

A participant asks for an operation with a `Call` and gets a `Reply`. In between, a `Frame` says
what the operation is up to: its `Task`, with all it has gathered so far, and the `Point` at which
it stands in its walk along the chain.

A walk starts at the head, inspects the links of a node, and then meets the node: it passes on, or
it stops there, and most tasks then judge whether the key is the one they look for. To meet a node
and to judge it the keys are compared (to list the keys, copied), and just before that other
participants may run. `Frame.pauses` says whether the next step of a frame starts with such a
pause. All else happens without a break.
-/

namespace MarkedChain

/-- What can be asked of a set. -/
inductive Call (κ ν : Type) where
  | insert (key : κ) (value : ν)
  | remove (key : κ)
  | contains (key : κ)
  | get (key : κ)
  | size
  | isEmpty
  | keys
  /-- Looks for a key and keeps the protection that the search has built up. -/
  | hold (key : κ)
  /-- Frees what can be freed. -/
  | reclaim
  deriving DecidableEq, Repr

/-- The values that are dropped if a call is refused. -/
def Call.payload {κ ν : Type} : Call κ ν → List ν
  | .insert _ value => [value]
  | _ => []

/-- What a set replies to a call. -/
inductive Reply (κ ν : Type) where
  | inserted
  | alreadyPresent
  | removed
  | notFound
  | contained (found : Bool)
  | got (value : Option ν)
  | counted (size : Nat)
  | wasEmpty (empty : Bool)
  | listed (keys : List κ)
  | held (found : Bool)
  | freed (nodes : Nat)
  deriving DecidableEq, Repr

/-- What an operation is doing. -/
inductive Task (κ : Type) where
  /-- Links in a node that no one else knows, if its key is not there yet. -/
  | insert (node : Address) (key : κ)
  | remove (key : κ)
  /-- Clears away the node of a key that this operation has marked. -/
  | unlink (key : κ)
  | contains (key : κ)
  | get (key : κ)
  /-- Counts nodes, with the number met so far. -/
  | size (met : Nat)
  | isEmpty
  /-- Lists keys, with those met so far, the last one first. -/
  | keys (met : List κ)
  | hold (key : κ)
  deriving DecidableEq, Repr

/-- Where an operation stands in its walk. -/
inductive Point where
  /-- Before the head link is read. -/
  | start
  /-- Before a node is inspected. The link to it was read at `pred`. -/
  | inspect (pred : Place) (curr : Option Address)
  /-- Before a node is met. Its link was read as `next`. -/
  | encounter (pred : Place) (curr : Address) (next : Link Address)
  /-- Before the key of the node at which the walk stopped is compared for equality. -/
  | judge (pred : Place) (curr : Address) (next : Link Address)
  deriving DecidableEq, Repr

/-- An operation in progress. -/
structure Frame (κ : Type) where
  task : Task κ
  point : Point
  deriving DecidableEq, Repr

namespace Task

variable {κ ν : Type}

/-- Whether the task only reads. Under epochs such a task leaves marked nodes where they are. -/
def reads : Task κ → Bool
  | .contains _ | .get _ | .size _ | .isEmpty | .keys _ => true
  | .insert .. | .remove _ | .unlink _ | .hold _ => false

/-- The task with nothing gathered, for a new walk from the head. -/
def restart : Task κ → Task κ
  | .size _ => .size 0
  | .keys _ => .keys []
  | t => t

/-- Whether a task compares or copies the key of a node that it meets. -/
def looksAt : Task κ → (marked : Bool) → Bool
  | .size _, _ => false
  | .isEmpty, _ => false
  | .keys _, marked => !marked
  | _, _ => true

/-- The task after it has met a node and passed on, or `none` if it stops there. A search stops at
the first key that is not smaller than its own. -/
def pass? [Ord κ] (t : Task κ) (key : κ) (marked : Bool) : Option (Task κ) :=
  match t with
  | .insert _ k | .remove k | .unlink k | .contains k | .get k | .hold k =>
    if (compare key k).isLT then some t else none
  | .size met => some (.size (if marked then met else met + 1))
  | .isEmpty => if marked then some .isEmpty else none
  | .keys met => some (.keys (if marked then met else key :: met))

end Task

/-- Whether other participants may run before the next step of a frame. -/
def Frame.pauses {κ : Type} (f : Frame κ) : Bool :=
  match f.point with
  | .start => false
  | .inspect .. => false
  | .encounter _ _ next => f.task.looksAt next.marked
  | .judge .. => true

end MarkedChain
