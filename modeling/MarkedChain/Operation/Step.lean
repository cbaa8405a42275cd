import MarkedChain.Operation

/-!
# The steps of an operation

`Frame.step` carries out one step of an operation without a loop and says where it goes from there.
A node leaves the set when its own link is marked (`Step.takeOut`) and leaves the chain when the
link before it is written past it, by the operation that marked it or by a walk that comes upon it
(`Step.help`). A node enters both when the link before its place is written (`Step.linkIn`). Each of
these writes expects the link it read before. If the link has changed, the operation counts a retry
and walks again.

Under hazard slots a walk publishes a node before it relies on it: the current node and the owner
of the link before it while it stands there, and the next node while it inspects the current one.
That the node was still linked after it was published is checked in `Step.inspect`.
-/

namespace MarkedChain

/-! ## What a step is given and what it comes to -/

/-- Who carries out a step: the record it publishes in and the lane it runs on. -/
structure Actor where
  record : Nat
  lane : Lane
  deriving DecidableEq, Repr

/-- Where an operation goes after a step. -/
inductive Next (κ ν : Type) where
  | goes (frame : Frame κ)
  | ends (reply : Reply κ ν)
  deriving DecidableEq, Repr

/-- What a step came to: the set after it, the values dropped, the retries counted. -/
structure Stride (κ ν : Type) where
  set : SharedSet κ ν
  drops : List ν := []
  retries : Nat := 0
  next : Next κ ν

namespace SharedSet

variable {κ ν : Type}

/-- Publishes a node in a slot of the actor. -/
def publish (s : SharedSet κ ν) (who : Actor) (slot : Slot) (node : Option Address) :
    SharedSet κ ν :=
  { s with scheme := s.scheme.publish who.record slot node }

/-- Publishes the node of one slot of the actor in another one too. -/
def transfer (s : SharedSet κ ν) (who : Actor) (source target : Slot) : SharedSet κ ν :=
  { s with scheme := s.scheme.transfer who.record source target }

/-- Whether a task unlinks the marked nodes it comes upon. -/
def helps (s : SharedSet κ ν) (t : Task κ) : Bool := s.scheme.validates || !t.reads

/-- Whether the node published last is known to be linked: under hazard slots the link to it has
to be there still, under epochs nothing is asked. -/
def stillLinked (s : SharedSet κ ν) (pred : Place) (curr : Address) : Except Fault Bool :=
  if s.scheme.validates then do return decide ((← s.link pred) = .unmarked (some curr)) else .ok true

end SharedSet

namespace Step

variable {κ ν : Type}

/-! ## The walk -/

/-- Counts a retry and starts the walk again. -/
def again (s : SharedSet κ ν) (t : Task κ) : Stride κ ν where
  set := s
  retries := 1
  next := .goes ⟨t.restart, .start⟩

/-- Reads the head link. -/
def start (s : SharedSet κ ν) (who : Actor) (t : Task κ) : Stride κ ν where
  set := s.publish who .curr s.head.target
  next := .goes ⟨t, .inspect .head s.head.target⟩

/-- Writes the link at `pred` past a marked node and retires the node. If the link there has
changed, the walk goes on from the new one, or starts again if the owner is marked by now. -/
def help (s : SharedSet κ ν) (who : Actor) (t : Task κ) (pred : Place) (curr : Address)
    (after : Option Address) : Except Fault (Stride κ ν) := do
  match ← s.exchange pred (.unmarked (some curr)) (.unmarked after) with
  | (.written _, s) =>
    let (drops, s) ← s.retire who.record who.lane curr
    return { set := s.transfer who .succ .curr, drops, next := .goes ⟨t, .inspect pred after⟩ }
  | (.refused seen, s) =>
    if seen.marked then
      return again s t
    else
      return {
        set := s.publish who .curr seen.target
        retries := 1
        next := .goes ⟨t, .inspect pred seen.target⟩ }

/-- Reads the link of a node and unlinks the node if it is marked, unless the task leaves that to
others. -/
def inspect (s : SharedSet κ ν) (who : Actor) (t : Task κ) (pred : Place) (curr : Address) :
    Except Fault (Stride κ ν) := do
  let node ← s.memory.read curr
  let s := s.publish who .succ node.next.target
  if s.helps t then
    if ← s.stillLinked pred curr then
      if node.next.marked then
        help s who t pred curr node.next.target
      else
        return { set := s, next := .goes ⟨t, .encounter pred curr node.next⟩ }
    else
      return again s t
  else
    return { set := s, next := .goes ⟨t, .encounter pred curr node.next⟩ }

/-! ## The two writes that change the contents -/

/-- Links in the node of an insertion between `pred` and `curr`. -/
def linkIn (s : SharedSet κ ν) (t : Task κ) (node : Address) (pred : Place)
    (curr : Option Address) : Except Fault (Stride κ ν) := do
  let s ← s.setLink (.unmarked curr) (.node node)
  match ← s.exchange pred (.unmarked curr) (.unmarked (some node)) with
  | (.written _, s) => return { set := s, next := .ends .inserted }
  | (.refused _, s) => return again s t

/-- Marks the link of a node, which removes it, and then unlinks the node or has a further walk
do so. -/
def takeOut (s : SharedSet κ ν) (who : Actor) (key : κ) (pred : Place) (curr : Address) :
    Except Fault (Stride κ ν) := do
  let succ ← s.link (.node curr)
  if succ.marked then
    return again s (.remove key)
  else
    match ← s.exchange (.node curr) succ (succ.setMark true) with
    | (.refused _, s) => return again s (.remove key)
    | (.written _, s) =>
      match ← s.exchange pred (.unmarked (some curr)) succ with
      | (.refused _, s) => return again s (.unlink key)
      | (.written _, s) =>
        let (drops, s) ← s.retire who.record who.lane curr
        return { set := s, drops, next := .ends .removed }

/-! ## Where a walk ends -/

/-- What a task replies when its walk ends without a node to judge. -/
def closing : Task κ → Reply κ ν
  | .insert .. => .inserted
  | .remove _ => .notFound
  | .unlink _ => .removed
  | .contains _ => .contained false
  | .get _ => .got none
  | .size met => .counted met
  | .isEmpty => .wasEmpty true
  | .keys met => .listed met.reverse
  | .hold _ => .held false

/-- Ends a walk at the end of the chain. -/
def atEnd (s : SharedSet κ ν) (t : Task κ) (pred : Place) : Except Fault (Stride κ ν) :=
  match t with
  | .insert node _ => linkIn s t node pred none
  | t => .ok { set := s, next := .ends (closing t) }

/-- Ends a walk at a node. -/
def atNode (s : SharedSet κ ν) (t : Task κ) (pred : Place) (curr : Address)
    (next : Link Address) : Stride κ ν where
  set := s
  next :=
    match t with
    | .insert .. | .remove _ | .contains _ | .get _ | .hold _ => .goes ⟨t, .judge pred curr next⟩
    | .isEmpty => .ends (.wasEmpty false)
    | .unlink _ | .size _ | .keys _ => .ends (closing t)

/-- Meets a node and passes on to the next one or stops. -/
def encounter [Ord κ] (s : SharedSet κ ν) (who : Actor) (t : Task κ) (pred : Place)
    (curr : Address) (next : Link Address) : Except Fault (Stride κ ν) := do
  let node ← s.memory.read curr
  match t.pass? node.key next.marked with
  | some t =>
    return {
      set := (s.transfer who .curr .pred).transfer who .succ .curr
      next := .goes ⟨t, .inspect (.node curr) next.target⟩ }
  | none => return atNode s t pred curr next

/-- Compares the key of the node at which a walk stopped with the one looked for. -/
def judge [Ord κ] (s : SharedSet κ ν) (who : Actor) (t : Task κ) (pred : Place)
    (curr : Address) (next : Link Address) : Except Fault (Stride κ ν) := do
  let node ← s.memory.read curr
  match t with
  | .insert fresh key =>
    if (compare node.key key).isEq then
      let (drops, s) ← s.freeAll who.lane [fresh]
      return { set := s, drops, next := .ends .alreadyPresent }
    else
      linkIn s t fresh pred (some curr)
  | .remove key =>
    if (compare node.key key).isEq then
      takeOut s who key pred curr
    else
      return { set := s, next := .ends .notFound }
  | .contains key =>
    return { set := s, next := .ends (.contained ((compare node.key key).isEq && !next.marked)) }
  | .get key =>
    let found := (compare node.key key).isEq && !next.marked
    return { set := s, next := .ends (.got (if found then some node.value else none)) }
  | .hold key => return { set := s, next := .ends (.held (compare node.key key).isEq) }
  | .unlink _ | .size _ | .isEmpty | .keys _ => return { set := s, next := .ends (closing t) }

end Step

/-- Carries out one step of an operation. -/
def Frame.step {κ ν : Type} [Ord κ] (f : Frame κ) (s : SharedSet κ ν) (who : Actor) :
    Except Fault (Stride κ ν) :=
  match f.point with
  | .start => .ok (Step.start s who f.task)
  | .inspect pred none => Step.atEnd s f.task pred
  | .inspect pred (some curr) => Step.inspect s who f.task pred curr
  | .encounter pred curr next => Step.encounter s who f.task pred curr next
  | .judge pred curr next => Step.judge s who f.task pred curr next

end MarkedChain
