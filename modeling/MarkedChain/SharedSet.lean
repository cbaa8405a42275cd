import MarkedChain.Memory
import MarkedChain.Register
import MarkedChain.Scheme

/-!
# A sorted set shared by its participants

The nodes of a set form a chain behind a head link, in ascending order of their keys. A node whose
own link is marked has been removed and is on its way out of the chain. `SharedSet.linked` lists
the nodes of the chain, `SharedSet.contents` the keys and values of those that are not marked.

Operations change a set through single reads and writes of its links: `SharedSet.link` and
`SharedSet.exchange` work on the link at a `Place`, the head or a node. A node that was unlinked is
retired (`SharedSet.retire`), which may free nodes that were retired before.
-/

namespace MarkedChain

/-- Where a link is: at the head of the chain or in a node. -/
inductive Place where
  | head
  | node (a : Address)
  deriving DecidableEq, Repr

/-- A chain of nodes, the memory they are in, and their reclamation. -/
structure SharedSet (κ ν : Type) where
  head : Link Address := .null
  memory : Memory κ ν
  scheme : Scheme Address

namespace SharedSet

variable {κ ν : Type}

/-- An empty set. -/
def ofTuning (kind : Scheme.Kind) (t : Tuning) : SharedSet κ ν where
  memory := { capacity := t.poolCapacity }
  scheme := Scheme.ofTuning t kind

/-- The link at a place. -/
def link (s : SharedSet κ ν) : Place → Except Fault (Link Address)
  | .head => .ok s.head
  | .node a => do return (← s.memory.read a).next

/-- Writes the link at a place. -/
def setLink (s : SharedSet κ ν) (l : Link Address) : Place → Except Fault (SharedSet κ ν)
  | .head => .ok { s with head := l }
  | .node a => do return { s with memory := ← s.memory.setNext a l }

/-- Writes the link at a place if it is the expected one. -/
def exchange (s : SharedSet κ ν) (place : Place) (expected new : Link Address) :
    Except Fault (Exchange (Link Address) × SharedSet κ ν) := do
  let seen ← s.link place
  match (Register.mk seen).compareExchange expected new with
  | (.written previous, r) => return (.written previous, ← s.setLink r.contents place)
  | (.refused seen, _) => return (.refused seen, s)

/-- Drops nodes in order and hands out their values. -/
def freeAll (s : SharedSet κ ν) (lane : Lane) (nodes : List Address) :
    Except Fault (List ν × SharedSet κ ν) := do
  let (values, memory) ← s.memory.freeAll lane nodes
  return (values, { s with memory })

/-- Retires a node that was unlinked and hands out the values that were dropped on the way. -/
def retire (s : SharedSet κ ν) (record : Nat) (lane : Lane) (node : Address) :
    Except Fault (List ν × SharedSet κ ν) := do
  let (nodes, scheme) ← s.scheme.retire record node
  { s with scheme }.freeAll lane nodes

/-- The number of retired nodes that wait to be freed. -/
def pending (s : SharedSet κ ν) : Nat := s.scheme.limbo.pending

/-- The addresses of a chain of at most so many live nodes. -/
def chain (m : Memory κ ν) : Nat → Option Address → List Address
  | _, none => []
  | 0, some _ => []
  | n + 1, some a =>
    match m.node? a with
    | none => []
    | some node => a :: chain m n node.next.target

/-- The nodes of the chain, marked or not, from the head. -/
def linked (s : SharedSet κ ν) : List Address := chain s.memory s.memory.cells.size s.head.target

/-- The keys and values of the nodes that are not marked, in chain order. -/
def contents (s : SharedSet κ ν) : List (κ × ν) :=
  s.linked.filterMap fun a =>
    match s.memory.node? a with
    | some node => if node.next.marked then none else some (node.key, node.value)
    | none => none

/-- Drops a set: first the nodes of the chain in order, then the retired ones from the top. -/
def teardown (s : SharedSet κ ν) (lane : Lane) : Except Fault (List ν × SharedSet κ ν) :=
  s.freeAll lane (s.linked ++ s.scheme.limbo.entries.map Retired.node)

end SharedSet

end MarkedChain
