import MarkedChain.Fault
import MarkedChain.Link

/-!
# Memory for nodes

Memory is a row of cells. A cell holds a live node, or it is free and belongs to the pool of a lane,
or it was released to the system. `Memory.allocate` takes a cell from the pool of its lane, the last
one freed there first, and turns to the system if the pool is empty. `Memory.free` drops the node
and parks its cell in the pool of its lane, or releases the cell if the pool is full.

The system chooses which cell it hands out: `Memory.allocate` takes an offer, which counts only if
that cell is released, and makes a new cell otherwise.
-/

namespace MarkedChain

/-- A node of a chain. Only its link ever changes. -/
structure Node (κ ν : Type) where
  key : κ
  value : ν
  next : Link Address
  deriving Repr

/-- What a cell of memory holds. -/
inductive Cell (κ ν : Type) where
  | live (node : Node κ ν)
  | pooled
  | released
  deriving Repr

/-- The node in a cell, if it is live. -/
def Cell.node? {κ ν : Type} : Cell κ ν → Option (Node κ ν)
  | .live node => some node
  | .pooled => none
  | .released => none

/-- All cells, the pools of free ones, and counts of what happened. -/
structure Memory (κ ν : Type) where
  cells : Array (Cell κ ν) := #[]
  /-- The free cells that each lane keeps, the last one freed first. -/
  pools : Lane → List Address := fun _ => []
  /-- How many free cells a lane keeps. -/
  capacity : UInt64
  /-- Nodes made, on new or reused cells. -/
  allocated : Nat := 0
  /-- Nodes dropped. -/
  freed : Nat := 0
  /-- Nodes made on cells from a pool. -/
  recycled : Nat := 0

namespace Memory

variable {κ ν : Type}

/-! ## Reading and writing -/

/-- The live node at an address. -/
def node? (m : Memory κ ν) (a : Address) : Option (Node κ ν) := m.cells[a]?.bind Cell.node?

/-- The live node at an address, whose absence is a fault. -/
def read (m : Memory κ ν) (a : Address) : Except Fault (Node κ ν) :=
  match m.node? a with
  | some node => .ok node
  | none => .error (.notAllocated a)

/-- Changes what a cell holds. -/
def put (m : Memory κ ν) (a : Address) (c : Cell κ ν) : Memory κ ν :=
  { m with cells := m.cells.setIfInBounds a c }

/-- Changes the link of a live node. -/
def setNext (m : Memory κ ν) (a : Address) (next : Link Address) :
    Except Fault (Memory κ ν) := do
  let node ← m.read a
  return m.put a (.live { node with next })

/-- The pools with another one for a lane. -/
def updatePool (pools : Lane → List Address) (lane : Lane) (pool : List Address) :
    Lane → List Address :=
  fun l => if l = lane then pool else pools l

/-- Replaces the pool of a lane. -/
def setPool (m : Memory κ ν) (lane : Lane) (pool : List Address) : Memory κ ν :=
  { m with pools := updatePool m.pools lane pool }

/-! ## Making and dropping nodes -/

/-- The bytes that one entry of a pool takes. -/
def entrySize : Nat := 8

/-- Whether a pool of this capacity can be reserved: its size in bytes has to be a signed word. -/
def poolFits (m : Memory κ ν) : Bool :=
  decide (entrySize * m.capacity.toNat < UInt64.size / 2)

/-- Whether a cell belongs to the system. -/
def isReleased (m : Memory κ ν) (a : Address) : Bool :=
  match m.cells[a]? with
  | some .released => true
  | _ => false

/-- Puts a node on a cell from the system: the offered one if it is released, else a new one. -/
def place (m : Memory κ ν) (offer : Option Address) (node : Node κ ν) : Address × Memory κ ν :=
  match offer.filter m.isReleased with
  | some a => (a, m.put a (.live node))
  | none => (m.cells.size, { m with cells := m.cells.push (.live node) })

/-- Makes an unlinked node. -/
def allocate (m : Memory κ ν) (lane : Lane) (offer : Option Address) (key : κ) (value : ν) :
    Except Fault (Address × Memory κ ν) :=
  let node : Node κ ν := ⟨key, value, .null⟩
  if m.poolFits then
    match m.pools lane with
    | a :: rest =>
      match m.cells[a]? with
      | some .pooled =>
        let taken := (m.setPool lane rest).put a (.live node)
        .ok (a, { taken with allocated := m.allocated + 1, recycled := m.recycled + 1 })
      | _ => .error (.poolDisturbed a)
    | [] =>
      let placed := m.place offer node
      .ok (placed.1, { placed.2 with allocated := m.allocated + 1 })
  else .error .poolTooLarge

/-- Drops a node and hands out its value. -/
def free (m : Memory κ ν) (lane : Lane) (a : Address) : Except Fault (ν × Memory κ ν) := do
  let node ← m.read a
  let dropped := { m with freed := m.freed + 1 }
  if m.poolFits then
    if (m.pools lane).length < m.capacity.toNat then
      return (node.value, (dropped.put a .pooled).setPool lane (a :: m.pools lane))
    else
      return (node.value, dropped.put a .released)
  else .error .poolTooLarge

/-- Drops nodes in order and hands out their values. -/
def freeAll (m : Memory κ ν) (lane : Lane) : List Address → Except Fault (List ν × Memory κ ν)
  | [] => .ok ([], m)
  | a :: as => do
    let (value, m) ← m.free lane a
    let (values, m) ← m.freeAll lane as
    return (value :: values, m)

end Memory

end MarkedChain
