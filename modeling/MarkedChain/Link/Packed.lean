import MarkedChain.Halt
import MarkedChain.Link
import MarkedChain.Register

/-!
# Links packed into words

An address of a node is even, so a machine word holds a whole link: the address, with the mark in
the lowest bit (`PackedLink.pack`). A conditional write then compares reference and mark in one
comparison of words. `PackedLink.link` reads a word back as a link, the address zero standing for
no node.
-/

namespace MarkedChain

/-- A link in one word. -/
structure PackedLink where
  word : UInt64
  deriving DecidableEq, Repr

namespace PackedLink

/-- The bit that holds the mark. -/
def markBit : UInt64 := 1

/-- The word of the unmarked link to nothing. -/
def null : PackedLink := ⟨0⟩

/-- Packs an address and a mark. An odd address leaves no room for the mark. -/
def pack (address : UInt64) (marked : Bool) : Except Fault PackedLink :=
  if address &&& markBit = 0 then
    .ok ⟨if marked then address ||| markBit else address⟩
  else .error .misaligned

/-- The address without the mark. -/
def address (p : PackedLink) : UInt64 := p.word &&& ~~~markBit

/-- Whether the mark is set. -/
def marked (p : PackedLink) : Bool := p.word &&& markBit != 0

/-- Whether the address is zero. -/
def isNull (p : PackedLink) : Bool := p.address == 0

/-- The same address under another mark. -/
def setMark (p : PackedLink) (marked : Bool) : Except Fault PackedLink :=
  pack p.address marked

/-- The reference and the mark that a word holds. -/
def link (p : PackedLink) : Link UInt64 :=
  ⟨if p.isNull then none else some p.address, p.marked⟩

/-- A word as lower-case hexadecimal digits. -/
def hex (w : UInt64) : String :=
  "0x" ++ String.ofList (Nat.toDigits 16 w.toNat)

/-- Address and mark as text. -/
def describe (p : PackedLink) : String :=
  s!"MarkedPtr \x7b ptr: {hex p.address}, marked: {p.marked} \x7d"

/-- The link that was packed first and those that each further mark makes of it. -/
def remarked (p : PackedLink) : List Bool → Except Fault (List PackedLink)
  | [] => .ok [p]
  | m :: ms => do
    let q ← p.setMark m
    return p :: (← q.remarked ms)

/-- Packs an address and a mark that a script gives, if they could be read. -/
def packPair (pair : Option (UInt64 × Bool)) : Except Halt PackedLink := do
  let (address, marked) ← Halt.demand pair
  Halt.lift (pack address marked)

/-- Packs the pairs in a request to a register of links, in the order they are given. -/
def packRequest :
    Register.Request (Option (UInt64 × Bool)) → Except Halt (Register.Request PackedLink)
  | .load => .ok .load
  | .store new => do
    let n ← packPair new
    return .store n
  | .compareExchange expected new => do
    let e ← packPair expected
    let n ← packPair new
    return .compareExchange e n

/-- Runs requests on one register of links and pairs each response with the contents after it. The
first request that could not be read or packed ends the session. -/
def session (start : PackedLink)
    (requests : List (Option (Register.Request (Option (UInt64 × Bool))))) :
    Except Halt (List (Register.Response PackedLink × PackedLink)) := do
  let packed ← requests.mapM fun q => do packRequest (← Halt.demand q)
  return (Register.mk start).history packed

end PackedLink

end MarkedChain
