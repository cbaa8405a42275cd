import MarkedChain.Hazards.Snapshot
import MarkedChain.Link.Packed

/-!
# Publishing by hand

A session drives one loose record of hazard slots over a row of links, beside a set of slots that
has no participants. Protecting a link publishes the address it holds. Nothing comes between
reading a link and publishing it, so the address is still there afterwards.
-/

namespace MarkedChain.Hazards

/-- A loose record, a row of links, and hazard slots without participants. -/
structure Session where
  hazards : Hazards UInt64
  shield : Shield UInt64
  links : Array PackedLink

/-- A request to a session. -/
inductive Request where
  | pin
  | unpin
  | protect (slot : Slot) (link : Nat)
  | transfer (source target : Slot)
  | store (link : Nat) (address : UInt64) (marked : Bool)
  | release
  | scan
  | isProtected (address : UInt64)
  /-- A request that makes no sense. -/
  | malformed
  deriving DecidableEq, Repr

/-- The result of a request. -/
inductive Response where
  | done
  | link (value : PackedLink)
  | freed (n : Nat)
  | covered (flag : Bool)
  deriving DecidableEq, Repr

/-- A response with what the slots publish after it. -/
structure Snapshot where
  response : Response
  pred : Option UInt64
  curr : Option UInt64
  succ : Option UInt64
  deriving DecidableEq, Repr

namespace Session

/-- A session over links with the given addresses and marks, as far as they could be read. -/
def start (links : List (Option (UInt64 × Bool))) : Except Halt Session := do
  let packed ← links.mapM PackedLink.packPair
  return { hazards := Hazards.ofTuning {}, shield := {}, links := packed.toArray }

/-- Serves one request. -/
def perform (s : Session) : Request → Except Halt (Response × Session)
  | .pin =>
    match s.shield.enter with
    | .error _ => .error (.refused .malformed)
    | .ok shield => .ok (.done, { s with shield })
  | .unpin => .ok (.done, if s.shield.guarded then { s with shield := s.shield.exit } else s)
  | .protect slot i =>
    match s.links[i]? with
    | some p =>
      if s.shield.guarded then
        .ok (.link p, { s with shield := s.shield.publish slot p.link.target })
      else .error (.refused .malformed)
    | none => .error (.refused .malformed)
  | .transfer source target =>
    if s.shield.guarded then
      .ok (.done, { s with shield := s.shield.transfer source target })
    else .error (.refused .malformed)
  | .store i address marked =>
    if i < s.links.size then do
      let p ← Halt.lift (PackedLink.pack address marked)
      return (.done, { s with links := s.links.setIfInBounds i p })
    else
      .error (.refused .malformed)
  | .release => .ok (.done, { s with shield := s.shield.clear })
  | .scan => .ok (.freed s.hazards.scan.1.length, { s with hazards := s.hazards.scan.2 })
  | .isProtected address => .ok (.covered (s.hazards.isProtected address), s)
  | .malformed => .error (.refused .malformed)

/-- What the slots publish. -/
def snapshot (s : Session) (response : Response) : Snapshot :=
  ⟨response, s.shield.pred, s.shield.curr, s.shield.succ⟩

/-- Serves requests in order. -/
def run (s : Session) : List Request → Except Halt (List Snapshot)
  | [] => .ok []
  | q :: qs => do
    let (response, t) ← s.perform q
    return t.snapshot response :: (← t.run qs)

end Session

end MarkedChain.Hazards
