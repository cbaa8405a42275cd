import MarkedChain.Epochs.Packed
import MarkedChain.Halt

/-!
# Pinning by hand

A session drives the epochs of one set through requests, with no chain behind them. Its records are
packed. They are on the roster, where they can hold the global epoch back, or loose. A guard pins
the record it was taken on and goes by a name until it is dropped, in any order.
-/

namespace MarkedChain.Epochs

/-- A record of a session. -/
inductive Holder where
  | seated (i : Nat)
  | loose (i : Nat)
  deriving DecidableEq, Repr

/-- Epochs, loose records, and the guards that are held, each with its name and its record. -/
structure Session where
  epochs : PackedEpochs Address
  loose : List PackedPin
  guards : List (String × Holder)

/-- A request to a session. -/
inductive Request where
  | pin (holder : Holder) (name : String)
  | unpin (name : String)
  | advance
  | collect
  | reclaim
  /-- A request that makes no sense. -/
  | malformed
  deriving DecidableEq, Repr

/-- The result of a request. -/
inductive Response where
  | done
  | advanced (moved : Bool)
  | freed (n : Nat)
  deriving DecidableEq, Repr

/-- A response with what the session shows after it. -/
structure Snapshot where
  response : Response
  epoch : Nat
  generation : Nat
  pending : Nat
  loose : List (Bool × Nat)
  deriving DecidableEq, Repr

namespace Session

/-- A session over new epochs, with records on the roster and loose ones. -/
def start (t : Tuning) (seated loose : Nat) : Session where
  epochs :=
    let fresh : PackedEpochs Address := PackedEpochs.ofTuning t
    { fresh with roster := { fresh.roster with
        seats := Array.replicate seated ⟨{}, true⟩
        active := seated } }
  loose := List.replicate loose {}
  guards := []

/-- The record of a holder. -/
def pin? (s : Session) : Holder → Option PackedPin
  | .seated i => s.epochs.roster.record? i
  | .loose i => s.loose[i]?

/-- Replaces the record of a holder. -/
def setPin (s : Session) (p : PackedPin) : Holder → Session
  | .seated i =>
    { s with epochs := { s.epochs with roster := s.epochs.roster.update i fun _ => p } }
  | .loose i => { s with loose := s.loose.set i p }

/-- Serves one request. -/
def perform (s : Session) : Request → Except Halt (Response × Session)
  | .pin holder name =>
    match s.guards.lookup name, s.pin? holder with
    | some _, _ => .error (.refused .nameInUse)
    | none, none => .error (.refused .malformed)
    | none, some p =>
      .ok (.done, { s.setPin (p.enter s.epochs.epoch) holder with
        guards := (name, holder) :: s.guards })
  | .unpin name =>
    match s.guards.lookup name with
    | none => .error (.refused .noSuchGuard)
    | some holder =>
      match s.pin? holder with
      | none => .error (.refused .malformed)
      | some p => do
        let q ← Halt.lift p.exit
        return (.done, { s.setPin q holder with
          guards := s.guards.filter fun g => g.1 != name })
  | .advance =>
    .ok (.advanced s.epochs.advance.1, { s with epochs := s.epochs.advance.2 })
  | .collect =>
    .ok (.freed s.epochs.collect.1.length, { s with epochs := s.epochs.collect.2 })
  | .reclaim =>
    .ok (.freed s.epochs.reclaim.1.length, { s with epochs := s.epochs.reclaim.2 })
  | .malformed => .error (.refused .malformed)

/-- What a session shows. -/
def snapshot (s : Session) (response : Response) : Snapshot where
  response := response
  epoch := s.epochs.epoch.toNat
  generation := s.epochs.generation
  pending := s.epochs.limbo.pending
  loose := s.loose.map fun p => (p.isPinned, p.epoch.toNat)

/-- Serves requests in order. -/
def run (s : Session) : List Request → Except Halt (List Snapshot)
  | [] => .ok []
  | q :: qs => do
    let (response, t) ← s.perform q
    return t.snapshot response :: (← t.run qs)

end Session

end MarkedChain.Epochs
