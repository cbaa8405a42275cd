import MarkedChain.Misuse

/-!
# The roster of participants

Each participant of a set holds a record that the others read before they free anything. A roster
keeps all records ever made, in the order they were made. `Roster.acquire` hands out the newest
record that nobody holds and makes a fresh one only if there is none, and it refuses when as many
records are held as the limit allows. `Roster.release` gives a record back.
-/

namespace MarkedChain

/-- A record, and whether a participant holds it. -/
structure Seat (ρ : Type) where
  record : ρ
  taken : Bool
  deriving DecidableEq, Repr

/-- All records of a set, the oldest first, with the number of those that are held. -/
structure Roster (ρ : Type) where
  seats : Array (Seat ρ) := #[]
  active : Nat := 0
  limit : Option UInt64 := none
  deriving DecidableEq, Repr

namespace Roster

variable {ρ : Type}

/-- The number of records ever made. -/
def size (r : Roster ρ) : Nat := r.seats.size

/-- The record with a number. -/
def record? (r : Roster ρ) (i : Nat) : Option ρ := r.seats[i]?.map Seat.record

/-- Whether the record with a number exists and nobody holds it. -/
def isFree (r : Roster ρ) (i : Nat) : Bool :=
  match r.seats[i]? with
  | some seat => !seat.taken
  | none => false

/-- The newest free record among those with a number below the given one. -/
def newestFree? (r : Roster ρ) : Nat → Option Nat
  | 0 => none
  | i + 1 => if r.isFree i then some i else r.newestFree? i

/-- The limit, if as many records are held as it allows. -/
def exhausted? (r : Roster ρ) : Option UInt64 :=
  r.limit.filter fun limit => decide (limit.toNat ≤ r.active)

/-- Hands out a record, reused or made from `fresh`. -/
def acquire (r : Roster ρ) (fresh : ρ) : Except Misuse (Nat × Roster ρ) :=
  match r.exhausted? with
  | some limit => .error (.tooManyParticipants limit)
  | none =>
    match r.newestFree? r.size with
    | some i =>
      .ok (i, { r with
        seats := r.seats.modify i fun seat => { seat with taken := true }
        active := r.active + 1 })
    | none =>
      .ok (r.size, { r with seats := r.seats.push ⟨fresh, true⟩, active := r.active + 1 })

/-- Takes a record back. -/
def release (r : Roster ρ) (i : Nat) : Roster ρ :=
  { r with
    seats := r.seats.modify i fun seat => { seat with taken := false }
    active := r.active - 1 }

/-- Changes the record with a number. -/
def update (r : Roster ρ) (i : Nat) (f : ρ → ρ) : Roster ρ :=
  { r with seats := r.seats.modify i fun seat => { seat with record := f seat.record } }

/-- Changes what every record is made of. -/
def map {σ : Type} (r : Roster ρ) (f : ρ → σ) : Roster σ where
  seats := r.seats.map fun seat => ⟨f seat.record, seat.taken⟩
  active := r.active
  limit := r.limit

/-- Whether some record, held or not, has a property. -/
def any (r : Roster ρ) (p : ρ → Bool) : Bool := r.seats.any fun seat => p seat.record

end Roster

end MarkedChain
