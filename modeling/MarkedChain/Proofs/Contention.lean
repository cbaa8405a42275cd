import MarkedChain.Contention

/-!
# How long a participant spins

The attempts are counted up to `Contention.ceiling` only, which is beyond the last count at which a
participant spins. So how it waits depends on how often it has waited since the last reset, as if
the count never stopped (`Contention.history_eq`). A participant that is not reset spins a few times
and keeps yielding from then on (`Contention.keeps_yielding`).
-/

namespace MarkedChain.Contention

/-- How often a participant has waited since the last reset, if it had waited `n` times before the
requests. -/
def waits (n : Nat) : List Request → Nat
  | [] => n
  | .wait :: rs => waits (n + 1) rs
  | .reset :: rs => waits 0 rs

/-- How a participant waits that has waited `n` times since the last reset. -/
def patience (n : Nat) : Wait := if n ≤ spinLimit then .spin else .yieldSlice

theorem wait_eq (n : Nat) :
    (Contention.mk (min n ceiling)).wait = (patience n, ⟨min (n + 1) ceiling⟩) := by
  have hlimit : min n ceiling ≤ spinLimit ↔ n ≤ spinLimit := by
    simp only [ceiling, spinLimit]
    omega
  have hnext : min (min n ceiling + 1) ceiling = min (n + 1) ceiling := by omega
  simp only [wait, patience, hlimit, hnext]

/-- The count stops at the ceiling and still tells how a participant waits. -/
theorem history_eq (n : Nat) (rs : List Request) (m : Nat) :
    ((Contention.mk (min n ceiling)).history rs)[m]? = (rs[m]?).map fun r =>
      (if r = .wait then some (patience (waits n (rs.take m))) else none,
        min (waits n (rs.take (m + 1))) ceiling) := by
  induction rs generalizing n m with
  | nil => rfl
  | cons r rs ih =>
    cases m with
    | zero =>
      cases r with
      | wait => simp [history, perform, wait_eq, waits]
      | reset => simp [history, perform, waits]
    | succ m =>
      cases r with
      | wait => simpa [history, perform, wait_eq, waits] using ih (n + 1) m
      | reset => simpa [history, perform, waits] using ih 0 m

theorem waits_append (n : Nat) (rs rs' : List Request) :
    waits n (rs ++ rs') = waits (waits n rs) rs' := by
  induction rs generalizing n with
  | nil => rfl
  | cons r rs ih => cases r <;> exact ih _

theorem waits_take_succ (n : Nat) {rs : List Request} {m : Nat} (h : rs[m]? = some .wait) :
    waits n (rs.take (m + 1)) = waits n (rs.take m) + 1 := by
  rw [List.take_add_one, h, waits_append]
  rfl

/-- A participant that has given up its time slice does so again, as often as it waits before it is
reset. -/
theorem keeps_yielding {n m : Nat} {rs : List Request}
    (h : (((Contention.mk (min n ceiling)).history rs)[m]?).map Prod.fst =
      some (some .yieldSlice)) (hnext : rs[m + 1]? = some .wait) :
    (((Contention.mk (min n ceiling)).history rs)[m + 1]?).map Prod.fst =
      some (some .yieldSlice) := by
  rw [history_eq, Option.map_map] at h ⊢
  obtain ⟨r, hr, hwait⟩ := Option.map_eq_some_iff.1 h
  cases r with
  | reset => cases hwait
  | wait =>
    have hlong : patience (waits n (rs.take m)) = .yieldSlice := Option.some.inj hwait
    have hlonger : patience (waits n (rs.take m) + 1) = .yieldSlice := by
      simp only [patience, ite_eq_right_iff, reduceCtorEq, imp_false, Nat.not_le] at hlong ⊢
      exact Nat.lt_succ_of_lt hlong
    rw [hnext, waits_take_succ n hr]
    exact congrArg (some <| some ·) hlonger

end MarkedChain.Contention
