import MarkedChain.Roster

/-!
# Records on a roster

A roster is seen through `Roster.record?`, the record with a number, and `Roster.taken?`, which says
whether somebody holds it. Each operation on a roster changes one record at most (`Roster.Spares`).
`Roster.acquire_eq_ok` says what handing out a record comes to: whoever gets one never shares it
with a holder.
-/

namespace MarkedChain

namespace Roster

variable {ρ : Type}

theorem record?_update (r : Roster ρ) (i j : Nat) (f : ρ → ρ) :
    (r.update i f).record? j = if i = j then (r.record? j).map f else r.record? j := by
  simp only [record?, update, Array.getElem?_modify]
  split
  · simp only [Option.map_map]
    rfl
  · rfl

theorem record?_update_self {r : Roster ρ} {i : Nat} {x : ρ} (h : r.record? i = some x)
    (f : ρ → ρ) : (r.update i f).record? i = some (f x) := by
  rw [record?_update, if_pos rfl, h]
  rfl

theorem any_eq_false {r : Roster ρ} {p : ρ → Bool} (h : r.any p = false) {i : Nat} {x : ρ}
    (hx : r.record? i = some x) : p x = false := by
  obtain ⟨seat, hseat, rfl⟩ := Option.map_eq_some_iff.1 hx
  rw [any, Array.any_eq_false] at h
  obtain ⟨hlt, rfl⟩ := Array.getElem?_eq_some_iff.1 hseat
  simpa using h i hlt

/-- Whether the record with a number is held, if it exists. -/
def taken? (r : Roster ρ) (i : Nat) : Option Bool := r.seats[i]?.map Seat.taken

@[simp] theorem taken?_update (r : Roster ρ) (i j : Nat) (f : ρ → ρ) :
    (r.update i f).taken? j = r.taken? j := by
  simp only [taken?, update, Array.getElem?_modify]
  split
  · simp only [Option.map_map]
    rfl
  · rfl

theorem record?_release (r : Roster ρ) (i j : Nat) : (r.release i).record? j = r.record? j := by
  simp only [record?, release, Array.getElem?_modify]
  split
  · simp only [Option.map_map]
    rfl
  · rfl

theorem taken?_release (r : Roster ρ) (i j : Nat) :
    (r.release i).taken? j = if i = j then (r.taken? j).map fun _ => false else r.taken? j := by
  simp only [taken?, release, Array.getElem?_modify]
  split
  · simp only [Option.map_map]
    rfl
  · rfl

/-! ## One record at a time -/

/-- Two rosters that differ in the record `i` at most. -/
structure Spares (r r' : Roster ρ) (i : Nat) : Prop where
  record? : ∀ j, j ≠ i → r'.record? j = r.record? j
  taken? : ∀ j, j ≠ i → r'.taken? j = r.taken? j

theorem spares_update (r : Roster ρ) (i : Nat) (f : ρ → ρ) : r.Spares (r.update i f) i where
  record? j hj := by rw [record?_update, if_neg (Ne.symm hj)]
  taken? j _ := taken?_update r i j f

theorem spares_release (r : Roster ρ) (i : Nat) : r.Spares (r.release i) i where
  record? j _ := record?_release r i j
  taken? j hj := by rw [taken?_release, if_neg (Ne.symm hj)]

theorem Spares.trans {r r' r'' : Roster ρ} {i : Nat} (h : r.Spares r' i) (h' : r'.Spares r'' i) :
    r.Spares r'' i where
  record? j hj := (h'.record? j hj).trans (h.record? j hj)
  taken? j hj := (h'.taken? j hj).trans (h.taken? j hj)

/-! ## Handing out a record -/

theorem taken?_of_newestFree? {r : Roster ρ} {n i : Nat} (h : r.newestFree? n = some i) :
    r.taken? i = some false := by
  induction n with
  | zero => cases h
  | succ n ih =>
    rw [newestFree?] at h
    split at h
    · next hfree =>
      cases h
      unfold isFree at hfree
      split at hfree
      · next seat hseat => simpa [taken?, hseat] using hfree
      · cases hfree
    · exact ih h

/-- A record that is handed out was not held. It is the fresh one if there was none with its
number. -/
theorem acquire_eq_ok {r r' : Roster ρ} {fresh : ρ} {i : Nat}
    (h : r.acquire fresh = .ok (i, r')) :
    r.Spares r' i ∧ r.taken? i ≠ some true ∧
      r'.record? i = some ((r.record? i).getD fresh) ∧ r'.taken? i = some true := by
  unfold acquire at h
  split at h
  · cases h
  · split at h
    · next i' hfree =>
      cases h
      have htaken := taken?_of_newestFree? hfree
      obtain ⟨seat, hseat, -⟩ := Option.map_eq_some_iff.1 htaken
      refine ⟨⟨?_, ?_⟩, by simp [htaken], ?_, ?_⟩
      · intro j hj
        simp [record?, Array.getElem?_modify, Ne.symm hj]
      · intro j hj
        simp [taken?, Array.getElem?_modify, Ne.symm hj]
      · simp [record?, Array.getElem?_modify, hseat]
      · simp [taken?, Array.getElem?_modify, hseat]
    · cases h
      refine ⟨⟨?_, ?_⟩, by simp [taken?, size], ?_, ?_⟩
      · intro j hj
        have hj : j ≠ r.seats.size := hj
        simp [record?, Array.getElem?_push, hj]
      · intro j hj
        have hj : j ≠ r.seats.size := hj
        simp [taken?, Array.getElem?_push, hj]
      · simp [record?, size]
      · simp [taken?, size]

end Roster

end MarkedChain
