import MarkedChain.Hazards.Snapshot
import MarkedChain.Proofs.Holders

/-!
# What a snapshot of the slots says

Halving finds every value of a sorted array (`bisect_spec`), and a snapshot is sorted and holds
exactly what the records publish. So the search of a snapshot says the same of each node as a look
into the slots of all records (`Hazards.isProtected_eq`), and a scan may go by either
(`Hazards.scan_eq`).
-/

namespace MarkedChain

variable {α : Type} [Ord α]

/-! ## Halving -/

/-- In ascending order, where equal values may stand next to each other. -/
def Ascending (xs : Array α) : Prop :=
  xs.toList.Pairwise fun a b => (compare a b).isLE = true

section

variable [Std.TransOrd α] {xs : Array α} {x y : α} {i j : Nat}

theorem Ascending.isLE (h : Ascending xs) (hij : i ≤ j) (hx : xs[i]? = some x)
    (hy : xs[j]? = some y) : (compare x y).isLE = true := by
  rcases Nat.eq_or_lt_of_le hij with rfl | hlt
  · rw [hx] at hy
    cases hy
    rw [Std.ReflOrd.compare_self]
    rfl
  · obtain ⟨hi, rfl⟩ := Array.getElem?_eq_some_iff.1 hx
    obtain ⟨hj, rfl⟩ := Array.getElem?_eq_some_iff.1 hy
    exact List.pairwise_iff_getElem.1 h i j hi hj hlt

variable [Std.LawfulEqOrd α]

/-- What is in a stretch of a sorted array is at the position to which the stretch is narrowed
down, whichever half is thrown away. -/
theorem bisect_spec (h : Ascending xs) {base size : Nat} (hfits : base + size ≤ xs.size)
    (hle : base ≤ i) (hlt : i < base + size) (hx : xs[i]? = some x) :
    xs[bisect xs x base size]? = some x := by
  fun_induction bisect xs x base size generalizing i with
  | case1 base size hsize y hy hgt ih =>
    have hleft : i < base + size / 2 := by
      refine Nat.lt_of_not_le fun hright => ?_
      have hyx := h.isLE hright hy hx
      rw [Ordering.isGT_iff_eq_gt] at hgt
      rw [hgt] at hyx
      cases hyx
    exact ih (by omega) hle (by omega) hx
  | case2 base size hsize y hy hgt ih =>
    by_cases hright : base + size / 2 ≤ i
    · exact ih (by omega) hright (by omega) hx
    · -- the value is thrown away with the left half, and so it is the one in the middle too
      have hxy := h.isLE (Nat.le_of_not_le hright) hx hy
      have hyx : (compare y x).isLE = true := by
        cases hcmp : compare y x <;> simp_all
      have heq := Std.LawfulEqCmp.eq_of_compare (Std.OrientedCmp.isLE_antisymm hyx hxy)
      exact ih (by omega) (Nat.le_refl _) (by omega) (heq ▸ hy)
  | case3 base size hsize hnone =>
    rw [Array.getElem?_eq_none_iff] at hnone
    omega
  | case4 base size hsize =>
    obtain rfl : i = base := by omega
    exact hx

theorem foundIn_iff (h : Ascending xs) : foundIn xs x = true ↔ x ∈ xs := by
  rw [foundIn]
  constructor
  · intro hfound
    split at hfound
    · next y hy =>
      rw [Ordering.isEq_iff_eq_eq] at hfound
      rw [← Std.LawfulEqCmp.eq_of_compare hfound]
      exact Array.mem_of_getElem? hy
    · cases hfound
  · intro hx
    obtain ⟨i, hx⟩ := Array.mem_iff_getElem?.1 hx
    have hlt := (Array.getElem?_eq_some_iff.1 hx).1
    rw [bisect_spec h (by omega) (Nat.zero_le i) (by omega) hx]
    exact Ordering.isEq_iff_eq_eq.2 Std.ReflOrd.compare_self

end

/-! ## The snapshot -/

omit [Ord α] in
/-- What a record publishes stands in one of its slots. -/
theorem Shield.mem_nodes_iff {q : Shield α} {a : α} :
    a ∈ q.nodes ↔ ∃ slot, q.published slot = some a := by
  constructor
  · intro ha
    simp only [nodes, List.mem_append, Option.mem_toList] at ha
    rcases ha with (ha | ha) | ha
    · exact ⟨.pred, ha⟩
    · exact ⟨.curr, ha⟩
    · exact ⟨.succ, ha⟩
  · rintro ⟨slot, hslot⟩
    cases slot <;> simp_all [nodes, published]

omit [Ord α] in
theorem Shield.mem_readout {q : Shield α} {a : α} : a ∈ q.readout ↔ a ∈ q.nodes := by
  simp only [readout, nodes, List.mem_append]
  tauto

namespace Hazards

variable {h : Hazards α} {a : α}

/-- The snapshot holds what the records publish. -/
theorem mem_snapshot : a ∈ h.snapshot ↔ ∃ r, a ∈ (Scheme.hazards h).published r := by
  simp only [snapshot, List.mem_toArray, List.mem_mergeSort, List.mem_flatMap, List.mem_reverse,
    Array.mem_toList_iff, Shield.mem_readout, Scheme.mem_published, Roster.record?,
    Option.map_eq_some_iff]
  constructor
  · rintro ⟨seat, hseat, ha⟩
    obtain ⟨r, hseat⟩ := Array.mem_iff_getElem?.1 hseat
    exact ⟨r, seat.record, ⟨seat, hseat, rfl⟩, ha⟩
  · rintro ⟨r, -, ⟨seat, hseat, rfl⟩, ha⟩
    exact ⟨seat, Array.mem_of_getElem? hseat, ha⟩

variable [Std.TransOrd α]

theorem ascending_snapshot (h : Hazards α) : Ascending h.snapshot := by
  refine List.pairwise_mergeSort (fun a b c => Std.TransCmp.isLE_trans) (fun a b => ?_) _
  have hswap : compare b a = (compare a b).swap := Std.OrientedCmp.eq_swap
  rw [hswap]
  cases compare a b <;> rfl

variable [Std.LawfulEqOrd α]

/-- The search of the snapshot finds a node if and only if some record publishes it. -/
theorem isProtected_iff : h.isProtected a = true ↔ ∃ r, a ∈ (Scheme.hazards h).published r :=
  (foundIn_iff h.ascending_snapshot).trans mem_snapshot

/-- The search of the snapshot says the same as a look into all slots. -/
theorem isProtected_eq [DecidableEq α] (h : Hazards α) (a : α) :
    h.isProtected a = h.protects a := by
  rw [Bool.eq_iff_iff, isProtected_iff, protects_iff]

/-- A scan frees what the search of the snapshot does not find. -/
theorem scan_eq [DecidableEq α] (h : Hazards α) :
    h.scan = ((h.limbo.sweep fun x => !h.isProtected x.node).1,
      { h with limbo := (h.limbo.sweep fun x => !h.isProtected x.node).2 }) := by
  have htest : (fun x : Retired α => !h.isProtected x.node) = fun x => !h.protects x.node :=
    funext fun x => congrArg not (h.isProtected_eq x.node)
  rw [htest]
  rfl

end Hazards

end MarkedChain
