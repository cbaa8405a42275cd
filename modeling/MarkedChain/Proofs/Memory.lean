import Mathlib.Data.List.Basic
import MarkedChain.Memory
import MarkedChain.Proofs.Limits

/-!
# What memory holds

Memory is seen through `Memory.node?`, the live node at an address, and every operation on memory is
described by what it does to that view: `Memory.Births` for making a node, `Memory.Drops` for
freeing nodes, and `Memory.setNext_eq` with `Memory.node?_relink` for a change of a link. The pools
stay in order throughout (`Memory.Tidy`): a parked cell is marked as such and is in one place of one
pool, so that no pool ever hands out memory that is in use.
-/

namespace MarkedChain

namespace Memory

variable {κ ν : Type} {m m' : Memory κ ν}

/-! ## The view -/

theorem node?_put (m : Memory κ ν) (a b : Address) (c : Cell κ ν) :
    (m.put a c).node? b = if a = b ∧ a < m.cells.size then c.node? else m.node? b := by
  simp only [node?, put, Array.getElem?_setIfInBounds]
  by_cases hab : a = b
  · subst hab
    by_cases hlt : a < m.cells.size
    · simp [hlt]
    · simp [hlt]
  · simp [hab]

theorem lt_size_of_cell {a : Address} {c : Cell κ ν} (h : m.cells[a]? = some c) :
    a < m.cells.size :=
  (Array.getElem?_eq_some_iff.1 h).1

theorem cell_of_node? {a : Address} {n : Node κ ν} (h : m.node? a = some n) :
    m.cells[a]? = some (.live n) := by
  obtain ⟨c, hc, hn⟩ := Option.bind_eq_some_iff.1 h
  cases c with
  | live n' => cases hn; exact hc
  | pooled | released => cases hn

/-- A live node is in a cell that exists. -/
theorem lt_size_of_node? {a : Address} {n : Node κ ν} (h : m.node? a = some n) :
    a < m.cells.size :=
  lt_size_of_cell (cell_of_node? h)

theorem read_eq_ok {a : Address} {n : Node κ ν} (h : m.node? a = some n) :
    m.read a = .ok n := by
  simp [read, h]

theorem read_yields {a : Address} {n : Node κ ν} (h : m.node? a = some n) :
    Yields (m.read a) (· = n) := by
  rw [read_eq_ok h]
  exact .ok rfl

/-- Memory in which the node at an address has another link. -/
def relink (m : Memory κ ν) (a : Address) (n : Node κ ν) (l : Link Address) : Memory κ ν :=
  m.put a (.live { n with next := l })

theorem setNext_eq {a : Address} {n : Node κ ν} (h : m.node? a = some n) (l : Link Address) :
    m.setNext a l = .ok (m.relink a n l) := by
  simp only [setNext, read_eq_ok h]
  rfl

theorem node?_relink {a : Address} {n : Node κ ν} (h : m.node? a = some n) (l : Link Address)
    (b : Address) :
    (m.relink a n l).node? b = if b = a then some { n with next := l } else m.node? b := by
  rw [relink, node?_put]
  by_cases hb : b = a
  · subst hb
    simp [lt_size_of_node? h, Cell.node?]
  · simp [hb, Ne.symm hb]

/-! ## Pools -/

/-- The pools are in order: what is parked is marked as parked and is in one place only. -/
structure Tidy (m : Memory κ ν) : Prop where
  pooled : ∀ lane, ∀ a ∈ m.pools lane, m.cells[a]? = some .pooled
  nodup : ∀ lane, (m.pools lane).Nodup
  apart : ∀ lane lane', lane ≠ lane' → ∀ a ∈ m.pools lane, a ∉ m.pools lane'

/-- A cell that is not parked may hold anything. -/
theorem Tidy.put (h : m.Tidy) {a : Address} {c : Cell κ ν}
    (ha : m.cells[a]? ≠ some .pooled) : (m.put a c).Tidy where
  pooled lane b hb := by
    have hb' := h.pooled lane b hb
    have hne : a ≠ b := by
      rintro rfl
      exact ha hb'
    simpa [Memory.put, Array.getElem?_setIfInBounds, hne] using hb'
  nodup := h.nodup
  apart := h.apart

theorem Tidy.relink (h : m.Tidy) {a : Address} {n : Node κ ν} (hn : m.node? a = some n)
    (l : Link Address) : (m.relink a n l).Tidy := by
  refine h.put ?_
  rw [cell_of_node? hn]
  simp

/-- A new cell at the end is in no pool. -/
theorem Tidy.push (h : m.Tidy) (c : Cell κ ν) : Tidy { m with cells := m.cells.push c } where
  pooled lane b hb := by
    have hb' := h.pooled lane b hb
    have hlt := lt_size_of_cell hb'
    simpa [Array.getElem?_push, Nat.ne_of_lt hlt] using hb'
  nodup := h.nodup
  apart := h.apart

/-! ## Making a node -/

/-- A node was made at an address that held none, and nothing else changed. -/
structure Births (m m' : Memory κ ν) (a : Address) (n : Node κ ν) : Prop where
  dead : m.node? a = none
  node? : ∀ b, m'.node? b = if b = a then some n else m.node? b
  tidy : m'.Tidy
  allocated : m'.allocated = m.allocated + 1
  freed : m'.freed = m.freed
  fits : m.poolFits = true
  capacity : m'.capacity = m.capacity

/-- Memory from the system holds no node, whether the system's offer counts or not. -/
theorem place_births (h : m.Tidy) (offer : Option Address) (n : Node κ ν) :
    m.node? (m.place offer n).1 = none ∧
      (∀ b, (m.place offer n).2.node? b = if b = (m.place offer n).1 then some n else m.node? b) ∧
      (m.place offer n).2.Tidy ∧ (m.place offer n).2.freed = m.freed ∧
      (m.place offer n).2.capacity = m.capacity := by
  unfold place
  split
  · next a hoffer =>
    have hrel : m.isReleased a = true := (Option.filter_eq_some_iff.1 hoffer).2
    have hcell : m.cells[a]? = some .released := by
      unfold isReleased at hrel
      split at hrel
      · next hc => exact hc
      · cases hrel
    have hlt := lt_size_of_cell hcell
    refine ⟨by simp [Memory.node?, hcell, Cell.node?], ?_, h.put (by simp [hcell]), rfl, rfl⟩
    intro b
    rw [node?_put]
    by_cases hb : b = a
    · subst hb; simp [hlt, Cell.node?]
    · simp [hb, Ne.symm hb]
  · refine ⟨by simp [Memory.node?], ?_, h.push _, rfl, rfl⟩
    intro b
    simp only [Memory.node?, Array.getElem?_push]
    by_cases hb : b = m.cells.size
    · simp [hb, Cell.node?]
    · simp [hb]

/-- Memory from a pool is still marked as parked when it is taken out. -/
theorem allocate_yields (h : m.Tidy) (lane : Lane) (offer : Option Address) (key : κ) (value : ν) :
    Yields (m.allocate lane offer key value) fun p => m.Births p.2 p.1 ⟨key, value, .null⟩ := by
  unfold allocate
  split
  · next hfits =>
    split
    · next a rest hpool =>
      have hcell := h.pooled lane a (by simp [hpool])
      have hlt := lt_size_of_cell hcell
      have hnodup := h.nodup lane
      rw [hpool, List.nodup_cons] at hnodup
      rw [hcell]
      refine .ok ⟨by simp [Memory.node?, hcell, Cell.node?], ?_, ⟨?_, ?_, ?_⟩, rfl, rfl, hfits, rfl⟩
      · intro b
        change ((m.setPool lane rest).put a _).node? b = _
        rw [node?_put]
        by_cases hb : b = a
        · subst hb; simp [setPool, hlt, Cell.node?]
        · simp [hb, Ne.symm hb, setPool, Memory.node?]
      · intro l b hb
        have hmem : b ∈ m.pools l ∧ b ≠ a := by
          by_cases hl : l = lane
          · subst hl
            simp only [Memory.put, setPool, updatePool, if_true] at hb
            exact ⟨by simp [hpool, hb], fun hba => hnodup.1 (hba ▸ hb)⟩
          · simp only [Memory.put, setPool, updatePool, if_neg hl] at hb
            refine ⟨hb, ?_⟩
            rintro rfl
            exact h.apart l lane hl b hb (by simp [hpool])
        simpa [Memory.put, setPool, Array.getElem?_setIfInBounds, Ne.symm hmem.2] using
          h.pooled l b hmem.1
      · intro l
        by_cases hl : l = lane
        · simpa [Memory.put, setPool, updatePool, hl] using hnodup.2
        · simpa [Memory.put, setPool, updatePool, hl] using h.nodup l
      · intro l l' hne b hb
        simp only [Memory.put, setPool, updatePool] at hb ⊢
        have hsub : ∀ l b, b ∈ (if l = lane then rest else m.pools l) → b ∈ m.pools l := by
          intro l b hmem
          split at hmem
          · next hl => rw [hl, hpool]; exact List.mem_cons_of_mem _ hmem
          · exact hmem
        exact fun hb' => h.apart l l' hne b (hsub l b hb) (hsub l' b hb')
    · obtain ⟨hdead, hnode, htidy, hfreed, hcapacity⟩ := place_births h offer ⟨key, value, .null⟩
      exact .ok ⟨hdead, hnode, ⟨htidy.pooled, htidy.nodup, htidy.apart⟩, rfl, hfreed, hfits,
        hcapacity⟩
  · exact trivial

/-! ## Dropping nodes -/

/-- Nodes were freed, and nothing else changed. -/
structure Drops (m m' : Memory κ ν) (nodes : List Address) : Prop where
  node? : ∀ b, m'.node? b = if b ∈ nodes then none else m.node? b
  tidy : m'.Tidy
  allocated : m'.allocated = m.allocated
  freed : m'.freed = m.freed + nodes.length
  capacity : m'.capacity = m.capacity

theorem Drops.nil (h : m.Tidy) : m.Drops m [] :=
  ⟨fun _ => by simp, h, rfl, rfl, rfl⟩

/-- The cell of a node that was live is in no pool yet. -/
theorem Tidy.park (h : m.Tidy) {a : Address} {n : Node κ ν} (hn : m.node? a = some n)
    (lane : Lane) : ((m.put a .pooled).setPool lane (a :: m.pools lane)).Tidy := by
  have hcell := cell_of_node? hn
  have hlt := lt_size_of_node? hn
  have hout : ∀ l, a ∉ m.pools l := by
    intro l ha
    rw [h.pooled l a ha] at hcell
    cases hcell
  refine ⟨?_, ?_, ?_⟩
  · intro l b hb
    have hmem : b = a ∨ b ∈ m.pools l := by
      simp only [setPool, updatePool] at hb
      split at hb
      · next hl => subst hl; simpa using hb
      · exact .inr hb
    by_cases hba : b = a
    · subst hba
      simp [Memory.put, setPool, hlt]
    · simpa [Memory.put, setPool, Array.getElem?_setIfInBounds, Ne.symm hba] using
        h.pooled l b (hmem.resolve_left hba)
  · intro l
    by_cases hl : l = lane
    · subst hl
      simpa [Memory.put, setPool, updatePool] using ⟨hout l, h.nodup l⟩
    · simpa [Memory.put, setPool, updatePool, hl] using h.nodup l
  · intro l l' hne b hb hb'
    simp only [Memory.put, setPool, updatePool] at hb hb'
    split at hb <;> split at hb'
    · next hl hl' => exact hne (hl.trans hl'.symm)
    · next hl _ =>
      rcases List.mem_cons.1 hb with rfl | hb
      · exact hout l' hb'
      · exact h.apart lane l' (hl ▸ hne) b hb hb'
    · next _ hl' =>
      rcases List.mem_cons.1 hb' with rfl | hb'
      · exact hout l hb
      · exact h.apart l lane (hl' ▸ hne) b hb hb'
    · exact h.apart l l' hne b hb hb'

theorem node?_empty_cell {a : Address} {n : Node κ ν} (hn : m.node? a = some n) {c : Cell κ ν}
    (hc : c.node? = none) (b : Address) :
    (m.put a c).node? b = if b ∈ [a] then none else m.node? b := by
  rw [node?_put]
  by_cases hb : b = a
  · subst hb; simp [lt_size_of_node? hn, hc]
  · simp [hb, Ne.symm hb]

/-- A live node can be freed. Its value is handed out. -/
theorem free_yields (h : m.Tidy) (lane : Lane) {a : Address} {n : Node κ ν}
    (hn : m.node? a = some n) :
    Yields (m.free lane a) fun p => p.1 = n.value ∧ m.Drops p.2 [a] := by
  have hcell := cell_of_node? hn
  rw [free, read_eq_ok hn]
  change Yields (if _ then _ else _) _
  split
  · split
    · refine .pure ⟨rfl, ?_, ?_, rfl, rfl, rfl⟩
      · intro b
        exact node?_empty_cell hn rfl b
      · have ht := h.park hn lane
        exact ⟨ht.pooled, ht.nodup, ht.apart⟩
    · refine .pure ⟨rfl, fun b => node?_empty_cell hn rfl b, ?_, rfl, rfl, rfl⟩
      have ht : (m.put a .released).Tidy := h.put (by simp [hcell])
      exact ⟨ht.pooled, ht.nodup, ht.apart⟩
  · exact trivial

/-- Whether a pool can be reserved depends on nothing but its capacity. -/
theorem poolFits_congr (h : m'.capacity = m.capacity) : m'.poolFits = m.poolFits := by
  rw [poolFits, poolFits, h]

/-- Where there is a node, pools can be reserved. -/
def Roomy (m : Memory κ ν) : Prop := ∀ a n, m.node? a = some n → m.poolFits = true

theorem read_within {beyond : Prop} (m : Memory κ ν) (a : Address) :
    Within beyond (m.read a) fun n => m.node? a = some n := by
  rw [read]
  split
  · next n hn => exact .ok hn
  · exact .error id

/-- No limit keeps a node from being freed: a pool was reserved when the node was made. -/
theorem free_within {beyond : Prop} (h : m.Roomy) (lane : Lane) (a : Address) :
    Within beyond (m.free lane a) fun p => p.2.Roomy := by
  rw [free]
  refine (m.read_within a).bind fun n hn => ?_
  have hfits := h a n hn
  rw [if_pos hfits]
  split <;> exact .pure fun _ _ _ => hfits

theorem freeAll_within {beyond : Prop} (lane : Lane) (nodes : List Address) (h : m.Roomy) :
    Within beyond (m.freeAll lane nodes) fun p => p.2.Roomy := by
  induction nodes generalizing m with
  | nil => exact .ok h
  | cons a as ih =>
    rw [freeAll]
    refine (free_within h lane a).bind fun p hp => ?_
    exact (ih hp).bind fun q hq => .pure hq

/-- No limit keeps a node from being made where pools can be reserved. -/
theorem allocate_within {beyond : Prop} (h : m.poolFits = true) (lane : Lane)
    (offer : Option Address) (key : κ) (value : ν) :
    Within beyond (m.allocate lane offer key value) fun p => p.2.Roomy := by
  have hplace : ∀ n, (m.place offer n).2.poolFits = true := by
    intro n
    rw [place]
    split <;> exact h
  rw [allocate, if_pos h]
  split
  · split
    · exact .ok fun _ _ _ => h
    · exact .error id
  · exact .ok fun _ _ _ => hplace _

/-- Different live nodes can be freed one after the other. Their values are handed out in order. -/
theorem freeAll_yields (lane : Lane) {nodes : List Address} (h : m.Tidy) (hnodup : nodes.Nodup)
    (hlive : ∀ a ∈ nodes, (m.node? a).isSome) :
    Yields (m.freeAll lane nodes) fun p =>
      p.1 = nodes.filterMap (fun a => (m.node? a).map Node.value) ∧ m.Drops p.2 nodes := by
  induction nodes generalizing m with
  | nil => exact .ok ⟨rfl, .nil h⟩
  | cons a as ih =>
    obtain ⟨n, hn⟩ := Option.isSome_iff_exists.1 (hlive a (by simp))
    rw [List.nodup_cons] at hnodup
    rw [freeAll]
    refine (free_yields h lane hn).bind ?_
    rintro ⟨v, m₁⟩ ⟨hv, hd⟩
    dsimp only at hv hd ⊢
    have hkeep : ∀ b ∈ as, m₁.node? b = m.node? b := by
      intro b hb
      rw [hd.node?, if_neg]
      intro hba
      rw [List.mem_singleton] at hba
      exact hnodup.1 (hba ▸ hb)
    have hlive₁ : ∀ b ∈ as, (m₁.node? b).isSome := by
      intro b hb
      rw [hkeep b hb]
      exact hlive b (by simp [hb])
    refine (ih hd.tidy hnodup.2 hlive₁).bind ?_
    rintro ⟨vs, m₂⟩ ⟨hvs, hd₂⟩
    dsimp only at hvs hd₂ ⊢
    refine .pure ⟨?_, ?_, hd₂.tidy, hd₂.allocated.trans hd.allocated, ?_,
      hd₂.capacity.trans hd.capacity⟩
    · rw [hv, hvs, List.filterMap_cons, hn]
      simp only [Option.map_some, List.cons.injEq, true_and]
      exact List.filterMap_congr fun b hb => by rw [hkeep b hb]
    · intro b
      rw [hd₂.node?, hd.node?]
      by_cases hb : b ∈ as <;> by_cases hba : b = a <;> simp [hb, hba]
    · rw [hd₂.freed, hd.freed]
      simp only [List.length_cons, List.length_nil]
      omega

end Memory

end MarkedChain
