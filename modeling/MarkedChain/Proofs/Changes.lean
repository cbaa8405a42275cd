import Mathlib.Data.List.Nodup
import MarkedChain.Proofs.Custody

/-!
# Records change, retired nodes are freed

`SharedSet.Respects` is what the other participants may rely on when something happens to a set:
keys and values stay, marked links stay, a node moves from the chain to limbo and never back, and
what another record holds it still holds. `SharedSet.Unborn` says that no node was made.

The two changes here leave all links alone: a record changes (`Sound.touch`), and nodes that no
record covers are freed (`Sound.shed`).
-/

namespace MarkedChain

namespace SharedSet

variable {κ ν : Type} {s s' s'' : SharedSet κ ν}

/-! ## What others rely on -/

/-- No node was made. -/
def Unborn (s s' : SharedSet κ ν) : Prop :=
  ∀ a, s.memory.node? a = none → s'.memory.node? a = none

/-- What a change leaves to all others, if the holder of the record `who` made it, or nobody that
has a record. -/
structure Respects (s s' : SharedSet κ ν) (who : Option Nat) : Prop where
  validates : s'.scheme.validates = s.scheme.validates
  node : ∀ a n n', s.memory.node? a = some n → s'.memory.node? a = some n' →
    n'.key = n.key ∧ n'.value = n.value ∧ (n.next.marked = true → n'.next = n.next)
  linked : ∀ a ∈ s.linked, (s'.memory.node? a).isSome = true → a ∈ s'.linked ∨ a ∈ s'.retired
  retired : ∀ a ∈ s.retired, (s'.memory.node? a).isSome = true → a ∈ s'.retired
  held : ∀ r, who ≠ some r → ∀ slot a, s.Held r slot a → s'.Held r slot a
  depth? : ∀ r, who ≠ some r → s'.scheme.depth? r = s.scheme.depth? r
  taken? : ∀ r, who ≠ some r → s'.scheme.taken? r = s.scheme.taken? r

theorem Unborn.live (h : s.Unborn s') {a : Address} (ha : (s'.memory.node? a).isSome = true) :
    (s.memory.node? a).isSome = true := by
  cases hn : s.memory.node? a with
  | none =>
    rw [h a hn] at ha
    cases ha
  | some n => rfl

theorem Unborn.trans (h : s.Unborn s') (h' : s'.Unborn s'') : s.Unborn s'' :=
  fun a ha => h' a (h a ha)

namespace Respects

variable {who : Option Nat}

theorem refl (s : SharedSet κ ν) (who : Option Nat) : s.Respects s who where
  validates := rfl
  node _ n n' hn hn' := by
    rw [hn] at hn'
    cases hn'
    exact ⟨rfl, rfl, fun _ => rfl⟩
  linked _ ha _ := .inl ha
  retired _ ha _ := ha
  held _ _ _ _ h := h
  depth? _ _ := rfl
  taken? _ _ := rfl

/-- One change after the other, if the second one makes no node: a node that is live after both was
live in between. -/
theorem trans (h : s.Respects s' who) (h' : s'.Respects s'' who) (hu : s'.Unborn s'') :
    s.Respects s'' who where
  validates := h'.validates.trans h.validates
  node a n n'' hn hn'' := by
    obtain ⟨n', hn'⟩ := Option.isSome_iff_exists.1 (hu.live (Option.isSome_iff_exists.2 ⟨_, hn''⟩))
    obtain ⟨hk, hv, hm⟩ := h.node a n n' hn hn'
    obtain ⟨hk', hv', hm'⟩ := h'.node a n' n'' hn' hn''
    refine ⟨hk'.trans hk, hv'.trans hv, ?_⟩
    intro hmark
    have hmark' : n'.next.marked = true := (hm hmark).symm ▸ hmark
    exact (hm' hmark').trans (hm hmark)
  linked a ha hl := by
    rcases h.linked a ha (hu.live hl) with ha' | ha'
    · exact h'.linked a ha' hl
    · exact .inr (h'.retired a ha' hl)
  retired a ha hl := h'.retired a (h.retired a ha (hu.live hl)) hl
  held r hr slot a ha := h'.held r hr slot a (h.held r hr slot a ha)
  depth? r hr := (h'.depth? r hr).trans (h.depth? r hr)
  taken? r hr := (h'.taken? r hr).trans (h.taken? r hr)

/-- A change that nobody made may have been made by anybody. -/
theorem of_none (h : s.Respects s' none) (who : Option Nat) : s.Respects s' who where
  validates := h.validates
  node := h.node
  linked := h.linked
  retired := h.retired
  held r _ := h.held r (by simp)
  depth? r _ := h.depth? r (by simp)
  taken? r _ := h.taken? r (by simp)

/-- A change of memory that takes no node out of the chain and leaves the records alone. -/
theorem of_subset (hscheme : s'.scheme = s.scheme) (hlinked : s.linked ⊆ s'.linked)
    (hnode : ∀ a n n', s.memory.node? a = some n → s'.memory.node? a = some n' →
      n'.key = n.key ∧ n'.value = n.value ∧ (n.next.marked = true → n'.next = n.next)) :
    s.Respects s' who where
  validates := by rw [hscheme]
  node := hnode
  linked a ha _ := .inl (hlinked ha)
  retired a ha _ := by simpa [SharedSet.retired, hscheme] using ha
  held r _ slot a := by
    rintro ⟨x, hx, hxa, hc⟩
    refine ⟨x, hx.imp (fun h => by rwa [hscheme]) fun h => ?_, hxa, hscheme ▸ hc⟩
    exact ⟨hlinked h.1, by rw [h.2, hscheme]⟩
  depth? _ _ := by rw [hscheme]
  taken? _ _ := by rw [hscheme]

end Respects

variable [Ord κ] {own : List Address}

/-! ## Records -/

omit [Ord κ] in
theorem dated_touch {r : Nat} {sch : Scheme Address} (ht : s.scheme.Touches sch r)
    {x : Retired Address} (hx : s.Dated x) : ({ s with scheme := sch } : SharedSet κ ν).Dated x :=
  hx.imp (fun h => by rwa [ht.limbo]) fun h => ⟨h.1, by rw [h.2, ht.stamp]⟩

omit [Ord κ] in
theorem respects_touch {r : Nat} {sch : Scheme Address} (ht : s.scheme.Touches sch r) :
    s.Respects { s with scheme := sch } (some r) where
  validates := ht.validates
  node _ n n' hn hn' := by
    rw [hn] at hn'
    cases hn'
    exact ⟨rfl, rfl, fun _ => rfl⟩
  linked _ ha _ := .inl ha
  retired a ha _ := by simpa only [retired, ht.limbo] using ha
  held r' hr slot a := by
    rintro ⟨x, hx, hxa, hc⟩
    exact ⟨x, dated_touch ht hx, hxa, ht.covers r' (fun h => hr (h ▸ rfl)) slot x hc⟩
  depth? r' hr := ht.depth? r' fun h => hr (h ▸ rfl)
  taken? r' hr := ht.taken? r' fun h => hr (h ▸ rfl)

theorem Sound.touch (hs : s.Sound own) {r : Nat} {sch : Scheme Address}
    (ht : s.scheme.Touches sch r) (hsch : sch.Sound) :
    ({ s with scheme := sch } : SharedSet κ ν).Sound own := by
  have hret : ({ s with scheme := sch } : SharedSet κ ν).retired = s.retired := by
    simp only [retired, ht.limbo]
  refine ⟨hs.head, hs.path, hs.ascending, ?_, ?_, ?_, hs.fresh, ?_, ?_, ?_, ?_, hs.tidy, hsch⟩
  · rw [hret]; exact hs.nodup
  · rw [hret]; exact hs.live
  · rw [hret]; exact hs.frozen
  · simp only [ht.limbo, ht.stamp]; exact hs.stamped
  · intro hv x hx n b hn hb
    rw [ht.limbo] at hx
    obtain ⟨y, hy, hyb⟩ := hs.closed (ht.validates ▸ hv) x hx n b hn hb
    exact ⟨y, dated_touch ht hy, hyb⟩
  · simp only [ht.limbo]; exact hs.counted
  · rw [hret]; exact hs.balance

/-! ## Freeing -/

omit [Ord κ] in
/-- A node is in limbo at most once, so an entry is told by its node. -/
theorem entry_eq_of_node_eq (hnodup : s.retired.Nodup) {x y : Retired Address}
    (hx : x ∈ s.scheme.limbo.entries) (hy : y ∈ s.scheme.limbo.entries)
    (hxy : x.node = y.node) : x = y :=
  List.inj_on_of_nodup_map hnodup hx hy hxy

/-- What a sweep leaves behind: the nodes handed out are gone, all others are where they were. -/
structure Swept (s s' : SharedSet κ ν) (nodes : List Address) : Prop where
  subset : nodes ⊆ s.retired
  nodup : nodes.Nodup
  node? : ∀ a, a ∉ nodes → s'.memory.node? a = s.memory.node? a
  dead : ∀ a ∈ nodes, s'.memory.node? a = none
  linked : s'.linked = s.linked
  perm : s.retired.Perm (nodes ++ s'.retired)
  entries : ∀ x, x ∈ s'.scheme.limbo.entries ↔ x ∈ s.scheme.limbo.entries ∧ x.node ∉ nodes
  uncovered : ∀ x ∈ s.scheme.limbo.entries, x.node ∈ nodes → ∀ r slot, ¬ s.scheme.Covers r slot x
  older : s.scheme.validates = false → ∀ x ∈ s.scheme.limbo.entries,
    ∀ y ∈ s.scheme.limbo.entries, x.tag ≤ y.tag → y.node ∈ nodes → x.node ∈ nodes

theorem Sound.swept (hs : s.Sound own) {sch : Scheme Address} {m : Memory κ ν}
    {nodes : List Address} (hsch : s.scheme.Sheds sch nodes) (hm : s.memory.Drops m nodes) :
    s.Swept { s with scheme := sch, memory := m } nodes := by
  obtain ⟨f, rfl, hkept, hfree, hmono⟩ := hsch.swept
  have hnodup : s.retired.Nodup := (List.nodup_append.1 (List.nodup_append.1 hs.nodup).2.1).1
  have hsub : (s.scheme.limbo.entries.filter f).map Retired.node ⊆ s.retired :=
    List.map_subset _ (List.filter_subset_self _)
  have hnode : ∀ a, a ∉ (s.scheme.limbo.entries.filter f).map Retired.node →
      m.node? a = s.memory.node? a := fun a ha => by rw [hm.node?, if_neg ha]
  have hmem : ∀ x ∈ s.scheme.limbo.entries,
      (x.node ∈ (s.scheme.limbo.entries.filter f).map Retired.node ↔ f x = true) := by
    intro x hx
    simp only [List.mem_map, List.mem_filter]
    refine ⟨?_, fun hfx => ⟨x, ⟨hx, hfx⟩, rfl⟩⟩
    rintro ⟨y, ⟨hy, hfy⟩, hyx⟩
    rwa [entry_eq_of_node_eq hnodup hy hx hyx] at hfy
  refine ⟨hsub, hnodup.sublist (List.Sublist.map _ List.filter_sublist), hnode,
    fun a ha => by rw [hm.node?, if_pos ha], ?_, ?_, fun x => ?_, ?_, ?_⟩
  · refine linked_eq (hs.path.congr_node? fun a ha => hnode a fun h => ?_) hs.nodup_linked
    exact hs.not_retired_of_linked ha (hsub h)
  · rw [retired, retired, ← List.map_append]
    exact ((List.filter_append_perm f _).symm.trans (hkept.symm.append_left _)).map _
  · rw [hkept.mem_iff, List.mem_filter]
    refine and_congr_right fun hx => ?_
    rw [hmem x hx]
    cases f x <;> simp
  · intro x hx hn r slot
    exact hfree x ((hmem x hx).1 hn) r slot
  · intro hv x hx y hy hxy hn
    exact (hmem x hx).2 (hmono hv x y hxy ((hmem y hy).1 hn))

omit [Ord κ] in
/-- An entry that was not handed out is still there, or its node still on the chain. -/
theorem Swept.dated {nodes : List Address} (h : s.Swept s' nodes)
    (hstamp : s.scheme.stamp ≤ s'.scheme.stamp) {x : Retired Address} (hx : s.Dated x)
    (hn : x.node ∉ nodes) : ∃ y, s'.Dated y ∧ y.node = x.node ∧ x.tag ≤ y.tag := by
  rcases hx with hx | ⟨hx, htag⟩
  · exact ⟨x, .inl ((h.entries x).2 ⟨hx, hn⟩), rfl, Nat.le_refl _⟩
  · exact ⟨⟨x.node, _⟩, .of_linked (h.linked ▸ hx), rfl, htag ▸ hstamp⟩

/-- What a scheme has let go of can be freed. -/
theorem Sound.freeAll_yields (hs : s.Sound own) {sch : Scheme Address} {nodes : List Address}
    (hsch : s.scheme.Sheds sch nodes) (lane : Lane) :
    Yields (({ s with scheme := sch } : SharedSet κ ν).freeAll lane nodes) fun p =>
      ∃ m, s.memory.Drops m nodes ∧
        p = (nodes.filterMap (fun a => (s.memory.node? a).map Node.value),
          { s with scheme := sch, memory := m }) := by
  obtain ⟨f, rfl, -⟩ := hsch.swept
  have hsub : (s.scheme.limbo.entries.filter f).map Retired.node ⊆ s.retired :=
    List.map_subset _ (List.filter_subset_self _)
  have hnodup : s.retired.Nodup := (List.nodup_append.1 (List.nodup_append.1 hs.nodup).2.1).1
  refine (Memory.freeAll_yields lane hs.tidy
    (hnodup.sublist (List.Sublist.map _ List.filter_sublist)) fun a ha => ?_).bind ?_
  · obtain ⟨n, hn⟩ := hs.live_of_retired (hsub ha)
    exact Option.isSome_iff_exists.2 ⟨n, hn⟩
  · rintro ⟨values, m⟩ ⟨rfl, hm⟩
    exact .pure ⟨m, hm, rfl⟩

theorem Sound.shed (hs : s.Sound own) {sch : Scheme Address} {m : Memory κ ν}
    {nodes : List Address} (hsch : s.scheme.Sheds sch nodes) (hm : s.memory.Drops m nodes) :
    ({ s with scheme := sch, memory := m } : SharedSet κ ν).Sound own := by
  have hsw := hs.swept hsch hm
  generalize ht : ({ s with scheme := sch, memory := m } : SharedSet κ ν) = t at hsw
  have hscheme : t.scheme = sch := by rw [← ht]
  have hmemory : t.memory = m := by rw [← ht]
  have hout : ∀ a ∈ s.linked, a ∉ nodes := fun a ha h => hs.not_retired_of_linked ha (hsw.subset h)
  have hout' : ∀ a ∈ own, a ∉ nodes := fun a ha h => hs.not_own_of_retired (hsw.subset h) ha
  have hperm : (s.linked ++ (s.retired ++ own)).Perm
      (nodes ++ (s.linked ++ (t.retired ++ own))) := by
    refine ((hsw.perm.append_right own).append_left s.linked).trans ?_
    rw [List.append_assoc]
    exact List.perm_append_comm_assoc _ _ _
  have hnodup := hperm.nodup_iff.1 hs.nodup
  have hapart : ∀ a ∈ nodes, a ∉ s.linked ++ (t.retired ++ own) :=
    fun a ha h => (List.nodup_append.1 hnodup).2.2 a ha a h rfl
  refine ⟨?_, ?_, ?_, ?_, ?_, ?_, ?_, ?_, ?_, ?_, ?_, ?_, ?_⟩
  · rw [← ht]; exact hs.head
  · have hhead : t.head = s.head := by rw [← ht]
    rw [hsw.linked, hhead]
    exact hs.path.congr_node? fun a ha => hsw.node? a (hout a ha)
  · rw [hsw.linked]
    refine hs.ascending.imp_of_mem fun {a b} ha hb hab x y hx hy => hab x y ?_ ?_
    · rw [← hsw.node? a (hout a ha), hx]
    · rw [← hsw.node? b (hout b hb), hy]
  · rw [hsw.linked]
    exact (List.nodup_append.1 hnodup).2.1
  · intro a
    rw [hsw.linked]
    by_cases ha : a ∈ nodes
    · simp only [hsw.dead a ha, Option.isSome_none, Bool.false_eq_true, false_iff]
      exact hapart a ha
    · rw [hsw.node? a ha, hs.live a, hperm.mem_iff, List.mem_append]
      exact ⟨fun h => h.resolve_left ha, .inr⟩
  · intro a ha n hn
    have ha' : a ∈ s.retired := hsw.perm.mem_iff.2 (List.mem_append_right _ ha)
    have hna : a ∉ nodes := fun h => hapart a h (by simp [ha])
    exact hs.frozen a ha' n (by rw [← hsw.node? a hna, hn])
  · intro a ha n hn
    exact hs.fresh a ha n (by rw [← hsw.node? a (hout' a ha), hn])
  · intro x hx
    rw [hscheme]
    exact Nat.le_trans (hs.stamped x ((hsw.entries x).1 hx).1) hsch.stamp_le
  · -- the entry of a node refers to one that is not older, so it is not handed out before it
    intro hv x hx n b hn hb
    rw [hscheme, hsch.validates] at hv
    obtain ⟨hx, hnx⟩ := (hsw.entries x).1 hx
    rw [hsw.node? _ hnx] at hn
    obtain ⟨y, hy, rfl, hxy⟩ := hs.closed hv x hx n b hn hb
    have hny : y.node ∉ nodes := by
      intro hny
      rcases hy with hy | ⟨hy, -⟩
      · exact hnx (hsw.older hv x hx y hy hxy hny)
      · exact hout _ hy hny
    obtain ⟨z, hz, hzy, hyz⟩ := hsw.dated (hscheme ▸ hsch.stamp_le) hy hny
    exact ⟨z, hz, hzy, Nat.le_trans hxy hyz⟩
  · rw [hscheme]; exact hsch.counted hs.counted
  · have hlen := hsw.perm.length_eq
    rw [List.length_append] at hlen
    rw [hmemory, hm.allocated, hm.freed, hs.balance, hsw.linked, hlen]
    omega
  · rw [hmemory]; exact hm.tidy
  · rw [hscheme]; exact hsch.sound

theorem Sound.respects_shed (hs : s.Sound own) {sch : Scheme Address} {m : Memory κ ν}
    {nodes : List Address} (hsch : s.scheme.Sheds sch nodes) (hm : s.memory.Drops m nodes) :
    s.Respects { s with scheme := sch, memory := m } none := by
  have hsw := hs.swept hsch hm
  refine ⟨hsch.validates, ?_, ?_, ?_, ?_, fun r _ => hsch.depth? r, fun r _ => hsch.taken? r⟩
  · intro a n n' hn hn'
    by_cases ha : a ∈ nodes
    · rw [hsw.dead a ha] at hn'
      cases hn'
    · rw [hsw.node? a ha, hn] at hn'
      cases hn'
      exact ⟨rfl, rfl, fun _ => rfl⟩
  · intro a ha _
    exact .inl (hsw.linked ▸ ha)
  · intro a ha hl
    have hna : a ∉ nodes := fun h => by rw [hsw.dead a h] at hl; cases hl
    exact (List.mem_append.1 (hsw.perm.mem_iff.1 ha)).resolve_left hna
  · intro r _ slot a ha
    refine ha.later (fun x hx hc => hsw.dated hsch.stamp_le hx ?_) fun x => hsch.covers r slot x
    intro hn
    rcases hx with hx | ⟨hx, -⟩
    · exact hsw.uncovered x hx hn r slot hc
    · exact hs.not_retired_of_linked hx (hsw.subset hn)

omit [Ord κ] in
theorem unborn_drops {sch : Scheme Address} {m : Memory κ ν} {nodes : List Address}
    (hm : s.memory.Drops m nodes) : s.Unborn { s with scheme := sch, memory := m } := by
  intro a ha
  change m.node? a = none
  rw [hm.node?, ha]
  split <;> rfl

end SharedSet

end MarkedChain
