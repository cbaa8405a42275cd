import Mathlib.Data.List.Perm.Basic
import MarkedChain.Proofs.Changes

/-!
# Links are written

A write of one link moves nodes between their places or leaves them where they are: a marked node
leaves the chain for limbo (`Sound.unlink`, `Clears`), a private node enters the chain
(`Sound.link`), and a node of the chain is marked or a private one is prepared (`Sound.rewrite`).
Private nodes are made and dropped by `Sound.birth` and `Sound.discard`. Each of these keeps the set
sound and respects all participants.
-/

namespace MarkedChain

namespace SharedSet

variable {κ ν : Type} {s s' s'' : SharedSet κ ν} [Ord κ] {own : List Address}

/-! ## What a write changes -/

namespace Relinks

omit [Ord κ]

variable {pl : Place} {l : Link Address}

theorem node?_of_ne (h : s.Relinks s' pl l) {b : Address} (hb : pl ≠ .node b) :
    s'.memory.node? b = s.memory.node? b := by
  rw [h.node?, if_neg hb]

/-- Only the link at the place changes. -/
theorem link?_of_ne (h : s.Relinks s' pl l) {pl' : Place} (hne : pl' ≠ pl) :
    s'.link? pl' = s.link? pl' := by
  cases pl' with
  | head => rw [link?, h.head, if_neg (Ne.symm hne), link?]
  | node b => rw [link?, h.node?_of_ne (Ne.symm hne), link?]

theorem node?_self (h : s.Relinks s' (.node b) l) {n : Node κ ν} (hn : s.memory.node? b = some n) :
    s'.memory.node? b = some { n with next := l } := by
  rw [h.node?, if_pos rfl, hn]
  rfl

theorem isSome_node? (h : s.Relinks s' pl l) (b : Address) :
    (s'.memory.node? b).isSome = (s.memory.node? b).isSome := by
  rw [h.node?]
  split <;> simp

theorem unborn (h : s.Relinks s' pl l) : s.Unborn s' := by
  intro a ha
  rw [h.node?, ha]
  split <;> rfl

/-- A write of a link changes no key and no value, and no link elsewhere. -/
theorem same (h : s.Relinks s' pl l) {b : Address} {n n' : Node κ ν}
    (hn : s.memory.node? b = some n) (hn' : s'.memory.node? b = some n') :
    n'.key = n.key ∧ n'.value = n.value ∧ (pl ≠ .node b → n' = n) := by
  rw [h.node?, hn] at hn'
  split at hn'
  · next hb =>
    cases hn'
    exact ⟨rfl, rfl, fun h => absurd hb h⟩
  · cases hn'
    exact ⟨rfl, rfl, fun _ => rfl⟩

theorem same_back (h : s.Relinks s' pl l) {b : Address} {n' : Node κ ν}
    (hn' : s'.memory.node? b = some n') : ∃ n, s.memory.node? b = some n ∧ n'.key = n.key := by
  obtain ⟨n, hn⟩ := Option.isSome_iff_exists.1
    (h.isSome_node? b ▸ Option.isSome_iff_exists.2 ⟨n', hn'⟩)
  exact ⟨n, hn, (h.same hn hn').1⟩

end Relinks

theorem Below.relinks {a b : Address} {pl : Place} {l : Link Address} (h : s.Below a b)
    (hrel : s.Relinks s' pl l) : s'.Below a b := by
  intro x y hx hy
  obtain ⟨x₀, hx₀, hxk⟩ := hrel.same_back hx
  obtain ⟨y₀, hy₀, hyk⟩ := hrel.same_back hy
  rw [hxk, hyk]
  exact h x₀ y₀ hx₀ hy₀

omit [Ord κ] in
/-- A write of an unmarked link changes no marked node. -/
theorem Relinks.keeps {pl : Place} {l l' : Link Address} (h : s.Relinks s' pl l')
    (hl : s.link? pl = some l) (hm : l.marked = false) {a : Address} {n n' : Node κ ν}
    (hn : s.memory.node? a = some n) (hn' : s'.memory.node? a = some n') :
    n'.key = n.key ∧ n'.value = n.value ∧ (n.next.marked = true → n'.next = n.next) := by
  obtain ⟨hk, hv, hsame⟩ := h.same hn hn'
  refine ⟨hk, hv, ?_⟩
  intro hmark
  by_cases hpl : pl = .node a
  · subst hpl
    simp only [link?, hn, Option.map_some, Option.some.injEq] at hl
    rw [hl, hm] at hmark
    cases hmark
  · rw [hsame hpl]

omit [Ord κ] in
theorem Relinks.same_mark {pl : Place} {l l' : Link Address} (h : s.Relinks s' pl l')
    (hl : s.link? pl = some l) (hm : l'.marked = l.marked) {a : Address} {n n' : Node κ ν}
    (hn : s.memory.node? a = some n) (hn' : s'.memory.node? a = some n') :
    n'.next.marked = n.next.marked := by
  by_cases hpl : pl = .node a
  · subst hpl
    rw [h.node?_self hn] at hn'
    cases hn'
    simp only [link?, hn, Option.map_some, Option.some.injEq] at hl
    rw [hl, hm]
  · rw [(h.same hn hn').2.2 hpl]

/-! ### Out of the chain -/

/-- The chain around a node: what comes before the link to it, and what comes after it. -/
theorem Sound.split_link (hs : s.Sound own) {pl : Place} (hpl : s.OnChain pl) {curr : Address}
    {n : Node κ ν} (hl : s.link? pl = some (.unmarked (some curr)))
    (hn : s.memory.node? curr = some n) :
    ∃ before rest, s.linked = before ++ curr :: rest ∧
      s.memory.Path n.next.target rest none ∧ (∀ a, pl = .node a → a ∈ before) ∧
      ∀ s' l' after', s.Relinks s' pl l' → s'.memory.Path l'.target after' none →
        s'.memory.Path s'.head.target (before ++ after') none := by
  obtain ⟨l, before, after, hl', hsplit, hafter, -, hbefore, hwrite⟩ :=
    exists_split hs.path hs.nodup_linked hpl
  rw [hl] at hl'
  cases hl'
  cases after with
  | nil => cases hafter
  | cons c rest =>
    obtain ⟨hc, n', hn', hrest⟩ := hafter
    cases hc
    rw [hn] at hn'
    cases hn'
    refine ⟨before, rest, hsplit, hrest, ?_, hwrite⟩
    intro a ha
    obtain ⟨pre, rfl⟩ := hbefore a ha
    simp

/-- A node was taken out of the chain and put on top of the retired ones. -/
structure Unlinks (s t : SharedSet κ ν) (curr : Address) : Prop where
  split : ∃ before rest, s.linked = before ++ curr :: rest ∧ t.linked = before ++ rest
  path : t.memory.Path t.head.target t.linked none
  head : t.head.marked = false
  scheme : t.scheme = s.scheme.shelve curr
  node : ∀ a n n', s.memory.node? a = some n → t.memory.node? a = some n' →
    n'.key = n.key ∧ n'.value = n.value ∧ (n.next.marked = true → n'.next = n.next)
  mark : ∀ a n n', s.memory.node? a = some n → t.memory.node? a = some n' →
    n'.next.marked = n.next.marked
  outside : ∀ a, a ∉ s.linked → t.memory.node? a = s.memory.node? a
  isSome : ∀ a, (t.memory.node? a).isSome = (s.memory.node? a).isSome
  memory : t.memory.allocated = s.memory.allocated ∧ t.memory.freed = s.memory.freed ∧
    t.memory.Tidy
  capacity : t.memory.capacity = s.memory.capacity

/-- Writing the link before a node past it takes it out of the chain. -/
theorem Sound.unlinks (hs : s.Sound own) {pl : Place} (hpl : s.OnChain pl) {curr : Address}
    {n : Node κ ν} (hl : s.link? pl = some (.unmarked (some curr)))
    (hn : s.memory.node? curr = some n) (hrel : s.Relinks s' pl (.unmarked n.next.target)) :
    s.Unlinks { s' with scheme := s'.scheme.shelve curr } curr := by
  obtain ⟨before, rest, hsplit, hrest, hpl', hwrite⟩ := hs.split_link hpl hl hn
  have hnodup := hs.nodup_linked
  rw [hsplit] at hnodup
  have hapart := (List.nodup_append.1 hnodup).2.2
  have hnode : ∀ a, a ∉ before → s'.memory.node? a = s.memory.node? a :=
    fun a ha => hrel.node?_of_ne fun h => ha (hpl' a h)
  have hpath : s'.memory.Path s'.head.target (before ++ rest) none := by
    refine hwrite s' _ rest hrel (hrest.congr_node? fun a ha => hnode a fun h => ?_)
    exact hapart a h a (by simp [ha]) rfl
  have hlinked : s'.linked = before ++ rest := by
    refine linked_eq hpath (hnodup.sublist ?_)
    exact List.Sublist.append_left (List.sublist_cons_self _ _) _
  refine ⟨⟨before, rest, hsplit, hlinked⟩, ?_, ?_, by rw [hrel.scheme],
    fun a x y => hrel.keeps hl rfl, fun a x y => hrel.same_mark hl rfl,
    fun a ha => hnode a fun h => ha (by simp [hsplit, h]),
    hrel.isSome_node?, ⟨hrel.allocated, hrel.freed, hrel.tidy hs.tidy⟩, hrel.capacity⟩
  · exact hlinked ▸ hpath
  · change s'.head.marked = false
    rw [hrel.head]
    split
    · rfl
    · exact hs.head

namespace Unlinks

variable {t : SharedSet κ ν} {curr : Address}

omit [Ord κ]

theorem retired (h : s.Unlinks t curr) : t.retired = curr :: s.retired := by
  simp only [SharedSet.retired, h.scheme, Scheme.shelve_entries, List.map_cons]

theorem perm (h : s.Unlinks t curr) (own : List Address) :
    (t.linked ++ (t.retired ++ own)).Perm (s.linked ++ (s.retired ++ own)) := by
  obtain ⟨before, rest, hsplit, hlinked⟩ := h.split
  rw [hlinked, h.retired, hsplit, List.append_assoc, List.append_assoc]
  exact List.Perm.append_left before List.perm_middle

/-- A node that is taken out gets the entry that it would have got before. -/
theorem dated (h : s.Unlinks t curr) {x : Retired Address} (hx : s.Dated x) : t.Dated x := by
  obtain ⟨before, rest, hsplit, hlinked⟩ := h.split
  rcases hx with hx | ⟨hx, htag⟩
  · exact .inl (by simp [h.scheme, hx])
  · by_cases hxc : x.node = curr
    · refine .inl ?_
      rw [h.scheme, Scheme.shelve_entries, ← hxc, ← htag]
      exact List.mem_cons_self
    · refine .inr ⟨?_, by rw [h.scheme, htag, Scheme.shelve_stamp]⟩
      rw [hsplit] at hx
      rw [hlinked]
      simpa [hxc] using hx

theorem node_back (h : s.Unlinks t curr) {a : Address} {n' : Node κ ν}
    (hn' : t.memory.node? a = some n') : ∃ n, s.memory.node? a = some n ∧ n'.key = n.key := by
  obtain ⟨n, hn⟩ := Option.isSome_iff_exists.1
    (h.isSome a ▸ Option.isSome_iff_exists.2 ⟨n', hn'⟩)
  exact ⟨n, hn, (h.node a n n' hn hn').1⟩

theorem unborn (h : s.Unlinks t curr) : s.Unborn t := by
  intro a ha
  have hnone := h.isSome a
  rw [ha] at hnone
  simpa using hnone

theorem respects (h : s.Unlinks t curr) : s.Respects t none where
  validates := by rw [h.scheme, Scheme.shelve_validates]
  node := h.node
  linked a ha _ := by
    obtain ⟨before, rest, hsplit, hlinked⟩ := h.split
    rw [hsplit] at ha
    rw [hlinked, h.retired]
    by_cases hac : a = curr
    · exact .inr (by simp [hac])
    · exact .inl (by simpa [hac] using ha)
  retired a ha _ := by
    rw [h.retired]
    exact List.mem_cons_of_mem _ ha
  held r _ slot a ha := ha.later (fun x hx _ => ⟨x, h.dated hx, rfl, Nat.le_refl _⟩)
    fun x hx => by rwa [h.scheme, Scheme.shelve_covers]
  depth? r _ := by rw [h.scheme, Scheme.shelve_depth?]
  taken? r _ := by rw [h.scheme, Scheme.shelve_taken?]

end Unlinks

/-- A set stays sound when a marked node is taken out of the chain. -/
theorem Sound.unlink {t : SharedSet κ ν} {curr : Address} (hs : s.Sound own)
    (hu : s.Unlinks t curr) {n : Node κ ν} (hn : s.memory.node? curr = some n)
    (hm : n.next.marked = true) : t.Sound own := by
  have hperm := hu.perm own
  have hcurr : curr ∈ s.linked := by
    obtain ⟨before, rest, hsplit, -⟩ := hu.split
    simp [hsplit]
  refine ⟨hu.head, hu.path, ?_, ?_, ?_, ?_, ?_, ?_, ?_, ?_, ?_, hu.memory.2.2, ?_⟩
  · obtain ⟨before, rest, hsplit, hlinked⟩ := hu.split
    have hsub : t.linked.Sublist s.linked := by
      rw [hsplit, hlinked]
      exact List.Sublist.append_left (List.sublist_cons_self _ _) _
    refine (hs.ascending.sublist hsub).imp fun hab x y hx hy => ?_
    obtain ⟨x₀, hx₀, hxk⟩ := hu.node_back hx
    obtain ⟨y₀, hy₀, hyk⟩ := hu.node_back hy
    rw [hxk, hyk]
    exact hab x₀ y₀ hx₀ hy₀
  · exact hperm.nodup_iff.2 hs.nodup
  · intro a
    rw [hu.isSome, hs.live a, hperm.mem_iff]
  · intro a ha n' hn'
    obtain ⟨n₀, hn₀, -⟩ := hu.node_back hn'
    have hmark : n₀.next.marked = true := by
      rw [hu.retired] at ha
      rcases List.mem_cons.1 ha with rfl | ha
      · rw [hn] at hn₀
        cases hn₀
        exact hm
      · exact hs.frozen a ha n₀ hn₀
    rw [(hu.node a n₀ n' hn₀ hn').2.2 hmark]
    exact hmark
  · intro a ha n' hn'
    rw [hu.outside a fun h => hs.not_own_of_linked h ha] at hn'
    exact hs.fresh a ha n' hn'
  · intro x hx
    rw [hu.scheme, Scheme.shelve_entries] at hx
    rw [hu.scheme, Scheme.shelve_stamp]
    rcases List.mem_cons.1 hx with rfl | hx
    · exact Nat.le_refl _
    · exact hs.stamped x hx
  · intro hv x hx n' b hn' hb
    obtain ⟨n₀, hn₀, -⟩ := hu.node_back hn'
    rw [hu.scheme, Scheme.shelve_validates] at hv
    rw [hu.scheme, Scheme.shelve_entries] at hx
    rcases List.mem_cons.1 hx with rfl | hx
    · -- the node that leaves now refers to one that was on the chain with it
      rw [hn] at hn₀
      cases hn₀
      rw [(hu.node curr n n' hn hn').2.2 hm] at hb
      exact ⟨_, hu.dated (.of_linked (hs.linked_of_next hcurr hn hb)), rfl, Nat.le_refl _⟩
    · have hmark := hs.frozen x.node (List.mem_map_of_mem hx) n₀ hn₀
      rw [(hu.node x.node n₀ n' hn₀ hn').2.2 hmark] at hb
      obtain ⟨y, hy, hyb, hxy⟩ := hs.closed hv x hx n₀ b hn₀ hb
      exact ⟨y, hu.dated hy, hyb, hxy⟩
  · rw [hu.scheme]
    exact Scheme.shelve_counted hs.counted _
  · have hlen := hperm.length_eq
    simp only [List.length_append] at hlen
    rw [hu.memory.1, hu.memory.2.1, hs.balance]
    omega
  · rw [hu.scheme]
    exact hs.scheme.shelve _

/-- A marked node was taken out of the chain and retired, and some of the retired nodes that no
record covers were freed. `drops` are the values that were freed with them. -/
def Clears (s s' : SharedSet κ ν) (curr : Address) (drops : List ν) : Prop :=
  ∃ t sch m nodes, s.Unlinks t curr ∧ t.scheme.Sheds sch nodes ∧ t.memory.Drops m nodes ∧
    drops = nodes.filterMap (fun a => (t.memory.node? a).map Node.value) ∧
    s' = { t with scheme := sch, memory := m }

/-- When the link before a marked node was written past it, the node can be retired. -/
theorem Sound.retire_yields (hs : s.Sound own) {pl : Place} (hpl : s.OnChain pl) {curr : Address}
    {n : Node κ ν} (hl : s.link? pl = some (.unmarked (some curr)))
    (hn : s.memory.node? curr = some n) (hm : n.next.marked = true)
    (hrel : s.Relinks s' pl (.unmarked n.next.target)) (r : Nat) (lane : Lane) :
    Yields (s'.retire r lane curr) fun p =>
      s.Clears p.2 curr p.1 ∧ s.scheme.Ticks p.2.scheme (s.scheme.due r) := by
  have hu := hs.unlinks hpl hl hn hrel
  have ht := hs.unlink hu hn hm
  rw [SharedSet.retire]
  refine (Scheme.retire_yields (hrel.scheme ▸ hs.scheme) r curr).bind ?_
  rintro ⟨nodes, sch⟩ ⟨hsheds, hticks⟩
  rw [hrel.scheme] at hticks
  refine (ht.freeAll_yields hsheds lane).mono ?_
  rintro _ ⟨m, hdrops, rfl⟩
  exact ⟨⟨_, sch, m, nodes, hu, hsheds, hdrops, rfl, rfl⟩, hticks⟩

namespace Clears

variable {curr : Address} {drops : List ν}

theorem sound (h : s.Clears s' curr drops) (hs : s.Sound own) {n : Node κ ν}
    (hn : s.memory.node? curr = some n) (hm : n.next.marked = true) : s'.Sound own := by
  obtain ⟨t, sch, m, nodes, hu, hsheds, hdrops, -, rfl⟩ := h
  exact (hs.unlink hu hn hm).shed hsheds hdrops

theorem respects (h : s.Clears s' curr drops) (hs : s.Sound own) {n : Node κ ν}
    (hn : s.memory.node? curr = some n) (hm : n.next.marked = true) : s.Respects s' none := by
  obtain ⟨t, sch, m, nodes, hu, hsheds, hdrops, -, rfl⟩ := h
  exact hu.respects.trans ((hs.unlink hu hn hm).respects_shed hsheds hdrops) (unborn_drops hdrops)

omit [Ord κ] in
theorem unborn (h : s.Clears s' curr drops) : s.Unborn s' := by
  obtain ⟨t, sch, m, nodes, hu, hsheds, hdrops, -, rfl⟩ := h
  exact hu.unborn.trans (unborn_drops hdrops)

/-- Exactly the one node has left the chain. -/
theorem linked (h : s.Clears s' curr drops) (hs : s.Sound own) {n : Node κ ν}
    (hn : s.memory.node? curr = some n) (hm : n.next.marked = true) :
    ∃ before rest, s.linked = before ++ curr :: rest ∧ s'.linked = before ++ rest := by
  obtain ⟨t, sch, m, nodes, hu, hsheds, hdrops, -, rfl⟩ := h
  obtain ⟨before, rest, hsplit, hlinked⟩ := hu.split
  exact ⟨before, rest, hsplit, ((hs.unlink hu hn hm).swept hsheds hdrops).linked.trans hlinked⟩

/-- What was before the node and what was behind it stay. -/
theorem linked_of_split (h : s.Clears s' curr drops) (hs : s.Sound own) {n : Node κ ν}
    (hn : s.memory.node? curr = some n) (hm : n.next.marked = true) {before after : List Address}
    (hsplit : s.linked = before ++ curr :: after) : s'.linked = before ++ after := by
  obtain ⟨before', rest, hsplit', hlinked⟩ := h.linked hs hn hm
  have hnodup := hs.nodup_linked
  rw [hsplit] at hsplit' hnodup
  obtain ⟨-, hout, hapart⟩ := List.nodup_append.1 hnodup
  have hbefore : curr ∉ before := fun hc => hapart curr hc curr (by simp) rfl
  have hafter : curr ∉ after := (List.nodup_cons.1 hout).1
  obtain ⟨rfl, -, rfl⟩ := (List.append_cons_inj_of_notMem hbefore hafter).1 hsplit'
  exact hlinked

omit [Ord κ] in
/-- The marks of all nodes are as they were. -/
theorem mark (h : s.Clears s' curr drops) {a : Address} {n n' : Node κ ν}
    (hn : s.memory.node? a = some n) (hn' : s'.memory.node? a = some n') :
    n'.next.marked = n.next.marked := by
  obtain ⟨t, sch, m, nodes, hu, hsheds, hdrops, -, rfl⟩ := h
  change m.node? a = some n' at hn'
  rw [hdrops.node?] at hn'
  split at hn'
  · cases hn'
  · exact hu.mark a n n' hn hn'

end Clears

/-! ### Beside limbo -/

/-- As long as limbo stays as it is, only the chain and the private nodes have to be looked at. -/
theorem Sound.beside_limbo {own' : List Address} (hs : s.Sound own) (hscheme : s'.scheme = s.scheme)
    (hkeep : ∀ b ∈ s.retired, s'.memory.node? b = s.memory.node? b) (hlinked : s.linked ⊆ s'.linked)
    (hhead : s'.head.marked = false) (hpath : s'.memory.Path s'.head.target s'.linked none)
    (hascending : s'.linked.Pairwise s'.Below)
    (hnodup : (s'.linked ++ (s.retired ++ own')).Nodup)
    (hlive : ∀ a, (s'.memory.node? a).isSome = true ↔ a ∈ s'.linked ++ (s.retired ++ own'))
    (hfresh : ∀ a ∈ own', ∀ n, s'.memory.node? a = some n → n.next.marked = false)
    (hbalance : s'.memory.allocated =
      s'.memory.freed + (s'.linked.length + (s.retired.length + own'.length)))
    (htidy : s'.memory.Tidy) : s'.Sound own' := by
  have hretired : s'.retired = s.retired := by rw [SharedSet.retired, hscheme, SharedSet.retired]
  refine ⟨hhead, hpath, hascending, hretired ▸ hnodup, hretired ▸ hlive, ?_, hfresh, ?_, ?_, ?_,
    hretired ▸ hbalance, htidy, ?_⟩
  · intro b hb n hn
    rw [hretired] at hb
    rw [hkeep b hb] at hn
    exact hs.frozen b hb n hn
  · rw [hscheme]
    exact hs.stamped
  · intro hv x hx n b hn hb
    rw [hscheme] at hv hx
    rw [hkeep x.node (List.mem_map_of_mem hx)] at hn
    obtain ⟨y, hy, hyb, hxy⟩ := hs.closed hv x hx n b hn hb
    refine ⟨y, ?_, hyb, hxy⟩
    rw [Dated, hscheme]
    exact hy.imp id fun h => ⟨hlinked h.1, h.2⟩
  · rw [hscheme]
    exact hs.counted
  · rw [hscheme]
    exact hs.scheme

/-! ### Marks and private links -/

/-- The reference of a link on the chain stays when its node is marked, and the link of a private
node may be written as long as it stays unmarked. -/
theorem Sound.rewrite (hs : s.Sound own) {a : Address} {n : Node κ ν} {l : Link Address}
    (hn : s.memory.node? a = some n) (hm : n.next.marked = false)
    (hrel : s.Relinks s' (.node a) l) (hlinked : a ∈ s.linked → l.target = n.next.target)
    (hown : a ∈ own → l.marked = false) :
    s'.linked = s.linked ∧ s'.Sound own ∧ s.Respects s' none := by
  have hother : ∀ b, b ≠ a → s'.memory.node? b = s.memory.node? b :=
    fun b hba => hrel.node?_of_ne fun h => hba (by cases h; rfl)
  have hretired : a ∉ s.retired := by
    intro ha
    have := hs.frozen a ha n hn
    rw [hm] at this
    cases this
  have hpath : s'.memory.Path s'.head.target s.linked none := by
    rw [hrel.head, if_neg (by simp)]
    refine hs.path.congr fun b hb nb hnb => ?_
    by_cases hba : b = a
    · subst hba
      rw [hn] at hnb
      cases hnb
      exact ⟨_, hrel.node?_self hn, hlinked hb⟩
    · exact ⟨nb, (hother b hba).trans hnb, rfl⟩
  have hchain : s'.linked = s.linked := linked_eq hpath hs.nodup_linked
  have hl : s.link? (.node a) = some n.next := by simp [link?, hn]
  refine ⟨hchain, ?_, .of_subset hrel.scheme (fun _ h => hchain ▸ h) fun b nb nb' =>
    hrel.keeps hl hm⟩
  refine hs.beside_limbo hrel.scheme (fun b hb => hother b ?_) (fun _ h => hchain ▸ h) ?_
    (hchain ▸ hpath) ?_ (hchain ▸ hs.nodup) (fun b => ?_) (fun b hb nb hnb => ?_) ?_
    (hrel.tidy hs.tidy)
  · rintro rfl
    exact hretired hb
  · rw [hrel.head, if_neg (by simp)]
    exact hs.head
  · rw [hchain]
    exact hs.ascending.imp fun h => h.relinks hrel
  · rw [hchain, hrel.isSome_node?]
    exact hs.live b
  · by_cases hba : b = a
    · subst hba
      rw [hrel.node?_self hn] at hnb
      cases hnb
      exact hown hb
    · rw [hother b hba] at hnb
      exact hs.fresh b hb nb hnb
  · rw [hrel.allocated, hrel.freed, hchain]
    exact hs.balance

/-! ### Into the chain -/

/-- The key at an address is smaller than `k`. -/
def Under (s : SharedSet κ ν) (k : κ) (a : Address) : Prop :=
  ∀ n, s.memory.node? a = some n → compare n.key k = .lt

/-- The key at an address is greater than `k`. -/
def Over (s : SharedSet κ ν) (k : κ) (a : Address) : Prop :=
  ∀ n, s.memory.node? a = some n → compare k n.key = .lt

theorem Under.of_below [Std.TransOrd κ] {k : κ} {a b : Address} (h : s.Below a b)
    (hlive : ∃ n, s.memory.node? b = some n) (hb : s.Under k b) : s.Under k a := by
  obtain ⟨nb, hnb⟩ := hlive
  exact fun na hna => Std.TransCmp.lt_trans (h na nb hna hnb) (hb nb hnb)

theorem Over.of_below [Std.TransOrd κ] {k : κ} {a b : Address} (h : s.Below a b)
    (hlive : ∃ n, s.memory.node? a = some n) (ha : s.Over k a) : s.Over k b := by
  obtain ⟨na, hna⟩ := hlive
  exact fun nb hnb => Std.TransCmp.lt_trans (ha na hna) (h na nb hna hnb)

/-- A link of the chain that leads from smaller keys to greater ones splits the chain into those
that are smaller and those that are greater. -/
theorem Sound.split_around [Std.TransOrd κ] (hs : s.Sound own) {pl : Place} (hpl : s.OnChain pl)
    {l : Link Address} (hl : s.link? pl = some l) {k : κ}
    (hlow : ∀ a, pl = .node a → s.Under k a) (hhigh : ∀ a, l.target = some a → s.Over k a) :
    ∃ before after, s.linked = before ++ after ∧ s.memory.Path l.target after none ∧
      (∀ a ∈ before, s.Under k a) ∧ (∀ a ∈ after, s.Over k a) ∧
      (∀ a, pl = .node a → a ∈ before) ∧
      ∀ s' l' after', s.Relinks s' pl l' → s'.memory.Path l'.target after' none →
        s'.memory.Path s'.head.target (before ++ after') none := by
  obtain ⟨l₀, before, after, hl₀, hsplit, hafter, hhead, hbefore, hwrite⟩ :=
    exists_split hs.path hs.nodup_linked hpl
  rw [hl] at hl₀
  cases hl₀
  have hasc := hs.ascending
  rw [hsplit, List.pairwise_append] at hasc
  have hlive : ∀ a ∈ before ++ after, ∃ n, s.memory.node? a = some n :=
    fun a ha => hs.live_of_linked (hsplit ▸ ha)
  refine ⟨before, after, hsplit, hafter, ?_, ?_, ?_, hwrite⟩
  · intro a ha
    cases pl with
    | head =>
      rw [hhead rfl] at ha
      cases ha
    | node b =>
      obtain ⟨pre, rfl⟩ := hbefore b rfl
      rcases List.mem_append.1 ha with ha | ha
      · exact (hlow b rfl).of_below ((List.pairwise_append.1 hasc.1).2.2 a ha b (by simp))
          (hlive b (by simp))
      · rw [List.mem_singleton] at ha
        exact ha ▸ hlow b rfl
  · intro a ha
    cases after with
    | nil => cases ha
    | cons c rest =>
      have hc := hhigh c hafter.1
      rcases List.mem_cons.1 ha with rfl | ha
      · exact hc
      · exact hc.of_below (List.rel_of_pairwise_cons hasc.2.1 ha) (hlive c (by simp))
  · intro a ha
    obtain ⟨pre, rfl⟩ := hbefore a ha
    simp

/-- A node may stand between smaller and greater ones. -/
theorem ascending_around {a : Address} {n : Node κ ν} {before after : List Address}
    (h : (before ++ after).Pairwise s.Below) (hn : s.memory.node? a = some n)
    (hunder : ∀ b ∈ before, s.Under n.key b) (hover : ∀ b ∈ after, s.Over n.key b) :
    (before ++ a :: after).Pairwise s.Below := by
  have hasc := List.pairwise_append.1 h
  refine List.pairwise_append.2 ⟨hasc.1, List.pairwise_cons.2 ⟨?_, hasc.2.1⟩, ?_⟩
  · intro c hc x y hx hy
    rw [hn] at hx
    cases hx
    exact hover c hc y hy
  · intro b hb c hc
    rcases List.mem_cons.1 hc with rfl | hc
    · intro x y hx hy
      rw [hn] at hy
      cases hy
      exact hunder b hb x hx
    · exact hasc.2.2 b hb c hc

omit [Ord κ] in
/-- One private node more or less makes no difference to the places of the others. -/
theorem places_cons (linked retired own : List Address) (a : Address) :
    (linked ++ (retired ++ a :: own)).Perm (a :: (linked ++ (retired ++ own))) :=
  (List.perm_middle.append_left _).trans List.perm_middle

/-- A private node whose link is prepared enters the chain between smaller and greater keys. -/
theorem Sound.link [Std.TransOrd κ] {a : Address} (hs : s.Sound (a :: own)) {pl : Place}
    (hpl : s.OnChain pl) {x : Option Address} (hl : s.link? pl = some (.unmarked x))
    {n : Node κ ν} (hn : s.memory.node? a = some n) (hnext : n.next = .unmarked x)
    (hrel : s.Relinks s' pl (.unmarked (some a))) (hlow : ∀ b, pl = .node b → s.Under n.key b)
    (hhigh : ∀ b, x = some b → s.Over n.key b) :
    (∃ before after, s.linked = before ++ after ∧ s'.linked = before ++ a :: after ∧
      (∀ b ∈ before, s.Under n.key b) ∧ ∀ b ∈ after, s.Over n.key b) ∧ s'.Sound own := by
  obtain ⟨before, after, hsplit, hafter, hunder, hover, hpl', hwrite⟩ :=
    hs.split_around hpl hl hlow hhigh
  have ha : a ∉ s.linked := fun h => hs.not_own_of_linked h (by simp)
  have hnode : ∀ b, b ∉ before → s'.memory.node? b = s.memory.node? b :=
    fun b hb => hrel.node?_of_ne fun h => hb (hpl' b h)
  have hoff : ∀ b, b ∉ s.linked → s'.memory.node? b = s.memory.node? b :=
    fun b hb => hnode b fun h => hb (by simp [hsplit, h])
  have hnodup := hs.nodup_linked
  rw [hsplit] at hnodup
  have hperm : (s.linked ++ (s.retired ++ a :: own)).Perm
      ((before ++ a :: after) ++ (s.retired ++ own)) := by
    rw [hsplit]
    exact (places_cons _ _ _ _).trans (List.perm_middle.symm.append_right (s.retired ++ own))
  have hpath : s'.memory.Path s'.head.target (before ++ a :: after) none := by
    refine hwrite s' _ _ hrel ⟨rfl, n, (hoff a ha).trans hn, ?_⟩
    rw [hnext]
    refine hafter.congr_node? fun b hb => hnode b fun h => ?_
    exact (List.nodup_append.1 hnodup).2.2 b h b hb rfl
  have hchain : s'.linked = before ++ a :: after :=
    linked_eq hpath (List.nodup_append.1 (hperm.nodup_iff.1 hs.nodup)).1
  have hsub : s.linked ⊆ s'.linked := by
    intro b hb
    rw [hsplit] at hb
    rw [hchain]
    simp only [List.mem_append, List.mem_cons] at hb ⊢
    exact hb.imp id .inr
  refine ⟨⟨before, after, hsplit, hchain, hunder, hover⟩, ?_⟩
  refine hs.beside_limbo hrel.scheme (fun b hb => hoff b fun h => hs.not_retired_of_linked h hb)
    hsub ?_ (hchain ▸ hpath) ?_ ?_ (fun b => ?_) (fun b hb nb hnb => ?_) ?_ (hrel.tidy hs.tidy)
  · rw [hrel.head]
    split
    · rfl
    · exact hs.head
  · rw [hchain]
    exact (ascending_around (hsplit ▸ hs.ascending) hn hunder hover).imp fun h => h.relinks hrel
  · rw [hchain]
    exact hperm.nodup_iff.1 hs.nodup
  · rw [hchain, hrel.isSome_node?, hs.live b, hperm.mem_iff]
  · rw [hoff b fun h => hs.not_own_of_linked h (by simp [hb])] at hnb
    exact hs.fresh b (by simp [hb]) nb hnb
  · have hlen := hperm.length_eq
    simp only [List.length_append, List.length_cons] at hlen
    have hbal := hs.balance
    simp only [List.length_cons] at hbal
    rw [hrel.allocated, hrel.freed, hchain]
    simp only [List.length_append, List.length_cons]
    omega

omit [Ord κ] in
/-- A node that enters the chain changes nothing that others rely on. -/
theorem respects_link {pl : Place} {x y : Option Address} {before after : List Address}
    {a : Address} (hl : s.link? pl = some (.unmarked x)) (hrel : s.Relinks s' pl (.unmarked y))
    (hsplit : s.linked = before ++ after) (hchain : s'.linked = before ++ a :: after) :
    s.Respects s' none := by
  refine .of_subset hrel.scheme (fun b hb => ?_) fun b nb nb' => hrel.keeps hl rfl
  rw [hsplit] at hb
  rw [hchain]
  simp only [List.mem_append, List.mem_cons] at hb ⊢
  exact hb.imp id .inr

/-! ### Private nodes -/

/-- A set stays sound when memory changes in private nodes only. -/
theorem Sound.reown (hs : s.Sound own) {m : Memory κ ν} (own' : List Address)
    (hnode : ∀ a ∈ s.linked ++ s.retired, m.node? a = s.memory.node? a)
    (hnodup : (s.linked ++ (s.retired ++ own')).Nodup)
    (hlive : ∀ a, (m.node? a).isSome = true ↔ a ∈ s.linked ++ (s.retired ++ own'))
    (hfresh : ∀ a ∈ own', ∀ n, m.node? a = some n → n.next.marked = false)
    (hbalance : m.allocated = m.freed + (s.linked.length + (s.retired.length + own'.length)))
    (htidy : m.Tidy) :
    ({ s with memory := m } : SharedSet κ ν).linked = s.linked ∧
      ({ s with memory := m } : SharedSet κ ν).Sound own' := by
  have hlinked : ∀ a ∈ s.linked, m.node? a = s.memory.node? a :=
    fun a ha => hnode a (List.mem_append_left _ ha)
  have hpath := hs.path.congr_node? hlinked
  have hchain : ({ s with memory := m } : SharedSet κ ν).linked = s.linked :=
    linked_eq hpath hs.nodup_linked
  refine ⟨hchain, hs.beside_limbo rfl (fun b hb => hnode b (List.mem_append_right _ hb))
    (fun _ h => hchain ▸ h) hs.head (hchain ▸ hpath) ?_ (hchain ▸ hnodup) (hchain ▸ hlive) hfresh
    (hchain ▸ hbalance) htidy⟩
  rw [hchain]
  refine hs.ascending.imp_of_mem fun {b c} hb hc hbc x y hx hy => hbc x y ?_ ?_
  · exact (hlinked b hb).symm.trans hx
  · exact (hlinked c hc).symm.trans hy

/-- A change of memory that leaves all nodes but one alone, if that one is on neither side. -/
theorem respects_of_ne (hs : s.Sound own) {m : Memory κ ν} {a : Address}
    (hnode : ∀ b, b ≠ a → m.node? b = s.memory.node? b) (ha : a ∉ s.linked)
    (hone : s.memory.node? a = none ∨ m.node? a = none) :
    s.Respects { s with memory := m } none := by
  have hchain : ({ s with memory := m } : SharedSet κ ν).linked = s.linked := by
    refine linked_eq (hs.path.congr_node? fun b hb => hnode b ?_) hs.nodup_linked
    rintro rfl
    exact ha hb
  refine .of_subset rfl (fun _ h => hchain ▸ h) fun b n n' hn hn' => ?_
  change m.node? b = some n' at hn'
  by_cases hba : b = a
  · subst hba
    rcases hone with h | h
    · rw [h] at hn; cases hn
    · rw [h] at hn'; cases hn'
  · rw [hnode b hba, hn] at hn'
    cases hn'
    exact ⟨rfl, rfl, fun _ => rfl⟩

/-- The node of an insertion is made. -/
theorem Sound.birth (hs : s.Sound own) {m : Memory κ ν} {a : Address} {n : Node κ ν}
    (hb : s.memory.Births m a n) (hn : n.next.marked = false) :
    ({ s with memory := m } : SharedSet κ ν).linked = s.linked ∧
      ({ s with memory := m } : SharedSet κ ν).Sound (a :: own) ∧
      s.Respects { s with memory := m } none := by
  have hdead : ∀ b ∈ s.linked ++ (s.retired ++ own), b ≠ a := by
    rintro b hmem rfl
    have := (hs.live b).2 hmem
    rw [hb.dead] at this
    cases this
  have hnode : ∀ b, b ≠ a → m.node? b = s.memory.node? b :=
    fun b hba => by rw [hb.node?, if_neg hba]
  have hperm := places_cons s.linked s.retired own a
  have hsound : _ ∧ _ := hs.reown (m := m) (a :: own)
    (fun b hmem => hnode b (hdead b ?_)) ?_ (fun b => ?_) ?_ ?_ hb.tidy
  · exact ⟨hsound.1, hsound.2, respects_of_ne hs hnode (fun h => hdead a (by simp [h]) rfl)
      (.inl hb.dead)⟩
  · rcases List.mem_append.1 hmem with h | h <;> simp [h]
  · exact hperm.nodup_iff.2 (List.nodup_cons.2 ⟨fun h => hdead a h rfl, hs.nodup⟩)
  · rw [hperm.mem_iff, hb.node?, List.mem_cons, ← hs.live b]
    by_cases hba : b = a <;> simp [hba]
  · intro b hbo nb hnb
    rw [hb.node?] at hnb
    rcases List.mem_cons.1 hbo with rfl | hbo
    · rw [if_pos rfl] at hnb
      cases hnb
      exact hn
    · rw [if_neg (hdead b (by simp [hbo]))] at hnb
      exact hs.fresh b hbo nb hnb
  · rw [hb.allocated, hb.freed, hs.balance, List.length_cons]
    omega

/-- The node of an insertion is dropped without having been linked. -/
theorem Sound.discard {a : Address} (hs : s.Sound (a :: own)) {m : Memory κ ν}
    (hd : s.memory.Drops m [a]) :
    ({ s with memory := m } : SharedSet κ ν).linked = s.linked ∧
      ({ s with memory := m } : SharedSet κ ν).Sound own ∧
      s.Respects { s with memory := m } none := by
  have hnode : ∀ b, b ≠ a → m.node? b = s.memory.node? b :=
    fun b hba => by rw [hd.node?, if_neg (by simpa using hba)]
  have hperm := places_cons s.linked s.retired own a
  have hnodup := List.nodup_cons.1 (hperm.nodup_iff.1 hs.nodup)
  have hout : ∀ b ∈ s.linked ++ (s.retired ++ own), b ≠ a := by
    rintro b hb rfl
    exact hnodup.1 hb
  have hdead : m.node? a = none := by rw [hd.node?, if_pos (by simp)]
  have hsound : _ ∧ _ := hs.reown (m := m) own
    (fun b hmem => hnode b (hout b ?_)) hnodup.2 (fun b => ?_) ?_ ?_ hd.tidy
  · exact ⟨hsound.1, hsound.2, respects_of_ne hs hnode (fun h => hout a (by simp [h]) rfl)
      (.inr hdead)⟩
  · rcases List.mem_append.1 hmem with h | h <;> simp [h]
  · by_cases hba : b = a
    · rw [hba, hdead]
      simpa using fun h => hout a h rfl
    · rw [hnode b hba, hs.live b, hperm.mem_iff, List.mem_cons]
      exact ⟨fun h => h.resolve_left hba, .inr⟩
  · intro b hbo nb hnb
    rw [hnode b (hout b (by simp [hbo]))] at hnb
    exact hs.fresh b (by simp [hbo]) nb hnb
  · have hbal := hs.balance
    simp only [List.length_cons] at hbal
    rw [hd.allocated, hd.freed, hbal]
    simp only [List.length_cons, List.length_nil]
    omega

end SharedSet

end MarkedChain
