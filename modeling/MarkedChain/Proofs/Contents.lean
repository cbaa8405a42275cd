import MarkedChain.Proofs.Ledger
import MarkedChain.Proofs.Evolution

/-!
# What the contents of a set are and what changes them

The contents of a sound set are a ledger in ascending order. An insertion that links in its node and
a removal that marks one do to the contents what `Ledger.serve` says of their calls
(`Sound.serve_insert`, `Sound.serve_remove`). Taking a marked node out of the chain, freeing nodes
and all that concerns records leaves the contents as they are.
-/

namespace MarkedChain

variable {κ ν : Type}

namespace SharedSet

/-- The key and the value of a node, unless it is marked. -/
def pair? (s : SharedSet κ ν) (a : Address) : Option (κ × ν) :=
  (s.memory.node? a).bind fun n => if n.next.marked then none else some (n.key, n.value)

variable {s s' : SharedSet κ ν}

theorem contents_eq (s : SharedSet κ ν) : s.contents = s.linked.filterMap s.pair? := by
  refine congrArg (List.filterMap · s.linked) (funext fun a => ?_)
  rw [pair?]
  cases s.memory.node? a <;> rfl

theorem pair?_eq {a : Address} {n : Node κ ν} (hn : s.memory.node? a = some n) :
    s.pair? a = if n.next.marked then none else some (n.key, n.value) := by
  rw [pair?, hn]
  rfl

theorem pair?_eq_some {a : Address} {p : κ × ν} (h : s.pair? a = some p) :
    ∃ n, s.memory.node? a = some n ∧ n.next.marked = false ∧ p = (n.key, n.value) := by
  obtain ⟨n, hn, hp⟩ := Option.bind_eq_some_iff.1 h
  split at hp
  · cases hp
  · next hm =>
    cases hp
    exact ⟨n, hn, by simpa using hm, rfl⟩

theorem mem_contents {p : κ × ν} : p ∈ s.contents ↔ ∃ a n, a ∈ s.linked ∧
    s.memory.node? a = some n ∧ n.next.marked = false ∧ p = (n.key, n.value) := by
  rw [contents_eq, List.mem_filterMap]
  constructor
  · rintro ⟨a, ha, hp⟩
    obtain ⟨n, hn, hm, rfl⟩ := pair?_eq_some hp
    exact ⟨a, n, ha, hn, hm, rfl⟩
  · rintro ⟨a, n, ha, hn, hm, rfl⟩
    exact ⟨a, ha, by simp [pair?_eq hn, hm]⟩

/-- The entry of a node stays as long as its key, its value and its mark do. -/
theorem pair?_congr {a : Address} {n n' : Node κ ν} (hn : s.memory.node? a = some n)
    (hn' : s'.memory.node? a = some n') (hkey : n'.key = n.key) (hvalue : n'.value = n.value)
    (hm : n'.next.marked = n.next.marked) : s'.pair? a = s.pair? a := by
  rw [pair?_eq hn, pair?_eq hn', hkey, hvalue, hm]

theorem contents_congr (hlinked : s'.linked = s.linked)
    (hentry : ∀ a ∈ s.linked, s'.pair? a = s.pair? a) : s'.contents = s.contents := by
  rw [contents_eq, contents_eq, hlinked]
  exact List.filterMap_congr hentry

theorem contents_congr_node? (hlinked : s'.linked = s.linked)
    (hnode : ∀ a ∈ s.linked, s'.memory.node? a = s.memory.node? a) : s'.contents = s.contents :=
  contents_congr hlinked fun a ha => by rw [pair?, pair?, hnode a ha]

/-- Entries stay when a link is written that keeps its mark. -/
theorem Relinks.pair? {pl : Place} {l l' : Link Address} (h : s.Relinks s' pl l')
    (hl : s.link? pl = some l) (hm : l'.marked = l.marked) (a : Address) :
    s'.pair? a = s.pair? a := by
  have hsome := h.isSome_node? a
  cases hn : s.memory.node? a with
  | none =>
    rw [hn, Option.isSome_none, Option.isSome_eq_false_iff, Option.isNone_iff_eq_none] at hsome
    simp [SharedSet.pair?, hn, hsome]
  | some n =>
    rw [hn, Option.isSome_some] at hsome
    obtain ⟨n', hn'⟩ := Option.isSome_iff_exists.1 hsome
    obtain ⟨hkey, hvalue, -⟩ := h.same hn hn'
    exact pair?_congr hn hn' hkey hvalue (h.same_mark hl hm hn hn')

variable [Ord κ] {own : List Address}

theorem Under.lt_of_mem {k : κ} {l : List Address} (h : ∀ a ∈ l, s.Under k a) :
    ∀ p ∈ l.filterMap s.pair?, compare p.1 k = .lt := by
  intro p hp
  obtain ⟨a, ha, hp⟩ := List.mem_filterMap.1 hp
  obtain ⟨n, hn, -, rfl⟩ := pair?_eq_some hp
  exact h a ha n hn

theorem Over.lt_of_mem {k : κ} {l : List Address} (h : ∀ a ∈ l, s.Over k a) :
    ∀ p ∈ l.filterMap s.pair?, compare k p.1 = .lt := by
  intro p hp
  obtain ⟨a, ha, hp⟩ := List.mem_filterMap.1 hp
  obtain ⟨n, hn, -, rfl⟩ := pair?_eq_some hp
  exact h a ha n hn

theorem Sound.ascending_contents (hs : s.Sound own) :
    s.contents.Pairwise fun p q => compare p.1 q.1 = .lt := by
  rw [contents_eq]
  refine hs.ascending.filterMap _ fun a b hab p hp q hq => ?_
  obtain ⟨n, hn, -, rfl⟩ := pair?_eq_some hp
  obtain ⟨n', hn', -, rfl⟩ := pair?_eq_some hq
  exact hab n n' hn hn'

/-! ## What is found under a key -/

variable [Std.TransOrd κ]

/-- The chain around a node on it. -/
theorem Sound.split_at (hs : s.Sound own) {a : Address} {n : Node κ ν} (ha : a ∈ s.linked)
    (hn : s.memory.node? a = some n) {k : κ} (hk : compare n.key k = .eq) :
    ∃ before after, s.linked = before ++ a :: after ∧ (∀ b ∈ before, s.Under k b) ∧
      ∀ b ∈ after, s.Over k b := by
  obtain ⟨before, after, hsplit⟩ := List.append_of_mem ha
  have hasc := hs.ascending
  rw [hsplit, List.pairwise_append, List.pairwise_cons] at hasc
  obtain ⟨-, ⟨hafter, -⟩, hbefore⟩ := hasc
  refine ⟨before, after, hsplit, ?_, ?_⟩
  · intro b hb nb hnb
    exact Std.TransCmp.lt_of_lt_of_eq (hbefore b hb a (by simp) nb n hnb hn) hk
  · intro b hb nb hnb
    exact Std.TransCmp.lt_of_eq_of_lt (Std.OrientedCmp.eq_symm hk) (hafter b hb n nb hn hnb)

/-- Nodes of the chain with equal keys are the same. -/
theorem Sound.eq_of_key (hs : s.Sound own) {a b : Address} {n n' : Node κ ν} (ha : a ∈ s.linked)
    (hb : b ∈ s.linked) (hn : s.memory.node? a = some n) (hn' : s.memory.node? b = some n')
    (heq : compare n'.key n.key = .eq) : b = a := by
  obtain ⟨before, after, hsplit, hlow, hhigh⟩ := hs.split_at ha hn Std.ReflCmp.compare_self
  rw [hsplit, List.mem_append, List.mem_cons] at hb
  rcases hb with hb | hb | hb
  · rw [hlow b hb n' hn'] at heq
    cases heq
  · exact hb
  · have hlt := hhigh b hb n' hn'
    rw [Std.OrientedCmp.eq_symm heq] at hlt
    cases hlt

/-- What is found under the key of an unmarked node of the chain. -/
theorem Sound.find?_of_unmarked (hs : s.Sound own) {a : Address} {n : Node κ ν}
    (ha : a ∈ s.linked) (hn : s.memory.node? a = some n) (hm : n.next.marked = false) {k : κ}
    (hk : compare n.key k = .eq) : Ledger.find? k s.contents = some (n.key, n.value) :=
  Ledger.find?_eq_some hs.ascending_contents (mem_contents.2 ⟨a, n, ha, hn, hm, rfl⟩) hk

/-- Nothing is found under the key of a marked node of the chain. -/
theorem Sound.find?_of_marked (hs : s.Sound own) {a : Address} {n : Node κ ν}
    (ha : a ∈ s.linked) (hn : s.memory.node? a = some n) (hm : n.next.marked = true) {k : κ}
    (hk : compare n.key k = .eq) : Ledger.find? k s.contents = none := by
  refine Ledger.find?_eq_none.2 fun p hp heq => ?_
  obtain ⟨b, n', hb, hn', hm', rfl⟩ := mem_contents.1 hp
  cases hs.eq_of_key ha hb hn hn' (Std.TransCmp.eq_trans heq (Std.OrientedCmp.eq_symm hk))
  rw [hn] at hn'
  cases hn'
  rw [hm] at hm'
  cases hm'

/-- Nothing is found under the key of a node that has just left the chain. -/
theorem Sound.find?_of_left (hs : s.Sound own) {a : Address} {n : Node κ ν} (ha : a ∈ s.linked)
    (hn : s.memory.node? a = some n) (hout : a ∉ s'.linked) (hsub : s'.linked ⊆ s.linked)
    (hkeys : ∀ b n n', s.memory.node? b = some n → s'.memory.node? b = some n' → n'.key = n.key)
    {k : κ} (hk : compare n.key k = .eq) : Ledger.find? k s'.contents = none := by
  refine Ledger.find?_eq_none.2 fun p hp heq => hout ?_
  obtain ⟨b, nb', hb, hnb', -, rfl⟩ := mem_contents.1 hp
  obtain ⟨nb, hnb⟩ := hs.live_of_linked (hsub hb)
  rw [hkeys b nb nb' hnb hnb'] at heq
  have hba := hs.eq_of_key ha (hsub hb) hn hnb
    (Std.TransCmp.eq_trans heq (Std.OrientedCmp.eq_symm hk))
  exact hba ▸ hb

/-! ## What changes the contents -/

/-- Linking in the node of an insertion. -/
theorem Sound.serve_insert {s₁ s₂ : SharedSet κ ν} {r : Nat} {fresh : Address} {key : κ}
    {p : Point} {pred : Place} {x : Option Address} (hs : s.Sound (fresh :: own))
    (hf : Frame.Fits s r ⟨.insert fresh key, p⟩) (hgap : Gap s key p pred x)
    (hprepare : s.Relinks s₁ (.node fresh) (.unmarked x))
    (hl : s₁.link? pred = some (.unmarked x))
    (hwrite : s₁.Relinks s₂ pred (.unmarked (some fresh))) {n : Node κ ν}
    (hn : s.memory.node? fresh = some n) :
    Ledger.serve s.contents (.insert key n.value) = (s₂.contents, some .inserted) := by
  obtain ⟨⟨before, after, hsplit, hchain, hlow, hhigh⟩, -⟩ :=
    hs.insert hf hgap hprepare hl hwrite
  have hkey : n.key = key := hf.task fresh key rfl n hn
  have hlink : s.link? (.node fresh) = some n.next := by simp [link?, hn]
  have hm := hs.fresh fresh List.mem_cons_self n hn
  have hentry₁ : s₁.contents = s.contents :=
    contents_congr (hs.prepare hprepare).1 fun a _ => hprepare.pair? hlink hm.symm a
  have hentry₂ : ∀ a, s₂.pair? a = s₁.pair? a := hwrite.pair? hl rfl
  have hfresh : s₁.pair? fresh = some (key, n.value) := by
    rw [pair?_eq (hprepare.node?_self hn), hkey]
    rfl
  have hc : s.contents = before.filterMap s₁.pair? ++ after.filterMap s₁.pair? := by
    rw [← hentry₁, contents_eq, (hs.prepare hprepare).1, hsplit, List.filterMap_append]
  have hc₂ : s₂.contents =
      before.filterMap s₁.pair? ++ (key, n.value) :: after.filterMap s₁.pair? := by
    rw [contents_eq, hchain, funext hentry₂, List.filterMap_append,
      List.filterMap_cons_some hfresh]
  rw [Ledger.serve, hc, Ledger.find?_between (Under.lt_of_mem hlow) (Over.lt_of_mem hhigh),
    Ledger.place_between _ (Under.lt_of_mem hlow) (Over.lt_of_mem hhigh), hc₂]

/-- Marking a node. -/
theorem Sound.serve_remove {s₁ : SharedSet κ ν} (hs : s.Sound own) {curr : Address} {n : Node κ ν}
    (hcurr : curr ∈ s.linked) (hn : s.memory.node? curr = some n) (hm : n.next.marked = false)
    (hmark : s.Relinks s₁ (.node curr) (n.next.setMark true)) (hlinked : s₁.linked = s.linked)
    {key : κ} (heq : compare n.key key = .eq) :
    Ledger.serve s.contents (.remove key) = (s₁.contents, some .removed) := by
  obtain ⟨before, after, hsplit, hlow, hhigh⟩ := hs.split_at hcurr hn heq
  have hnodup := hs.nodup_linked
  rw [hsplit, List.nodup_append, List.nodup_cons] at hnodup
  obtain ⟨-, ⟨hafter, -⟩, hbefore⟩ := hnodup
  have hentry : ∀ a, a ≠ curr → s₁.pair? a = s.pair? a := fun a ha => by
    rw [pair?, pair?, hmark.node?_of_ne fun h => ha (by cases h; rfl)]
  have hin : s.pair? curr = some (n.key, n.value) := by rw [pair?_eq hn, hm, if_neg (by decide)]
  have hout : s₁.pair? curr = none := by
    rw [pair?_eq (hmark.node?_self hn)]
    rfl
  have hc : s.contents =
      before.filterMap s.pair? ++ (n.key, n.value) :: after.filterMap s.pair? := by
    rw [contents_eq, hsplit, List.filterMap_append, List.filterMap_cons_some hin]
  have hc₁ : s₁.contents = before.filterMap s.pair? ++ after.filterMap s.pair? := by
    rw [contents_eq, hlinked, hsplit, List.filterMap_append, List.filterMap_cons_none hout]
    rw [List.filterMap_congr fun a ha => hentry a fun h => hbefore a ha curr (by simp) h,
      List.filterMap_congr fun a ha => hentry a fun h => hafter (h ▸ ha)]
  have hfind := hs.find?_of_unmarked hcurr hn hm heq
  rw [Ledger.serve, hfind]
  dsimp only
  rw [hc, Ledger.erase_between heq (Under.lt_of_mem hlow) (Over.lt_of_mem hhigh), hc₁]

/-! ## What leaves them as they are -/

omit [Std.TransOrd κ] in
/-- When a marked node is taken out of the chain, the entries of the others stay. -/
theorem Clears.pair? {curr : Address} {drops : List ν} (h : s.Clears s' curr drops)
    (hs : s.Sound own) {n : Node κ ν} (hn : s.memory.node? curr = some n)
    (hm : n.next.marked = true) {a : Address} (ha : a ∈ s'.linked) : s'.pair? a = s.pair? a := by
  obtain ⟨n', hn'⟩ := (h.sound hs hn hm).live_of_linked ha
  obtain ⟨n₀, hn₀⟩ :=
    Option.isSome_iff_exists.1 (h.unborn.live (Option.isSome_iff_exists.2 ⟨n', hn'⟩))
  obtain ⟨hkey, hvalue, -⟩ := (h.respects hs hn hm).node a n₀ n' hn₀ hn'
  exact pair?_congr hn₀ hn' hkey hvalue (h.mark hn₀ hn')

omit [Std.TransOrd κ] in
/-- Taking a marked node out of the chain. -/
theorem Clears.contents {curr : Address} {drops : List ν} (h : s.Clears s' curr drops)
    (hs : s.Sound own) {n : Node κ ν} (hn : s.memory.node? curr = some n)
    (hm : n.next.marked = true) : s'.contents = s.contents := by
  obtain ⟨before, rest, hsplit, hlinked⟩ := h.linked hs hn hm
  have hentry : ∀ a ∈ before ++ rest, s'.pair? a = s.pair? a :=
    fun a ha => h.pair? hs hn hm (hlinked ▸ ha)
  have hcurr : s.pair? curr = none := by rw [pair?_eq hn, if_pos hm]
  rw [contents_eq, contents_eq, hlinked, hsplit, List.filterMap_congr hentry,
    List.filterMap_append, List.filterMap_append, List.filterMap_cons_none hcurr]

omit [Std.TransOrd κ] in
/-- Freeing what no record covers. -/
theorem Sound.contents_shed (hs : s.Sound own) {sch : Scheme Address} {m : Memory κ ν}
    {nodes : List Address} (hsch : s.scheme.Sheds sch nodes) (hm : s.memory.Drops m nodes) :
    ({ s with scheme := sch, memory := m } : SharedSet κ ν).contents = s.contents := by
  have hsw := hs.swept hsch hm
  refine contents_congr_node? hsw.linked fun a ha => hsw.node? a fun h => ?_
  exact hs.not_retired_of_linked ha (hsw.subset h)

omit [Std.TransOrd κ] in
/-- Dropping the node of an insertion. -/
theorem Sound.contents_discard {a : Address} (hs : s.Sound (a :: own)) {m : Memory κ ν}
    (hd : s.memory.Drops m [a]) :
    ({ s with memory := m } : SharedSet κ ν).contents = s.contents := by
  refine contents_congr_node? (hs.discard hd).1 fun b hb => ?_
  refine (hd.node? b).trans (if_neg fun h => ?_)
  exact hs.not_own_of_linked hb (List.mem_singleton.1 h ▸ List.mem_cons_self)

omit [Std.TransOrd κ] in
/-- Beginning an operation. -/
theorem contents_opens {t : SharedSet κ ν} {call : Call κ ν} {task : Task κ}
    (h : Opens s call task t) (hs : s.Sound own) : t.contents = s.contents := by
  cases h with
  | @insert key value m a hbirth =>
    refine contents_congr_node? (hs.birth hbirth rfl).1 fun b hb => ?_
    refine (hbirth.node? b).trans (if_neg ?_)
    rintro rfl
    obtain ⟨n, hn⟩ := hs.live_of_linked hb
    rw [hbirth.dead] at hn
    cases hn
  | plain => rfl

end SharedSet

end MarkedChain
