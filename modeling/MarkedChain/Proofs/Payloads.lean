import MarkedChain.Proofs.Pursuit

/-!
# What becomes of the values that a set is given

A live node carries a value from its making to its end. `SharedSet.stored` are the values of all
live nodes, wherever they are. `SharedSet.Frees` describes a step by the nodes that it frees: their
values are handed out, all others stay (`Frees.perm`). Every move of an operation frees marked nodes
or the node of an insertion that was refused (`Move.frees`), so that with every action the values
handed over and those that were stored before are those dropped and those stored after
(`Passage.stored_perm`).
-/

namespace MarkedChain

variable {κ ν : Type}

namespace SharedSet

/-- The value of the live node at an address. -/
def value? (s : SharedSet κ ν) (a : Address) : Option ν := (s.memory.node? a).map Node.value

/-- The live nodes by their addresses. -/
def live (s : SharedSet κ ν) : List Address :=
  (List.range s.memory.cells.size).filter fun a => (s.value? a).isSome

/-- The values of all live nodes. -/
def stored (s : SharedSet κ ν) : List ν := s.live.filterMap s.value?

variable {s s' s₁ s₂ : SharedSet κ ν}

theorem value?_eq {a : Address} {n : Node κ ν} (hn : s.memory.node? a = some n) :
    s.value? a = some n.value := by
  rw [value?, hn, Option.map_some]

@[simp] theorem isSome_value? (s : SharedSet κ ν) (a : Address) :
    (s.value? a).isSome = (s.memory.node? a).isSome := Option.isSome_map

/-- Values stay where nodes do and keep theirs. -/
theorem value?_congr (hlive : ∀ a, (s'.memory.node? a).isSome = (s.memory.node? a).isSome)
    (hvalue : ∀ a n n', s.memory.node? a = some n → s'.memory.node? a = some n' →
      n'.value = n.value) : s'.value? = s.value? := by
  funext a
  cases hn' : s'.memory.node? a with
  | none =>
    have hnone := hlive a
    rw [hn', Option.isSome_none, eq_comm, Option.isSome_eq_false_iff,
      Option.isNone_iff_eq_none] at hnone
    rw [value?, value?, hn', hnone]
  | some n' =>
    obtain ⟨n, hn⟩ := Option.isSome_iff_exists.1 ((hlive a).symm.trans (by rw [hn']; rfl))
    rw [value?_eq hn, value?_eq hn', hvalue a n n' hn hn']

theorem mem_live {a : Address} : a ∈ s.live ↔ (s.value? a).isSome = true := by
  rw [live, List.mem_filter, List.mem_range]
  refine ⟨And.right, fun ha => ⟨?_, ha⟩⟩
  obtain ⟨n, hn⟩ := Option.isSome_iff_exists.1 (s.isSome_value? a ▸ ha)
  exact Memory.lt_size_of_node? hn

theorem nodup_live (s : SharedSet κ ν) : s.live.Nodup := List.nodup_range.filter _

/-- The live nodes may be listed in any order. -/
theorem stored_perm {l : List Address} (hnodup : l.Nodup)
    (hlive : ∀ a, (s.value? a).isSome = true ↔ a ∈ l) : s.stored.Perm (l.filterMap s.value?) := by
  refine List.Perm.filterMap _ ((List.perm_ext_iff_of_nodup s.nodup_live hnodup).2 fun a => ?_)
  rw [mem_live, hlive]

theorem Sound.stored_perm [Ord κ] {own : List Address} (hs : s.Sound own) :
    s.stored.Perm ((s.linked ++ (s.retired ++ own)).filterMap s.value?) :=
  SharedSet.stored_perm hs.nodup fun a => by rw [isSome_value?, hs.live a]

/-! ## Freeing nodes -/

/-- Exactly these nodes were freed, and their values were handed out in order. -/
structure Frees (s s' : SharedSet κ ν) (nodes : List Address) (drops : List ν) : Prop where
  nodup : nodes.Nodup
  live : ∀ a ∈ nodes, (s.value? a).isSome = true
  value? : ∀ a, s'.value? a = if a ∈ nodes then none else s.value? a
  drops : drops = nodes.filterMap s.value?

namespace Frees

variable {nodes : List Address} {drops : List ν}

theorem of_eq (h : s'.value? = s.value?) : s.Frees s' [] [] :=
  ⟨.nil, by simp, fun a => by rw [h]; simp, rfl⟩

/-- Only the values matter. -/
theorem congr (h : s₁.Frees s₂ nodes drops) (hbefore : s₁.value? = s.value?)
    (hafter : s'.value? = s₂.value?) : s.Frees s' nodes drops :=
  ⟨h.nodup, hbefore ▸ h.live, fun a => by rw [hafter, h.value?, hbefore], hbefore ▸ h.drops⟩

theorem of_drops (sch : Scheme Address) {m : Memory κ ν} (h : s.memory.Drops m nodes)
    (hnodup : nodes.Nodup) (hlive : ∀ a ∈ nodes, ∃ n, s.memory.node? a = some n) :
    s.Frees { s with scheme := sch, memory := m } nodes (nodes.filterMap s.value?) where
  nodup := hnodup
  live a ha := (s.isSome_value? a).trans (Option.isSome_iff_exists.2 (hlive a ha))
  value? a := by
    rw [SharedSet.value?, h.node?]
    split <;> rfl
  drops := rfl

/-- A node that is still there was not freed, and its value is what it was. -/
theorem kept (h : s.Frees s' nodes drops) {a : Address} (ha : a ∈ s'.live) :
    a ∉ nodes ∧ s.value? a = s'.value? a := by
  have hvalue := h.value? a
  rw [mem_live] at ha
  split at hvalue
  · rw [hvalue] at ha
    cases ha
  · next hmem => exact ⟨hmem, hvalue.symm⟩

/-- The values that were stored are those handed out and those that are still stored. -/
theorem perm (h : s.Frees s' nodes drops) : s.stored.Perm (drops ++ s'.stored) := by
  have hnodup : (nodes ++ s'.live).Nodup := by
    refine List.nodup_append.2 ⟨h.nodup, s'.nodup_live, ?_⟩
    rintro a ha b hb rfl
    exact (h.kept hb).1 ha
  have hperm : s.stored.Perm ((nodes ++ s'.live).filterMap s.value?) := by
    refine stored_perm hnodup fun a => ?_
    rw [List.mem_append, mem_live, h.value?]
    by_cases ha : a ∈ nodes
    · simp [ha, h.live a ha]
    · simp [ha]
  rwa [List.filterMap_append, ← h.drops, List.filterMap_congr fun a ha => (h.kept ha).2] at hperm

/-- The value of a node that is gone was handed out. -/
theorem mem_drops (h : s.Frees s' nodes drops) {a : Address} {n : Node κ ν}
    (hn : s.memory.node? a = some n) (hgone : s'.memory.node? a = none) :
    a ∈ nodes ∧ n.value ∈ drops := by
  have hmem : a ∈ nodes := by
    by_contra hmem
    have hvalue := h.value? a
    rw [if_neg hmem, value?_eq hn, SharedSet.value?, hgone] at hvalue
    cases hvalue
  exact ⟨hmem, h.drops ▸ List.mem_filterMap.2 ⟨a, hmem, value?_eq hn⟩⟩

end Frees

/-- A write of a link leaves all values where they are. -/
theorem Relinks.value? {pl : Place} {l : Link Address} (h : s.Relinks s' pl l) :
    s'.value? = s.value? :=
  value?_congr h.isSome_node? fun _ _ _ hn hn' => (h.same hn hn').2.1

variable [Ord κ] {own : List Address}

/-- A sweep frees marked nodes. -/
theorem Sound.frees_shed (hs : s.Sound own) {sch : Scheme Address} {m : Memory κ ν}
    {nodes : List Address} (hsch : s.scheme.Sheds sch nodes) (hm : s.memory.Drops m nodes) :
    s.Frees { s with scheme := sch, memory := m } nodes (nodes.filterMap s.value?) ∧
      nodes ⊆ s.retired := by
  have hsw := hs.swept hsch hm
  exact ⟨.of_drops _ hm hsw.nodup fun a ha => hs.live_of_retired (hsw.subset ha), hsw.subset⟩

/-- Nodes in limbo are marked. -/
theorem Sound.marked_of_retired (hs : s.Sound own) {a : Address} (ha : a ∈ s.retired) :
    s.Marked a := by
  obtain ⟨n, hn⟩ := hs.live_of_retired ha
  exact ⟨n, hn, hs.frozen a ha n hn⟩

/-- Taking a marked node out of the chain frees nodes from limbo, and the node itself only if no
record covers it. -/
theorem Clears.frees {curr : Address} {drops : List ν} (h : s.Clears s' curr drops)
    (hs : s.Sound own) {n : Node κ ν} (hn : s.memory.node? curr = some n)
    (hm : n.next.marked = true) :
    ∃ nodes, s.Frees s' nodes drops ∧ (∀ a ∈ nodes, a ∈ s.retired ∨ a = curr) ∧
      ∀ r slot, s.Held r slot curr → curr ∉ nodes := by
  obtain ⟨t, sch, m, nodes, hu, hsheds, hdrops, rfl, rfl⟩ := h
  have ht := hs.unlink hu hn hm
  obtain ⟨hfrees, hsub⟩ := ht.frees_shed hsheds hdrops
  have hvalue : t.value? = s.value? :=
    value?_congr hu.isSome fun a x y hx hy => (hu.node a x y hx hy).2.1
  refine ⟨nodes, hfrees.congr hvalue rfl, fun a ha => ?_, fun r slot hheld hmem => ?_⟩
  · have hat := hsub ha
    rw [hu.retired] at hat
    exact (List.mem_cons.1 hat).symm
  · have hcurr : curr ∈ t.retired := hsub hmem
    obtain ⟨x, hx, rfl, hcovers⟩ := hu.respects.held r (by simp) slot curr hheld
    rcases hx with hx | ⟨hx, -⟩
    · exact (ht.swept hsheds hdrops).uncovered x hx hmem r slot hcovers
    · exact ht.not_retired_of_linked hx hcurr

end SharedSet

variable [Ord κ] {s : SharedSet κ ν} {who : Actor} {f : Frame κ}
  {st : Stride κ ν} {own : List Address}

/-- A move of an operation frees nodes that were marked before, or the node of an insertion that
ends without having linked it. -/
theorem Move.frees (h : Move s who f st) (hs : s.Sound (f.own ++ own)) (hf : f.Fits s who.record)
    (hd : s.scheme.depth? who.record = some 1) :
    ∃ nodes, s.Frees st.set nodes st.drops ∧ ∀ a ∈ nodes, s.Marked a ∨
      nodes = [a] ∧ f.task.node? = some a ∧ st.next = .ends .alreadyPresent := by
  have hnone : ∀ {s' : SharedSet κ ν}, s'.value? = s.value? →
      ∃ nodes, s.Frees s' nodes [] ∧ ∀ a ∈ nodes, s.Marked a ∨
        nodes = [a] ∧ f.task.node? = some a ∧ st.next = .ends .alreadyPresent :=
    fun hvalue => ⟨[], .of_eq hvalue, by simp⟩
  cases h with
  | start | finish | look | stray | follow | pass | stop | beaten | tell => exact hnone rfl
  | @clear t pred curr n s' drops hn hm hl hclears =>
    have hs₁ := hs.publish hd .succ n.next.target
    obtain ⟨nodes, hfrees, hsub, -⟩ := hclears.frees hs₁ hn hm
    refine ⟨nodes, hfrees.congr rfl rfl, fun a ha => .inl ?_⟩
    rcases hsub a ha with ha | rfl
    · exact hs₁.marked_of_retired ha
    · exact ⟨n, hn, hm⟩
  | @reject fresh key pred curr n n₀ next m hn heq hn₀ hdrops =>
    refine ⟨[fresh], ?_, fun a ha => .inr ?_⟩
    · have hfrees := SharedSet.Frees.of_drops s.scheme hdrops (List.nodup_singleton _)
        fun a ha => ⟨n₀, List.mem_singleton.1 ha ▸ hn₀⟩
      rwa [List.filterMap_cons_some (SharedSet.value?_eq hn₀)] at hfrees
    · rw [List.mem_singleton.1 ha]
      exact ⟨rfl, rfl, rfl⟩
  | insert hgap hprepare hl hwrite => exact hnone (hwrite.value?.trans hprepare.value?)
  | retry hgap hprepare hl hne => exact hnone hprepare.value?
  | mark pred next hn heq hm hmark hl hne => exact hnone hmark.value?
  | @remove key pred curr n next s₁ s₂ drops hn heq hm hmark hl hclears =>
    obtain ⟨-, hcurr, -⟩ := hf.point
    obtain ⟨-, -, hs₁, hresp⟩ := hs.mark hcurr hn hm hmark
    obtain ⟨nodes, hfrees, hsub, hkept⟩ := hclears.frees hs₁ (hmark.node?_self hn) rfl
    refine ⟨nodes, hfrees.congr hmark.value? rfl, fun a ha => .inl ?_⟩
    rcases hsub a ha with hret | rfl
    · rw [SharedSet.retired, hmark.scheme] at hret
      exact hs.marked_of_retired hret
    · -- the operation still publishes the node that it has just marked
      exact absurd ha (hkept who.record .curr (hresp.held _ (by simp) _ _ hcurr))

omit [Ord κ] in
/-- A call hands its value over to the node that it makes. -/
theorem Opens.stored_perm {t : SharedSet κ ν} {call : Call κ ν} {task : Task κ}
    (h : Opens s call task t) : (call.payload ++ s.stored).Perm t.stored := by
  cases h with
  | @insert key value m a hbirth =>
    have hvalue : ∀ b, ({ s with memory := m } : SharedSet κ ν).value? b =
        if b = a then some value else s.value? b := by
      intro b
      rw [SharedSet.value?, hbirth.node?]
      split <;> rfl
    have hdead : s.value? a = none := by rw [SharedSet.value?, hbirth.dead, Option.map_none]
    have hout : ∀ b ∈ s.live, b ≠ a := by
      rintro b hb rfl
      rw [SharedSet.mem_live, hdead] at hb
      cases hb
    have hnodup : (a :: s.live).Nodup :=
      List.nodup_cons.2 ⟨fun ha => hout a ha rfl, s.nodup_live⟩
    have hperm : SharedSet.stored { s with memory := m } |>.Perm
        ((a :: s.live).filterMap ({ s with memory := m } : SharedSet κ ν).value?) := by
      refine SharedSet.stored_perm hnodup fun b => ?_
      rw [hvalue, List.mem_cons, SharedSet.mem_live]
      by_cases hb : b = a <;> simp [hb]
    rw [List.filterMap_cons_some (by rw [hvalue, if_pos rfl]), List.filterMap_congr fun b hb => by
      rw [hvalue, if_neg (hout b hb)]] at hperm
    exact hperm.symm
  | plain htask =>
    cases call <;> cases htask <;> exact .refl _

/-! ## Worlds -/

omit [Ord κ] in
/-- Exchanging one summand. -/
theorem perm_flatMap_set {α β : Type} {f : α → List β} {l : List α} {i : Nat} {a a' : α}
    {xs ys : List β} (ha : l[i]? = some a) (h : (xs ++ f a).Perm (ys ++ f a')) :
    (xs ++ l.flatMap f).Perm (ys ++ (l.set i a').flatMap f) := by
  induction l generalizing i with
  | nil => cases ha
  | cons b l ih =>
    cases i with
    | zero =>
      cases ha
      simpa using h.append_right (l.flatMap f)
    | succ i =>
      have hrest : (xs ++ l.flatMap f).Perm (ys ++ (l.set i a').flatMap f) := ih ha
      rw [List.set_cons_succ, List.flatMap_cons, List.flatMap_cons]
      refine (List.perm_append_comm_assoc xs (f b) _).trans ?_
      refine (hrest.append_left (f b)).trans ?_
      exact List.perm_append_comm_assoc (f b) ys _

namespace World

variable {w : World κ ν}

/-- The values of all live nodes of all sets. -/
def stored (w : World κ ν) : List ν := w.sets.toList.flatMap SharedSet.stored

omit [Ord κ] in
/-- What one set takes in and lets go of, all sets together do. -/
theorem stored_setSet {i : Nat} {s s' : SharedSet κ ν} (hs : w.sets[i]? = some s) (xs ys : List ν)
    (h : (xs ++ s.stored).Perm (ys ++ s'.stored)) :
    (xs ++ w.stored).Perm (ys ++ (w.setSet i s').stored) := by
  rw [stored, stored, setSet, Array.toList_setIfInBounds]
  exact perm_flatMap_set (by rwa [Array.getElem?_toList]) h

end World

variable {w : World κ ν} {a : Action κ ν} {o : Outcome κ ν}

/-- The values that are handed over with an action and those stored before are those that it drops
and those stored after. -/
theorem Passage.stored_perm (h : Passage w a o) (hw : w.Sound) :
    (a.payload ++ w.stored).Perm (o.drops ++ o.world.stored) := by
  cases h with
  | misuse _ _ _ _ hdrops => rw [hdrops]
  | sweep _ _ _ _ hs hsheds hdrops _ hpayload hvalues =>
    rw [hpayload, hvalues]
    exact World.stored_setSet hs _ _ ((hw.sets _ _ hs).frees_shed hsheds hdrops).1.perm
  | register hs => exact World.stored_setSet hs [] [] (.refl _)
  | release _ _ hs => exact World.stored_setSet hs [] [] (.refl _)
  | resume _ _ hs => exact World.stored_setSet hs [] [] (.refl _)
  | begin h i lane call offer hx hidle hset hs hopens =>
    exact World.stored_setSet hs _ [] hopens.stored_perm
  | goes hrun hx hs hmove =>
    obtain ⟨-, hfits, hd, hsound⟩ := hw.top hrun hx hs
    obtain ⟨nodes, hfrees, -⟩ := hmove.frees hsound hfits hd
    exact World.stored_setSet hs [] _ hfrees.perm
  | ends hrun hx hs hmove =>
    obtain ⟨-, hfits, hd, hsound⟩ := hw.top hrun hx hs
    obtain ⟨nodes, hfrees, -⟩ := hmove.frees hsound hfits hd
    exact World.stored_setSet hs [] _ hfrees.perm

/-- An action drops the value of a node that it frees. The node was marked before, or an insertion
has made it and ends because its key was there. -/
theorem Passage.frees (h : Passage w a o) (hw : w.Sound) {i : Nat} {s s' : SharedSet κ ν}
    (hs : w.sets[i]? = some s) (hs' : o.world.sets[i]? = some s') {b : Address} {n : Node κ ν}
    (hn : s.memory.node? b = some n) (hgone : s'.memory.node? b = none) :
    n.value ∈ o.drops ∧ (s.Marked b ∨ o.drops = [n.value] ∧ ∃ c rest, w.running = c :: rest ∧
      w.setOf? c.handle = some i ∧ c.frame.task.node? = some b) := by
  have hset : ∀ {j : Nat} {t t' : SharedSet κ ν}, w.sets[j]? = some t →
      o.world.sets = (w.setSet j t').sets → j = i ∧ t = s ∧ t' = s' := by
    intro j t t' ht hsets
    rcases World.setSet_cases ht hs (hsets ▸ hs') with hcase | rfl
    · exact hcase
    · rw [hn] at hgone
      cases hgone
  have hkept : s'.memory ≠ s.memory := by
    intro hsame
    rw [hsame, hn] at hgone
    cases hgone
  have hmoved : ∀ {c rest x t st}, w.running = c :: rest → w.handles[c.handle]? = some x →
      w.sets[x.set]? = some t → Move t ⟨x.record, c.lane⟩ c.frame st → x.set = i → t = s →
      s'.memory = st.set.memory → n.value ∈ st.drops ∧ (s.Marked b ∨ st.drops = [n.value] ∧
        ∃ c rest, w.running = c :: rest ∧ w.setOf? c.handle = some i ∧
          c.frame.task.node? = some b) := by
    rintro c rest x t st hrun hx ht hmove rfl rfl hmemory
    obtain ⟨-, hfits, hd, hsound⟩ := hw.top hrun hx ht
    obtain ⟨nodes, hfrees, hnodes⟩ := hmove.frees hsound hfits hd
    rw [hmemory] at hgone
    obtain ⟨hb, hv⟩ := hfrees.mem_drops hn hgone
    refine ⟨hv, (hnodes b hb).imp_right ?_⟩
    rintro ⟨rfl, hnode, -⟩
    refine ⟨?_, c, rest, hrun, by rw [World.setOf?, hx, Option.map_some], hnode⟩
    rw [hfrees.drops, List.filterMap_cons_some (SharedSet.value?_eq hn), List.filterMap_nil]
  cases h with
  | misuse =>
    rw [hs] at hs'
    cases hs'
    exact absurd rfl hkept
  | sweep _ _ _ _ ht hsheds hdrops _ _ hvalues =>
    obtain ⟨rfl, rfl, rfl⟩ := hset ht rfl
    obtain ⟨hfrees, hsub⟩ := (hw.sets _ _ hs).frees_shed hsheds hdrops
    obtain ⟨hb, hv⟩ := hfrees.mem_drops hn hgone
    exact ⟨hvalues ▸ hv, .inl ((hw.sets _ _ hs).marked_of_retired (hsub hb))⟩
  | register ht =>
    obtain ⟨rfl, rfl, rfl⟩ := hset ht rfl
    exact absurd rfl hkept
  | release _ _ ht =>
    obtain ⟨rfl, rfl, rfl⟩ := hset ht rfl
    exact absurd rfl hkept
  | resume _ _ ht =>
    obtain ⟨rfl, rfl, rfl⟩ := hset ht rfl
    exact absurd rfl hkept
  | @begin h i lane call offer x t u task sch hx hidle hxi ht hopens hpin =>
    obtain ⟨rfl, rfl, rfl⟩ := hset ht rfl
    cases hopens with
    | insert hbirth =>
      change Memory.node? _ b = none at hgone
      rw [hbirth.node?] at hgone
      split at hgone
      · cases hgone
      · rw [hn] at hgone
        cases hgone
    | plain => exact absurd rfl hkept
  | @goes c rest x t st frame hrun hx ht hmove hnext =>
    obtain ⟨hi, hts, rfl⟩ := hset ht rfl
    exact hmoved hrun hx ht hmove hi hts rfl
  | @ends c rest x t st reply sch hrun hx ht hmove hnext hunpin hkeep =>
    obtain ⟨hi, hts, rfl⟩ := hset ht rfl
    exact hmoved hrun hx ht hmove hi hts rfl

end MarkedChain
