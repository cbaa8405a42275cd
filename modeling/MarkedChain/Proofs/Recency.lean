import MarkedChain.Proofs.Strides

/-!
# What a walk has read and whether it is still so

An operation retries when a link is no longer what it was when the walk read it. `Frame.Recent` says
that the links on which the operation relies are still as it has read them. What the operation does
itself leaves them so, and after a retry they are so again (`Move.recent`). What others do leaves
them so, unless it changes a link of the chain (`Frame.Recent.others`).
-/

namespace MarkedChain

variable {κ ν : Type}

namespace SharedSet

/-- The same nodes are on the chain, and all of its links are as they were. -/
structure SameChain (s s' : SharedSet κ ν) : Prop where
  head : s'.head = s.head
  linked : s'.linked = s.linked
  links : ∀ a ∈ s.linked, s'.link? (.node a) = s.link? (.node a)

theorem SameChain.link? {s s' : SharedSet κ ν} (h : s.SameChain s') {pl : Place}
    (hpl : s.OnChain pl) : s'.link? pl = s.link? pl := by
  cases pl with
  | head => exact congrArg some h.head
  | node a => exact h.links a hpl

end SharedSet

/-- The links that were read where a walk stands are as they were then, and the first of them is
not marked. -/
def Point.Recent (s : SharedSet κ ν) : Point → Prop
  | .start => True
  | .inspect pred curr => s.link? pred = some (.unmarked curr)
  | .encounter pred curr next | .judge pred curr next =>
    s.link? pred = some (.unmarked (some curr)) ∧ s.link? (.node curr) = some next

/-- The links on which an operation relies are as it has read them. A task that leaves marked nodes
to others does not rely on any. -/
def Frame.Recent (s : SharedSet κ ν) (f : Frame κ) : Prop :=
  s.helps f.task = true → f.point.Recent s

variable [Ord κ] {s s' : SharedSet κ ν} {own : List Address} {who : Actor} {f f' : Frame κ}
  {st : Stride κ ν}

/-! ## What others do -/

/-- What others do leaves what was read as it was, if they leave the chain as it is. -/
theorem Frame.Recent.others (h : f.Recent s) (hs : s.Sound own) {r : Nat} (hf : f.Fits s r)
    (hv : s'.scheme.validates = s.scheme.validates) (hsame : s.SameChain s') : f.Recent s' := by
  intro hhelps
  have hrecent := h (by rwa [SharedSet.helps_congr hv] at hhelps)
  have hpoint := hf.point
  -- the link before the walk is unmarked, so it belongs to the chain
  have hpred : ∀ {pred curr}, s.Reaches r f.task pred → s.link? pred = some (.unmarked curr) →
      s.OnChain pred ∧ s'.link? pred = some (.unmarked curr) := by
    intro pred curr hreaches hl
    have hon := hs.onChain_of_unmarked hreaches.held hl rfl
    exact ⟨hon, (hsame.link? hon).trans hl⟩
  have hnode : ∀ {pred curr next}, s.Reaches r f.task pred →
      s.link? pred = some (.unmarked (some curr)) ∧ s.link? (.node curr) = some next →
      s'.link? pred = some (.unmarked (some curr)) ∧ s'.link? (.node curr) = some next := by
    rintro pred curr next hreaches ⟨hl, hnext⟩
    obtain ⟨hon, hl'⟩ := hpred hreaches hl
    exact ⟨hl', (hsame.links curr (hs.linked_of_link hon hl rfl)).trans hnext⟩
  obtain ⟨t, p⟩ := f
  cases p with
  | start => trivial
  | inspect pred curr => exact (hpred hpoint.1 hrecent).2
  | encounter pred curr next => exact hnode hpoint.1 hrecent
  | judge pred curr next => exact hnode hpoint.1 hrecent

/-! ## What the operation does itself -/

/-- When a marked node was taken out of the chain, the link before it leads past it. -/
theorem SharedSet.Clears.link? {curr : Address} {drops : List ν} {pred : Place} {n : Node κ ν}
    (h : s.Clears s' curr drops) (hs : s.Sound own) (hpred : s.OnChain pred)
    (hl : s.link? pred = some (.unmarked (some curr))) (hn : s.memory.node? curr = some n)
    (hm : n.next.marked = true) : s'.link? pred = some (.unmarked n.next.target) := by
  obtain ⟨l, before, after, hl', hsplit, hafter, hhead, hnode, -⟩ :=
    exists_split hs.path hs.nodup_linked hpred
  rw [hl] at hl'
  cases hl'
  cases after with
  | nil => cases hafter
  | cons c rest =>
    obtain ⟨hc, -⟩ := hafter
    cases hc
    have hs' := h.sound hs hn hm
    have hlinked := h.linked_of_split hs hn hm hsplit
    have htarget := hs.head?_of_split hsplit hn
    cases pred with
    | head =>
      rw [hhead rfl, List.nil_append] at hlinked
      have hfirst := hs'.path.head?
      rw [hlinked, htarget] at hfirst
      exact congrArg some ((Link.eq_unmarked hs'.head).trans (by rw [hfirst]))
    | node a =>
      obtain ⟨pre, rfl⟩ := hnode a rfl
      rw [List.append_assoc, List.singleton_append] at hlinked
      obtain ⟨n₀, hn₀, hnext⟩ := Option.map_eq_some_iff.1 hl
      obtain ⟨n', hn'⟩ := hs'.live_of_linked (a := a) (by simp [hlinked])
      have hm' : n'.next.marked = false := by
        rw [h.mark hn₀ hn', hnext]
        rfl
      have hfirst := hs'.head?_of_split hlinked hn'
      rw [SharedSet.link?, hn', Option.map_some, Link.eq_unmarked hm', ← hfirst, htarget]

/-- An insertion finds the link as it was read, if that is still so. -/
theorem Gap.link? {fresh : Address} {key : κ} {p : Point} {pred : Place} {x : Option Address}
    {s₁ : SharedSet κ ν} (hgap : Gap s key p pred x) (hs : s.Sound (fresh :: own))
    {r : Nat} (hf : (⟨.insert fresh key, p⟩ : Frame κ).Fits s r)
    (hprepare : s.Relinks s₁ (.node fresh) (.unmarked x))
    (hread : (⟨.insert fresh key, p⟩ : Frame κ).Recent s) : s₁.link? pred = some (.unmarked x) := by
  have hrecent := hread (by simp [SharedSet.helps, Task.reads])
  have hpoint := hf.point
  obtain ⟨hreaches, hl⟩ : s.Reaches r (.insert fresh key) pred ∧
      s.link? pred = some (.unmarked x) := by
    cases hgap with
    | atEnd => exact ⟨hpoint.1, hrecent⟩
    | atNode => exact ⟨hpoint.1, hrecent.1⟩
  have hon := hs.onChain_of_unmarked hreaches.held hl rfl
  have hne : pred ≠ .node fresh := by
    rintro rfl
    exact hs.not_own_of_linked hon List.mem_cons_self
  rw [hprepare.link?_of_ne hne, hl]

/-- A step of an operation that goes on is no retry, and what was as it had been read
stays so. Or it is one, as something was not, and now all is. -/
theorem Move.recent (h : Move s who f st) (hs : s.Sound (f.own ++ own)) (hf : f.Fits s who.record)
    (hd : s.scheme.depth? who.record = some 1) (hnext : st.next = .goes f') :
    st.retries = 0 ∧ (f.Recent s → f'.Recent st.set) ∨
      st.retries = 1 ∧ ¬ f.Recent s ∧ f'.Recent st.set := by
  have hpoint := hf.point
  cases h with
  | start t =>
    cases hnext
    exact .inl ⟨rfl, fun _ _ => congrArg some (Link.eq_unmarked hs.head)⟩
  | @look t pred curr n hn hhelps =>
    cases hnext
    refine .inl ⟨rfl, fun hread hh => ?_⟩
    have hv : s.helps t = true :=
      (SharedSet.helps_congr (Scheme.publish_touches _ _ _ _).validates t).symm.trans hh
    exact ⟨hread hv, by simp [SharedSet.link?, SharedSet.publish, hn]⟩
  | stray t pred hn hl hne hhelps =>
    cases hnext
    refine .inr ⟨rfl, fun hread => ?_, fun _ => trivial⟩
    exact hne (Option.some.inj (hl.symm.trans (hread hhelps)))
  | @follow t pred curr n l hn hm hl hne hlm hhelps =>
    cases hnext
    refine .inr ⟨rfl, fun hread => ?_, fun _ => ?_⟩
    · exact hne (Option.some.inj (hl.symm.trans (hread hhelps)))
    · exact hl.trans (congrArg some (Link.eq_unmarked hlm))
  | @clear t pred curr n s' drops hn hm hl hclears hticks hhelps =>
    cases hnext
    have hon := hs.onChain_of_unmarked hpoint.1.held hl rfl
    exact .inl ⟨rfl, fun _ _ => hclears.link? (hs.publish hd _ _) hon hl hn hm⟩
  | @pass t t' pred curr n next hn hpass =>
    cases hnext
    refine .inl ⟨rfl, fun hread hh => ?_⟩
    have hv : s.helps t = true := by
      have hreads := (Task.pass?_eq_some hpass).2.2.1
      have hsame := ((Scheme.transfer_touches (s.transfer who .curr .pred).scheme who.record .succ
        .curr).validates).trans (Scheme.transfer_touches s.scheme who.record .curr .pred).validates
      rwa [SharedSet.helps_congr (s := s) hsame, SharedSet.helps, hreads] at hh
    exact (hread hv).2.trans (congrArg some (Link.eq_unmarked (hpoint.2.2.2 hv)))
  | @stop t pred curr n next hn hpass =>
    cases t with
    | insert | remove | contains | get | hold =>
      cases hnext
      exact .inl ⟨rfl, id⟩
    | unlink | size | isEmpty | keys => cases hnext
  | retry hgap hprepare hl hne =>
    cases hnext
    refine .inr ⟨rfl, fun hread => ?_, fun _ => trivial⟩
    exact hne (Option.some.inj (hl.symm.trans (hgap.link? hs hf hprepare hread)))
  | @beaten key pred curr n next hn heq hm =>
    cases hnext
    refine .inr ⟨rfl, fun hread => ?_, fun _ => trivial⟩
    have hhelps : s.helps (.remove key) = true := by simp [SharedSet.helps, Task.reads]
    obtain ⟨n', hn', rfl⟩ := Option.map_eq_some_iff.1 (hread hhelps).2
    rw [hn] at hn'
    cases hn'
    rw [hpoint.2.2.1 hhelps] at hm
    cases hm
  | @mark key pred curr n next s₁ l hn heq hm hmark hl hne =>
    cases hnext
    refine .inr ⟨rfl, fun hread => ?_, fun _ => trivial⟩
    have hrecent := hread (by simp [SharedSet.helps, Task.reads])
    have hpred : pred ≠ .node curr := by
      rintro rfl
      have hlow := hpoint.1.under rfl curr rfl n hn
      rw [heq] at hlow
      cases hlow
    rw [hmark.link?_of_ne hpred, hrecent.1] at hl
    exact hne (Option.some.inj hl).symm
  | finish | reject | insert | remove | tell => cases hnext

/-- The last step of an operation is no retry. -/
theorem Move.retries_of_ends (h : Move s who f st) {reply : Reply κ ν}
    (hnext : st.next = .ends reply) : st.retries = 0 := by
  cases h with
  | finish | stop | reject | insert | remove | tell => rfl
  | start | look | stray | follow | clear | pass | retry | beaten | mark => cases hnext

end MarkedChain
