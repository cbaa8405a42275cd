import MarkedChain.Proofs.Worlds

/-!
# How the nodes of a set move on

`SharedSet.Evolves` says what a step of the world can do to the nodes of one set: keys and values
stay, a marked link stays, a node goes from the chain to limbo and never back, and only the running
operation takes a node out of the chain, namely the one it stands at. Every action changes every set
in this way (`Passage.evolves`).
-/

namespace MarkedChain

variable {κ ν : Type}

/-- The node at which an operation stands, with the place where the link to it was read. -/
def Point.window? : Point → Option (Place × Address)
  | .start => none
  | .inspect pred curr => curr.map (pred, ·)
  | .encounter pred curr _ => some (pred, curr)
  | .judge pred curr _ => some (pred, curr)

namespace SharedSet

/-- A node left the chain because the link before it was written past it. -/
structure Leaves (s s' : SharedSet κ ν) (window : Option (Place × Address)) (a : Address) :
    Prop where
  window : ∃ pred, window = some (pred, a) ∧ s.link? pred = some (.unmarked (some a))
  linked : s'.linked ⊆ s.linked
  target : ∀ n n', s.memory.node? a = some n → s'.memory.node? a = some n' →
    n'.next.target = n.next.target

/-- What a step can do to the nodes of a set, if the operation that makes it stands at `window`. -/
structure Evolves (s s' : SharedSet κ ν) (window : Option (Place × Address)) : Prop where
  validates : s'.scheme.validates = s.scheme.validates
  node : ∀ a n n', s.memory.node? a = some n → s'.memory.node? a = some n' →
    n'.key = n.key ∧ n'.value = n.value ∧ (n.next.marked = true → n'.next = n.next)
  linked : ∀ a ∈ s.linked, (s'.memory.node? a).isSome = true → a ∈ s'.linked ∨ a ∈ s'.retired
  retired : ∀ a ∈ s.retired, (s'.memory.node? a).isSome = true → a ∈ s'.retired
  entered : ∀ a ∈ s'.retired, a ∈ s.retired ∨ (a ∈ s.linked ∧ a ∉ s'.linked)
  left : ∀ a ∈ s.linked, a ∉ s'.linked → s.Leaves s' window a

variable {s s' s'' : SharedSet κ ν} {window : Option (Place × Address)}

namespace Evolves

/-- A change in which no node leaves the chain and none enters limbo. -/
theorem of_respects {who : Option Nat} (h : s.Respects s' who) (hlinked : s.linked ⊆ s'.linked)
    (hretired : s'.retired ⊆ s.retired) : s.Evolves s' window where
  validates := h.validates
  node := h.node
  linked := h.linked
  retired := h.retired
  entered _ ha := .inl (hretired ha)
  left _ ha hout := absurd (hlinked ha) hout

theorem refl (s : SharedSet κ ν) (window : Option (Place × Address)) : s.Evolves s window :=
  of_respects (.refl s none) (fun _ h => h) fun _ h => h

theorem of_eq {who : Option Nat} (h : s.Respects s' who) (hlinked : s'.linked = s.linked)
    (hretired : s'.retired = s.retired) : s.Evolves s' window :=
  of_respects h (fun _ ha => hlinked ▸ ha) fun _ ha => hretired ▸ ha

/-- A change of records before. -/
theorem of_touch {r : Nat} {sch : Scheme Address}
    (h : ({ s with scheme := sch } : SharedSet κ ν).Evolves s' window)
    (ht : s.scheme.Touches sch r) : s.Evolves s' window := by
  have hretired : ({ s with scheme := sch } : SharedSet κ ν).retired = s.retired := by
    simp only [SharedSet.retired, ht.limbo]
  refine ⟨h.validates.trans ht.validates, h.node, h.linked, ?_, ?_, ?_⟩
  · exact hretired ▸ h.retired
  · exact hretired ▸ h.entered
  · intro a ha hout
    have hleaves := h.left a ha hout
    exact ⟨hleaves.window, hleaves.linked, hleaves.target⟩

/-- A change of records on top. -/
theorem touch {r : Nat} {sch : Scheme Address} (h : s.Evolves s' window)
    (ht : s'.scheme.Touches sch r) : s.Evolves { s' with scheme := sch } window := by
  have hretired : ({ s' with scheme := sch } : SharedSet κ ν).retired = s'.retired := by
    simp only [SharedSet.retired, ht.limbo]
  refine ⟨ht.validates.trans h.validates, h.node, ?_, ?_, ?_, ?_⟩
  · rw [hretired]; exact h.linked
  · rw [hretired]; exact h.retired
  · rw [hretired]; exact h.entered
  · exact fun _ ha hout => ⟨(h.left _ ha hout).window, (h.left _ ha hout).linked,
      (h.left _ ha hout).target⟩

end Evolves

/-- Publishing moves no node. -/
theorem publish_retired (s : SharedSet κ ν) (who : Actor) (slot : Slot) (x : Option Address) :
    (s.publish who slot x).retired = s.retired := by
  simp only [retired, publish, (Scheme.publish_touches _ _ _ _).limbo]

theorem transfer_retired (s : SharedSet κ ν) (who : Actor) (source target : Slot) :
    (s.transfer who source target).retired = s.retired := by
  simp only [retired, transfer, (Scheme.transfer_touches _ _ _ _).limbo]

variable [Ord κ] {own : List Address}

/-- A marked node that is taken out of the chain goes to limbo or is freed at once. -/
theorem Clears.retired {curr : Address} {drops : List ν} (h : s.Clears s' curr drops)
    (hs : s.Sound own) {n : Node κ ν} (hn : s.memory.node? curr = some n)
    (hm : n.next.marked = true) : ∀ a ∈ s'.retired, a ∈ s.retired ∨ a = curr := by
  obtain ⟨t, sch, m, nodes, hu, hsheds, hdrops, -, rfl⟩ := h
  intro a ha
  have hperm := ((hs.unlink hu hn hm).swept hsheds hdrops).perm
  have ht : a ∈ t.retired := hperm.mem_iff.2 (List.mem_append_right _ ha)
  rw [hu.retired] at ht
  exact (List.mem_cons.1 ht).symm

/-- Taking a marked node out of the chain lets no other node leave it. -/
theorem Clears.evolves {curr : Address} {drops : List ν} {pred : Place}
    (h : s.Clears s' curr drops) (hs : s.Sound own) {n : Node κ ν}
    (hn : s.memory.node? curr = some n) (hm : n.next.marked = true)
    (hl : s.link? pred = some (.unmarked (some curr))) :
    s.Evolves s' (some (pred, curr)) := by
  have hresp := h.respects hs hn hm
  obtain ⟨before, rest, hsplit, hafter⟩ := h.linked hs hn hm
  have hnodup := hs.nodup_linked
  rw [hsplit, List.nodup_append] at hnodup
  have hcurr : curr ∈ s.linked := by simp [hsplit]
  have hout : curr ∉ s'.linked := by
    rw [hafter, List.mem_append]
    rintro (hmem | hmem)
    · exact hnodup.2.2 curr hmem curr (by simp) rfl
    · exact (List.nodup_cons.1 hnodup.2.1).1 hmem
  refine ⟨hresp.validates, hresp.node, hresp.linked, hresp.retired, fun a ha => ?_,
    fun a ha hleft => ?_⟩
  · rcases h.retired hs hn hm a ha with ha | rfl
    · exact .inl ha
    · exact .inr ⟨hcurr, hout⟩
  · have hac : a = curr := by
      rw [hsplit] at ha
      rw [hafter] at hleft
      simp only [List.mem_append, List.mem_cons, not_or] at ha hleft
      rcases ha with ha | ha | ha
      · exact absurd ha hleft.1
      · exact ha
      · exact absurd ha hleft.2
    subst hac
    refine ⟨⟨pred, rfl, hl⟩, ?_, ?_⟩
    · intro b hb
      rw [hafter] at hb
      rw [hsplit]
      simp only [List.mem_append, List.mem_cons] at hb ⊢
      exact hb.imp id .inr
    · intro n₀ n' hn₀ hn'
      rw [hn] at hn₀
      cases hn₀
      rw [(hresp.node a n n' hn hn').2.2 hm]

end SharedSet

variable [Ord κ] {s : SharedSet κ ν} {who : Actor} {f : Frame κ} {st : Stride κ ν}
  {own : List Address}

/-- A move takes no node out of the chain but the one at which the operation stands. -/
theorem Move.evolves [Std.TransOrd κ] (h : Move s who f st) (hs : s.Sound (f.own ++ own))
    (hf : f.Fits s who.record) (hd : s.scheme.depth? who.record = some 1) :
    s.Evolves st.set f.point.window? := by
  obtain ⟨-, hkeeps⟩ := h.sound_keeps hs hf hd
  have hresp := hkeeps.respects
  cases h with
  | start t | look t | stray t => exact .of_eq hresp rfl (SharedSet.publish_retired _ _ _ _)
  | finish | beaten | tell => exact .refl _ _
  | stop => exact .of_eq hresp rfl rfl
  | follow t pred =>
    exact .of_eq hresp rfl
      ((SharedSet.publish_retired _ _ _ _).trans (SharedSet.publish_retired _ _ _ _))
  | @clear t pred curr n s' drops hn hm hl hclears =>
    have hevolves := hclears.evolves (hs.publish hd .succ n.next.target) hn hm hl
    exact (hevolves.touch (Scheme.transfer_touches _ _ _ _)).of_touch
      (Scheme.publish_touches _ who.record .succ n.next.target)
  | pass pred next hn hpass =>
    exact .of_eq hresp rfl
      ((SharedSet.transfer_retired _ _ _ _).trans (SharedSet.transfer_retired _ _ _ _))
  | reject pred next hn heq hn₀ hdrops => exact .of_eq hresp (hs.discard hdrops).1 rfl
  | @insert fresh key p pred x s₁ s₂ hgap hprepare hl hwrite =>
    obtain ⟨⟨before, after, hsplit, hchain, -⟩, -⟩ := hs.insert hf hgap hprepare hl hwrite
    refine .of_respects hresp (fun a ha => ?_) fun a ha => ?_
    · rw [hsplit] at ha
      rw [hchain]
      simp only [List.mem_append, List.mem_cons] at ha ⊢
      exact ha.imp id .inr
    · rwa [SharedSet.retired, hwrite.scheme, hprepare.scheme] at ha
  | retry hgap hprepare hl hne =>
    refine .of_eq hresp (hs.prepare hprepare).1 ?_
    rw [Step.again, SharedSet.retired, hprepare.scheme, SharedSet.retired]
  | mark pred next hn heq hm hmark hl hne =>
    refine .of_eq hresp (hs.mark hf.point.2.1 hn hm hmark).2.1 ?_
    rw [Step.again, SharedSet.retired, hmark.scheme, SharedSet.retired]
  | @remove key pred curr n next s₁ s₂ drops hn heq hm hmark hl hclears =>
    obtain ⟨hpred, hcurr, -⟩ := hf.point
    obtain ⟨hlinked, hchain, hs₁, -⟩ := hs.mark hcurr hn hm hmark
    have hretired : s₁.retired = s.retired := by
      rw [SharedSet.retired, hmark.scheme, SharedSet.retired]
    have hn₁ := hmark.node?_self hn
    have hevolves := hclears.evolves hs₁ hn₁ rfl hl
    have hl₀ : s.link? pred = some (.unmarked (some curr)) := by
      cases pred with
      | head => simpa [SharedSet.link?, hmark.head] using hl
      | node b =>
        have hbc : b ≠ curr := by
          rintro rfl
          have hlt := hpred.under rfl b rfl n hn
          rw [heq] at hlt
          cases hlt
        rwa [SharedSet.link?, hmark.node?_of_ne fun h => hbc (by cases h; rfl)] at hl
    refine ⟨hresp.validates, hresp.node, hresp.linked, hresp.retired, ?_, ?_⟩
    · rw [← hretired, ← hchain]
      exact hevolves.entered
    · intro a ha hout
      rw [← hchain] at ha
      obtain ⟨⟨pred', hwindow, -⟩, hsub, htarget⟩ := hevolves.left a ha hout
      cases hwindow
      refine ⟨⟨pred, rfl, hl₀⟩, hchain ▸ hsub, ?_⟩
      intro n₀ n' hn₀ hn'
      rw [hn] at hn₀
      cases hn₀
      have htarget' := htarget _ n' hn₁ hn'
      exact htarget'

/-- The node of a set at which the operation stands that an action moves on. -/
def World.window? (w : World κ ν) (i : Nat) : Action κ ν → Option (Place × Address)
  | .proceed =>
    match w.running with
    | a :: _ => if w.setOf? a.handle = some i then a.frame.point.window? else none
    | [] => none
  | _ => none

omit [Ord κ] in
theorem World.window?_proceed {w : World κ ν} {a : Activation κ} {rest : List (Activation κ)}
    {x : Handle} (hrun : w.running = a :: rest) (hx : w.handles[a.handle]? = some x) :
    w.window? x.set .proceed = a.frame.point.window? := by
  simp [World.window?, hrun, World.setOf?, hx]

omit [Ord κ] in
/-- Only the running operation stands at a node that a step takes out of the chain. -/
theorem World.window?_eq_some {w : World κ ν} {i : Nat} {a : Action κ ν} {x : Place × Address}
    (h : w.window? i a = some x) : a = .proceed ∧ ∃ b rest, w.running = b :: rest ∧
      w.setOf? b.handle = some i ∧ b.frame.point.window? = some x := by
  cases a with
  | proceed =>
    rw [World.window?] at h
    split at h
    · next b rest hrun =>
      split at h
      · next hset => exact ⟨rfl, b, rest, hrun, hset, h⟩
      · cases h
    · cases h
  | _ => cases h

namespace Passage

variable {w : World κ ν} {a : Action κ ν} {o : Outcome κ ν}

omit [Ord κ] in
/-- A change of one set leaves all other sets alone. -/
theorem evolves_setSet (window : Nat → Option (Place × Address)) {i : Nat} {s s' : SharedSet κ ν}
    (hs : w.sets[i]? = some s) (h : s.Evolves s' (window i)) {j : Nat} {t : SharedSet κ ν}
    (ht : w.sets[j]? = some t) :
    ∃ t', (w.setSet i s').sets[j]? = some t' ∧ t.Evolves t' (window j) := by
  rw [World.getElem?_setSet hs]
  split
  · next hj =>
    subst hj
    rw [hs] at ht
    cases ht
    exact ⟨s', rfl, h⟩
  · exact ⟨t, ht, .refl _ _⟩

/-- Every action moves the nodes of every set on in the same way. -/
theorem evolves [Std.TransOrd κ] (h : Passage w a o) (hw : w.Sound) {j : Nat} {t : SharedSet κ ν}
    (ht : w.sets[j]? = some t) :
    ∃ t', o.world.sets[j]? = some t' ∧ t.Evolves t' (w.window? j a) := by
  cases h with
  | misuse => exact ⟨t, ht, .refl _ _⟩
  | sweep _ _ _ _ hs hsheds hdrops =>
    have hsound := hw.sets _ _ hs
    have hsw := hsound.swept hsheds hdrops
    refine evolves_setSet (w.window? · a) hs ?_ ht
    exact .of_respects (hsound.respects_shed hsheds hdrops) (fun b hb => hsw.linked ▸ hb)
      fun b hb => hsw.perm.mem_iff.2 (List.mem_append_right _ hb)
  | @register i s r sch hs hreg =>
    obtain ⟨htouches, -⟩ := Scheme.register_eq_ok (hw.sets i s hs).scheme (hw.quiet i s hs) hreg
    exact evolves_setSet (w.window? · _) hs
      (SharedSet.Evolves.touch (.refl s _) htouches) ht
  | @release h x s hx hidle hs =>
    obtain ⟨htouches, -⟩ := Scheme.release_touches (hw.sets _ _ hs).scheme x.record
    exact evolves_setSet (w.window? · _) hs
      (SharedSet.Evolves.touch (.refl s _) htouches) ht
  | @resume h x s sch hx hholding hs hunpin =>
    exact evolves_setSet (w.window? · _) hs
      (SharedSet.Evolves.touch (.refl s _) hunpin.1) ht
  | @begin h i lane call offer x s u task sch hx hidle hset hs hopens hpin =>
    obtain ⟨-, hresp, hscheme, hlinked, -⟩ := hopens.sound (hw.sets _ _ hs)
    refine evolves_setSet (w.window? · _) hs (SharedSet.Evolves.touch ?_ hpin.1) ht
    refine .of_eq hresp hlinked ?_
    rw [SharedSet.retired, hscheme, SharedSet.retired]
  | @goes b rest x s st frame hrun hx hs hmove hnext =>
    obtain ⟨-, hfits, hd, hsound⟩ := hw.top hrun hx hs
    have hevolves := hmove.evolves hsound hfits hd
    rw [← World.window?_proceed hrun hx] at hevolves
    exact evolves_setSet (w.window? · .proceed) hs hevolves ht
  | @ends b rest x s st reply sch hrun hx hs hmove hnext hunpin =>
    obtain ⟨-, hfits, hd, hsound⟩ := hw.top hrun hx hs
    have hevolves := hmove.evolves hsound hfits hd
    rw [← World.window?_proceed hrun hx] at hevolves
    exact evolves_setSet (w.window? · .proceed) hs (hevolves.touch hunpin.1) ht

end Passage

end MarkedChain
