import MarkedChain.Proofs.Errands

/-!
# What a pinned record keeps

Under epochs a record that is pinned shows the global epoch or the one before (`Scheme.Sound`), the
global epoch moves on only when somebody tries (`Move.ticks`, `Passage.ticks`), and what a pinned
record holds it holds until it is unpinned (`Passage.held`). So a node that was on the chain while a
record was pinned is not freed before the record is unpinned (`Run.grace_period`).
-/

namespace MarkedChain

variable {κ ν : Type}

namespace SharedSet

/-- A record shows an epoch, since an operation or its result is protected by it. -/
def Pinned (s : SharedSet κ ν) (r : Nat) : Prop :=
  ∃ e p, s.scheme = .epochs e ∧ e.roster.record? r = some p ∧ p.pinned = true

variable [Ord κ] {s : SharedSet κ ν} {own : List Address} {r : Nat}

/-- There is a guard on a pinned record. -/
theorem Sound.depth?_of_pinned (hs : s.Sound own) (h : s.Pinned r) :
    s.scheme.depth? r ≠ none ∧ s.scheme.depth? r ≠ some 0 := by
  obtain ⟨e, p, he, hp, hpin⟩ := h
  have hpinned := (he ▸ hs.scheme) r p hp
  rw [hpin] at hpinned
  have hdepth : s.scheme.depth? r = some p.depth := by rw [he, Scheme.depth?, hp, Option.map_some]
  rw [hdepth]
  have hne : p.depth ≠ 0 := by simpa using hpinned.1
  exact ⟨by simp, fun hzero => hne (Option.some.inj hzero)⟩

/-- Under epochs a record with a guard is pinned. -/
theorem Sound.pinned_of_depth? (hs : s.Sound own) (hv : s.scheme.validates = false)
    (hd : s.scheme.depth? r = some 1) : s.Pinned r := by
  have hscheme := hs.scheme
  cases he : s.scheme with
  | hazards h =>
    rw [he] at hv
    cases hv
  | epochs e =>
    rw [he] at hd hscheme
    obtain ⟨p, hp, hdepth⟩ := Option.map_eq_some_iff.1 hd
    exact ⟨e, p, he, hp, by rw [(hscheme r p hp).1, hdepth]; rfl⟩

omit [Ord κ] in
theorem Pinned.validates (h : s.Pinned r) : s.scheme.validates = false := by
  obtain ⟨e, p, he, -⟩ := h
  rw [he]
  rfl

/-- A pinned record holds all nodes of the chain. -/
theorem Sound.held_of_pinned (hs : s.Sound own) (h : s.Pinned r) {a : Address}
    (ha : a ∈ s.linked) (slot : Slot) : s.Held r slot a := by
  obtain ⟨e, p, he, hp, hpin⟩ := h
  refine ⟨⟨a, s.scheme.stamp⟩, .of_linked ha, rfl, ?_⟩
  have hlag := ((he ▸ hs.scheme) r p hp).2 hpin
  rw [he]
  exact ⟨p, hp, hpin, hlag.1⟩

end SharedSet

variable [Ord κ]

/-- Under epochs the record of an operation in progress or of a result that is held is pinned. -/
theorem World.Sound.pinned_of_busy {w : World κ ν} (hw : w.Sound) {h : Nat} {x : Handle}
    {s : SharedSet κ ν} (hx : w.handles[h]? = some x) (hs : w.sets[x.set]? = some s)
    (hv : s.scheme.validates = false) (hbusy : x.status = .running ∨ x.status = .holding) :
    s.Pinned x.record := by
  have hlive : x.status ≠ .released ∧ x.status ≠ .idle := by
    rcases hbusy with hbusy | hbusy <;> rw [hbusy] <;> decide
  have hd := (hw.depth? hx hlive.1 hs).2
  rw [Handle.depth, if_neg hlive.2] at hd
  exact (hw.sets _ _ hs).pinned_of_depth? hv hd

/-! ## The epoch moves on when somebody tries -/

/-- A step of an operation moves the global epoch on only if it takes a node out of the chain and
the retirement of the node comes with an attempt to do so. -/
theorem Move.ticks {s : SharedSet κ ν} {who : Actor} {f : Frame κ} {st : Stride κ ν}
    {own : List Address} (h : Move s who f st) (hs : s.Sound (f.own ++ own))
    (hf : f.Fits s who.record) (hd : s.scheme.depth? who.record = some 1) :
    st.set.scheme.stamp = s.scheme.stamp ∨ (st.set.scheme.stamp = s.scheme.stamp + 1 ∧
      s.scheme.Caught ∧ s.scheme.due who.record = true ∧
      ∃ a, a ∈ s.linked ∧ a ∉ st.set.linked) := by
  cases h with
  | start | look | stray => exact .inl (Scheme.publish_touches _ _ _ _).stamp
  | finish | stop | reject | beaten | tell => exact .inl rfl
  | follow =>
    exact .inl ((Scheme.publish_touches _ _ _ _).stamp.trans (Scheme.publish_touches _ _ _ _).stamp)
  | pass =>
    exact .inl
      ((Scheme.transfer_touches _ _ _ _).stamp.trans (Scheme.transfer_touches _ _ _ _).stamp)
  | insert hgap hprepare hl hwrite => exact .inl (by rw [hwrite.scheme, hprepare.scheme])
  | retry hgap hprepare hl hne => exact .inl (congrArg Scheme.stamp hprepare.scheme)
  | mark pred next hn heq hm hmark hl hne => exact .inl (congrArg Scheme.stamp hmark.scheme)
  | @clear t pred curr n s' drops hn hm hl hclears hticks =>
    have hs₁ := hs.publish hd .succ n.next.target
    have hstamp : (s'.transfer who .succ .curr).scheme.stamp = s'.scheme.stamp :=
      (Scheme.transfer_touches _ _ _ _).stamp
    rw [hstamp]
    refine hticks.imp id fun ⟨hdue, hcaught, htick⟩ => ⟨htick, hcaught, hdue, curr, ?_, ?_⟩
    · exact hs.linked_of_link (hs.onChain_of_unmarked hf.point.1.held hl rfl) hl rfl
    · exact hclears.not_linked hs₁ hn hm
  | remove pred next hn heq hm hmark hl hclears hticks =>
    obtain ⟨hlinked, -, hs₁, -⟩ := hs.mark hf.point.2.1 hn hm hmark
    exact hticks.imp id fun ⟨hdue, hcaught, htick⟩ =>
      ⟨htick, hcaught, hdue, _, hlinked, hclears.not_linked hs₁ (hmark.node?_self hn) rfl⟩

variable [Std.TransOrd κ]

/-- An action tries to move the global epoch of a set on, on the way to the state `t`. -/
inductive World.Tries (w : World κ ν) (i : Nat) (t : SharedSet κ ν) : Action κ ν → Prop where
  /-- It is asked to. -/
  | asked {a} (h : a.advances i = true) : Tries w i t a
  /-- It moves on an operation that retires a node, and the record of the operation has retired so
  many that it reclaims. -/
  | due {b rest x s a} (hrun : w.running = b :: rest) (hx : w.handles[b.handle]? = some x)
    (hset : x.set = i) (hs : w.sets[i]? = some s) (hdue : s.scheme.due x.record = true)
    (hlinked : a ∈ s.linked) (hout : a ∉ t.linked) (hretired : a ∈ t.retired) :
    Tries w i t .proceed

namespace Passage

variable {w : World κ ν} {a : Action κ ν} {o : Outcome κ ν} {j : Nat} {t t' : SharedSet κ ν}

/-- The global epoch moves on by one if somebody tries and all pinned records have caught up with
it, or it stays as it is. -/
theorem ticks (h : Passage w a o) (hw : w.Sound) (ht : w.sets[j]? = some t)
    (ht' : o.world.sets[j]? = some t') :
    t'.scheme.stamp = t.scheme.stamp ∨ (t'.scheme.stamp = t.scheme.stamp + 1 ∧
      t.scheme.Caught ∧ w.Tries j t' a) := by
  have hset : ∀ {i : Nat} {s s' : SharedSet κ ν}, w.sets[i]? = some s →
      (w.setSet i s').sets[j]? = some t' →
      (i = j → t' = s' → s'.scheme.stamp = s.scheme.stamp ∨
        (s'.scheme.stamp = s.scheme.stamp + 1 ∧ s.scheme.Caught ∧ w.Tries i s' a)) →
      t'.scheme.stamp = t.scheme.stamp ∨ (t'.scheme.stamp = t.scheme.stamp + 1 ∧
        t.scheme.Caught ∧ w.Tries j t' a) := by
    intro i s s' hs ht' hstep
    obtain ⟨rfl, rfl, rfl⟩ | rfl := World.setSet_cases hs ht ht'
    · exact hstep rfl rfl
    · exact .inl rfl
  have hpassage := h
  cases h with
  | misuse =>
    rw [ht] at ht'
    cases ht'
    exact .inl rfl
  | sweep _ _ _ _ hs hsheds hdrops hticks =>
    exact hset hs ht' fun _ _ => hticks.imp id fun ⟨htried, hcaught, hstamp⟩ =>
      ⟨hstamp, hcaught, .asked htried⟩
  | @register i s r sch hs hreg =>
    obtain ⟨htouches, -⟩ := Scheme.register_eq_ok (hw.sets i s hs).scheme (hw.quiet i s hs) hreg
    exact hset hs ht' fun _ _ => .inl htouches.stamp
  | @release h x s hx hidle hs =>
    obtain ⟨htouches, -⟩ := Scheme.release_touches (hw.sets _ _ hs).scheme x.record
    exact hset hs ht' fun _ _ => .inl htouches.stamp
  | resume hx hholding hs hunpin => exact hset hs ht' fun _ _ => .inl hunpin.1.stamp
  | begin h i lane call offer hx hidle hset' hs hopens hpin =>
    obtain ⟨-, -, hscheme, -⟩ := hopens.sound (hw.sets _ _ hs)
    exact hset hs ht' fun _ _ => .inl (hpin.1.stamp.trans (congrArg Scheme.stamp hscheme))
  | @goes b rest x s st frame hrun hx hs hmove hnext =>
    obtain ⟨-, hfits, hd, hsound⟩ := hw.top hrun hx hs
    refine hset hs ht' fun hj heq => ?_
    refine (hmove.ticks hsound hfits hd).imp id fun ⟨hstamp, hcaught, hdue, b, hlinked, hout⟩ =>
      ⟨hstamp, hcaught, .due hrun hx rfl hs hdue hlinked hout ?_⟩
    obtain ⟨n, hn⟩ := hmove.live_of_linked hsound hfits hd hlinked
    exact ((hmove.evolves hsound hfits hd).linked b hlinked
      (Option.isSome_iff_exists.2 ⟨n, hn⟩)).resolve_left hout
  | @ends b rest x s st reply sch hrun hx hs hmove hnext hunpin =>
    obtain ⟨-, hfits, hd, hsound⟩ := hw.top hrun hx hs
    refine hset hs ht' fun hj heq => ?_
    change sch.stamp = _ ∨ sch.stamp = _ ∧ _
    rw [hunpin.1.stamp]
    refine (hmove.ticks hsound hfits hd).imp id fun ⟨hstamp, hcaught, hdue, b, hlinked, hout⟩ =>
      ⟨hstamp, hcaught, .due hrun hx rfl hs hdue hlinked hout ?_⟩
    obtain ⟨n, hn⟩ := hmove.live_of_linked hsound hfits hd hlinked
    have hevolves := (hmove.evolves hsound hfits hd).touch hunpin.1
    exact (hevolves.linked b hlinked (Option.isSome_iff_exists.2 ⟨n, hn⟩)).resolve_left hout

/-! ## What is held stays -/

/-- What a pinned record holds is not freed, and it is held as long as the record is pinned. -/
theorem held (h : Passage w a o) (hw : w.Sound) (ht : w.sets[j]? = some t)
    (ht' : o.world.sets[j]? = some t') {r : Nat} (hpin : t.Pinned r) {slot : Slot} {b : Address}
    (hheld : t.Held r slot b) :
    (∃ n, t'.memory.node? b = some n) ∧ (t'.Pinned r → t'.Held r slot b) := by
  have hsound' := (h.sound hw).sets j t' ht'
  have hsafe : t'.Held r slot b →
      (∃ n, t'.memory.node? b = some n) ∧ (t'.Pinned r → t'.Held r slot b) :=
    fun hheld => ⟨hsound'.live_of_held hheld, fun _ => hheld⟩
  have hdepth := (hw.sets j t ht).depth?_of_pinned hpin
  have hset : ∀ {i : Nat} {s s' : SharedSet κ ν}, w.sets[i]? = some s →
      (w.setSet i s').sets[j]? = some t' →
      (i = j → t' = s' → t = s → (∃ n, s'.memory.node? b = some n) ∧
        (s'.Pinned r → s'.Held r slot b)) →
      (∃ n, t'.memory.node? b = some n) ∧ (t'.Pinned r → t'.Held r slot b) := by
    intro i s s' hs ht' hstep
    obtain ⟨rfl, rfl, rfl⟩ | rfl := World.setSet_cases hs ht ht'
    · exact hstep rfl rfl rfl
    · exact hsafe hheld
  -- a change of the record of a handle that has no guard on it
  have hidle : ∀ {h : Nat} {x : Handle}, w.handles[h]? = some x → x.status = .idle →
      w.sets[x.set]? = some t → r ≠ x.record := by
    intro h x hx hidle hs hr
    subst hr
    refine hdepth.2 ?_
    rw [(hw.depth? hx (by rw [hidle]; decide) hs).2, Handle.depth, if_pos hidle]
  cases h with
  | misuse =>
    rw [ht] at ht'
    cases ht'
    exact hsafe hheld
  | sweep _ _ _ _ hs hsheds hdrops =>
    refine hset hs ht' ?_
    rintro rfl rfl rfl
    exact hsafe (((hw.sets _ _ hs).respects_shed hsheds hdrops).held r (by simp) slot b hheld)
  | @register i s r' sch hs hreg =>
    obtain ⟨htouches, -, -, hfree, -⟩ :=
      Scheme.register_eq_ok (hw.sets i s hs).scheme (hw.quiet i s hs) hreg
    refine hset hs ht' ?_
    rintro rfl rfl rfl
    refine hsafe ((SharedSet.respects_touch htouches).held r (fun hr => ?_) slot b hheld)
    cases hr
    rcases Scheme.depth?_of_not_taken (hw.quiet i _ hs) hfree with hnone | hzero
    · exact hdepth.1 hnone
    · exact hdepth.2 hzero
  | @release h x s hx hrest hs =>
    obtain ⟨htouches, -⟩ := Scheme.release_touches (hw.sets _ _ hs).scheme x.record
    refine hset hs ht' ?_
    rintro rfl rfl rfl
    exact hsafe ((SharedSet.respects_touch htouches).held r
      (fun hr => hidle hx hrest hs (Option.some.inj hr).symm) slot b hheld)
  | @resume h x s sch hx hholding hs hunpin =>
    refine hset hs ht' ?_
    rintro rfl rfl rfl
    by_cases hr : x.record = r
    · refine ⟨(hw.sets _ _ hs).live_of_held hheld, fun hpin' => ?_⟩
      exact absurd (hr ▸ hunpin.2.2.1) (hsound'.depth?_of_pinned hpin').2
    · exact hsafe ((SharedSet.respects_touch hunpin.1).held r
        (fun h => hr (Option.some.inj h)) slot b hheld)
  | @begin h i lane call offer x s u task sch hx hrest hset' hs hopens hpin' =>
    obtain ⟨-, hresp, hscheme, -⟩ := hopens.sound (hw.sets _ _ hs)
    refine hset hs ht' ?_
    rintro rfl rfl rfl
    refine hsafe ((SharedSet.respects_touch hpin'.1).held r (fun hr => ?_) slot b
      (hresp.held r (by simp) slot b hheld))
    exact hidle hx hrest (hset' ▸ hs) (Option.some.inj hr).symm
  | @goes c rest x s st frame hrun hx hs hmove hnext =>
    obtain ⟨-, hfits, hd, hsound⟩ := hw.top hrun hx hs
    obtain ⟨-, hkeeps⟩ := hmove.sound_keeps hsound hfits hd
    refine hset hs ht' ?_
    rintro rfl rfl rfl
    exact hsafe (hkeeps.held hpin.validates hheld)
  | @ends c rest x s st reply sch hrun hx hs hmove hnext hunpin hkeep =>
    obtain ⟨-, hfits, hd, hsound⟩ := hw.top hrun hx hs
    obtain ⟨hst, hkeeps⟩ := hmove.sound_keeps hsound hfits hd
    refine hset hs ht' ?_
    rintro rfl rfl rfl
    have hheld' := hkeeps.held hpin.validates hheld
    by_cases hr : x.record = r
    · refine ⟨hst.live_of_held hheld', fun hpin' => ?_⟩
      by_cases hdone : World.statusAfter reply = .idle
      · have hzero : sch.depth? x.record = some 0 := by
          rw [hunpin.2.2.1, Handle.depth, if_pos hdone]
        exact absurd (hr ▸ hzero) (hsound'.depth?_of_pinned hpin').2
      · rw [hkeep hdone]
        exact hheld'
    · exact hsafe ((SharedSet.respects_touch hunpin.1).held r
        (fun h => hr (Option.some.inj h)) slot b hheld')

end Passage

/-! ## In a run -/

section

variable {w₀ w : World κ ν} {es : List (Event κ ν)} {i : Nat}

/-- What led to a state of a set. -/
theorem Run.passage_back (h : Run w₀ es w) (h₀ : w₀.Sound) {m : Nat} {t : SharedSet κ ν}
    (ht : w₀.setAt es i (m + 1) = some t) :
    ∃ u e s, w₀.worldAt es m = some u ∧ u.Sound ∧ es[m]? = some e ∧
      Passage u e.action e.outcome ∧ u.sets[i]? = some s ∧ w₀.setAt es i m = some s ∧
      e.outcome.world.sets[i]? = some t := by
  have he := List.getElem?_eq_getElem (World.le_of_setAt ht)
  obtain ⟨u, hu, hok, hnext⟩ := h.step_at he
  have hsound := h.sound h₀ hu
  have hpassage := (World.step_settles hsound _).of_ok hok
  rw [World.setAt, hnext, Option.bind_some] at ht
  obtain ⟨s, hs⟩ := hpassage.exists_set ht
  exact ⟨u, _, s, hu, hsound, he, hpassage, hs, World.setAt_eq_some hu hs, ht⟩

/-- Every set keeps its kind of reclamation. -/
theorem Run.validates (h : Run w₀ es w) (h₀ : w₀.Sound) {m : Nat} {s : SharedSet κ ν}
    (hs : w₀.setAt es i m = some s) :
    ∃ s₀, w₀.sets[i]? = some s₀ ∧ s.scheme.validates = s₀.scheme.validates := by
  induction m generalizing s with
  | zero => exact ⟨s, hs, rfl⟩
  | succ m ih =>
    obtain ⟨u, e, r, -, hsound, -, hpassage, hr, hr', hs⟩ := h.passage_back h₀ hs
    obtain ⟨s₀, hs₀, hsame⟩ := ih hr'
    obtain ⟨t, ht, hevolves⟩ := hpassage.evolves hsound hr
    rw [hs] at ht
    cases ht
    exact ⟨s₀, hs₀, hevolves.validates.trans hsame⟩

/-- The global epoch never goes back. -/
theorem Run.stamp_mono (h : Run w₀ es w) (h₀ : w₀.Sound) {j k : Nat} (hjk : j ≤ k)
    {s t : SharedSet κ ν} (hs : w₀.setAt es i j = some s) (ht : w₀.setAt es i k = some t) :
    s.scheme.stamp ≤ t.scheme.stamp := by
  induction hjk generalizing t with
  | refl =>
    rw [hs] at ht
    cases ht
    exact Nat.le_refl _
  | step _ ih =>
    obtain ⟨u, e, r, -, hsound, -, hpassage, hr, hr', ht⟩ := h.passage_back h₀ ht
    have hle := ih hr'
    rcases hpassage.ticks hsound hr ht with hsame | ⟨hnext, -⟩ <;> omega

/-- What a pinned record holds is held as long as the record is pinned. -/
theorem Run.held_while_pinned (h : Run w₀ es w) (h₀ : w₀.Sound) {r j k : Nat} {a : Address}
    {slot : Slot} (hpinned : ∀ m, j ≤ m → m ≤ k → ∃ t, w₀.setAt es i m = some t ∧ t.Pinned r)
    {s : SharedSet κ ν} (hs : w₀.setAt es i j = some s) (ha : s.Held r slot a) {m : Nat}
    (hjm : j ≤ m) (hmk : m ≤ k) : ∃ t, w₀.setAt es i m = some t ∧ t.Pinned r ∧ t.Held r slot a := by
  induction hjm with
  | refl =>
    obtain ⟨t, ht, hpin⟩ := hpinned j (Nat.le_refl _) hmk
    rw [hs] at ht
    cases ht
    exact ⟨s, hs, hpin, ha⟩
  | @step m hjm ih =>
    obtain ⟨t, ht, hpin, hheld⟩ := ih (Nat.le_of_succ_le hmk)
    obtain ⟨t', ht', hpin'⟩ := hpinned (m + 1) (Nat.le_succ_of_le hjm) hmk
    obtain ⟨u, e, v, -, hsound, -, hpassage, hv, hv', hw'⟩ := h.passage_back h₀ ht'
    rw [ht] at hv'
    cases hv'
    exact ⟨t', ht', hpin', (hpassage.held hsound hv hw' hpin hheld).2 hpin'⟩

/-- A node that is on the chain while a record is pinned is not freed as long as the record stays
pinned, nor with the next action. -/
theorem Run.lasts_while_pinned (h : Run w₀ es w) (h₀ : w₀.Sound) {r j k : Nat} {a : Address}
    (hjk : j ≤ k) (hpinned : ∀ m, j ≤ m → m ≤ k → ∃ t, w₀.setAt es i m = some t ∧ t.Pinned r)
    {s : SharedSet κ ν} (hs : w₀.setAt es i j = some s) (ha : a ∈ s.linked) :
    w₀.Lasts es i a j k ∧ (k < es.length → w₀.Lasts es i a j (k + 1)) := by
  obtain ⟨u, -, -, -, hset⟩ := h.sound_setAt h₀ hs
  obtain ⟨t, ht, hpin⟩ := hpinned j (Nat.le_refl _) hjk
  rw [hs] at ht
  cases ht
  have hheld := fun {m} hjm hmk => h.held_while_pinned h₀ hpinned hs
    (hset.held_of_pinned hpin ha .curr) (m := m) hjm hmk
  have hlasts : w₀.Lasts es i a j k := by
    intro m hjm hmk
    obtain ⟨t, ht, -, hheld⟩ := hheld hjm hmk
    obtain ⟨v, -, -, -, hsound⟩ := h.sound_setAt h₀ ht
    obtain ⟨n, hn⟩ := hsound.live_of_held hheld
    exact ⟨t, n, ht, hn⟩
  refine ⟨hlasts, fun hk m hjm hmk => ?_⟩
  rcases Nat.lt_or_ge k m with hlast | hlast
  · obtain rfl : m = k + 1 := by omega
    obtain ⟨t, ht, hpin, hheld⟩ := hheld hjk (Nat.le_refl _)
    obtain ⟨-, -, t', -, -, -, -, ht', -⟩ := h.evolves h₀ ht hk
    obtain ⟨u, e, v, -, hsound, -, hpassage, hv, hv', hnext⟩ := h.passage_back h₀ ht'
    rw [ht] at hv'
    cases hv'
    obtain ⟨n, hn⟩ := (hpassage.held hsound hv hnext hpin hheld).1
    exact ⟨t', n, ht', hn⟩
  · exact hlasts m hjm hlast

end

/-- In every state of a run under epochs each pinned record shows the global epoch or the one
before, and the record of an operation in progress or of a result that is held is pinned. The global
epoch never goes back, and an action moves it on by one at most, if it tries to and if all pinned
records show it. A node that is on the chain while a record is pinned is not freed as long as the
record stays pinned, nor with the action that unpins it. -/
theorem Run.grace_period {ts : List Tuning} {es : List (Event κ ν)} {w : World κ ν}
    (h : Run (.ofTunings .epochs ts) es w) (i : Nat) :
    (∀ (m : Nat) (u : World κ ν) (s : SharedSet κ ν),
      (World.ofTunings .epochs ts).worldAt es m = some u → u.sets[i]? = some s →
      ∃ e, s.scheme = .epochs e ∧
        (∀ r p, e.roster.record? r = some p → p.pinned = true →
          p.epoch ≤ e.epoch ∧ e.epoch ≤ p.epoch + 1) ∧
        ∀ (n : Nat) (x : Handle), u.handles[n]? = some x → x.set = i →
          x.status = .running ∨ x.status = .holding → s.Pinned x.record) ∧
    (∀ (m : Nat) (u : World κ ν) (e : Event κ ν) (s t : SharedSet κ ν),
      (World.ofTunings .epochs ts).worldAt es m = some u → es[m]? = some e →
      u.sets[i]? = some s → e.outcome.world.sets[i]? = some t →
        t.scheme.stamp = s.scheme.stamp ∨ (t.scheme.stamp = s.scheme.stamp + 1 ∧
          s.scheme.Caught ∧ u.Tries i t e.action)) ∧
    (∀ j k s t, j ≤ k → (World.ofTunings .epochs ts).setAt es i j = some s →
      (World.ofTunings .epochs ts).setAt es i k = some t → s.scheme.stamp ≤ t.scheme.stamp) ∧
    ∀ r a j k s, j ≤ k →
      (∀ m, j ≤ m → m ≤ k → ∃ t, (World.ofTunings .epochs ts).setAt es i m = some t ∧ t.Pinned r) →
      (World.ofTunings .epochs ts).setAt es i j = some s → a ∈ s.linked →
        (World.ofTunings .epochs ts).Lasts es i a j k ∧
        (k < es.length → (World.ofTunings .epochs ts).Lasts es i a j (k + 1)) := by
  have h₀ := World.sound_ofTunings (κ := κ) (ν := ν) .epochs ts
  refine ⟨fun m u s hu hs => ?_, fun m u e s t hu he hs ht => ?_,
    fun j k s t hjk hs ht => h.stamp_mono h₀ hjk hs ht,
    fun r a j k s hjk hpinned hs ha => h.lasts_while_pinned h₀ hjk hpinned hs ha⟩
  · have hsound := h.sound h₀ hu
    have hset := hsound.sets i s hs
    have hv : s.scheme.validates = false := by
      obtain ⟨s₀, hs₀, hsame⟩ := h.validates h₀ (s := s) (m := m) (i := i)
        (by rw [World.setAt, hu]; exact hs)
      obtain ⟨t, rfl⟩ := World.eq_ofTuning hs₀
      exact hsame
    have hscheme := hset.scheme
    cases he : s.scheme with
    | hazards h =>
      rw [he] at hv
      cases hv
    | epochs e =>
      rw [he] at hscheme
      refine ⟨e, rfl, fun r p hp hpin => (hscheme r p hp).2 hpin, ?_⟩
      rintro n x hx rfl hbusy
      exact hsound.pinned_of_busy hx hs hv hbusy
  · obtain ⟨u', hu', hok, hnext⟩ := h.step_at he
    rw [hu] at hu'
    cases hu'
    have hsound := h.sound h₀ hu
    exact ((World.step_settles hsound _).of_ok hok).ticks hsound hs ht

/-! ## A stalled participant -/

/-- A search keeps its protection while its node is removed. The global epoch moves on once, and the
node stays until the protection has ended and the epoch has moved on again. -/
def stalled : List (Action Int Nat) :=
  [.register 0, .register 0,
    .invoke 0 0 0 (.insert 1 10) none, .proceed, .proceed,
    .invoke 1 0 0 (.hold 1) none, .proceed, .proceed, .proceed, .proceed,
    .invoke 0 0 0 (.remove 1) none, .proceed, .proceed, .proceed, .proceed,
    .advance 0, .advance 0, .collect 0 0, .resume 1, .advance 0, .collect 0 0]

namespace Stalled

/-- The one set at the start, under epochs. -/
def origin : World Int Nat := .ofTunings .epochs [{}]

/-- What the actions came to. -/
def events : List (Event Int Nat) := (origin.play stalled).1

/-- The set after so many actions. -/
def set (m : Nat) : SharedSet Int Nat := (origin.setAt events 0 m).getD (.ofTuning .epochs {})

theorem run : Run origin events (origin.play stalled).2 := origin.play_run stalled

theorem setAt_eq {m : Nat} (h : (origin.setAt events 0 m).isSome = true) :
    origin.setAt events 0 m = some (set m) :=
  eq_some_getD h

/-- The pin of the record of the search. -/
def pin? (m : Nat) : Option Pin :=
  match (set m).scheme with
  | .epochs e => e.roster.record? 1
  | .hazards _ => none

theorem pinned {m : Nat} (h : (pin? m).map Pin.pinned = some true) : (set m).Pinned 1 := by
  obtain ⟨p, hp, hpin⟩ := Option.map_eq_some_iff.1 h
  rw [pin?] at hp
  split at hp
  · next e he => exact ⟨e, p, he, hp, hpin⟩
  · cases hp

end Stalled

open Stalled in
/-- The removed node is there after the first collection and after the protection has ended. -/
theorem grace_period_stalled :
    0 ∈ (set 6).linked ∧ (set 15).retired = [0] ∧ (set 16).scheme.stamp = 1 ∧
      (set 18).Pinned 1 ∧ origin.Lasts events 0 0 6 18 ∧ origin.Lasts events 0 0 6 19 ∧
      (set 20).scheme.stamp = 2 ∧ (set 21).memory.node? 0 = none := by
  obtain ⟨-, -, -, hgrace⟩ := run.grace_period 0
  have hpins : ∀ m < 19, 6 ≤ m → (pin? m).map Pin.pinned = some true := by decide +kernel
  have hsets : ∀ m < 19, (origin.setAt events 0 m).isSome = true := by decide +kernel
  have hlinked : 0 ∈ (set 6).linked := by decide
  obtain ⟨hlasts, hlonger⟩ := hgrace 1 0 6 18 (set 6) (by decide)
    (fun m hjm hmk => ⟨set m, setAt_eq (hsets m (Nat.lt_succ_of_le hmk)),
      pinned (hpins m (Nat.lt_succ_of_le hmk) hjm)⟩) (setAt_eq (hsets 6 (by decide))) hlinked
  exact ⟨hlinked, by decide, by decide +kernel, pinned (hpins 18 (by decide) (by decide)), hlasts,
    hlonger (by decide +kernel), by decide +kernel,
    Option.isNone_iff_eq_none.1 (by decide +kernel)⟩

end MarkedChain
