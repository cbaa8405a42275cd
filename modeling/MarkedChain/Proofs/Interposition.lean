import MarkedChain.Proofs.Descent
import MarkedChain.Proofs.GracePeriod

/-!
# Steps of others in between

While an operation pauses others may run, each to its end, and then the operation goes on
(`World.Interposes`). They leave the operation and its handle as they are
(`World.Interposes.onTop`). A step of the operation itself ends it, or brings it nearer to its end,
or is a retry, after which all that the operation knows is up to date (`Passage.own_step`).
-/

namespace MarkedChain

variable {κ ν : Type} [Ord κ]

namespace World

/-- The running operation, those that wait below it, its handle, and its set. -/
structure OnTop (w : World κ ν) (b : Activation κ) (rest : List (Activation κ)) (x : Handle)
    (s : SharedSet κ ν) : Prop where
  running : w.running = b :: rest
  handle : w.handles[b.handle]? = some x
  set : w.sets[x.set]? = some s

/-- The operations in progress make no step, while others make some, each of their operations to its
end. -/
structure Interposes (w : World κ ν) (es : List (Event κ ν)) (w' : World κ ν) : Prop where
  run : Run w es w'
  nonempty : es ≠ []
  waits : ∀ m e u, es[m]? = some e → w.worldAt es m = some u → e.action = .proceed →
    w.running.length < u.running.length
  back : w'.running = w.running

end World

section

variable {w w' : World κ ν} {a : Action κ ν} {o : Outcome κ ν} {es : List (Event κ ν)}
  {b : Activation κ} {rest : List (Activation κ)} {x : Handle} {s : SharedSet κ ν}

/-! ## Others -/

/-- Operations in progress are piled up. What is below the running one stays. -/
theorem Passage.stacked (hp : Passage w a o) {l : List (Activation κ)} (hl : l <:+ w.running)
    (hwaits : a = .proceed → l.length < w.running.length) : l <:+ o.world.running := by
  have hrest : ∀ {c rest}, w.running = c :: rest → a = .proceed → l <:+ rest := by
    intro c rest hrun ha
    have hlt := hwaits ha
    rw [hrun] at hl hlt
    rcases List.suffix_cons_iff.1 hl with rfl | hl
    · exact absurd hlt (Nat.lt_irrefl _)
    · exact hl
  cases hp with
  | misuse | sweep | register | release | resume => exact hl
  | begin => exact hl.trans (List.suffix_cons _ _)
  | goes hrun => exact (hrest hrun rfl).trans (List.suffix_cons _ _)
  | ends hrun => exact hrest hrun rfl

variable [Std.TransOrd κ]

/-- Operations that make no step keep their handles. -/
theorem Run.kept_below (h : Run w es w') (hw : w.Sound)
    (hwaits : ∀ m e u, es[m]? = some e → w.worldAt es m = some u → e.action = .proceed →
      w.running.length < u.running.length) :
    w.running <:+ w'.running ∧
      ∀ c ∈ w.running, w'.handles[c.handle]? = w.handles[c.handle]? := by
  induction h with
  | nil => exact ⟨List.suffix_refl _, fun _ _ => rfl⟩
  | @snoc es v a o h hstep ih =>
    have hv := h.sound hw h.worldAt_last
    have hp := (World.step_settles hv _).of_ok hstep
    obtain ⟨hsuffix, hsame⟩ := ih fun m e u he hu => by
      have hm := (List.getElem?_eq_some_iff.1 he).1
      refine hwaits m e u ?_ ?_
      · rw [List.getElem?_append_left hm, he]
      · rw [World.worldAt_append (Nat.le_of_lt hm), hu]
    have hlast : a = .proceed → w.running.length < v.running.length := by
      refine hwaits es.length ⟨a, o⟩ v (by simp) ?_
      rw [World.worldAt_append (Nat.le_refl _), h.worldAt_last]
    refine ⟨hp.stacked hsuffix hlast, fun c hc => ?_⟩
    have hc' := hsuffix.subset hc
    obtain ⟨y, t, hy, -, ht, -⟩ := hv.running c hc'
    have hother : a = .proceed → ∃ d rest, v.running = d :: rest ∧ c ∈ rest := by
      intro ha
      have hlt := hlast ha
      cases hrun : v.running with
      | nil =>
        rw [hrun] at hlt
        cases hlt
      | cons d rest =>
        rw [hrun] at hsuffix hlt
        rcases List.suffix_cons_iff.1 hsuffix with heq | hsuffix
        · rw [heq] at hlt
          exact absurd hlt (Nat.lt_irrefl _)
        · exact ⟨d, rest, rfl, hsuffix.subset hc⟩
    rw [(hp.bystander hv hc' hother hy ht).1, ← hsame c hc, hy]

/-- After the steps of others the operation is the running one, and its handle is as it was. -/
theorem World.Interposes.onTop (h : w.Interposes es w') (hw : w.Sound) (htop : w.OnTop b rest x s) :
    ∃ s', w'.OnTop b rest x s' ∧ s'.scheme.validates = s.scheme.validates := by
  have hw' := h.run.sound hw h.run.worldAt_last
  have hrun : w'.running = b :: rest := h.back.trans htop.running
  obtain ⟨-, hsame⟩ := h.run.kept_below hw h.waits
  obtain ⟨y, s', hy, -, hs', -⟩ := hw'.running b (by simp [hrun])
  have hx := hsame b (by simp [htop.running])
  rw [htop.handle, hy] at hx
  cases hx
  obtain ⟨s₀, hs₀, hv⟩ := h.run.validates hw (i := x.set) (m := es.length) (s := s') (by
    rw [World.setAt, h.run.worldAt_last]
    exact hs')
  cases hs₀.symm.trans htop.set
  exact ⟨s', ⟨hrun, hy, hs'⟩, hv⟩

/-! ## The operation itself -/

omit [Std.TransOrd κ] in
/-- An operation that begins is the running one. -/
theorem Passage.onTop_begin {k i : Nat} {lane : Lane} {call : Call κ ν} {offer : Option Address}
    (hp : Passage w (.invoke k i lane call offer) o) (hanswer : o.answer = none) :
    ∃ x task s, w.handles[k]? = some x ∧ x.set = i ∧
      o.world.OnTop ⟨k, lane, ⟨task, .start⟩⟩ w.running { x with status := .running } s := by
  cases hp with
  | misuse | sweep => cases hanswer
  | @begin _ _ _ _ _ x s t task sch hx hidle hset hs hopens hpin =>
    subst hset
    refine ⟨x, task, { t with scheme := sch }, hx, rfl, rfl, ?_, ?_⟩
    · exact (World.getElem?_setHandle hx _ _).trans (if_pos rfl)
    · exact (World.getElem?_setSet hs _ _).trans (if_pos rfl)

/-- A step of the running operation ends it, brings it nearer to its end, or is a retry. It retries
only if something that it has read is no longer so, and after that all is. -/
theorem Passage.own_step (hp : Passage w .proceed o) (hw : w.Sound) (htop : w.OnTop b rest x s)
    (horderly : s.Orderly) :
    (∃ f x' s', o.world.OnTop { b with frame := f } rest x' s' ∧ x'.set = x.set ∧
        (x'.retries = x.retries ∧ (b.frame.Recent s → f.Recent s') ∧
            f.point.height s' < b.frame.point.height s ∨
          x'.retries = x.retries + 1 ∧ ¬ b.frame.Recent s ∧ f.Recent s')) ∨
      o.world.running = rest ∧ ∃ x', o.world.handles[b.handle]? = some x' ∧
        x'.retries = x.retries := by
  obtain ⟨hrun, hx, hs⟩ := htop
  obtain ⟨-, hfits, hd, hsound⟩ := hw.top hrun hx hs
  cases hp with
  | misuse _ _ _ ha => exact absurd rfl ha
  | sweep _ _ _ ha => exact absurd rfl ha
  | @goes c rest' y t st f hrun' hy ht hmove hnext =>
    cases hrun.symm.trans hrun'
    cases hx.symm.trans hy
    cases hs.symm.trans ht
    refine .inl ⟨f, { x with retries := x.retries + st.retries }, st.set, ⟨rfl, ?_, ?_⟩, rfl, ?_⟩
    · exact (World.getElem?_setHandle hx _ _).trans (if_pos rfl)
    · exact (World.getElem?_setSet hs _ _).trans (if_pos rfl)
    · rcases hmove.recent hsound hfits hd hnext with ⟨hnone, hrecent⟩ | ⟨hone, hnot, hrecent⟩
      · exact .inl ⟨by simp [hnone], hrecent, hmove.descends hsound hfits hd horderly hnext hnone⟩
      · exact .inr ⟨by simp [hone], hnot, hrecent⟩
  | @ends c rest' y t st reply sch hrun' hy ht hmove hnext =>
    cases hrun.symm.trans hrun'
    cases hx.symm.trans hy
    refine .inr ⟨rfl, _, (World.getElem?_setHandle hx _ _).trans (if_pos rfl), ?_⟩
    rw [hmove.retries_of_ends hnext]
    rfl

end

end MarkedChain
