import MarkedChain.Proofs.Passages

/-!
# Worlds stay in order

A new world is sound (`World.sound_ofTunings`), and every change an action can make keeps it so
(`Passage.sound`). Most changes concern one handle and the set it belongs to. `World.Sound.change`
says once what has to be shown for such a change.
-/

namespace MarkedChain

variable {κ ν : Type} [Ord κ]

namespace World

variable {w w' : World κ ν}

omit [Ord κ] in
/-- The private nodes depend on nothing but the operations and the sets of their handles. -/
theorem fresh_congr (w w' : World κ ν) (hrun : w'.running = w.running)
    (hset : ∀ a ∈ w.running, w'.setOf? a.handle = w.setOf? a.handle) (i : Nat) :
    w'.fresh i = w.fresh i := by
  rw [fresh, fresh, hrun, List.flatMap, List.flatMap]
  exact congrArg List.flatten (List.map_congr_left fun a ha => by rw [hset a ha])

section

variable {i : Nat} {s s' : SharedSet κ ν} {who : Option Nat}

/-- A handle whose record was left alone in a change of one set still has it. -/
theorem Sound.handle_kept (hw : w.Sound) (hs : w.sets[i]? = some s)
    (hsets : ∀ j, w'.sets[j]? = if j = i then some s' else w.sets[j]?)
    (hrespects : s.Respects s' who) {h : Nat} {y : Handle} (hy : w.handles[h]? = some y)
    (hlive : y.status ≠ .released) (hwho : y.set = i → who ≠ some y.record) :
    ∃ t, w'.sets[y.set]? = some t ∧ t.scheme.taken? y.record = some true ∧
      t.scheme.depth? y.record = some y.depth := by
  obtain ⟨t, ht, htaken, hdepth⟩ := hw.handles h y hy hlive
  by_cases hyi : y.set = i
  · rw [hyi, hs] at ht
    cases ht
    refine ⟨s', by rw [hsets, if_pos hyi], ?_, ?_⟩
    · rw [hrespects.taken? _ (hwho hyi), htaken]
    · rw [hrespects.depth? _ (hwho hyi), hdepth]
  · exact ⟨t, by rw [hsets, if_neg hyi, ht], htaken, hdepth⟩

/-- An operation whose record was left alone goes on to fit its set. -/
theorem Sound.fits_kept (hw : w.Sound) (hs : w.sets[i]? = some s)
    (hsets : ∀ j, w'.sets[j]? = if j = i then some s' else w.sets[j]?)
    (hrespects : s.Respects s' who) {a : Activation κ} (ha : a ∈ w.running) :
    ∃ y, w.handles[a.handle]? = some y ∧ y.status = .running ∧
      ((y.set = i → who ≠ some y.record) →
        ∃ t, w'.sets[y.set]? = some t ∧ a.frame.Fits t y.record) := by
  obtain ⟨y, t, hy, hstatus, ht, hfits⟩ := hw.running a ha
  refine ⟨y, hy, hstatus, ?_⟩
  intro hwho
  by_cases hyi : y.set = i
  · rw [hyi, hs] at ht
    cases ht
    refine ⟨s', by rw [hsets, if_pos hyi], ?_⟩
    have hsound := hw.sets i s hs
    have hown := own_subset_fresh ha (by rw [setOf?, hy, Option.map_some, hyi])
    exact hfits.respects hsound hrespects (hwho hyi) fun b hb => hsound.live_of_own (hown hb)
  · exact ⟨t, by rw [hsets, if_neg hyi, ht], hfits⟩

end

/-- A change of one set and one of its handles, of which nobody else shares the record. -/
structure Changes (w w' : World κ ν) (h : Nat) (x : Handle) (s s' : SharedSet κ ν) : Prop where
  sets : ∀ j, w'.sets[j]? = if j = x.set then some s' else w.sets[j]?
  handles : ∀ h', w'.handles[h']? = if h' = h then some x else w.handles[h']?
  old : w.sets[x.set]? = some s
  alone : ∀ (h' : Nat) (y : Handle), h' ≠ h → w.handles[h']? = some y → y.status ≠ .released →
    y.set = x.set → y.record ≠ x.record
  respects : s.Respects s' (some x.record)
  record : x.status ≠ .released →
    s'.scheme.taken? x.record = some true ∧ s'.scheme.depth? x.record = some x.depth
  quiet : s'.scheme.taken? x.record = some false → s'.scheme.depth? x.record = some 0
  running : ∀ a ∈ w'.running, (a.handle ≠ h ∧ a ∈ w.running) ∨
    (a.handle = h ∧ x.status = .running ∧ a.frame.Fits s' x.record)
  nodup : (w'.running.map Activation.handle).Nodup

theorem Changes.record_ne {h h' : Nat} {x y : Handle} {s s' : SharedSet κ ν}
    (hc : w.Changes w' h x s s') (hy : w.handles[h']? = some y) (hne : h' ≠ h)
    (hlive : y.status ≠ .released) (hset : y.set = x.set) : some x.record ≠ some y.record :=
  fun hrecord => hc.alone h' y hne hy hlive hset (Option.some.inj hrecord).symm

/-- An operation of another handle goes on to fit its set. -/
theorem Sound.fits_other (hw : w.Sound) {h : Nat} {x : Handle} {s s' : SharedSet κ ν}
    (hc : w.Changes w' h x s s') {a : Activation κ} (ha : a ∈ w.running) (hne : a.handle ≠ h) :
    ∃ y t, w'.handles[a.handle]? = some y ∧ y.status = .running ∧ w'.sets[y.set]? = some t ∧
      a.frame.Fits t y.record := by
  obtain ⟨y, hy, hstatus, hkept⟩ := hw.fits_kept hc.old hc.sets hc.respects ha
  have hreleased : y.status ≠ .released := by rw [hstatus]; decide
  obtain ⟨t, ht, hfits⟩ := hkept (hc.record_ne hy hne hreleased)
  exact ⟨y, t, by rw [hc.handles, if_neg hne, hy], hstatus, ht, hfits⟩

theorem Sound.change (hw : w.Sound) {h : Nat} {x : Handle} {s s' : SharedSet κ ν}
    (hc : w.Changes w' h x s s') (hs' : s'.Sound (w'.fresh x.set))
    (hfresh : ∀ j, j ≠ x.set → w'.fresh j = w.fresh j) : w'.Sound where
  sets j t ht := by
    rw [hc.sets] at ht
    split at ht
    · next hj =>
      cases ht
      exact hj ▸ hs'
    · next hj =>
      rw [hfresh j hj]
      exact hw.sets j t ht
  quiet j t ht r htaken := by
    rw [hc.sets] at ht
    split at ht
    · cases ht
      by_cases hr : r = x.record
      · subst hr
        exact hc.quiet htaken
      · have hne : some x.record ≠ some r := fun h => hr (Option.some.inj h).symm
        rw [hc.respects.taken? r hne] at htaken
        rw [hc.respects.depth? r hne]
        exact hw.quiet x.set s hc.old r htaken
    · exact hw.quiet j t ht r htaken
  handles h' y hy hreleased := by
    rw [hc.handles] at hy
    split at hy
    · cases hy
      obtain ⟨htaken, hdepth⟩ := hc.record hreleased
      exact ⟨s', by rw [hc.sets, if_pos rfl], htaken, hdepth⟩
    · next hne =>
      exact hw.handle_kept hc.old hc.sets hc.respects hy hreleased (hc.record_ne hy hne hreleased)
  apart h₁ h₂ y₁ y₂ hy₁ hy₂ hr₁ hr₂ hset hrec := by
    rw [hc.handles] at hy₁ hy₂
    split at hy₁ <;> split at hy₂
    · next hh₁ hh₂ => exact hh₁.trans hh₂.symm
    · next hh₁ hh₂ =>
      cases hy₁
      exact absurd hrec.symm (hc.alone h₂ y₂ hh₂ hy₂ hr₂ hset.symm)
    · next hh₁ hh₂ =>
      cases hy₂
      exact absurd hrec (hc.alone h₁ y₁ hh₁ hy₁ hr₁ hset)
    · exact hw.apart h₁ h₂ y₁ y₂ hy₁ hy₂ hr₁ hr₂ hset hrec
  running a ha := by
    rcases hc.running a ha with ⟨hne, ha⟩ | ⟨rfl, hstatus, hfits⟩
    · exact hw.fits_other hc ha hne
    · exact ⟨x, s', by rw [hc.handles, if_pos rfl], hstatus, by rw [hc.sets, if_pos rfl], hfits⟩
  nodup := hc.nodup

/-- What a change of one handle and its set looks like, once the handle is known. -/
theorem Sound.changes (hw : w.Sound) {h : Nat} {x x' : Handle} {s s' : SharedSet κ ν}
    (hx : w.handles[h]? = some x) (hlive : x.status ≠ .released) (hset : x'.set = x.set)
    (hrecord : x'.record = x.record) (hs : w.sets[x.set]? = some s)
    (hsets : w'.sets = (w.setSet x.set s').sets)
    (hhandles : w'.handles = (w.setHandle h x').handles)
    (hrespects : s.Respects s' (some x.record))
    (hrec : x'.status ≠ .released →
      s'.scheme.taken? x.record = some true ∧ s'.scheme.depth? x.record = some x'.depth)
    (hquiet : s'.scheme.taken? x.record = some false → s'.scheme.depth? x.record = some 0)
    (hrunning : ∀ a ∈ w'.running, (a.handle ≠ h ∧ a ∈ w.running) ∨
      (a.handle = h ∧ x'.status = .running ∧ a.frame.Fits s' x.record))
    (hnodup : (w'.running.map Activation.handle).Nodup) : w.Changes w' h x' s s' where
  sets j := by rw [hsets, getElem?_setSet hs, hset]
  handles h' := by rw [hhandles, getElem?_setHandle hx]
  old := hset ▸ hs
  alone h' y hne hy hreleased hys hyr :=
    hne (hw.apart h' h y x hy hx hreleased hlive (hys.trans hset) (hyr.trans hrecord))
  respects := hrecord ▸ hrespects
  record := hrecord ▸ hrec
  quiet := hrecord ▸ hquiet
  running := hrecord ▸ hrunning
  nodup := hnodup

omit [Ord κ] in
/-- A handle stays with its set. -/
theorem setOf?_setHandle {h : Nat} {x : Handle} (hx : w.handles[h]? = some x) (x' : Handle)
    (hhandles : w'.handles = (w.setHandle h x').handles) (hset : x'.set = x.set) (h' : Nat) :
    w'.setOf? h' = w.setOf? h' := by
  rw [setOf?, hhandles, getElem?_setHandle hx, setOf?]
  split
  · next hh =>
    subst hh
    simp [hx, hset]
  · rfl

/-- The set of a handle has changed, and the operations in progress are as they were. -/
theorem Sound.same_running (hw : w.Sound) {h : Nat} {x x' : Handle} {s s' : SharedSet κ ν}
    (hx : w.handles[h]? = some x) (hlive : x.status ≠ .released) (hset : x'.set = x.set)
    (hrecord : x'.record = x.record) (hidle : x.status ≠ .running)
    (hs : w.sets[x.set]? = some s) (hs' : s'.Sound (w.fresh x.set))
    (hrespects : s.Respects s' (some x.record))
    (hrec : x'.status ≠ .released →
      s'.scheme.taken? x.record = some true ∧ s'.scheme.depth? x.record = some x'.depth)
    (hquiet : s'.scheme.taken? x.record = some false → s'.scheme.depth? x.record = some 0) :
    ((w.setSet x.set s').setHandle h x').Sound := by
  have hfresh := fresh_congr w ((w.setSet x.set s').setHandle h x') rfl
    fun a _ => setOf?_setHandle hx _ rfl hset _
  refine hw.change (hw.changes hx hlive hset hrecord hs rfl rfl hrespects hrec hquiet ?_ hw.nodup)
    ?_ fun j _ => hfresh j
  · exact fun a ha => .inl ⟨hw.handle_ne hx hidle ha, ha⟩
  · rw [hset, hfresh]
    exact hs'

end World

/-- A call that becomes a task adds at most the node of an insertion. -/
theorem Opens.sound {s t : SharedSet κ ν} {call : Call κ ν} {task : Task κ} {own : List Address}
    (h : Opens s call task t) (hs : s.Sound own) :
    t.Sound (Frame.own ⟨task, .start⟩ ++ own) ∧ s.Respects t none ∧ t.scheme = s.scheme ∧
      t.linked = s.linked ∧
      ∀ a k, task = .insert a k → ∀ n, t.memory.node? a = some n → n.key = k := by
  cases h with
  | @insert key value m a hbirth =>
    obtain ⟨hlinked, hsound, hresp⟩ := hs.birth hbirth rfl
    refine ⟨hsound, hresp, rfl, hlinked, ?_⟩
    intro b k hb n hn
    cases hb
    rw [show m.node? a = _ from hbirth.node? a, if_pos rfl] at hn
    cases hn
    rfl
  | plain htask =>
    have hnode : Frame.own ⟨task, .start⟩ = [] ∧ ∀ a k, task ≠ .insert a k := by
      cases call <;> cases htask <;> exact ⟨rfl, by simp⟩
    rw [hnode.1]
    exact ⟨hs, .refl _ _, rfl, rfl, fun a k ht => absurd ht (hnode.2 a k)⟩

/-! ## The changes -/

namespace Passage

variable {w : World κ ν}

theorem sound_sweep (hw : w.Sound) {i : Nat} {s s' : SharedSet κ ν} (hs : w.sets[i]? = some s)
    (hs' : s'.Sound (w.fresh i)) (hrespects : s.Respects s' none) : (w.setSet i s').Sound := by
  have hsets := World.getElem?_setSet hs s'
  refine ⟨fun j t ht => ?_, fun j t ht r htaken => ?_, fun h x hx hreleased => ?_, hw.apart,
    fun a ha => ?_, hw.nodup⟩
  · rw [hsets] at ht
    split at ht
    · next hj =>
      cases ht
      exact hj ▸ hs'
    · exact hw.sets j t ht
  · rw [hsets] at ht
    split at ht
    · cases ht
      rw [hrespects.taken? r (by simp)] at htaken
      rw [hrespects.depth? r (by simp)]
      exact hw.quiet i s hs r htaken
    · exact hw.quiet j t ht r htaken
  · exact hw.handle_kept hs hsets hrespects hx hreleased (by simp)
  · obtain ⟨x, hx, hstatus, hkept⟩ := hw.fits_kept hs hsets hrespects ha
    obtain ⟨t, ht, hfits⟩ := hkept (by simp)
    exact ⟨x, t, hx, hstatus, ht, hfits⟩

theorem sound_register (hw : w.Sound) {i r : Nat} {s : SharedSet κ ν} {sch : Scheme Address}
    (hs : w.sets[i]? = some s) (hreg : s.scheme.register = .ok (r, sch)) :
    World.Sound { w.setSet i { s with scheme := sch } with
      handles := w.handles.push { set := i, record := r } } := by
  have hsound := hw.sets i s hs
  obtain ⟨htouches, hsch, hdepth, hfree, htaken⟩ :=
    Scheme.register_eq_ok hsound.scheme (hw.quiet i s hs) hreg
  generalize hw'' : ({ w.setSet i { s with scheme := sch } with
    handles := w.handles.push { set := i, record := r } } : World κ ν) = w'
  have hhandles : ∀ h', w'.handles[h']? =
      if h' = w.handles.size then some { set := i, record := r } else w.handles[h']? := by
    intro h'
    rw [← hw'', Array.getElem?_push]
  have hrunning : w'.running = w.running := by rw [← hw'']; rfl
  have hfresh := World.fresh_congr w w' hrunning fun a ha => by
    obtain ⟨y, -, hy, -⟩ := hw.running a ha
    have hlt := (Array.getElem?_eq_some_iff.1 hy).1
    rw [World.setOf?, hhandles, if_neg (Nat.ne_of_lt hlt), World.setOf?]
  have hc : w.Changes w' w.handles.size { set := i, record := r } s { s with scheme := sch } := by
    refine ⟨fun j => ?_, hhandles, hs, ?_, SharedSet.respects_touch htouches,
      fun _ => ⟨htaken, hdepth⟩, fun _ => hdepth, ?_, hrunning ▸ hw.nodup⟩
    · rw [← hw'']
      exact World.getElem?_setSet hs _ j
    · rintro h' y - hy hreleased hyi hyr
      obtain ⟨t, ht, htaken', -⟩ := hw.handles h' y hy hreleased
      rw [hyi, hs] at ht
      cases ht
      exact hfree ((congrArg _ hyr).symm.trans htaken')
    · rw [hrunning]
      refine fun a ha => .inl ⟨?_, ha⟩
      obtain ⟨y, -, hy, -⟩ := hw.running a ha
      exact Nat.ne_of_lt (Array.getElem?_eq_some_iff.1 hy).1
  refine hw.change hc ?_ fun j _ => hfresh j
  rw [hfresh]
  exact hsound.touch htouches hsch

theorem sound_begin (hw : w.Sound) {h i : Nat} {lane : Lane} {call : Call κ ν} {x : Handle}
    {s t : SharedSet κ ν} {task : Task κ} {sch : Scheme Address} (hx : w.handles[h]? = some x)
    (hidle : x.status = .idle) (hset : x.set = i) (hs : w.sets[i]? = some s)
    (hopens : Opens s call task t) (hpin : t.scheme.Repins sch x.record 1) :
    World.Sound { (w.setSet i { t with scheme := sch }).setHandle h
        { x with status := .running } with
      running := ⟨h, lane, ⟨task, .start⟩⟩ :: w.running } := by
  subst hset
  obtain ⟨ht, hresp, hscheme, -, hfits⟩ := hopens.sound (hw.sets _ _ hs)
  obtain ⟨htouches, hsch, hdepth, htaken⟩ := hpin
  have hreleased : x.status ≠ .released := by rw [hidle]; decide
  obtain ⟨htaken', -⟩ := hw.depth? hx hreleased hs
  rw [hscheme, htaken'] at htaken
  have hother : ∀ a ∈ w.running, a.handle ≠ h :=
    fun a ha => hw.handle_ne hx (by rw [hidle]; decide) ha
  generalize hw'' : ({ (w.setSet x.set { t with scheme := sch }).setHandle h
    { x with status := .running } with
      running := ⟨h, lane, ⟨task, .start⟩⟩ :: w.running } : World κ ν) = w'
  have hrunning : w'.running = ⟨h, lane, ⟨task, .start⟩⟩ :: w.running := by rw [← hw'']
  have hhandles : w'.handles = (w.setHandle h { x with status := .running }).handles := by
    rw [← hw'']
    rfl
  have hsetOf : ∀ h', w'.setOf? h' = w.setOf? h' := World.setOf?_setHandle hx _ hhandles rfl
  have hfresh : ∀ j, w'.fresh j =
      (if x.set = j then Frame.own ⟨task, .start⟩ else []) ++ w.fresh j := by
    intro j
    have hrest : World.fresh { w' with running := w.running } j = w.fresh j :=
      World.fresh_congr w { w' with running := w.running } rfl (fun a _ => hsetOf a.handle) j
    rw [World.fresh_cons hrunning, hsetOf, hrest]
    congr 1
    simp [World.setOf?, hx]
  have hc : w.Changes w' h { x with status := .running } s { t with scheme := sch } := by
    refine hw.changes hx hreleased rfl rfl hs (by rw [← hw'']; rfl) hhandles
      ((hresp.of_none _).trans (SharedSet.respects_touch htouches) fun _ h => h)
      (fun _ => ⟨htaken, hdepth⟩) (fun h => ?_) ?_ ?_
    · rw [htaken] at h
      cases h
    · rw [hrunning]
      intro a ha
      rcases List.mem_cons.1 ha with rfl | ha
      · exact .inr ⟨rfl, rfl, hfits, trivial⟩
      · exact .inl ⟨hother a ha, ha⟩
    · rw [hrunning, List.map_cons, List.nodup_cons]
      refine ⟨?_, hw.nodup⟩
      intro hmem
      obtain ⟨a, ha, hah⟩ := List.mem_map.1 hmem
      exact hother a ha hah
  refine hw.change hc ?_ fun j hj => ?_
  · rw [hfresh, if_pos rfl]
    exact ht.touch htouches hsch
  · rw [hfresh, if_neg (Ne.symm hj), List.nil_append]

/-- The running operation has changed its set and perhaps its handle, and goes on or ends. -/
theorem sound_proceed (hw : w.Sound) {w' : World κ ν} {a : Activation κ}
    {rest : List (Activation κ)} {x : Handle} {s s' : SharedSet κ ν} (x' : Handle)
    (top : List (Activation κ)) (hrun : w.running = a :: rest) (hx : w.handles[a.handle]? = some x)
    (hs : w.sets[x.set]? = some s) (hset : x'.set = x.set) (hrecord : x'.record = x.record)
    (hrunning : w'.running = top ++ rest)
    (hsets : w'.sets = (w.setSet x.set s').sets)
    (hhandles : w'.handles = (w.setHandle a.handle x').handles)
    (hrespects : s.Respects s' (some x.record))
    (htaken : s'.scheme.taken? x.record = s.scheme.taken? x.record)
    (hdepth : s'.scheme.depth? x.record = some x'.depth)
    (htop : (top.map Activation.handle).Sublist [a.handle])
    (hfits : ∀ b ∈ top, x'.status = .running ∧ b.frame.Fits s' x.record)
    (hsound : s'.Sound (top.flatMap (fun b => b.frame.own) ++
      { w with running := rest }.fresh x.set)) : w'.Sound := by
  obtain ⟨hstatus, -⟩ := hw.top hrun hx hs
  have hlive : x.status ≠ .released := by rw [hstatus]; decide
  obtain ⟨htaken', -⟩ := hw.depth? hx hlive hs
  have hnodup := hw.nodup
  rw [hrun, List.map_cons, List.nodup_cons] at hnodup
  have hother : ∀ b ∈ rest, b.handle ≠ a.handle :=
    fun b hb h => hnodup.1 (List.mem_map.2 ⟨b, hb, h⟩)
  have htop' : ∀ b ∈ top, b.handle = a.handle := by
    intro b hb
    simpa using htop.subset (List.mem_map_of_mem hb)
  have hsetOf := World.setOf?_setHandle hx _ hhandles hset
  have hfresh : ∀ j, w'.fresh j =
      (if x.set = j then top.flatMap (fun b => b.frame.own) else []) ++
        { w with running := rest }.fresh j := by
    intro j
    have hrest : World.fresh { w' with running := rest } j =
        World.fresh { w with running := rest } j :=
      World.fresh_congr { w with running := rest } { w' with running := rest } rfl
        (fun b _ => hsetOf b.handle) j
    rw [World.fresh, hrunning, List.flatMap_append, ← hrest]
    congr 1
    have hj : ∀ b ∈ top, w'.setOf? b.handle = some x.set := by
      intro b hb
      rw [htop' b hb, hsetOf]
      simp [World.setOf?, hx]
    rw [List.flatMap, List.map_congr_left fun b hb => by rw [hj b hb]]
    by_cases hxj : x.set = j
    · simp [hxj, List.flatMap]
    · simp [hxj]
  have hfresh₀ : ∀ j, j ≠ x.set → w.fresh j = { w with running := rest }.fresh j := by
    intro j hj
    rw [World.fresh_cons hrun, if_neg, List.nil_append]
    simpa [World.setOf?, hx] using Ne.symm hj
  refine hw.change (hw.changes hx hlive hset hrecord hs hsets hhandles hrespects
    (fun _ => ⟨htaken.trans htaken', hdepth⟩) (fun h => ?_) ?_ ?_) ?_ fun j hj => ?_
  · rw [htaken, htaken'] at h
    cases h
  · rw [hrunning]
    intro b hb
    rcases List.mem_append.1 hb with hb | hb
    · exact .inr ⟨htop' b hb, hfits b hb⟩
    · exact .inl ⟨hother b hb, by simp [hrun, hb]⟩
  · rw [hrunning, List.map_append, List.nodup_append]
    refine ⟨(List.nodup_singleton _).sublist htop, hnodup.2, ?_⟩
    rintro h₁ hh₁ h₂ hh₂ rfl
    exact hnodup.1 ((by simpa using htop.subset hh₁ : h₁ = a.handle) ▸ hh₂)
  · rw [hset, hfresh, if_pos rfl]
    exact hsound
  · rw [hfresh, if_neg (fun h => hj (hset ▸ h.symm)), List.nil_append, hfresh₀ j (hset ▸ hj)]

/-- Every change keeps the world sound. -/
theorem sound [Std.TransOrd κ] {a : Action κ ν} {o : Outcome κ ν} (h : Passage w a o)
    (hw : w.Sound) : o.world.Sound := by
  cases h with
  | misuse => exact hw
  | sweep _ _ _ _ hs hsheds hdrops =>
    have hsound := hw.sets _ _ hs
    exact sound_sweep hw hs (hsound.shed hsheds hdrops) (hsound.respects_shed hsheds hdrops)
  | @release h x s hx hidle hs =>
    have hsound := hw.sets _ _ hs
    have hreleased : x.status ≠ .released := by rw [hidle]; decide
    obtain ⟨htouches, hsch, hdepth, htaken⟩ := Scheme.release_touches hsound.scheme x.record
    obtain ⟨-, hd⟩ := hw.depth? hx hreleased hs
    rw [Handle.depth, if_pos hidle] at hd
    exact hw.same_running hx hreleased rfl rfl (by rw [hidle]; decide) hs
      (hsound.touch htouches hsch) (SharedSet.respects_touch htouches) (fun h => absurd rfl h)
      fun _ => hdepth.trans hd
  | @resume h x s sch hx hholding hs hunpin =>
    have hsound := hw.sets _ _ hs
    have hreleased : x.status ≠ .released := by rw [hholding]; decide
    obtain ⟨htouches, hsch, hdepth, htaken⟩ := hunpin
    obtain ⟨ht, -⟩ := hw.depth? hx hreleased hs
    exact hw.same_running hx hreleased rfl rfl (by rw [hholding]; decide) hs
      (hsound.touch htouches hsch) (SharedSet.respects_touch htouches)
      (fun _ => ⟨htaken.trans ht, hdepth⟩) fun _ => hdepth
  | register hs hreg => exact sound_register hw hs hreg
  | begin h i lane call offer hx hidle hset hs hopens hpin =>
    exact sound_begin hw hx hidle hset hs hopens hpin
  | @goes b rest x s st frame hrun hx hs hmove hnext =>
    obtain ⟨hstatus, hfits, hd, hsound⟩ := hw.top hrun hx hs
    obtain ⟨hs', hkeeps⟩ := hmove.sound_keeps hsound hfits hd
    have hd' := hkeeps.depth?.trans hd
    refine sound_proceed hw { x with retries := x.retries + st.retries } [{ b with frame }] hrun hx
      hs rfl rfl rfl rfl rfl hkeeps.respects hkeeps.taken? ?_ (.refl _) ?_ ?_
    · rw [hd', Handle.depth, if_neg]
      rw [hstatus]
      decide
    · intro c hc
      rw [List.mem_singleton.1 hc]
      exact ⟨hstatus, hmove.fits hsound hfits hd hnext⟩
    · rw [hnext] at hs'
      simpa [Next.own] using hs'
  | @ends b rest x s st reply sch hrun hx hs hmove hnext hunpin =>
    obtain ⟨hstatus, hfits, hd, hsound⟩ := hw.top hrun hx hs
    obtain ⟨hs', hkeeps⟩ := hmove.sound_keeps hsound hfits hd
    obtain ⟨htouches, hsch, hdepth, htaken⟩ := hunpin
    refine sound_proceed hw { x with
        retries := x.retries + st.retries
        status := World.statusAfter reply } [] hrun hx hs rfl rfl rfl rfl rfl
      (hkeeps.respects.trans (SharedSet.respects_touch htouches) fun _ h => h)
      (htaken.trans hkeeps.taken?) hdepth (List.nil_sublist _) (by simp) ?_
    rw [hnext] at hs'
    exact hs'.touch htouches hsch

end Passage

/-! ## New worlds -/

theorem Scheme.sound_ofTuning (t : Tuning) (kind : Scheme.Kind) :
    (Scheme.ofTuning t kind : Scheme Address).Sound ∧
      (Scheme.ofTuning t kind : Scheme Address).limbo.entries = [] ∧
      (Scheme.ofTuning t kind : Scheme Address).limbo.Counted ∧
      ∀ r, (Scheme.ofTuning t kind : Scheme Address).taken? r = none := by
  cases kind with
  | epochs => exact ⟨fun r p hp => by simp [Epochs.ofTuning, Roster.record?] at hp, rfl, rfl,
      fun r => by simp [Scheme.ofTuning, Epochs.ofTuning, Scheme.taken?, Roster.taken?]⟩
  | hazards => exact ⟨fun r q hq => by simp [Hazards.ofTuning, Roster.record?] at hq, rfl, rfl,
      fun r => by simp [Scheme.ofTuning, Hazards.ofTuning, Scheme.taken?, Roster.taken?]⟩

/-- An empty set is sound. -/
theorem SharedSet.sound_ofTuning (kind : Scheme.Kind) (t : Tuning) :
    (SharedSet.ofTuning kind t : SharedSet κ ν).Sound [] := by
  obtain ⟨hscheme, hentries, hcounted, -⟩ := Scheme.sound_ofTuning t kind
  have hlinked : (SharedSet.ofTuning kind t : SharedSet κ ν).linked = [] := rfl
  have hretired : (SharedSet.ofTuning kind t : SharedSet κ ν).retired = [] := by
    rw [SharedSet.retired, SharedSet.ofTuning, hentries, List.map_nil]
  have hnode : ∀ a, (SharedSet.ofTuning kind t : SharedSet κ ν).memory.node? a = none :=
    fun a => rfl
  refine ⟨rfl, ?_, ?_, ?_, ?_, ?_, by simp, ?_, ?_, hcounted, ?_, ?_, hscheme⟩
  · rw [hlinked]
    exact rfl
  · rw [hlinked]
    exact .nil
  · simp [hlinked, hretired]
  · intro a
    simp [hlinked, hretired, hnode]
  · simp [hretired]
  · intro x hx
    rw [SharedSet.ofTuning, hentries] at hx
    cases hx
  · intro _ x hx
    rw [SharedSet.ofTuning, hentries] at hx
    cases hx
  · rw [hlinked, hretired]
    rfl
  · refine ⟨fun _ _ h => ?_, fun _ => List.nodup_nil, fun _ _ _ _ h => ?_⟩ <;> cases h

omit [Ord κ] in
theorem World.eq_ofTuning {kind : Scheme.Kind} {ts : List Tuning} {i : Nat} {s : SharedSet κ ν}
    (hs : (World.ofTunings kind ts).sets[i]? = some s) : ∃ t, s = .ofTuning kind t := by
  simp only [ofTunings, List.getElem?_toArray, List.getElem?_map, Option.map_eq_some_iff] at hs
  obtain ⟨t, -, rfl⟩ := hs
  exact ⟨t, rfl⟩

/-- A world of empty sets is sound. -/
theorem World.sound_ofTunings (kind : Scheme.Kind) (ts : List Tuning) :
    (World.ofTunings kind ts : World κ ν).Sound := by
  refine ⟨fun i s hs => ?_, fun i s hs r htaken => ?_, fun h x hx => ?_, fun h h' x x' hx => ?_,
    fun a ha => ?_, .nil⟩
  · obtain ⟨t, rfl⟩ := eq_ofTuning hs
    exact SharedSet.sound_ofTuning kind t
  · obtain ⟨t, rfl⟩ := eq_ofTuning hs
    rw [SharedSet.ofTuning, (Scheme.sound_ofTuning t kind).2.2.2] at htaken
    cases htaken
  · simp [ofTunings] at hx
  · simp [ofTunings] at hx
  · cases ha

end MarkedChain
