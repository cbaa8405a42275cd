import MarkedChain.Proofs.Effects
import MarkedChain.Proofs.GracePeriod
import MarkedChain.Proofs.Holders
import MarkedChain.Proofs.Removals
import MarkedChain.Proofs.Slots

/-!
# The slots cover the window

In a run under hazard slots the record of every operation in progress publishes what the operation
stands on (`World.Shown`), and that of a search that has ended goes on to do so as long as the
search keeps its protection. A node of the window is not freed as long as it is published, whoever
retires it and whoever scans (`Run.lasts_while_published`, `Run.slots_cover_window`).
-/

namespace MarkedChain

variable {κ ν : Type}

/-- The nodes of the window at which an operation stands, with the slots for them: the owner of the
link before and the current node. -/
def Point.Stands (slot : Slot) (a : Address) : Point → Prop
  | .start => False
  | .inspect pred curr => slot = .pred ∧ pred = .node a ∨ slot = .curr ∧ curr = some a
  | .encounter pred curr _ | .judge pred curr _ =>
    slot = .pred ∧ pred = .node a ∨ slot = .curr ∧ curr = a

theorem Point.Stands.ne_succ {slot : Slot} {a : Address} {p : Point} (h : p.Stands slot a) :
    slot ≠ .succ := by
  cases p with
  | start => cases h
  | _ => obtain ⟨rfl, -⟩ | ⟨rfl, -⟩ := h <;> decide

/-- A record publishes a node in a slot. -/
def SharedSet.Shows (s : SharedSet κ ν) (r : Nat) (slot : Slot) (a : Address) : Prop :=
  ∃ q, s.scheme.shield? r = some q ∧ q.published slot = some a

namespace SharedSet

variable {s s' : SharedSet κ ν} {r : Nat} {slot : Slot} {a : Address} {p : Point}

theorem Publishes.shows (h : s.Publishes r p) (hp : p.Stands slot a) : s.Shows r slot a := by
  obtain ⟨q, hq, hpub⟩ := h
  refine ⟨q, hq, ?_⟩
  cases p with
  | start => cases hp
  | inspect pred curr =>
    obtain ⟨rfl, rfl⟩ | ⟨rfl, rfl⟩ := hp
    · exact hpub.1 a rfl
    · exact hpub.2
  | encounter pred curr next | judge pred curr next =>
    obtain ⟨rfl, rfl⟩ | ⟨rfl, rfl⟩ := hp
    · exact hpub.1 a rfl
    · exact hpub.2.1

/-- A node on the chain or in limbo is held by the slot that publishes it. -/
theorem Shows.held (h : s.Shows r slot a) (ha : a ∈ s.linked ∨ a ∈ s.retired) :
    s.Held r slot a := by
  obtain ⟨q, hq, hpub⟩ := h
  have hcovers : ∀ x : Retired Address, x.node = a → s.scheme.Covers r slot x := by
    rintro x rfl
    cases hs : s.scheme with
    | epochs e =>
      rw [hs] at hq
      cases hq
    | hazards z =>
      rw [hs] at hq
      exact ⟨q, hq, hpub⟩
  rcases ha with ha | ha
  · exact ⟨⟨a, s.scheme.stamp⟩, .of_linked ha, rfl, hcovers _ rfl⟩
  · obtain ⟨x, hx, rfl⟩ := List.mem_map.1 ha
    exact ⟨x, .inl hx, rfl, hcovers x rfl⟩

theorem Held.place (h : s.Held r slot a) : a ∈ s.linked ∨ a ∈ s.retired := by
  obtain ⟨x, hx, rfl, -⟩ := h
  exact hx.place

/-- What is published goes on to be held as long as it is live and published. -/
theorem Evolves.shows {window : Option (Place × Address)} {n : Node κ ν} (h : s.Evolves s' window)
    (ha : s.Held r slot a) (hn : s'.memory.node? a = some n) (hshows : s'.Shows r slot a) :
    s'.Held r slot a := by
  have hlive := Option.isSome_iff_exists.2 ⟨n, hn⟩
  refine hshows.held ?_
  rcases ha.place with ha | ha
  · exact h.linked a ha hlive
  · exact .inr (h.retired a ha hlive)

end SharedSet

variable [Ord κ] {s : SharedSet κ ν} {who : Actor} {f : Frame κ} {st : Stride κ ν}
  {own : List Address} {r : Nat} {slot : Slot} {b : Address}

/-- The nodes of the window are held by the slots for them. -/
theorem Frame.Fits.held_of_stands (h : f.Fits s r) (hp : f.point.Stands slot b) :
    s.Held r slot b := by
  obtain ⟨t, p⟩ := f
  have hpoint := h.point
  cases p with
  | start => cases hp
  | inspect pred curr =>
    obtain ⟨rfl, hpred⟩ | ⟨rfl, hcurr⟩ := hp
    · exact hpoint.1.held b hpred
    · exact hpoint.2 b hcurr
  | encounter pred curr next | judge pred curr next =>
    obtain ⟨rfl, hpred⟩ | ⟨rfl, rfl⟩ := hp
    · exact hpoint.1.held b hpred
    · exact hpoint.2.1

variable [Std.TransOrd κ]

/-! ## What is held is not freed -/

/-- No step of an operation frees a node that some slot holds, be it a slot of the operation itself.
The slot for the next node is left out, as a step may use it for another node before it scans. -/
theorem Move.live_of_held (h : Move s who f st) (hs : s.Sound (f.own ++ own))
    (hf : f.Fits s who.record) (hd : s.scheme.depth? who.record = some 1) (hslot : slot ≠ .succ)
    (hheld : s.Held r slot b) : ∃ n, st.set.memory.node? b = some n := by
  obtain ⟨hst, hkeeps⟩ := h.sound_keeps hs hf hd
  by_cases hr : r = who.record
  · subst hr
    have hlive := hs.live_of_held hheld
    cases h with
    | start | finish | look | stray | follow | pass | stop | beaten | tell => exact hlive
    | @clear t pred curr n s' drops hn hm hl hclears =>
      have hs₁ := hs.publish hd .succ n.next.target
      have hheld₁ := SharedSet.publish_held_of_ne hheld hslot n.next.target
      exact (hclears.sound hs₁ hn hm).live_of_held
        ((hclears.respects hs₁ hn hm).held _ (by simp) _ _ hheld₁)
    | reject pred next hn heq hn₀ hdrops =>
      obtain ⟨-, hs', hresp⟩ := hs.discard hdrops
      exact hs'.live_of_held (hresp.held _ (by simp) _ _ hheld)
    | insert hgap hprepare hl hwrite =>
      rwa [← Option.isSome_iff_exists, hwrite.isSome_node?, hprepare.isSome_node?,
        Option.isSome_iff_exists]
    | retry hgap hprepare hl hne =>
      exact Option.isSome_iff_exists.1
        ((hprepare.isSome_node? b).trans (Option.isSome_iff_exists.2 hlive))
    | mark pred next hn heq hm hmark hl hne =>
      exact Option.isSome_iff_exists.1
        ((hmark.isSome_node? b).trans (Option.isSome_iff_exists.2 hlive))
    | remove pred next hn heq hm hmark hl hclears =>
      obtain ⟨-, -, hs₁, hresp⟩ := hs.mark hf.point.2.1 hn hm hmark
      have hn₁ := hmark.node?_self hn
      exact (hclears.sound hs₁ hn₁ rfl).live_of_held
        ((hclears.respects hs₁ hn₁ rfl).held _ (by simp) _ _ (hresp.held _ (by simp) _ _ hheld))
  · exact hst.live_of_held (hkeeps.respects.held r (fun h => hr (Option.some.inj h).symm) _ _ hheld)

variable {w : World κ ν} {a : Action κ ν} {o : Outcome κ ν} {i n : Nat}

/-- No action frees a node that some slot holds. -/
theorem Passage.live_of_held (h : Passage w a o) (hw : w.Sound) {t t' : SharedSet κ ν}
    (ht : w.sets[i]? = some t) (ht' : o.world.sets[i]? = some t') (hslot : slot ≠ .succ)
    (hheld : t.Held r slot b) : ∃ n, t'.memory.node? b = some n := by
  have hlive := (hw.sets i t ht).live_of_held hheld
  have hset : ∀ {j : Nat} {s s' : SharedSet κ ν}, w.sets[j]? = some s →
      (w.setSet j s').sets[i]? = some t' →
      (j = i → s = t → ∃ n, s'.memory.node? b = some n) → ∃ n, t'.memory.node? b = some n := by
    intro j s s' hs ht' hstep
    obtain ⟨rfl, rfl, rfl⟩ | rfl := World.setSet_cases hs ht ht'
    · exact hstep rfl rfl
    · exact hlive
  cases h with
  | misuse =>
    rw [ht] at ht'
    cases ht'
    exact hlive
  | sweep _ _ _ _ hs hsheds hdrops =>
    refine hset hs ht' ?_
    rintro rfl rfl
    have hsound := hw.sets _ _ hs
    exact (hsound.shed hsheds hdrops).live_of_held
      ((hsound.respects_shed hsheds hdrops).held r (by simp) _ _ hheld)
  | register hs hreg => exact hset hs ht' (by rintro rfl rfl; exact hlive)
  | release hx hrest hs => exact hset hs ht' (by rintro rfl rfl; exact hlive)
  | resume hx hholding hs hunpin => exact hset hs ht' (by rintro rfl rfl; exact hlive)
  | begin h i lane call offer hx hrest hset' hs hopens hpin =>
    refine hset hs ht' ?_
    rintro rfl rfl
    obtain ⟨hu, hresp, -⟩ := hopens.sound (hw.sets _ _ hs)
    exact hu.live_of_held (hresp.held r (by simp) _ _ hheld)
  | goes hrun hx hs hmove hnext =>
    obtain ⟨-, hfits, hd, hsound⟩ := hw.top hrun hx hs
    refine hset hs ht' ?_
    rintro rfl rfl
    exact hmove.live_of_held hsound hfits hd hslot hheld
  | ends hrun hx hs hmove hnext hunpin =>
    obtain ⟨-, hfits, hd, hsound⟩ := hw.top hrun hx hs
    refine hset hs ht' ?_
    rintro rfl rfl
    exact hmove.live_of_held hsound hfits hd hslot hheld

section

variable {w₀ : World κ ν} {es : List (Event κ ν)} {j k : Nat}

/-- A node of the chain or of limbo goes on to be held as long as a slot publishes it. -/
theorem Run.held_while_published (h : Run w₀ es w) (h₀ : w₀.Sound) (hslot : slot ≠ .succ)
    (hshows : ∀ m, j ≤ m → m ≤ k → ∃ t, w₀.setAt es i m = some t ∧ t.Shows r slot b)
    (hs : w₀.setAt es i j = some s) (hb : s.Held r slot b) {m : Nat} (hjm : j ≤ m) (hmk : m ≤ k) :
    ∃ t, w₀.setAt es i m = some t ∧ t.Held r slot b := by
  induction hjm with
  | refl => exact ⟨s, hs, hb⟩
  | @step m hjm ih =>
    obtain ⟨t, ht, hheld⟩ := ih (Nat.le_of_succ_le hmk)
    obtain ⟨t', ht', hshows'⟩ := hshows (m + 1) (Nat.le_succ_of_le hjm) hmk
    obtain ⟨u, e, v, -, hsound, -, hpassage, hv, hv', hnext⟩ := h.passage_back h₀ ht'
    rw [ht] at hv'
    cases hv'
    obtain ⟨n, hn⟩ := hpassage.live_of_held hsound hv hnext hslot hheld
    obtain ⟨t'', ht'', hevolves⟩ := hpassage.evolves hsound hv
    rw [hnext] at ht''
    cases ht''
    exact ⟨t', ht', hevolves.shows hheld hn hshows'⟩

/-- A node that is held is not freed as long as its slot publishes it, nor with the next action. -/
theorem Run.lasts_while_published (h : Run w₀ es w) (h₀ : w₀.Sound) (hslot : slot ≠ .succ)
    (hjk : j ≤ k) (hshows : ∀ m, j ≤ m → m ≤ k → ∃ t, w₀.setAt es i m = some t ∧ t.Shows r slot b)
    (hs : w₀.setAt es i j = some s) (hb : s.Held r slot b) :
    w₀.Lasts es i b j k ∧ (k < es.length → w₀.Lasts es i b j (k + 1)) := by
  have hheld := fun {m} hjm hmk =>
    h.held_while_published h₀ hslot hshows hs hb (m := m) hjm hmk
  have hlasts : w₀.Lasts es i b j k := by
    intro m hjm hmk
    obtain ⟨t, ht, hheld⟩ := hheld hjm hmk
    obtain ⟨v, -, -, -, hsound⟩ := h.sound_setAt h₀ ht
    obtain ⟨n, hn⟩ := hsound.live_of_held hheld
    exact ⟨t, n, ht, hn⟩
  refine ⟨hlasts, fun hk m hjm hmk => ?_⟩
  rcases Nat.lt_or_ge k m with hlast | hlast
  · obtain rfl : m = k + 1 := by omega
    obtain ⟨t, ht, hheld⟩ := hheld hjk (Nat.le_refl _)
    obtain ⟨u, e, t', hu, he, -, hpassage, ht', -⟩ := h.evolves h₀ ht hk
    obtain ⟨u, e, v, -, hsound, -, hpassage, hv, hv', hnext⟩ := h.passage_back h₀ ht'
    rw [ht] at hv'
    cases hv'
    obtain ⟨n, hn⟩ := hpassage.live_of_held hsound hv hnext hslot hheld
    exact ⟨t', n, ht', hn⟩
  · exact hlasts m hjm hlast

end

/-! ## The slots of everybody -/

namespace World

/-- The records of all operations in progress publish what the operations stand on. -/
def Shown (w : World κ ν) : Prop :=
  ∀ b ∈ w.running, ∀ x s, w.handles[b.handle]? = some x → w.sets[x.set]? = some s →
    s.Publishes x.record b.frame.point

/-- A busy handle and its slots stay as they are, unless its operation is moved on or its protection
is ended. -/
theorem Sound.slots_kept (hw : w.Sound) (hstep : w.step a = .ok o) {y : Handle}
    (hy : w.handles[n]? = some y) (hs : w.sets[y.set]? = some s)
    (hbusy : y.status = .running ∨ y.status = .holding) (hother : ¬ w.Drives n a) :
    o.world.handles[n]? = some y ∧ ∃ s', o.world.sets[y.set]? = some s' ∧
      s'.scheme.shield? y.record = s.scheme.shield? y.record := by
  have hp := (step_settles hw a).of_ok hstep
  obtain ⟨hkeep, s', -, hs', -⟩ := hp.aside hw hy hs hbusy
    (by rintro rfl c rest hrun; exact handle_ne_of_not_drives hother hrun)
    (by rintro hholding rfl; exact hother ⟨rfl, y, hy, hholding⟩)
  exact ⟨hkeep, s', hs', (step_turn hstep hs hs').shield? hw hs hy rfl hbusy hother⟩

omit [Std.TransOrd κ] in
/-- What an operation in progress stands on is held by its slots. -/
theorem Sound.held_of_stands (hw : w.Sound) {c : Activation κ} (hc : c ∈ w.running) {x : Handle}
    (hx : w.handles[c.handle]? = some x) (hstands : c.frame.point.Stands slot b) :
    ∃ s, w.sets[x.set]? = some s ∧ s.Held x.record slot b := by
  obtain ⟨x', s, hx', -, hs, hfits⟩ := hw.running c hc
  rw [hx] at hx'
  cases hx'
  exact ⟨s, hs, hfits.held_of_stands hstands⟩

omit [Std.TransOrd κ] in
/-- What it comes to when the running operation is moved on: it makes a step and goes on, or it ends
and perhaps keeps its protection. -/
theorem of_proceed (h : w.proceed = .ok o) :
    ∃ c rest x s st, w.running = c :: rest ∧ w.handles[c.handle]? = some x ∧
      w.sets[x.set]? = some s ∧ c.frame.step s ⟨x.record, c.lane⟩ = .ok st ∧
      ((∃ f, st.next = .goes f ∧ o.world.running = { c with frame := f } :: rest ∧
          o.world.handles[c.handle]? = some { x with retries := x.retries + st.retries } ∧
          o.world.sets[x.set]? = some st.set ∧ o.answer = none) ∨
        ∃ reply, st.next = .ends reply ∧ o.world.running = rest ∧
          o.answer = some (.reply reply) ∧ (statusAfter reply = .holding →
            o.world.handles[c.handle]? = some { x with
              retries := x.retries + st.retries
              status := .holding } ∧ o.world.sets[x.set]? = some st.set)) := by
  rw [proceed] at h
  split at h
  · cases h
  · next c rest hrun =>
    obtain ⟨x, hx, h⟩ := bind_eq_ok.1 h
    obtain ⟨s, hs, h⟩ := bind_eq_ok.1 h
    obtain ⟨st, hst, h⟩ := bind_eq_ok.1 h
    have hx := ((w.handle_settles _).of_ok hx).1
    have hs := of_set hs
    refine ⟨c, rest, x, s, st, hrun, hx, hs, Halt.lift_eq_ok.1 hst, ?_⟩
    dsimp only at h
    split at h
    · next f hnext =>
      cases h
      refine .inl ⟨f, hnext, rfl, ?_, ?_, rfl⟩
      · exact (getElem?_setHandle hx _ _).trans (if_pos rfl)
      · exact (getElem?_setSet hs _ _).trans (if_pos rfl)
    · next reply hnext =>
      obtain ⟨u, hfinish, h⟩ := bind_eq_ok.1 h
      cases h
      refine .inr ⟨reply, hnext, ?_⟩
      have hfinish := Halt.lift_eq_ok.1 hfinish
      rw [finish] at hfinish
      split at hfinish
      · next hidle =>
        obtain ⟨sch, -, hfinish⟩ := bind_eq_ok.1 hfinish
        cases hfinish
        exact ⟨rfl, rfl, fun hholding => by rw [hidle] at hholding; cases hholding⟩
      · cases hfinish
        refine ⟨rfl, rfl, fun hholding => ⟨?_, ?_⟩⟩
        · rw [hholding]
          exact (getElem?_setHandle hx _ _).trans (if_pos rfl)
        · exact (getElem?_setSet hs _ _).trans (if_pos rfl)

omit [Std.TransOrd κ] in
/-- Without a step of an operation in progress nothing is done to it, and what begins is at the
start of its walk. -/
theorem Sound.running_of_ne_proceed (hw : w.Sound) (hp : Passage w a o) (ha : a ≠ .proceed)
    {b : Activation κ} (hb : b ∈ o.world.running) :
    b.frame.point = .start ∨ b ∈ w.running ∧ ¬ w.Drives b.handle a := by
  have hrest : b ∈ w.running → ¬ w.Drives b.handle a := by
    intro hb hdrives
    cases a with
    | proceed => exact ha rfl
    | resume h =>
      obtain ⟨-, x, hx, hholding⟩ := hdrives
      exact hw.handle_ne hx (by rw [hholding]; decide) hb rfl
    | _ => exact hdrives
  cases hp with
  | misuse | sweep | register | release | resume => exact .inr ⟨hb, hrest hb⟩
  | begin =>
    rcases List.mem_cons.1 hb with rfl | hb
    · exact .inl rfl
    · exact .inr ⟨hb, hrest hb⟩
  | goes | ends => exact absurd rfl ha

/-- What the operations stand on goes on to be published, whoever makes a step. -/
theorem Shown.step (h : w.Shown) (hw : w.Sound) (hstep : w.step a = .ok o)
    (hv : ∀ (i : Nat) (s : SharedSet κ ν), o.world.sets[i]? = some s →
      s.scheme.validates = true) : o.world.Shown := by
  intro b hb y t hy ht
  have hp := (step_settles hw a).of_ok hstep
  -- an operation that is not moved on keeps its handle and its slots
  have hothers : b ∈ w.running → ¬ w.Drives b.handle a → t.Publishes y.record b.frame.point := by
    intro hb hother
    obtain ⟨x, s, hx, hstatus, hs, -⟩ := hw.running b hb
    obtain ⟨hx', s', hs', hslots⟩ := hw.slots_kept hstep hx hs (.inl hstatus) hother
    rw [hy] at hx'
    cases hx'
    rw [ht] at hs'
    cases hs'
    exact (h b hb y s hx hs).congr hslots
  by_cases ha : a = .proceed
  · subst ha
    obtain ⟨c, rest, x, s, st, hrun, hx, hs, hst, hafter⟩ := of_proceed hstep
    have hrest : b ∈ rest → ¬ w.Drives b.handle .proceed := by
      rintro hb ⟨c', rest', hrun', hhandle⟩
      rw [hrun] at hrun'
      cases hrun'
      have hnodup := hw.nodup
      rw [hrun, List.map_cons, List.nodup_cons] at hnodup
      exact hnodup.1 (hhandle ▸ List.mem_map_of_mem hb)
    have hold : b ∈ rest → t.Publishes y.record b.frame.point :=
      fun hb => hothers (by simp [hrun, hb]) (hrest hb)
    obtain ⟨f, hnext, hrunning, hhandle, hset, -⟩ | ⟨reply, -, hrunning, -⟩ := hafter
    · rw [hrunning] at hb
      rcases List.mem_cons.1 hb with rfl | hb
      · rw [hhandle] at hy
        cases hy
        rw [hset] at ht
        cases ht
        have hpub := Frame.step_publishes hst (h c (by simp [hrun]) x s hx hs)
        rwa [Stride.Publishes, hnext] at hpub
      · exact hold hb
    · rw [hrunning] at hb
      exact hold hb
  · rcases hw.running_of_ne_proceed hp ha hb with hstart | ⟨hb, hother⟩
    · obtain ⟨-, -, hd⟩ := (hp.sound hw).fits hb hy ht
      obtain ⟨q, hq⟩ := Scheme.exists_shield (hv _ t ht) hd
      rw [hstart]
      exact ⟨q, hq, trivial⟩
    · exact hothers hb hother

omit [Std.TransOrd κ] in
/-- Nothing is done to a search that keeps its protection but to end it. -/
theorem Sound.not_drives (hw : w.Sound) {y : Handle} (hy : w.handles[n]? = some y)
    (hholding : y.status = .holding) (ha : a ≠ .resume n) : ¬ w.Drives n a := by
  intro hdrives
  cases a with
  | proceed =>
    obtain ⟨c, rest, hrun, rfl⟩ := hdrives
    exact hw.handle_ne hy (by rw [hholding]; decide) (a := c) (by simp [hrun]) rfl
  | resume h => exact ha (congrArg Action.resume hdrives.1)
  | _ => exact hdrives

end World

/-! ## In a run -/

section

variable {ts : List Tuning} {es : List (Event κ ν)}

/-- In every world of a run under hazard slots all operations in progress publish what they stand
on. -/
theorem Run.shown (h : Run (.ofTunings .hazards ts) es w) : w.Shown := by
  induction h with
  | nil => exact fun b hb => absurd hb (by simp [World.ofTunings])
  | snoc hrun hstep ih =>
    refine ih.step (hrun.sound (World.sound_ofTunings .hazards ts) hrun.worldAt_last) hstep
      fun i s hs => ?_
    obtain ⟨-, q, -, hq, -⟩ := (Run.snoc hrun hstep).exists_hazards hs
    rw [hq]
    rfl

/-- A search that keeps its protection goes on to publish what it stood on in the end. -/
theorem Run.shown_while_holding (h : Run (.ofTunings .hazards ts) es w) {m k : Nat}
    {u : World κ ν} (hu : (World.ofTunings .hazards ts).worldAt es m = some u)
    (he : es[m]? = some ⟨.proceed, o⟩) {c : Activation κ} {rest : List (Activation κ)} {x : Handle}
    (hrun : u.running = c :: rest) (hx : u.handles[c.handle]? = some x) {found : Bool}
    (hanswer : o.answer = some (.reply (.held found))) (hmk : m < k) (hk : k ≤ es.length)
    (hkeep : ∀ (j : Nat) (e : Event κ ν), m < j → j < k → es[j]? = some e →
      e.action ≠ .resume c.handle) :
    ∃ v y t, (World.ofTunings .hazards ts).worldAt es k = some v ∧
      v.handles[c.handle]? = some y ∧ y.status = .holding ∧ y.record = x.record ∧ y.set = x.set ∧
      v.sets[x.set]? = some t ∧ t.Publishes x.record c.frame.point := by
  have h₀ := World.sound_ofTunings (κ := κ) (ν := ν) .hazards ts
  induction hmk with
  | refl =>
    obtain ⟨hstep, hnext⟩ := h.step_from hu he
    obtain ⟨c', rest', x', s, st, hrun', hx', hs, hst, hafter⟩ := World.of_proceed hstep
    rw [hrun] at hrun'
    cases hrun'
    rw [hx] at hx'
    cases hx'
    obtain ⟨f, -, -, -, -, hnone⟩ | ⟨reply, hends, -, hreply, hholding⟩ := hafter
    · rw [hanswer] at hnone
      cases hnone
    · rw [hanswer] at hreply
      cases hreply
      obtain ⟨hhandle, hset⟩ := hholding rfl
      have hpub := (h.take hu).shown c (by simp [hrun]) x s hx hs
      have hslots := Frame.step_publishes hst hpub
      rw [Stride.Publishes, hends] at hslots
      exact ⟨_, _, st.set, hnext, hhandle, rfl, rfl, rfl, hset, hpub.congr hslots⟩
  | @step j hmj ih =>
    obtain ⟨v, y, t, hv, hy, hholding, hrecord, hset, ht, hpub⟩ :=
      ih (Nat.le_of_succ_le hk) fun l e hml hlj => hkeep l e hml (Nat.lt_succ_of_lt hlj)
    have hej := List.getElem?_eq_getElem (Nat.lt_of_succ_le hk)
    obtain ⟨hstep, hnext⟩ := h.step_from hv hej
    have hsound := h.sound h₀ hv
    have hother := hsound.not_drives hy hholding (hkeep j _ hmj (Nat.lt_succ_self j) hej)
    rw [← hset] at ht
    obtain ⟨hy', t', ht', hslots⟩ := hsound.slots_kept hstep hy ht (.inr hholding) hother
    rw [hset] at ht'
    rw [hrecord] at hslots
    exact ⟨_, y, t', hnext, hy', hholding, hrecord, hset, ht', hpub.congr hslots⟩

/-- From its last step on, a search that keeps its protection publishes what it stood on then. -/
theorem Run.published_while_holding (h : Run (.ofTunings .hazards ts) es w) {m k : Nat}
    {u : World κ ν} (hu : (World.ofTunings .hazards ts).worldAt es m = some u)
    (he : es[m]? = some ⟨.proceed, o⟩) {c : Activation κ} {rest : List (Activation κ)} {x : Handle}
    (hrun : u.running = c :: rest) (hx : u.handles[c.handle]? = some x) {found : Bool}
    (hanswer : o.answer = some (.reply (.held found))) (hmk : m ≤ k) (hk : k ≤ es.length)
    (hkeep : ∀ (j : Nat) (e : Event κ ν), m < j → j < k → es[j]? = some e →
      e.action ≠ .resume c.handle) :
    ∃ t, (World.ofTunings .hazards ts).setAt es x.set k = some t ∧
      t.Publishes x.record c.frame.point := by
  rcases Nat.eq_or_lt_of_le hmk with rfl | hmk
  · have hw := h.sound (World.sound_ofTunings .hazards ts) hu
    obtain ⟨x', s, hx', -, hs, -⟩ := hw.running c (by simp [hrun])
    rw [hx] at hx'
    cases hx'
    exact ⟨s, World.setAt_eq_some hu hs, (h.take hu).shown c (by simp [hrun]) x s hx hs⟩
  · obtain ⟨v, y, t, hv, -, -, -, -, ht, hpub⟩ :=
      h.shown_while_holding hu he hrun hx hanswer hmk hk hkeep
    exact ⟨t, World.setAt_eq_some hv ht, hpub⟩

end

/-- In a run under hazard slots the record of every operation in progress publishes the node that
owns the link before the one where it stands, the node where it stands, or nothing if that is the
end, and the next node once it was read. Only the operation itself changes its slots. A search that
has ended and keeps its protection goes on to publish its window until that is ended, and its nodes
are not freed before, whatever is done. No node of a window is freed as long as its slot publishes
it, nor with the action that changes the slot. -/
theorem Run.slots_cover_window {ts : List Tuning} {es : List (Event κ ν)} {w : World κ ν}
    (h : Run (.ofTunings .hazards ts) es w) :
    (∀ m u b x s, (World.ofTunings .hazards ts).worldAt es m = some u → b ∈ u.running →
      u.handles[b.handle]? = some x → u.sets[x.set]? = some s →
        s.Publishes x.record b.frame.point) ∧
    (∀ m u e n x s, (World.ofTunings .hazards ts).worldAt es m = some u → es[m]? = some e →
      u.handles[n]? = some x → u.sets[x.set]? = some s →
      x.status = .running ∨ x.status = .holding → ¬ u.Drives n e.action →
        ∃ t, e.outcome.world.sets[x.set]? = some t ∧
          t.scheme.shield? x.record = s.scheme.shield? x.record) ∧
    (∀ m k u o b rest x found, (World.ofTunings .hazards ts).worldAt es m = some u →
      es[m]? = some ⟨.proceed, o⟩ → u.running = b :: rest → u.handles[b.handle]? = some x →
      o.answer = some (.reply (.held found)) → m < k → k ≤ es.length →
      (∀ (j : Nat) (e : Event κ ν), m < j → j < k → es[j]? = some e →
        e.action ≠ .resume b.handle) →
        (∃ t, (World.ofTunings .hazards ts).setAt es x.set k = some t ∧
          t.Publishes x.record b.frame.point) ∧
        ∀ slot a, b.frame.point.Stands slot a →
          (World.ofTunings .hazards ts).Lasts es x.set a m k ∧
          (k < es.length → (World.ofTunings .hazards ts).Lasts es x.set a m (k + 1))) ∧
    ∀ j k u b x slot a, j ≤ k → (World.ofTunings .hazards ts).worldAt es j = some u →
      b ∈ u.running → u.handles[b.handle]? = some x → b.frame.point.Stands slot a →
      (∀ m, j ≤ m → m ≤ k →
        ∃ t, (World.ofTunings .hazards ts).setAt es x.set m = some t ∧ t.Shows x.record slot a) →
        (World.ofTunings .hazards ts).Lasts es x.set a j k ∧
        (k < es.length → (World.ofTunings .hazards ts).Lasts es x.set a j (k + 1)) := by
  have h₀ := World.sound_ofTunings (κ := κ) (ν := ν) .hazards ts
  refine ⟨fun m u b x s hu hb hx hs => (h.take hu).shown b hb x s hx hs,
    fun m u e n x s hu he hx hs hbusy hother => ?_,
    fun m k u o b rest x found hu he hrun hx hanswer hmk hk hkeep => ?_,
    fun j k u b x slot a hjk hu hb hx hstands hshows => ?_⟩
  · obtain ⟨hstep, -⟩ := h.step_from hu he
    exact ((h.sound h₀ hu).slots_kept hstep hx hs hbusy hother).2
  · have hshown : ∀ j, m ≤ j → j ≤ k → ∃ t,
        (World.ofTunings .hazards ts).setAt es x.set j = some t ∧
          t.Publishes x.record b.frame.point := fun j hmj hjk =>
      h.published_while_holding hu he hrun hx hanswer hmj (Nat.le_trans hjk hk)
        fun l e hml hlj => hkeep l e hml (Nat.lt_of_lt_of_le hlj hjk)
    refine ⟨hshown k (Nat.le_of_lt hmk) (Nat.le_refl k), fun slot a hstands => ?_⟩
    obtain ⟨s, hs, hheld⟩ := (h.sound h₀ hu).held_of_stands (by simp [hrun]) hx hstands
    refine h.lasts_while_published h₀ hstands.ne_succ (Nat.le_of_lt hmk) (fun j hmj hjk => ?_)
      (World.setAt_eq_some hu hs) hheld
    obtain ⟨t, ht, hpub⟩ := hshown j hmj hjk
    exact ⟨t, ht, hpub.shows hstands⟩
  · obtain ⟨s, hs, hheld⟩ := (h.sound h₀ hu).held_of_stands hb hx hstands
    exact h.lasts_while_published h₀ hstands.ne_succ hjk hshows (World.setAt_eq_some hu hs) hheld

/-- Two nodes are linked in, and a search for the second one keeps its protection. Both are removed,
and every retirement scans. Then there is one more scan, and another one after the protection has
ended. -/
def sheltered : List (Action Int Nat) :=
  [.register 0, .register 0,
    .invoke 0 0 0 (.insert 1 10) none, .proceed, .proceed,
    .invoke 0 0 0 (.insert 2 20) none, .proceed, .proceed, .proceed, .proceed,
    .invoke 1 0 0 (.hold 2) none, .proceed, .proceed, .proceed, .proceed, .proceed, .proceed,
    .invoke 0 0 0 (.remove 1) none, .proceed, .proceed, .proceed, .proceed,
    .invoke 0 0 0 (.remove 2) none, .proceed, .proceed, .proceed, .proceed,
    .scan 0 0, .resume 1, .scan 0 0]

namespace Sheltered

/-- The one set at the start, under hazard slots. -/
def origin : World Int Nat := .ofTunings .hazards [{ scanFactor := 0, scanFloor := 0 }]

/-- What the actions came to. -/
def events : List (Event Int Nat) := (origin.play sheltered).1

/-- The set after so many actions. -/
def set (m : Nat) : SharedSet Int Nat := (origin.setAt events 0 m).getD (.ofTuning .hazards {})

theorem run : Run origin events (origin.play sheltered).2 := origin.play_run sheltered

end Sheltered

open Sheltered in
/-- The slots of the search go on to publish both of its nodes, which are there until the protection
has ended. The last scan frees them. -/
theorem slots_cover_window_sheltered :
    (∃ t, origin.setAt events 0 28 = some t ∧ t.Publishes 1 (.judge (.node 0) 1 .null)) ∧
      (set 28).retired = [1, 0] ∧ origin.Lasts events 0 0 16 29 ∧ origin.Lasts events 0 1 16 29 ∧
      (set 30).memory.node? 0 = none ∧ (set 30).memory.node? 1 = none := by
  obtain ⟨-, -, hholding, -⟩ := run.slots_cover_window
  -- what the kernel can compute of the last step of the search and of what comes after it
  have hbefore : (origin.worldAt events 16).any (fun u =>
      decide (u.running = [⟨1, 0, ⟨.hold 2, .judge (.node 0) 1 .null⟩⟩] ∧
        u.handles[1]? = some ⟨0, 1, 0, .running⟩)) = true := by decide +kernel
  have hlast : (events[16]?).any (fun e => decide (e.action = .proceed ∧
      e.outcome.answer = some (.reply (.held true)))) = true := by decide +kernel
  have hkeep : ∀ e ∈ (events.take 28).drop 17, e.action ≠ .resume 1 := by decide +kernel
  rw [Option.any_eq_true] at hbefore hlast
  obtain ⟨u, hu, hbefore⟩ := hbefore
  obtain ⟨⟨a, o⟩, he, hlast⟩ := hlast
  rw [decide_eq_true_eq] at hbefore hlast
  obtain ⟨rfl, hanswer⟩ := hlast
  obtain ⟨hshown, hstays⟩ := hholding 16 28 u o _ [] ⟨0, 1, 0, .running⟩ true hu he hbefore.1
    hbefore.2 hanswer (by decide) (by decide +kernel) fun j e hj hjk he =>
      hkeep e (List.mem_of_getElem? (i := j - 17) (by
        rw [List.getElem?_drop, Nat.add_sub_cancel' hj, List.getElem?_take_of_lt hjk, he]))
  exact ⟨hshown, by decide +kernel, (hstays .pred 0 (.inl ⟨rfl, rfl⟩)).2 (by decide +kernel),
    (hstays .curr 1 (.inr ⟨rfl, rfl⟩)).2 (by decide +kernel),
    Option.isNone_iff_eq_none.1 (by decide +kernel),
    Option.isNone_iff_eq_none.1 (by decide +kernel)⟩

end MarkedChain
