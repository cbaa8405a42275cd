import MarkedChain.Proofs.Atomicity
import MarkedChain.Proofs.Quota

/-!
# How much waits under epochs when nobody stalls

In a run without interruption in which no protection is kept, at most one record is pinned at any
moment, and it shows the global epoch until its operation retires a node, which is the last thing
that the operation does. So the attempts to collect that come with retirements succeed, and what
waits is counted by the records (`Run.unstalled`). This bounds it (`Run.unstalled_bounded`).
-/

namespace MarkedChain

variable {κ ν : Type} [Ord κ]

/-! ## Nothing marked is left on the chain -/

/-- No marked node is on the chain. -/
def SharedSet.Clean (s : SharedSet κ ν) : Prop := ∀ a ∈ s.linked, ¬ s.Marked a

section

variable [Std.TransOrd κ] {w : World κ ν} {o : Outcome κ ν} {i : Nat} {s s' : SharedSet κ ν}

/-- What begins while no operation is in progress leaves nothing marked on the chain. -/
theorem Passage.clean {a : Action κ ν} (hp : Passage w a o) (hw : w.Sound) (ha : a ≠ .proceed)
    (hs : w.sets[i]? = some s) (hs' : o.world.sets[i]? = some s') (h : s.Clean) : s'.Clean := by
  intro b hb hm
  obtain ⟨t, ht, hevolves⟩ := hp.evolves hw hs
  obtain rfl := Option.some.inj (hs'.symm.trans ht)
  have hm' := hp.marked_back ha hs hs' hm
  exact h b (hevolves.linked_back (hw.sets i s hs) ((hp.sound hw).sets i s' hs') hm' hb) hm'

/-- A step of an operation that stands where it would without others leaves nothing marked on the
chain. -/
theorem Move.clean {who : Actor} {f : Frame κ} {st : Stride κ ν} {own after : List Address}
    (h : Move s who f st) (hs : s.Sound (f.own ++ own)) (hf : f.Fits s who.record)
    (hd : s.scheme.depth? who.record = some 1) (hcurrent : f.point.Current s f.task after)
    (hclean : s.Clean) : st.set.Clean := by
  intro a ha hm
  obtain ⟨hs', -⟩ := h.sound_keeps hs hf hd
  -- what was marked before is not on the chain, and nothing comes back to it
  have hback : ¬ s.Marked a := fun hm' =>
    hclean a ((h.evolves hs hf hd).linked_back hs hs' hm' ha) hm'
  cases h.marking hs hf with
  | idle hback' => exact hback (hback' a hm)
  | mark _ _ _ _ hnext =>
    -- the walk that clears up after it would not stand where it does without others
    obtain ⟨after', hcurrent', -⟩ := h.nearer hs hf hd hcurrent hnext
    exact hcurrent'.2
  | remove _ _ hback' hout =>
    rcases hback' a hm with rfl | hm'
    · exact hout ha
    · exact hback hm'

/-- A step of an operation that nobody has disturbed leaves nothing marked on the chain. -/
theorem Passage.clean_proceed (hp : Passage w .proceed o) (hw : w.Sound) {j : Nat}
    {call : Call κ ν} {b : Activation κ} {rest : List (Activation κ)} {t : SharedSet κ ν}
    {after : List Address} (hunderway : w.Underway j call b rest t after)
    (hs : w.sets[i]? = some s) (hs' : o.world.sets[i]? = some s') (h : s.Clean) : s'.Clean := by
  obtain ⟨x, hx, rfl⟩ := hunderway.exists_handle
  obtain ⟨-, hfits, hd, hsound⟩ := hw.top hunderway.running hx hunderway.set
  have hcurrent := hunderway.current
  cases hp with
  | misuse _ _ _ ha => exact absurd rfl ha
  | sweep _ _ _ ha => exact absurd rfl ha
  | goes hrun hy ht hmove | ends hrun hy ht hmove =>
    cases hunderway.running.symm.trans hrun
    cases hx.symm.trans hy
    cases hunderway.set.symm.trans ht
    obtain ⟨rfl, rfl, rfl⟩ | rfl := World.setSet_cases hunderway.set hs hs'
    · exact hmove.clean hsound hfits hd hcurrent h
    · exact h

omit [Ord κ] [Std.TransOrd κ] in
/-- Under epochs nothing is published. -/
theorem SharedSet.publish_of_epochs (hv : s.scheme.validates = false) (who : Actor) (slot : Slot)
    (x : Option Address) : s.publish who slot x = s := by
  rw [SharedSet.publish, Scheme.publish_of_epochs hv]

omit [Ord κ] [Std.TransOrd κ] in
theorem SharedSet.transfer_of_epochs (hv : s.scheme.validates = false) (who : Actor)
    (source target : Slot) : s.transfer who source target = s := by
  rw [SharedSet.transfer, Scheme.transfer_of_epochs hv]

omit [Std.TransOrd κ] in
/-- Under epochs a step that does not end its operation leaves the records and the waiting nodes as
they are, if nothing marked is on the chain. -/
theorem Move.scheme_eq {who : Actor} {f f' : Frame κ} {st : Stride κ ν} {own : List Address}
    (h : Move s who f st) (hs : s.Sound (f.own ++ own)) (hf : f.Fits s who.record)
    (hv : s.scheme.validates = false) (hclean : s.Clean) (hnext : st.next = .goes f') :
    st.set.scheme = s.scheme := by
  have hpublish := SharedSet.publish_of_epochs hv who
  have htransfer := SharedSet.transfer_of_epochs hv who
  cases h with
  | start | look | stray | follow | pass =>
    simp only [Step.start, Step.again, hpublish, htransfer]
  | stop | beaten => rfl
  | clear t pred hn hm hl hclears =>
    have hpred := hs.onChain_of_unmarked hf.point.1.held hl rfl
    obtain ⟨before, rest, hsplit, -⟩ := hs.split_link hpred hl hn
    exact absurd ⟨_, hn, hm⟩ (hclean _ (by simp [hsplit]))
  | retry hgap hprepare hl hne => exact hprepare.scheme
  | mark pred next hn heq hm hmark hl hne => exact hmark.scheme
  | finish | reject | insert | remove | tell => cases hnext

end

/-! ## Pinned records show the global epoch -/

/-- If no record is pinned, one that is pinned then shows the global epoch. -/
theorem Scheme.caught_pin {α : Type} {e : Epochs α}
    (h : ∀ r p, e.roster.record? r = some p → p.pinned = false) (r : Nat) :
    (Scheme.epochs (e.pin r)).Caught := by
  intro r' p hp hpin
  rw [Epochs.pin, Roster.record?_update] at hp
  split at hp
  · obtain ⟨p₀, hp₀, rfl⟩ := Option.map_eq_some_iff.1 hp
    unfold Pin.enter at hpin ⊢
    split at hpin
    · next hd => rw [if_pos hd, Epochs.pin]
    · rw [h r' p₀ hp₀] at hpin
      cases hpin
  · rw [h r' p hp] at hpin
    cases hpin

/-- No operation on the set has kept its protection. -/
def World.Unheld (w : World κ ν) (i : Nat) : Prop :=
  ∀ (k : Nat) (x : Handle), w.handles[k]? = some x → x.set = i → x.status ≠ .holding

/-- Nothing marked is on the chain, all pinned records show the global epoch, and what waits is
counted. -/
structure SharedSet.Unstalled (s : SharedSet κ ν) : Prop where
  clean : s.Clean
  caught : s.scheme.Caught
  quota : s.scheme.Quota

section

variable {w : World κ ν} {a : Action κ ν} {o : Outcome κ ν} {i : Nat}
  {s s' : SharedSet κ ν}

omit [Ord κ] in
/-- Between operations nobody has a guard, if no protection was kept. -/
theorem World.Manned.guards_eq_nil (hm : w.Manned) (hfree : w.Unheld i) (hrun : w.running = []) :
    w.guards i = [] := by
  rw [List.eq_nil_iff_forall_not_mem]
  intro x hx
  obtain ⟨k, hx, hset, hrunning | hholding⟩ := World.mem_guards.1 hx
  · obtain ⟨b, hb, -⟩ := hm.runner k x hx hrunning
    rw [hrun] at hb
    cases hb
  · exact hfree k x hx hset hholding

theorem World.Manned.caught (hm : w.Manned) (hw : w.Sound) (hfree : w.Unheld i)
    (hrun : w.running = []) (hs : w.sets[i]? = some s) : s.scheme.Caught := by
  cases he : s.scheme with
  | hazards q => trivial
  | epochs e =>
    intro r p hp hpin
    rw [hm.unpinned hw (hm.guards_eq_nil hfree hrun) hs he hp] at hpin
    cases hpin

variable [Std.TransOrd κ]

/-- While only one operation is in progress, the pinned records show the global epoch. -/
theorem Passage.caught (hp : Passage w a o) (hw : w.Sound) (hm : w.Manned)
    (hm' : o.world.Manned) (hfree : w.Unheld i) (hfree' : o.world.Unheld i)
    (hone : w.running.length ≤ 1) (hidle : a ≠ .proceed → w.running = [])
    (hs : w.sets[i]? = some s) (hs' : o.world.sets[i]? = some s')
    (hturn : w.Turn i s.scheme s'.scheme a) {e : Epochs Address} (he : s.scheme = .epochs e)
    (h : s.Unstalled) : s'.scheme.Caught := by
  have hquiet : o.world.running = [] → s'.scheme.Caught :=
    fun hrun => hm'.caught (hp.sound hw) hfree' hrun hs'
  cases hp with
  | misuse _ _ _ ha | sweep _ _ _ ha => exact hquiet (hidle ha)
  | register | release | resume => exact hquiet (hidle (by simp))
  | begin k j lane call offer hx _ _ _ hopens =>
    generalize s'.scheme = sch at hturn ⊢
    cases hturn with
    | elsewhere => exact h.caught
    | reclaim =>
      cases hopens with
      | plain htask => cases htask
    | pin _ _ _ _ _ _ hpin =>
      have hguards := hm.guards_eq_nil hfree (hidle (by simp))
      rw [he] at hpin
      cases hpin
      exact Scheme.caught_pin (fun r p hp => hm.unpinned hw hguards hs he hp) _
  | goes hrun hx ht hmove hnext =>
    obtain ⟨-, hfits, -, hsound⟩ := hw.top hrun hx ht
    obtain ⟨rfl, rfl, rfl⟩ | rfl := World.setSet_cases ht hs hs'
    · rw [hmove.scheme_eq hsound hfits (by rw [he]; rfl) h.clean hnext]
      exact h.caught
    · exact h.caught
  | ends hrun =>
    rw [hrun, List.length_cons] at hone
    exact hquiet (List.length_eq_zero_iff.1 (Nat.le_zero.1 (Nat.le_of_succ_le_succ hone)))

/-! ## Runs without interruption -/

variable {ts : List Tuning} {es : List (Event κ ν)}

omit [Ord κ] [Std.TransOrd κ] in
theorem World.worldAt_take {w₀ u : World κ ν} {m n : Nat}
    (hu : w₀.worldAt (es.take m) n = some u) : w₀.worldAt es n = some u := by
  have hn := World.lt_of_worldAt hu
  rw [← es.take_append_drop m, World.worldAt_append hn]
  exact hu

omit [Ord κ] [Std.TransOrd κ] in
theorem World.Unnested.take {w₀ : World κ ν} (h : w₀.Unnested es) (m : Nat) :
    w₀.Unnested (es.take m) := by
  intro n e u he hu ha
  rw [List.getElem?_take] at he
  split at he
  · exact h n e u he (worldAt_take hu) ha
  · cases he

/-- In a run without interruption in which no protection is kept, what waits is counted. -/
theorem Run.unstalled (h : Run (.ofTunings .epochs ts) es w)
    (hunnested : (World.ofTunings .epochs ts).Unnested es)
    (hfree : ∀ m u, (World.ofTunings .epochs ts).worldAt es m = some u → u.Unheld i)
    (hs : w.sets[i]? = some s) : s.Unstalled := by
  have h₀ := World.sound_ofTunings (κ := κ) (ν := ν) .epochs ts
  induction h generalizing s with
  | nil =>
    obtain ⟨t, rfl⟩ := World.eq_ofTuning hs
    have hlow : (Scheme.ofTuning t .epochs : Scheme Address).Quota :=
      ⟨by simp [Scheme.counts, Scheme.ofTuning, Epochs.ofTuning], Nat.zero_le _, Nat.zero_le _,
        fun hne => absurd rfl hne⟩
    have hempty : (SharedSet.ofTuning .epochs t : SharedSet κ ν).linked = [] := rfl
    refine ⟨fun a ha => by simp [hempty] at ha, fun r p hp => ?_, hlow⟩
    simp [Epochs.ofTuning, Roster.record?] at hp
  | @snoc es w a o h hstep ih =>
    have hlast := h.worldAt_last
    have hw := h.sound h₀ hlast
    have hp := (World.step_settles hw _).of_ok hstep
    obtain ⟨s₀, hs₀⟩ := hp.exists_set hs
    obtain ⟨hbefore, hidle⟩ := hunnested.of_snoc hlast
    have hfree₀ : ∀ m u, (World.ofTunings .epochs ts).worldAt es m = some u → u.Unheld i :=
      fun m u hu => hfree m u (by rwa [World.worldAt_append (World.lt_of_worldAt hu)])
    have hold := ih hbefore hfree₀ hs₀
    have hturn := World.step_turn hstep hs₀ hs
    have hrunning := (h.inTurn h₀ rfl (fun _ _ => World.contents_of_ofTunings) hbefore).running
    have hone : w.running.length ≤ 1 := by
      rcases hrunning with ⟨hrun, -⟩ | ⟨_, _, _, _, _, _, hunderway, -⟩
      · simp [hrun]
      · simp [hunderway.running]
    have hclean : s.Clean := by
      by_cases ha : a = .proceed
      · subst ha
        rcases hrunning with ⟨hrun, -⟩ | ⟨_, _, _, _, _, _, hunderway, -⟩
        · cases hp with
          | misuse _ _ _ ha => exact absurd rfl ha
          | sweep _ _ _ ha => exact absurd rfl ha
          | goes hrun' | ends hrun' => cases hrun.symm.trans hrun'
        · exact hp.clean_proceed hw hunderway hs₀ hs hold.clean
      · exact hp.clean hw ha hs₀ hs hold.clean
    obtain ⟨-, e, -, he, -⟩ := h.exists_epochs hs₀
    have hcaught := hp.caught hw h.manned (h.snoc hstep).manned (hfree₀ _ w hlast)
      (hfree _ _ (World.worldAt_length _)) hone hidle hs₀ hs hturn he hold
    exact ⟨hclean, hcaught, hturn.quota hw hs₀ he hold.caught hold.quota⟩

/-- In every state of a run without interruption in which no protection is kept, the number of nodes
that wait is bounded by the number of records and the retirements after which one tries to
collect. -/
theorem Run.unstalled_bounded (h : Run (.ofTunings .epochs ts) es w)
    (hunnested : (World.ofTunings .epochs ts).Unnested es)
    (hfree : ∀ m u, (World.ofTunings .epochs ts).worldAt es m = some u → u.Unheld i) {m : Nat}
    {u : World κ ν} (hu : (World.ofTunings .epochs ts).worldAt es m = some u) {t : Tuning}
    (ht : ts[i]? = some t) (hs : u.sets[i]? = some s) :
    s.pending ≤ 2 * s.scheme.records * (max t.collectEvery.toNat 1 - 1) + 1 := by
  have hrun := h.take hu
  have hquota := (hrun.unstalled (hunnested.take m)
    (fun n v hv => hfree n v (World.worldAt_take hv)) hs).quota
  have hw := h.sound (World.sound_ofTunings .epochs ts) hu
  obtain ⟨t', e, ht', he, hevery⟩ := hrun.exists_epochs hs
  cases ht.symm.trans ht'
  have hle := hquota.length_le
  rw [(hw.sets i s hs).accounted.pending, SharedSet.retired, List.length_map]
  rw [he] at hle ⊢
  simpa [Scheme.counts, Scheme.period, Scheme.records, Roster.size, hevery] using hle

end

/-! ## A set that is emptied -/

omit [Ord κ] in
theorem World.unheld_of_handles {w₀ : World κ ν} {es : List (Event κ ν)}
    (h : ∀ m < es.length + 1, (w₀.worldAt es m).all (fun u =>
      u.handles.all fun x => decide (x.status ≠ .holding)) = true) (i m : Nat) (u : World κ ν)
    (hu : w₀.worldAt es m = some u) : u.Unheld i := by
  intro k x hx _
  have hall := h m (Nat.lt_succ_of_le (World.lt_of_worldAt hu))
  rw [hu, Option.all_some, Array.all_eq_true'] at hall
  exact of_decide_eq_true (hall x (Array.mem_of_getElem? hx))

namespace Emptied

/-- Every second retirement of a record tries to collect. -/
def origin : World Int Nat := .ofTunings .epochs [{ collectEvery := 2 }]

/-- One handle inserts three keys and removes them. A step that finds nothing to move on is left
out. -/
def actions : List (Action Int Nat) :=
  .register 0 :: [.insert 3 30, .insert 2 20, .insert 1 10, .remove 1, .remove 2, .remove 3].flatMap
    fun c => .invoke 0 0 0 c none :: List.replicate 4 .proceed

/-- What the actions came to. -/
def events : List (Event Int Nat) := (origin.play actions).1

/-- The world in the end. -/
def world : World Int Nat := (origin.play actions).2

theorem run : Run origin events world := origin.play_run actions

end Emptied

open Emptied in
/-- When the last key has been removed, as many nodes wait as may. -/
theorem unstalled_bounded_emptied :
    ∃ s, world.sets[0]? = some s ∧ s.pending = 3 ∧
      s.pending ≤ 2 * s.scheme.records * (max 2 1 - 1) + 1 := by
  obtain ⟨s, hs, hpending⟩ : ∃ s, world.sets[0]? = some s ∧ s.pending = 3 := by
    have hsome : (world.sets[0]?).any (fun s => decide (s.pending = 3)) = true := by
      decide +kernel
    rw [Option.any_eq_true] at hsome
    exact hsome.imp fun s h => ⟨h.1, of_decide_eq_true h.2⟩
  exact ⟨s, hs, hpending, run.unstalled_bounded (World.unnested_of_running (by decide +kernel))
    (World.unheld_of_handles (by decide +kernel) 0) run.worldAt_last rfl hs⟩

end MarkedChain
