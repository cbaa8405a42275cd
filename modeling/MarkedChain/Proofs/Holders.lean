import MarkedChain.Proofs.Pursuit
import MarkedChain.Proofs.Retirements

/-!
# Who holds the records

Every record that is held is the record of a handle, and every handle that is busy has an operation
in progress or keeps the guard of one (`World.Manned`). So a guard on a record is always the guard
of somebody (`World.Manned.exists_busy`). The number of records that are held is counted right
(`Roster.Counted`), and so there are never more of them than there are records.
-/

namespace MarkedChain

namespace Roster

variable {ρ : Type} {r : Roster ρ}

/-! ## Counting the records that are held -/

/-- Which records are held, the oldest first. -/
def flags (r : Roster ρ) : List Bool := r.seats.toList.map Seat.taken

/-- The number of records that are held is counted right. -/
def Counted (r : Roster ρ) : Prop := r.active = r.flags.count true

theorem getElem?_flags (r : Roster ρ) (i : Nat) : r.flags[i]? = r.taken? i := by
  simp [flags, taken?]

theorem flags_update (r : Roster ρ) (i : Nat) (f : ρ → ρ) : (r.update i f).flags = r.flags := by
  apply List.ext_getElem?
  simp [getElem?_flags]

theorem flags_release (r : Roster ρ) (i : Nat) : (r.release i).flags = r.flags.set i false := by
  apply List.ext_getElem?
  intro j
  rw [getElem?_flags, taken?_release, List.getElem?_set', getElem?_flags]
  rfl

/-- If no record below a number is found to be free, all of them are held. -/
theorem taken?_of_newestFree?_eq_none {n : Nat} (h : r.newestFree? n = none) {i : Nat}
    (hi : i < n) (hsize : i < r.size) : r.taken? i = some true := by
  induction n with
  | zero => cases hi
  | succ n ih =>
    rw [newestFree?] at h
    split at h
    · cases h
    · next hfree =>
      rcases Nat.lt_or_eq_of_le (Nat.le_of_lt_succ hi) with hlt | rfl
      · exact ih h hlt
      · rw [isFree, Array.getElem?_eq_getElem hsize] at hfree
        rw [taken?, Array.getElem?_eq_getElem hsize, Option.map_some]
        simpa using hfree

/-- A record that is handed out was there and not held, or it is a fresh one and all others are
held. -/
theorem flags_acquire {r' : Roster ρ} {fresh : ρ} {i : Nat} (h : r.acquire fresh = .ok (i, r')) :
    r'.active = r.active + 1 ∧
      (r.flags[i]? = some false ∧ r'.flags = r.flags.set i true ∨
        (∀ flag ∈ r.flags, flag = true) ∧ r'.flags = r.flags ++ [true]) := by
  unfold acquire at h
  split at h
  · cases h
  · split at h <;> cases h
    · next hfree =>
      refine ⟨rfl, .inl ⟨(getElem?_flags _ _).trans (taken?_of_newestFree? hfree), ?_⟩⟩
      apply List.ext_getElem?
      intro j
      rw [getElem?_flags, List.getElem?_set', getElem?_flags, taken?, Array.getElem?_modify]
      split
      · simp [taken?, Function.comp_def, Function.const_def]
      · rfl
    · next hnone =>
      refine ⟨rfl, .inr ⟨fun flag hflag => ?_, by simp [flags]⟩⟩
      obtain ⟨i, hi, rfl⟩ := List.mem_iff_getElem.1 hflag
      have hsize : i < r.size := by simpa [flags, size] using hi
      have htaken := taken?_of_newestFree?_eq_none hnone hsize hsize
      rw [← getElem?_flags, List.getElem?_eq_getElem hi] at htaken
      exact Option.some.inj htaken

theorem Counted.update (h : r.Counted) (i : Nat) (f : ρ → ρ) : (r.update i f).Counted := by
  rw [Counted, flags_update]
  exact h

theorem Counted.acquire (h : r.Counted) {r' : Roster ρ} {fresh : ρ} {i : Nat}
    (hacquire : r.acquire fresh = .ok (i, r')) : r'.Counted := by
  obtain ⟨hactive, ⟨hold, hnew⟩ | ⟨-, hnew⟩⟩ := flags_acquire hacquire
  · obtain ⟨hlt, hold⟩ := List.getElem?_eq_some_iff.1 hold
    rw [Counted, hactive, hnew, List.count_set hlt, hold, h]
    simp
  · rw [Counted, hactive, hnew, List.count_append, h]
    simp

theorem Counted.release (h : r.Counted) {i : Nat} (htaken : r.taken? i = some true) :
    (r.release i).Counted := by
  rw [← getElem?_flags] at htaken
  obtain ⟨hlt, htaken⟩ := List.getElem?_eq_some_iff.1 htaken
  have hactive : (r.release i).active = r.active - 1 := rfl
  rw [Counted, flags_release, List.count_set hlt, htaken, hactive, h]
  simp

/-- There are never more records held than there are. -/
theorem Counted.active_le (h : r.Counted) : r.active ≤ r.size := by
  rw [h, size]
  simpa [flags] using r.flags.count_le_length (a := true)

end Roster

/-- The number of records of a scheme that are held is counted right. -/
def Scheme.Counted {α : Type} : Scheme α → Prop
  | .epochs e => e.roster.Counted
  | .hazards h => h.roster.Counted

namespace Scheme

variable {α : Type} {s s' : Scheme α} {r : Nat}

theorem Counted.shifts (h : s.Counted) (hs : Shifts r s s') : s'.Counted := by
  induction hs with
  | refl => exact h
  | @publish t _ slot x ih | @transfer t _ source target ih =>
    cases t with
    | epochs e => exact ih
    | hazards q => exact Roster.Counted.update ih _ _

theorem Counted.advance {e : Epochs α} (h : (Scheme.epochs e).Counted) :
    (Scheme.epochs e.advance.2).Counted := by
  rw [Epochs.advance]
  split <;> exact h

theorem Counted.reclaim [DecidableEq α] (h : s.Counted) : s.reclaim.2.Counted := by
  cases s with
  | epochs e => exact Counted.advance h
  | hazards q => exact h

theorem Counted.retire [DecidableEq α] (h : s.Counted) {node : α} {nodes : List α}
    (hretire : s.retire r node = .ok (nodes, s')) : s'.Counted := by
  cases s with
  | epochs e =>
    cases hretire
    have hrecount : ∀ n, (Scheme.epochs (recount { e with
        limbo := e.limbo.push node e.epoch } r n)).Counted := fun n => Roster.Counted.update h r _
    rw [Epochs.retire]
    split
    · exact Counted.advance (hrecount 0)
    · exact hrecount _
  | hazards q =>
    obtain ⟨n, -, ⟨-, rfl⟩ | ⟨-, rfl⟩⟩ := retire_hazards hretire <;> exact h

theorem Counted.works [DecidableEq α] (h : s.Counted) (hworks : s.Works r s') : s'.Counted := by
  cases hworks with
  | shifts hs => exact h.shifts hs
  | retires hbefore hretire hafter => exact ((h.shifts hbefore).retire hretire).shifts hafter

theorem Counted.pin (h : s.Counted) (hpin : s.pin r = .ok s') : s'.Counted := by
  obtain ⟨e, rfl, rfl⟩ | ⟨q, shield, rfl, rfl⟩ := pin_cases hpin <;>
    exact Roster.Counted.update h _ _

theorem Counted.unpin (h : s.Counted) (hunpin : s.unpin r = .ok s') : s'.Counted := by
  obtain ⟨e, p, p', rfl, -, -, rfl⟩ | ⟨q, rfl, rfl⟩ := unpin_cases hunpin <;>
    exact Roster.Counted.update h _ _

theorem Counted.register (h : s.Counted) (hreg : s.register = .ok (r, s')) : s'.Counted := by
  cases s with
  | epochs e | hazards q =>
    obtain ⟨⟨i, roster⟩, hacquire, hreg⟩ := bind_eq_ok.1 hreg
    cases hreg
    exact Roster.Counted.acquire h hacquire

theorem Counted.release (h : s.Counted) (htaken : s.taken? r = some true) :
    (s.release r).Counted := by
  cases s with
  | epochs e => exact Roster.Counted.release h htaken
  | hazards q =>
    exact Roster.Counted.release (Roster.Counted.update h r Shield.clear)
      ((Roster.taken?_update _ _ _ _).trans htaken)

end Scheme

variable {κ ν : Type} [Ord κ]

/-! ## Handles and their records -/

/-- Whatever is in use is used by somebody: a record that is held is the record of a handle, and a
handle that is busy has an operation in progress. -/
structure World.Manned (w : World κ ν) : Prop where
  holder : ∀ (i : Nat) (s : SharedSet κ ν), w.sets[i]? = some s → ∀ r,
    s.scheme.taken? r = some true → ∃ (h : Nat) (x : Handle),
      w.handles[h]? = some x ∧ x.status ≠ .released ∧ x.set = i ∧ x.record = r
  runner : ∀ (h : Nat) (x : Handle), w.handles[h]? = some x → x.status = .running →
    ∃ a ∈ w.running, a.handle = h
  counted : ∀ (i : Nat) (s : SharedSet κ ν), w.sets[i]? = some s → s.scheme.Counted

namespace World

variable {w w' : World κ ν}

/-- A guard on a record is the guard of a busy handle. -/
theorem Manned.exists_busy (hm : w.Manned) (hw : w.Sound) {i r d : Nat} {s : SharedSet κ ν}
    (hs : w.sets[i]? = some s) (hd : s.scheme.depth? r = some d) (hne : d ≠ 0) :
    ∃ (h : Nat) (x : Handle), w.handles[h]? = some x ∧
      (x.status = .running ∨ x.status = .holding) ∧ x.set = i ∧ x.record = r := by
  have htaken : s.scheme.taken? r = some true := by
    cases ht : s.scheme.taken? r with
    | none =>
      rw [Scheme.taken?_eq_none_iff.1 ht] at hd
      cases hd
    | some b =>
      cases b with
      | true => rfl
      | false =>
        rw [hw.quiet i s hs r ht] at hd
        cases hd
        exact absurd rfl hne
  obtain ⟨h, x, hx, hlive, rfl, rfl⟩ := hm.holder i s hs r htaken
  refine ⟨h, x, hx, ?_, rfl, rfl⟩
  have hdepth := (hw.depth? hx hlive hs).2
  rw [hd, Handle.depth] at hdepth
  cases hstatus : x.status with
  | running => exact .inl rfl
  | holding => exact .inr rfl
  | released => exact absurd hstatus hlive
  | idle =>
    rw [if_pos hstatus] at hdepth
    exact absurd (Option.some.inj hdepth) hne

omit [Ord κ] in
/-- A record that is held after one set was replaced belongs to that set, or it was held before. -/
theorem taken_setSet_cases {j : Nat} {t t' : SharedSet κ ν} (ht : w.sets[j]? = some t) {i : Nat}
    {s' : SharedSet κ ν} (hs' : (w.setSet j t').sets[i]? = some s') {r : Nat}
    (htaken : s'.scheme.taken? r = some true) :
    i = j ∧ t'.scheme.taken? r = some true ∨
      i ≠ j ∧ ∃ s, w.sets[i]? = some s ∧ s.scheme.taken? r = some true := by
  rw [getElem?_setSet ht] at hs'
  split at hs'
  · next hij =>
    cases hs'
    exact .inl ⟨hij, htaken⟩
  · next hij => exact .inr ⟨hij, s', hs', htaken⟩

omit [Ord κ] in
/-- If no record of the set has changed hands, a record that is held after the set was replaced was
held before. -/
theorem taken_setSet {j : Nat} {t t' : SharedSet κ ν} (ht : w.sets[j]? = some t)
    (h : ∀ r, t'.scheme.taken? r = t.scheme.taken? r) {i : Nat} {s' : SharedSet κ ν}
    (hs' : (w.setSet j t').sets[i]? = some s') {r : Nat} (htaken : s'.scheme.taken? r = some true) :
    ∃ s, w.sets[i]? = some s ∧ s.scheme.taken? r = some true := by
  obtain ⟨rfl, htaken⟩ | ⟨-, hold⟩ := taken_setSet_cases ht hs' htaken
  · exact ⟨t, ht, (h r).symm.trans htaken⟩
  · exact hold

omit [Ord κ] in
/-- A handle and its set have changed, but no record has changed hands. -/
theorem Manned.holder_kept (hm : w.Manned) {j k : Nat} {t t' : SharedSet κ ν} {x : Handle}
    (x' : Handle) (ht : w.sets[j]? = some t) (hx : w.handles[k]? = some x)
    (hsets : w'.sets = (w.setSet j t').sets) (hhandles : w'.handles = (w.setHandle k x').handles)
    (htaken : ∀ r, t'.scheme.taken? r = t.scheme.taken? r) (hlive : x'.status ≠ .released)
    (hset : x'.set = x.set) (hrecord : x'.record = x.record) {i r : Nat} {s' : SharedSet κ ν}
    (hs' : w'.sets[i]? = some s') (hr : s'.scheme.taken? r = some true) :
    ∃ (h : Nat) (y : Handle), w'.handles[h]? = some y ∧ y.status ≠ .released ∧ y.set = i ∧
      y.record = r := by
  obtain ⟨s, hs, hr⟩ := taken_setSet ht htaken (hsets ▸ hs') hr
  obtain ⟨h, y, hy, hlive', hyset, hyrecord⟩ := hm.holder i s hs r hr
  rw [hhandles]
  by_cases hk : h = k
  · subst hk
    rw [hx] at hy
    cases hy
    exact ⟨h, x', by rw [getElem?_setHandle hx, if_pos rfl], hlive, hset.trans hyset,
      hrecord.trans hyrecord⟩
  · exact ⟨h, y, by rw [getElem?_setHandle hx, if_neg hk, hy], hlive', hyset, hyrecord⟩

end World

/-- A record that was pinned or unpinned is held as before, and so are all others. -/
theorem Scheme.Repins.taken? {α : Type} {s s' : Scheme α} {r d : Nat} (h : s.Repins s' r d)
    (r' : Nat) : s'.taken? r' = s.taken? r' := by
  by_cases hr : r' = r
  · rw [hr]
    exact h.2.2.2
  · exact h.1.taken? r' hr

namespace Passage

open World

variable {w : World κ ν} {a : Action κ ν} {o : Outcome κ ν}

theorem taken?_move [Std.TransOrd κ] {b : Activation κ} {rest : List (Activation κ)} {x : Handle}
    {s : SharedSet κ ν} {st : Stride κ ν} (hw : w.Sound) (hrun : w.running = b :: rest)
    (hx : w.handles[b.handle]? = some x) (hs : w.sets[x.set]? = some s)
    (hmove : Move s ⟨x.record, b.lane⟩ b.frame st) (r : Nat) :
    st.set.scheme.taken? r = s.scheme.taken? r := by
  obtain ⟨-, hfits, hd, hsound⟩ := hw.top hrun hx hs
  obtain ⟨-, hkeeps⟩ := hmove.sound_keeps hsound hfits hd
  by_cases hr : r = x.record
  · rw [hr]
    exact hkeeps.taken?
  · exact hkeeps.respects.taken? r fun h => hr (Option.some.inj h).symm

/-- Every record that is held after an action is the record of a handle. -/
theorem holder [Std.TransOrd κ] (hp : Passage w a o) (hw : w.Sound) (hm : w.Manned) (i : Nat)
    (s' : SharedSet κ ν) (hs' : o.world.sets[i]? = some s') (r : Nat)
    (htaken : s'.scheme.taken? r = some true) :
    ∃ (h : Nat) (x : Handle), o.world.handles[h]? = some x ∧ x.status ≠ .released ∧ x.set = i ∧
      x.record = r := by
  cases hp with
  | misuse => exact hm.holder i s' hs' r htaken
  | sweep _ _ _ _ hs hsheds =>
    obtain ⟨s, hs, htaken⟩ := taken_setSet hs hsheds.taken? hs' htaken
    exact hm.holder i s hs r htaken
  | @register j s r₀ sch hs hreg =>
    obtain ⟨htouches, -⟩ := Scheme.register_eq_ok (hw.sets j s hs).scheme (hw.quiet j s hs) hreg
    have hold : (∃ t, w.sets[i]? = some t ∧ t.scheme.taken? r = some true) ∨ i = j ∧ r = r₀ := by
      obtain ⟨rfl, htaken'⟩ | ⟨-, hold⟩ := taken_setSet_cases hs hs' htaken
      · by_cases hr : r = r₀
        · exact .inr ⟨rfl, hr⟩
        · exact .inl ⟨s, hs, (htouches.taken? r hr).symm.trans htaken'⟩
      · exact .inl hold
    obtain ⟨t, ht, htaken'⟩ | ⟨rfl, rfl⟩ := hold
    · obtain ⟨h, x, hx, hlive⟩ := hm.holder i t ht r htaken'
      have hlt := (Array.getElem?_eq_some_iff.1 hx).1
      exact ⟨h, x, by rw [Array.getElem?_push, if_neg (Nat.ne_of_lt hlt), hx], hlive⟩
    · exact ⟨w.handles.size, { set := i, record := r }, by simp, by simp, rfl, rfl⟩
  | @release k x s hx hidle hs =>
    obtain ⟨htouches, -, -, hfree⟩ := Scheme.release_touches (hw.sets _ _ hs).scheme x.record
    -- the record that was given back is not held any more, so its holder is another handle
    have hold : ∃ t, w.sets[i]? = some t ∧ t.scheme.taken? r = some true ∧
        (x.set = i → x.record ≠ r) := by
      obtain ⟨rfl, htaken'⟩ | ⟨hi, t, ht, htaken'⟩ := taken_setSet_cases hs hs' htaken
      · have hr : r ≠ x.record := by
          rintro rfl
          rw [hfree] at htaken'
          simp at htaken'
        exact ⟨s, hs, (htouches.taken? r hr).symm.trans htaken', fun _ => hr.symm⟩
      · exact ⟨t, ht, htaken', fun hset => absurd hset.symm hi⟩
    obtain ⟨t, ht, htaken', hother⟩ := hold
    obtain ⟨h, y, hy, hlive, hset, hrecord⟩ := hm.holder i t ht r htaken'
    have hne : h ≠ k := by
      rintro rfl
      rw [hx] at hy
      cases hy
      exact hother hset hrecord
    refine ⟨h, y, ?_, hlive, hset, hrecord⟩
    exact (getElem?_setHandle hx _ h).trans ((if_neg hne).trans hy)
  | @resume k x s sch hx hholding hs hunpin =>
    exact hm.holder_kept { x with status := .idle } hs hx (by rfl) (by rfl) hunpin.taken? (by simp)
      rfl rfl hs' htaken
  | @begin k j lane call offer x s t task sch hx hidle hset hs hopens hpin =>
    obtain ⟨-, -, hscheme, -⟩ := hopens.sound (hw.sets _ _ hs)
    exact hm.holder_kept { x with status := .running } hs hx (by rfl) (by rfl)
      (fun r => (hpin.taken? r).trans (congrArg (Scheme.taken? · r) hscheme)) (by simp) rfl rfl
      hs' htaken
  | @goes b rest x s st frame hrun hx hs hmove hnext =>
    obtain ⟨hstatus, -⟩ := hw.top hrun hx hs
    exact hm.holder_kept { x with retries := x.retries + st.retries } hs hx (by rfl) (by rfl)
      (taken?_move hw hrun hx hs hmove) (by simp [hstatus]) rfl rfl hs' htaken
  | @ends b rest x s st reply sch hrun hx hs hmove hnext hunpin =>
    have hlive : statusAfter reply ≠ .released := by cases reply <;> simp [statusAfter]
    exact hm.holder_kept { x with
        retries := x.retries + st.retries
        status := statusAfter reply } hs hx (by rfl) (by rfl)
      (fun r => (hunpin.taken? r).trans (taken?_move hw hrun hx hs hmove r)) hlive rfl rfl hs'
      htaken

/-- Every handle that is running after an action has an operation in progress. -/
theorem runner (hp : Passage w a o) (hm : w.Manned) (k : Nat) (y : Handle)
    (hy : o.world.handles[k]? = some y) (hstatus : y.status = .running) :
    ∃ b ∈ o.world.running, b.handle = k := by
  -- the handle that has changed is not running, and no other operation has ended
  have hkept : ∀ {w' : World κ ν} {h : Nat} {x x' : Handle}, w.handles[h]? = some x →
      w'.handles = (w.setHandle h x').handles → x'.status ≠ .running →
      (∀ b ∈ w.running, b.handle ≠ h → b ∈ w'.running) → w'.handles[k]? = some y →
      ∃ b ∈ w'.running, b.handle = k := by
    intro w' h x x' hx hhandles hx' hrunning hy
    rw [hhandles, getElem?_setHandle hx] at hy
    split at hy
    · cases hy
      exact absurd hstatus hx'
    · next hk =>
      obtain ⟨b, hb, rfl⟩ := hm.runner k y hy hstatus
      exact ⟨b, hrunning b hb hk, rfl⟩
  cases hp with
  | misuse | sweep => exact hm.runner k y hy hstatus
  | register =>
    dsimp only at hy
    rw [Array.getElem?_push] at hy
    split at hy
    · cases hy
      cases hstatus
    · exact hm.runner k y hy hstatus
  | release hx => exact hkept hx rfl (by simp) (fun b hb _ => hb) hy
  | resume hx => exact hkept hx rfl (by simp) (fun b hb _ => hb) hy
  | @begin h i lane call offer x s t task sch hx =>
    by_cases hk : k = h
    · exact ⟨_, List.mem_cons_self, hk.symm⟩
    · have hy' := getElem?_setHandle hx { x with status := .running } k
      rw [if_neg hk] at hy'
      obtain ⟨b, hb, rfl⟩ := hm.runner k y (hy'.symm.trans hy) hstatus
      exact ⟨b, List.mem_cons_of_mem _ hb, rfl⟩
  | @goes c rest x s st frame hrun hx hs hmove hnext =>
    by_cases hk : k = c.handle
    · exact ⟨_, List.mem_cons_self, hk.symm⟩
    · have hy' := getElem?_setHandle hx { x with retries := x.retries + st.retries } k
      rw [if_neg hk] at hy'
      obtain ⟨b, hb, rfl⟩ := hm.runner k y (hy'.symm.trans hy) hstatus
      rw [hrun] at hb
      rcases List.mem_cons.1 hb with rfl | hb
      · exact absurd rfl hk
      · exact ⟨b, List.mem_cons_of_mem _ hb, rfl⟩
  | @ends c rest x s st reply sch hrun hx =>
    refine hkept hx rfl (by cases reply <;> simp [statusAfter]) (fun b hb hne => ?_) hy
    rw [hrun] at hb
    rcases List.mem_cons.1 hb with rfl | hb
    · exact absurd rfl hne
    · exact hb

end Passage

/-- The records that are held go on to be counted right. -/
theorem World.Turn.counted {w : World κ ν} {i : Nat} {s : SharedSet κ ν} {a : Action κ ν}
    {sch : Scheme Address} (h : w.Turn i s.scheme sch a) (hw : w.Sound) (hs : w.sets[i]? = some s)
    (hc : s.scheme.Counted) : sch.Counted := by
  cases h with
  | elsewhere | full => exact hc
  | register hreg => exact hc.register hreg
  | @release k x hx hidle hset =>
    subst hset
    exact hc.release (hw.depth? hx (by rw [hidle]; decide) hs).1
  | pin _ _ _ _ _ _ hpin => exact hc.pin hpin
  | reclaim => exact hc.reclaim
  | advance he => exact Scheme.Counted.advance (he ▸ hc)
  | collect he | scan he => rwa [he] at hc
  | works _ _ _ hworks => exact hc.works hworks
  | ends _ _ _ hworks hunpin => exact (hc.works hworks).unpin hunpin
  | resume _ _ _ hunpin => exact hc.unpin hunpin

/-- In every world of a run whatever is in use is used by somebody. -/
theorem Run.manned [Std.TransOrd κ] {kind : Scheme.Kind} {ts : List Tuning} {w : World κ ν}
    {es : List (Event κ ν)} (h : Run (.ofTunings kind ts) es w) : w.Manned := by
  induction h with
  | nil =>
    refine ⟨fun i s hs r htaken => ?_, fun k x hx => by simp [World.ofTunings] at hx,
      fun i s hs => ?_⟩
    · obtain ⟨t, rfl⟩ := World.eq_ofTuning hs
      rw [SharedSet.ofTuning, (Scheme.sound_ofTuning t kind).2.2.2] at htaken
      cases htaken
    · obtain ⟨t, rfl⟩ := World.eq_ofTuning hs
      cases kind <;> rfl
  | @snoc es w a o h hstep ih =>
    have hw := h.sound (World.sound_ofTunings kind ts) h.worldAt_last
    have hp := (World.step_settles hw _).of_ok hstep
    refine ⟨hp.holder hw ih, hp.runner ih, fun i s' hs' => ?_⟩
    obtain ⟨s, hs⟩ := hp.exists_set hs'
    exact (World.step_turn hstep hs hs').counted hw hs (ih.counted i s hs)

/-! ## Guards and what they publish -/

/-- The nodes that the slots of a record publish. -/
def Shield.nodes {α : Type} (q : Shield α) : List α :=
  q.pred.toList ++ q.curr.toList ++ q.succ.toList

/-- The nodes that a record publishes, under hazard slots. -/
def Scheme.published {α : Type} : Scheme α → Nat → List α
  | .epochs _, _ => []
  | .hazards h, r => (h.roster.record? r).elim [] Shield.nodes

/-- The handles of a set that have a guard: an operation of theirs is in progress, or the last one
has kept its protection. -/
def World.guards (w : World κ ν) (i : Nat) : List Handle :=
  w.handles.toList.filter fun x => decide (x.set = i ∧ (x.status = .running ∨ x.status = .holding))

theorem Shield.length_nodes_le {α : Type} (q : Shield α) : q.nodes.length ≤ 3 := by
  obtain ⟨pred, curr, succ, -⟩ := q
  cases pred <;> cases curr <;> cases succ <;> simp [nodes]

theorem Shield.covers_iff {α : Type} [DecidableEq α] {q : Shield α} {a : α} :
    q.covers a = true ↔ a ∈ q.nodes := by
  simp [covers, nodes, or_assoc]

theorem Scheme.length_published_le {α : Type} (s : Scheme α) (r : Nat) :
    (s.published r).length ≤ 3 := by
  cases s with
  | epochs e => simp [published]
  | hazards h =>
    rw [published]
    cases h.roster.record? r with
    | none => simp
    | some q => exact q.length_nodes_le

theorem Scheme.mem_published {α : Type} {h : Hazards α} {r : Nat} {a : α} :
    a ∈ (Scheme.hazards h).published r ↔ ∃ q, h.roster.record? r = some q ∧ a ∈ q.nodes := by
  rw [published]
  cases h.roster.record? r <;> simp

/-- Only a record that exists publishes anything. -/
theorem Scheme.lt_records {α : Type} {s : Scheme α} {r : Nat} {a : α} (ha : a ∈ s.published r) :
    r < s.records := by
  cases s with
  | epochs e => cases ha
  | hazards h =>
    obtain ⟨q, hq, -⟩ := mem_published.1 ha
    obtain ⟨seat, hseat, -⟩ := Option.map_eq_some_iff.1 hq
    exact (Array.getElem?_eq_some_iff.1 hseat).1

/-- A scan keeps a node if and only if some record publishes it. -/
theorem Hazards.protects_iff {α : Type} [DecidableEq α] {h : Hazards α} {a : α} :
    h.protects a = true ↔ ∃ r, a ∈ (Scheme.hazards h).published r := by
  simp only [protects, Roster.any, Array.any_eq_true, Shield.covers_iff, Scheme.mem_published,
    Roster.record?, Option.map_eq_some_iff, Array.getElem?_eq_some_iff]
  constructor
  · rintro ⟨r, hr, ha⟩
    exact ⟨r, _, ⟨_, ⟨hr, rfl⟩, rfl⟩, ha⟩
  · rintro ⟨r, _, ⟨_, ⟨hr, rfl⟩, rfl⟩, ha⟩
    exact ⟨r, hr, ha⟩

namespace World

variable {w : World κ ν} {i : Nat}

omit [Ord κ] in
theorem mem_guards {x : Handle} : x ∈ w.guards i ↔
    ∃ h : Nat, w.handles[h]? = some x ∧ x.set = i ∧
      (x.status = .running ∨ x.status = .holding) := by
  rw [guards, List.mem_filter, Array.mem_toList_iff, Array.mem_iff_getElem?, decide_eq_true_iff,
    exists_and_right]

/-- What a record publishes is published under a guard. -/
theorem Manned.exists_guard (hm : w.Manned) (hw : w.Sound) {s : SharedSet κ ν}
    (hs : w.sets[i]? = some s) {r : Nat} {a : Address} (ha : a ∈ s.scheme.published r) :
    ∃ x ∈ w.guards i, x.record = r := by
  cases he : s.scheme with
  | epochs e =>
    rw [he] at ha
    cases ha
  | hazards q =>
    rw [he] at ha
    obtain ⟨shield, hq, ha⟩ := Scheme.mem_published.1 ha
    have hguarded : shield.guarded = true := by
      by_contra hfree
      obtain ⟨hpred, hcurr, hsucc⟩ :=
        (he ▸ (hw.sets i s hs).scheme) r shield hq (by simpa using hfree)
      simp [Shield.nodes, hpred, hcurr, hsucc] at ha
    have hd : s.scheme.depth? r = some 1 := by simp [he, Scheme.depth?, hq, hguarded]
    obtain ⟨h, x, hx, hbusy, hset, hrecord⟩ := hm.exists_busy hw hs hd Nat.one_ne_zero
    exact ⟨x, mem_guards.2 ⟨h, hx, hset, hbusy⟩, hrecord⟩

/-- While nobody has a guard, no record of the set is pinned. -/
theorem Manned.unpinned (hm : w.Manned) (hw : w.Sound) (hguards : w.guards i = [])
    {s : SharedSet κ ν} (hs : w.sets[i]? = some s) {e : Epochs Address} (he : s.scheme = .epochs e)
    {r : Nat} {p : Pin} (hp : e.roster.record? r = some p) : p.pinned = false := by
  have hpinned := ((he ▸ (hw.sets i s hs).scheme) r p hp).1
  by_contra hne
  have hd : s.scheme.depth? r = some p.depth := by rw [he, Scheme.depth?, hp, Option.map_some]
  obtain ⟨h, x, hx, hbusy, hset, -⟩ := hm.exists_busy hw hs hd (by
    rw [hpinned] at hne
    simpa using hne)
  have hmem := mem_guards.2 ⟨h, hx, hset, hbusy⟩
  rw [hguards] at hmem
  cases hmem

end World

/-! ## In a run -/

omit [Ord κ] in
/-- A set of a world that was just made is what its thresholds make it. -/
theorem World.eq_ofTuning_getElem? {kind : Scheme.Kind} {ts : List Tuning} {i : Nat}
    {s : SharedSet κ ν} (hs : (World.ofTunings kind ts).sets[i]? = some s) :
    ∃ t, ts[i]? = some t ∧ s = .ofTuning kind t := by
  simp only [World.ofTunings, List.getElem?_toArray, List.getElem?_map,
    Option.map_eq_some_iff] at hs
  obtain ⟨t, ht, rfl⟩ := hs
  exact ⟨t, ht, rfl⟩

theorem Scheme.settings_eq_hazards {α : Type} {s : Scheme α} {t : Tuning}
    (h : s.settings = (Scheme.ofTuning t .hazards : Scheme α).settings) :
    ∃ q, s = .hazards q ∧ q.scanFactor = t.scanFactor ∧ q.scanFloor = t.scanFloor := by
  cases s with
  | epochs e => cases h
  | hazards q =>
    simp only [settings, ofTuning, Hazards.ofTuning, Prod.mk.injEq, List.cons.injEq, true_and,
      and_true] at h
    exact ⟨q, rfl, h.1⟩

section

variable [Std.TransOrd κ] {ts : List Tuning} {es : List (Event κ ν)} {w : World κ ν} {i : Nat}
  {s : SharedSet κ ν}

/-- In every world of a run a set has the kind and the thresholds that it was made with. -/
theorem Run.settings {kind : Scheme.Kind} (h : Run (.ofTunings kind ts) es w)
    (hs : w.sets[i]? = some s) :
    ∃ t, ts[i]? = some t ∧
      s.scheme.settings = (Scheme.ofTuning t kind : Scheme Address).settings := by
  induction h generalizing s with
  | nil =>
    obtain ⟨t, ht, rfl⟩ := World.eq_ofTuning_getElem? hs
    exact ⟨t, ht, rfl⟩
  | @snoc es w a o h hstep ih =>
    have hw := h.sound (World.sound_ofTunings kind ts) h.worldAt_last
    obtain ⟨s₀, hs₀⟩ := ((World.step_settles hw _).of_ok hstep).exists_set hs
    obtain ⟨t, ht, hsettings⟩ := ih hs₀
    exact ⟨t, ht, (World.step_turn hstep hs₀ hs).grows.settings.trans hsettings⟩

theorem Run.exists_epochs (h : Run (.ofTunings .epochs ts) es w) (hs : w.sets[i]? = some s) :
    ∃ t e, ts[i]? = some t ∧ s.scheme = .epochs e ∧ e.collectEvery = t.collectEvery := by
  obtain ⟨t, ht, hsettings⟩ := h.settings hs
  cases he : s.scheme with
  | hazards q =>
    rw [he] at hsettings
    cases hsettings
  | epochs e =>
    rw [he] at hsettings
    simp only [Scheme.settings, Scheme.ofTuning, Epochs.ofTuning, Prod.mk.injEq, List.cons.injEq,
      true_and, and_true] at hsettings
    exact ⟨t, e, ht, rfl, hsettings.1⟩

theorem Run.exists_hazards (h : Run (.ofTunings .hazards ts) es w) (hs : w.sets[i]? = some s) :
    ∃ t q, ts[i]? = some t ∧ s.scheme = .hazards q ∧ q.scanFactor = t.scanFactor ∧
      q.scanFloor = t.scanFloor := by
  obtain ⟨t, ht, hsettings⟩ := h.settings hs
  obtain ⟨q, hq, hsame⟩ := Scheme.settings_eq_hazards hsettings
  exact ⟨t, q, ht, hq, hsame⟩

end

end MarkedChain
