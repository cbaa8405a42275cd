import MarkedChain.Proofs.Holders

/-!
# Who is registered with a set

The records in use are those of the live handles, and no two handles have the same one
(`World.Manned.roll`). To register hands out a record that nobody uses, and makes one only if all
are in use (`Scheme.HandsOut`), and no other action hands out or makes a record
(`Passage.enrolls`). So a set has as many records as it ever had live handles at once
(`Run.records_peak`). A record that nobody uses protects nothing (`Scheme.Vacant`), and it is as
such that it is handed out again.
-/

namespace MarkedChain

/-! ## The roster -/

namespace Roster

variable {ρ : Type} {r r' : Roster ρ}

theorem exhausted?_eq_some {n : UInt64} :
    r.exhausted? = some n ↔ r.limit = some n ∧ n.toNat ≤ r.active := by
  simp [exhausted?, Option.filter_eq_some_iff]

/-- If the limit is reached, no record is handed out. -/
theorem acquire_of_full {n : UInt64} (hlimit : r.limit = some n) (hfull : n.toNat ≤ r.active)
    (fresh : ρ) : r.acquire fresh = .error (.tooManyParticipants n) := by
  rw [acquire, exhausted?_eq_some.2 ⟨hlimit, hfull⟩]

/-- Below the limit a record is handed out. -/
theorem exists_acquire (hroom : ∀ n, r.limit = some n → r.active < n.toNat) (fresh : ρ) :
    ∃ i r', r.acquire fresh = .ok (i, r') := by
  have hnone : r.exhausted? = none := by
    cases hfull : r.exhausted? with
    | none => rfl
    | some n =>
      obtain ⟨hlimit, hle⟩ := exhausted?_eq_some.1 hfull
      exact absurd hle (Nat.not_le_of_lt (hroom n hlimit))
  rw [acquire, hnone]
  dsimp only
  split <;> exact ⟨_, _, rfl⟩

/-- A fresh record is made only if all others are held. -/
theorem Counted.size_acquire (h : r.Counted) {fresh : ρ} {i : Nat}
    (hacquire : r.acquire fresh = .ok (i, r')) :
    r'.active = r.active + 1 ∧
      r'.size = if r.active = r.size then r.size + 1 else r.size := by
  have hsize : ∀ r : Roster ρ, r.size = r.flags.length := fun r => by simp [size, flags]
  have hle := (h.acquire hacquire).active_le
  obtain ⟨hactive, ⟨-, hnew⟩ | ⟨hall, hnew⟩⟩ := flags_acquire hacquire
  · have hsame : r'.size = r.size := by rw [hsize, hsize, hnew, List.length_set]
    rw [hactive, hsame] at hle
    exact ⟨hactive, by rw [if_neg (by omega), hsame]⟩
  · have hfull : r.active = r.size := by
      rw [h, hsize]
      exact List.count_eq_length.2 fun flag hflag => (hall flag hflag).symm
    refine ⟨hactive, ?_⟩
    rw [if_pos hfull, hsize, hsize, hnew, List.length_append, List.length_singleton]

end Roster

/-! ## The records of a scheme -/

namespace Scheme

variable {α : Type} {s s' : Scheme α} {r : Nat}

/-- The records that somebody holds, the oldest first. -/
def inUse (s : Scheme α) : List Nat :=
  (List.range s.records).filter fun r => decide (s.taken? r = some true)

/-- How many handles there may be at once, if there is a limit. -/
def limit : Scheme α → Option UInt64
  | .epochs e => e.roster.limit
  | .hazards h => h.roster.limit

/-- A record protects nothing: it is not pinned, or its slots are empty and without a guard. -/
def Vacant : Scheme α → Nat → Prop
  | .epochs e, r => ∃ p, e.roster.record? r = some p ∧ p.pinned = false ∧ p.depth = 0
  | .hazards h, r => h.roster.record? r = some {}

theorem limit_eq (s : Scheme α) : s.limit = s.settings.2.2 := by
  cases s <;> rfl

theorem taken?_eq_none : s.taken? r = none ↔ s.records ≤ r := by
  cases s <;> simp [taken?, records, Roster.taken?, Roster.size]

theorem mem_inUse : r ∈ s.inUse ↔ s.taken? r = some true := by
  rw [inUse, List.mem_filter, List.mem_range, decide_eq_true_iff]
  refine ⟨And.right, fun h => ⟨Nat.lt_of_not_le fun hle => ?_, h⟩⟩
  rw [taken?_eq_none.2 hle] at h
  cases h

theorem nodup_inUse (s : Scheme α) : s.inUse.Nodup := List.nodup_range.filter _

/-- The number of records in use is counted right. -/
theorem Counted.length_inUse (h : s.Counted) : s.active = s.inUse.length := by
  have hflags : ∀ {ρ : Type} (r : Roster ρ), r.flags.count true =
      ((List.range r.size).filter fun i => decide (r.taken? i = some true)).length := by
    intro ρ r
    have hmap : r.flags = (List.range r.size).map fun i => decide (r.taken? i = some true) := by
      apply List.ext_getElem?
      intro i
      rw [Roster.getElem?_flags, List.getElem?_map, Roster.size, Roster.taken?]
      rcases Nat.lt_or_ge i r.seats.size with hi | hi <;> simp [Roster.taken?, hi]
    rw [hmap, List.count_eq_countP, List.countP_map, ← List.countP_eq_length_filter]
    exact List.countP_congr fun i _ => by simp
  cases s with
  | epochs e => exact h.trans (hflags _)
  | hazards q => exact h.trans (hflags _)

theorem Counted.active_le_records (h : s.Counted) : s.active ≤ s.records := by
  cases s <;> exact Roster.Counted.active_le h

/-- A record without a guard protects nothing. -/
theorem Sound.vacant (hs : s.Sound) (hd : s.depth? r = some 0) : s.Vacant r := by
  cases s with
  | epochs e =>
    obtain ⟨p, hp, hdepth⟩ := Option.map_eq_some_iff.1 hd
    exact ⟨p, hp, by rw [(hs r p hp).1, hdepth]; rfl, hdepth⟩
  | hazards q =>
    obtain ⟨shield, hshield, hguard⟩ := Option.map_eq_some_iff.1 hd
    have hfree : shield.guarded = false := by
      cases hg : shield.guarded with
      | false => rfl
      | true => simp [hg] at hguard
    obtain ⟨hpred, hcurr, hsucc⟩ := hs r shield hshield hfree
    refine hshield.trans (congrArg some ?_)
    cases shield
    simp_all

/-- What protects nothing keeps no entry from being swept out. -/
theorem Vacant.not_covers (h : s.Vacant r) (slot : Slot) (x : Retired α) :
    ¬ s.Covers r slot x := by
  cases s with
  | epochs e =>
    obtain ⟨p, hp, hpinned, -⟩ := h
    rintro ⟨p', hp', hpinned', -⟩
    cases hp.symm.trans hp'
    rw [hpinned] at hpinned'
    cases hpinned'
  | hazards q =>
    rintro ⟨shield, hshield, hslot⟩
    cases (show q.roster.record? r = some {} from h).symm.trans hshield
    cases slot <;> cases hslot

/-! ### Registering -/

/-- A record that nobody used was handed out, one that was there, or a fresh one if all were in use.
It protects nothing, and everything else is as it was. -/
structure HandsOut (s s' : Scheme α) (r : Nat) : Prop where
  free : r ∉ s.inUse
  taken : r ∈ s'.inUse
  vacant : s'.Vacant r
  active : s'.active = s.active + 1
  records : s'.records = if s.active = s.records then s.records + 1 else s.records
  touches : s.Touches s' r

theorem full_or_room (s : Scheme α) : (∃ n, s.limit = some n ∧ n.toNat ≤ s.active) ∨
    ∀ n, s.limit = some n → s.active < n.toNat := by
  cases s.limit with
  | none => exact .inr nofun
  | some n =>
    rcases Nat.lt_or_ge s.active n.toNat with hlt | hle
    · exact .inr fun n' hn' => Option.some.inj hn' ▸ hlt
    · exact .inl ⟨n, rfl, hle⟩

/-- If the limit is reached, nobody can be registered. -/
theorem register_of_full {n : UInt64} (hlimit : s.limit = some n) (hfull : n.toNat ≤ s.active) :
    s.register = .error (.tooManyParticipants n) := by
  cases s with
  | epochs e | hazards q =>
    rw [register, Roster.acquire_of_full hlimit hfull]
    rfl

/-- Below the limit somebody can be registered. -/
theorem exists_register (hroom : ∀ n, s.limit = some n → s.active < n.toNat) :
    ∃ r s', s.register = .ok (r, s') := by
  cases s with
  | epochs e | hazards q =>
    obtain ⟨i, roster, hacquire⟩ := Roster.exists_acquire hroom {}
    exact ⟨_, _, bind_eq_ok.2 ⟨_, hacquire, rfl⟩⟩

/-- Only below the limit somebody is registered. -/
theorem lt_of_register (hreg : s.register = .ok (r, s')) {n : UInt64} (hlimit : s.limit = some n) :
    s.active < n.toNat := by
  refine Nat.lt_of_not_le fun hfull => ?_
  rw [register_of_full hlimit hfull] at hreg
  cases hreg

/-- To register hands out a record. -/
theorem HandsOut.of_register (hs : s.Sound)
    (hquiet : ∀ r, s.taken? r = some false → s.depth? r = some 0) (hc : s.Counted)
    (hreg : s.register = .ok (r, s')) : s.HandsOut s' r := by
  obtain ⟨htouches, hs', hdepth, hfree, htaken⟩ := register_eq_ok hs hquiet hreg
  have hcount : s'.active = s.active + 1 ∧
      s'.records = if s.active = s.records then s.records + 1 else s.records := by
    cases s with
    | epochs e | hazards q =>
      obtain ⟨⟨i, roster⟩, hacquire, hreg⟩ := bind_eq_ok.1 hreg
      cases hreg
      exact Roster.Counted.size_acquire hc hacquire
  exact ⟨fun h => hfree (mem_inUse.1 h), mem_inUse.2 htaken, hs'.vacant hdepth, hcount.1, hcount.2,
    htouches⟩

/-- No record was made and none was handed out. -/
structure Retains (s s' : Scheme α) : Prop where
  records : s'.records = s.records
  inUse : s'.inUse ⊆ s.inUse

theorem Retains.refl (s : Scheme α) : s.Retains s := ⟨rfl, fun _ h => h⟩

/-- Each record is held as before, or it was given back. -/
theorem Retains.of_taken? (h : ∀ r, s'.taken? r = s.taken? r ∨
    s'.taken? r = (s.taken? r).map fun _ => false) : s.Retains s' where
  records := by
    have hnone : ∀ r, s'.records ≤ r ↔ s.records ≤ r := fun r => by
      rw [← taken?_eq_none, ← taken?_eq_none]
      rcases h r with h | h <;> simp [h]
    exact Nat.le_antisymm ((hnone _).2 (Nat.le_refl _)) ((hnone _).1 (Nat.le_refl _))
  inUse r hr := by
    rw [mem_inUse] at hr ⊢
    rcases h r with h | h
    · exact h.symm.trans hr
    · rw [h] at hr
      simp at hr

/-- Where no record was handed out, no more of them are in use. -/
theorem Retains.active_le (h : s.Retains s') (hc : s.Counted) (hc' : s'.Counted) :
    s'.active ≤ s.active := by
  rw [hc.length_inUse, hc'.length_inUse]
  exact (s'.nodup_inUse.subperm h.inUse).length_le

end Scheme

variable {κ ν : Type} [Ord κ]

/-! ## The live handles of a set -/

namespace World

variable {w : World κ ν} {i : Nat} {s : SharedSet κ ν}

/-- The handles of a set that have not been given back. -/
def members (w : World κ ν) (i : Nat) : List Handle :=
  w.handles.toList.filter fun x => decide (x.set = i ∧ x.status ≠ .released)

omit [Ord κ] in
theorem mem_members {x : Handle} : x ∈ w.members i ↔
    ∃ h : Nat, w.handles[h]? = some x ∧ x.set = i ∧ x.status ≠ .released := by
  rw [members, List.mem_filter, Array.mem_toList_iff, Array.mem_iff_getElem?, decide_eq_true_iff,
    exists_and_right]

/-- No two live handles of a set have the same record. -/
theorem Sound.nodup_members (hw : w.Sound) (i : Nat) :
    ((w.members i).map Handle.record).Nodup := by
  rw [List.Nodup, List.pairwise_map, members, List.pairwise_filter, List.pairwise_iff_getElem]
  intro h h' hh hh' hlt hx hx' hrecord
  obtain ⟨hset, hlive⟩ := of_decide_eq_true hx
  obtain ⟨hset', hlive'⟩ := of_decide_eq_true hx'
  have hsame := hw.apart h h' _ _ (Array.getElem?_toList ▸ List.getElem?_eq_getElem hh)
    (Array.getElem?_toList ▸ List.getElem?_eq_getElem hh') hlive hlive' (hset.trans hset'.symm)
    hrecord
  exact absurd hsame (Nat.ne_of_lt hlt)

/-- The records in use are those of the live handles. -/
theorem Manned.roll (hm : w.Manned) (hw : w.Sound) (hs : w.sets[i]? = some s) :
    ((w.members i).map Handle.record).Perm s.scheme.inUse := by
  refine (List.perm_ext_iff_of_nodup (hw.nodup_members i) s.scheme.nodup_inUse).2 fun r => ?_
  rw [Scheme.mem_inUse, List.mem_map]
  constructor
  · rintro ⟨x, hmem, rfl⟩
    obtain ⟨h, hx, hset, hlive⟩ := mem_members.1 hmem
    exact (hw.depth? hx hlive (hset ▸ hs)).1
  · intro htaken
    obtain ⟨h, x, hx, hlive, hset, hrecord⟩ := hm.holder i s hs r htaken
    exact ⟨x, mem_members.2 ⟨h, hx, hset, hlive⟩, hrecord⟩

theorem Manned.active_eq (hm : w.Manned) (hw : w.Sound) (hs : w.sets[i]? = some s) :
    s.scheme.active = (w.members i).length := by
  rw [(hm.counted i s hs).length_inUse, ← (hm.roll hw hs).length_eq, List.length_map]

end World

/-- Only to register hands out or makes a record. -/
theorem Passage.enrolls [Std.TransOrd κ] {w : World κ ν} {a : Action κ ν} {o : Outcome κ ν}
    (hp : Passage w a o) (hw : w.Sound) {i : Nat} {s s' : SharedSet κ ν}
    (hs : w.sets[i]? = some s) (hs' : o.world.sets[i]? = some s') :
    s.scheme.Retains s'.scheme ∨ ∃ r, s.scheme.register = .ok (r, s'.scheme) := by
  -- an action that replaces one set leaves all others alone
  have hone : ∀ {j : Nat} {t t' : SharedSet κ ν}, w.sets[j]? = some t →
      t.scheme.Retains t'.scheme → (w.setSet j t').sets[i]? = some s' →
      s.scheme.Retains s'.scheme := by
    intro j t t' ht hretains hs'
    obtain ⟨-, rfl, rfl⟩ | rfl := World.setSet_cases ht hs hs'
    · exact hretains
    · exact .refl _
  cases hp with
  | misuse =>
    cases hs.symm.trans hs'
    exact .inl (.refl _)
  | sweep _ _ _ _ ht hsheds =>
    exact .inl (hone ht (.of_taken? fun r => .inl (hsheds.taken? r)) hs')
  | register ht hreg =>
    obtain ⟨-, rfl, rfl⟩ | rfl := World.setSet_cases ht hs hs'
    · exact .inr ⟨_, hreg⟩
    · exact .inl (.refl _)
  | @release k x t hx hidle ht =>
    obtain ⟨htouches, -, -, hfree⟩ := Scheme.release_touches (hw.sets _ _ ht).scheme x.record
    refine .inl (hone ht (.of_taken? fun r => ?_) hs')
    by_cases hr : r = x.record
    · exact .inr (hr ▸ hfree)
    · exact .inl (htouches.taken? r hr)
  | resume hx hholding ht hunpin =>
    exact .inl (hone ht (.of_taken? fun r => .inl (hunpin.taken? r)) hs')
  | @begin k j lane call offer x t t' task sch hx hidle hset ht hopens hpin =>
    obtain ⟨-, -, hscheme, -⟩ := hopens.sound (hw.sets _ _ ht)
    refine .inl (hone ht (.of_taken? fun r => .inl ?_) hs')
    exact (hpin.taken? r).trans (congrArg (Scheme.taken? · r) hscheme)
  | goes hrun hx ht hmove =>
    exact .inl (hone ht (.of_taken? fun r => .inl (taken?_move hw hrun hx ht hmove r)) hs')
  | ends hrun hx ht hmove _ hunpin =>
    refine .inl (hone ht (.of_taken? fun r => .inl ?_) hs')
    exact (hunpin.taken? r).trans (taken?_move hw hrun hx ht hmove r)

/-! ## In a run -/

section

variable [Std.TransOrd κ] {kind : Scheme.Kind} {ts : List Tuning} {es : List (Event κ ν)}
  {w : World κ ν} {i : Nat} {s : SharedSet κ ν}

/-- An action on a set hands out a record of it, or no more of its records are in use than
before. -/
theorem Run.enrolls (h : Run (.ofTunings kind ts) es w) {a : Action κ ν} {o : Outcome κ ν}
    (hstep : w.step a = .ok o) {s' : SharedSet κ ν} (hs : w.sets[i]? = some s)
    (hs' : o.world.sets[i]? = some s') :
    s'.scheme.records = s.scheme.records ∧ s'.scheme.active ≤ s.scheme.active ∨
      ∃ r, s.scheme.register = .ok (r, s'.scheme) ∧ s.scheme.HandsOut s'.scheme r := by
  have hw := h.sound (World.sound_ofTunings kind ts) h.worldAt_last
  have hc := h.manned.counted i s hs
  rcases ((World.step_settles hw _).of_ok hstep).enrolls hw hs hs' with hretains | ⟨r, hreg⟩
  · exact .inl ⟨hretains.records, hretains.active_le hc ((h.snoc hstep).manned.counted i s' hs')⟩
  · exact .inr ⟨r, hreg, .of_register (hw.sets i s hs).scheme (hw.quiet i s hs) hc hreg⟩

theorem Run.limit_eq (h : Run (.ofTunings kind ts) es w) (hs : w.sets[i]? = some s) {t : Tuning}
    (ht : ts[i]? = some t) : s.scheme.limit = t.handleLimit := by
  obtain ⟨t', ht', hsettings⟩ := h.settings hs
  cases ht.symm.trans ht'
  rw [Scheme.limit_eq, hsettings]
  cases kind <;> rfl

/-- There are never more handles than the limit allows. -/
theorem Run.active_le_limit (h : Run (.ofTunings kind ts) es w) (hs : w.sets[i]? = some s)
    {t : Tuning} (ht : ts[i]? = some t) {n : UInt64} (hlimit : t.handleLimit = some n) :
    s.scheme.active ≤ n.toNat := by
  induction h generalizing s with
  | nil =>
    obtain ⟨t, rfl⟩ := World.eq_ofTuning hs
    cases kind <;> exact Nat.zero_le _
  | @snoc es w a o h hstep ih =>
    have hw := h.sound (World.sound_ofTunings kind ts) h.worldAt_last
    obtain ⟨s₀, hs₀⟩ := ((World.step_settles hw _).of_ok hstep).exists_set hs
    rcases h.enrolls hstep hs₀ hs with ⟨-, hle⟩ | ⟨r, hreg, hout⟩
    · exact Nat.le_trans hle (ih hs₀)
    · rw [hout.active]
      exact Scheme.lt_of_register hreg ((h.limit_eq hs₀ ht).trans hlimit)

/-- A set has as many records as it had live handles at once, at the moment when there were
most. -/
theorem Run.records_peak (h : Run (.ofTunings kind ts) es w) (hs : w.sets[i]? = some s) :
    (∀ m u, (World.ofTunings kind ts).worldAt es m = some u →
      (u.members i).length ≤ s.scheme.records) ∧
    ∃ m u, (World.ofTunings kind ts).worldAt es m = some u ∧
      (u.members i).length = s.scheme.records := by
  induction h generalizing s with
  | nil =>
    obtain ⟨t, rfl⟩ := World.eq_ofTuning hs
    refine ⟨fun m u hu => ?_, 0, _, rfl, by cases kind <;> rfl⟩
    obtain rfl : m = 0 := Nat.le_zero.1 (World.lt_of_worldAt hu)
    cases hu
    exact Nat.zero_le _
  | @snoc es w a o h hstep ih =>
    have h' := h.snoc hstep
    have hw := h.sound (World.sound_ofTunings kind ts) h.worldAt_last
    have hw' := h'.sound (World.sound_ofTunings kind ts) h'.worldAt_last
    obtain ⟨s₀, hs₀⟩ := ((World.step_settles hw _).of_ok hstep).exists_set hs
    obtain ⟨hbound, m₀, u₀, hu₀, hpeak⟩ := ih hs₀
    have hgrows := (World.step_turn hstep hs₀ hs).grows.records
    have hactive := h'.manned.active_eq hw' hs
    have hlast := h'.worldAt_last
    rw [List.length_append, List.length_singleton] at hlast
    refine ⟨fun m u hu => ?_, ?_⟩
    · rcases Nat.lt_or_ge m (es.length + 1) with hm | hm
      · rw [World.worldAt_append (Nat.le_of_lt_succ hm)] at hu
        exact Nat.le_trans (hbound m u hu) hgrows
      · have hm' := World.lt_of_worldAt hu
        rw [List.length_append, List.length_singleton] at hm'
        obtain rfl := Nat.le_antisymm hm' hm
        cases hlast.symm.trans hu
        exact hactive ▸ (h'.manned.counted i s hs).active_le_records
    · -- a fresh record was made for a handle that is one more than ever before
      have hold : s.scheme.records = s₀.scheme.records →
          ∃ m u, (World.ofTunings kind ts).worldAt (es ++ [⟨a, o⟩]) m = some u ∧
            (u.members i).length = s.scheme.records := fun hsame =>
        ⟨m₀, u₀, by rw [World.worldAt_append (World.lt_of_worldAt hu₀), hu₀], hsame ▸ hpeak⟩
      rcases h.enrolls hstep hs₀ hs with ⟨hsame, -⟩ | ⟨r, -, hout⟩
      · exact hold hsame
      · have hrecords := hout.records
        split at hrecords
        · next hfull =>
          exact ⟨_, _, hlast, by rw [← hactive, hout.active, hrecords, hfull]⟩
        · exact hold hrecords

/-- The registrations with a set after a run. The records in use are those of the live handles, each
the record of one handle. There are as many records as there were live handles at most, and a record
that is not in use protects nothing, so that it keeps no retired node from being freed. -/
structure World.Enrolled (w₀ : World κ ν) (es : List (Event κ ν)) (w : World κ ν) (i : Nat)
    (s : SharedSet κ ν) : Prop where
  active : s.scheme.active = (w.members i).length
  roll : ((w.members i).map Handle.record).Perm s.scheme.inUse
  apart : ((w.members i).map Handle.record).Nodup
  most : ∀ m u, w₀.worldAt es m = some u → (u.members i).length ≤ s.scheme.records
  reached : ∃ m u, w₀.worldAt es m = some u ∧ (u.members i).length = s.scheme.records
  vacant : ∀ r < s.scheme.records, r ∉ s.scheme.inUse →
    s.scheme.Vacant r ∧ ∀ slot x, ¬ s.scheme.Covers r slot x

theorem Run.enrolled (h : Run (.ofTunings kind ts) es w) (hs : w.sets[i]? = some s) :
    World.Enrolled (.ofTunings kind ts) es w i s := by
  have hw := h.sound (World.sound_ofTunings kind ts) h.worldAt_last
  obtain ⟨hmost, hreached⟩ := h.records_peak hs
  refine ⟨h.manned.active_eq hw hs, h.manned.roll hw hs, hw.nodup_members i, hmost, hreached,
    fun r hr hfree => ?_⟩
  cases htaken : s.scheme.taken? r with
  | none => exact absurd hr (Nat.not_lt_of_le (Scheme.taken?_eq_none.1 htaken))
  | some b =>
    cases b with
    | true => exact absurd (Scheme.mem_inUse.2 htaken) hfree
    | false =>
      have hvacant := (hw.sets i s hs).scheme.vacant (hw.quiet i s hs r htaken)
      exact ⟨hvacant, hvacant.not_covers⟩

omit [Ord κ] [Std.TransOrd κ] in
/-- The world after a handle was registered on a record. -/
def World.withMember (w : World κ ν) (i : Nat) (s : SharedSet κ ν) (r : Nat)
    (sch : Scheme Address) : World κ ν :=
  { w.setSet i { s with scheme := sch } with handles := w.handles.push { set := i, record := r } }

omit [Std.TransOrd κ] in
/-- To register is refused at the limit, and hands out a record below it. -/
theorem World.step_register (hpauses : w.pauses = true) (hs : w.sets[i]? = some s) :
    (∀ reason, s.scheme.register = .error reason →
      w.step (.register i) = .ok ⟨w, [], some (.misuse reason)⟩) ∧
    ∀ r sch, s.scheme.register = .ok (r, sch) →
      w.step (.register i) =
        .ok ⟨w.withMember i s r sch, [], some (.registered w.handles.size)⟩ := by
  have hturn : w.turn = .ok () := if_pos hpauses
  constructor
  · intro reason hreg
    refine bind_eq_ok.2 ⟨(), hturn, bind_eq_ok.2 ⟨s, set_eq_ok hs, ?_⟩⟩
    rw [hreg]
    rfl
  · intro r sch hreg
    refine bind_eq_ok.2 ⟨(), hturn, bind_eq_ok.2 ⟨s, set_eq_ok hs, ?_⟩⟩
    rw [hreg]
    rfl

/-- After every run the registrations with a set are in order and keep to the limit. Whenever other
operations may run, to register is refused if and only if the limit is reached, which is told and
changes nothing. Otherwise the new handle gets a record that nobody uses and that protects nothing,
a fresh one only if all others are in use. -/
theorem Run.registry_exact (h : Run (.ofTunings kind ts) es w) (hs : w.sets[i]? = some s)
    {t : Tuning} (ht : ts[i]? = some t) :
    World.Enrolled (.ofTunings kind ts) es w i s ∧
    (∀ n, t.handleLimit = some n → s.scheme.active ≤ n.toNat) ∧
    (w.pauses = true →
      (∀ n, w.step (.register i) = .ok ⟨w, [], some (.misuse (.tooManyParticipants n))⟩ ↔
        t.handleLimit = some n ∧ n.toNat ≤ s.scheme.active) ∧
      ((∀ n, t.handleLimit = some n → s.scheme.active < n.toNat) →
        ∃ r sch, s.scheme.HandsOut sch r ∧ w.step (.register i) =
          .ok ⟨w.withMember i s r sch, [], some (.registered w.handles.size)⟩)) := by
  have hw := h.sound (World.sound_ofTunings kind ts) h.worldAt_last
  have hlimit := h.limit_eq hs ht
  refine ⟨h.enrolled hs, fun n hn => h.active_le_limit hs ht hn, fun hpauses => ?_⟩
  obtain ⟨hrefused, hserved⟩ := World.step_register hpauses hs
  rw [← hlimit]
  have hroom : (∀ n, s.scheme.limit = some n → s.scheme.active < n.toNat) →
      ∃ r sch, s.scheme.HandsOut sch r ∧ w.step (.register i) =
        .ok ⟨w.withMember i s r sch, [], some (.registered w.handles.size)⟩ := by
    intro hroom
    obtain ⟨r, sch, hreg⟩ := Scheme.exists_register hroom
    exact ⟨r, sch, .of_register (hw.sets i s hs).scheme (hw.quiet i s hs)
      (h.manned.counted i s hs) hreg, hserved r sch hreg⟩
  refine ⟨fun n => ⟨fun hstep => ?_, fun ⟨hn, hfull⟩ => ?_⟩, hroom⟩
  · rcases s.scheme.full_or_room with ⟨n', hn', hfull⟩ | hbelow
    · rw [hrefused _ (Scheme.register_of_full hn' hfull)] at hstep
      cases hstep
      exact ⟨hn', hfull⟩
    · obtain ⟨r, sch, -, hok⟩ := hroom hbelow
      rw [hok] at hstep
      simp at hstep
  · exact hrefused _ (Scheme.register_of_full hn hfull)

end

/-! ## A handle that is given back and registered again -/

/-- Of two handles the second one removes the key that the first one has inserted. While it does,
the first one is given back and another one is registered in its place. -/
def changeover : List (Action Int Nat) :=
  [.register 0, .invoke 0 0 0 (.insert 1 10) none, .proceed, .proceed, .register 0,
    .invoke 1 0 0 (.remove 1) none, .proceed, .proceed, .release 0, .register 0]

namespace Changeover

/-- The one set at the start, for two handles. -/
def origin : World Int Nat := .ofTunings .hazards [{ handleLimit := some 2 }]

/-- What the first actions came to. -/
def events (m : Nat) : List (Event Int Nat) := (origin.play (changeover.take m)).1

/-- The world after the first actions. -/
def world (m : Nat) : World Int Nat := (origin.play (changeover.take m)).2

/-- The set after the first actions. -/
def set (m : Nat) : SharedSet Int Nat := ((world m).sets[0]?).getD (.ofTuning .hazards {})

theorem run (m : Nat) : Run origin (events m) (world m) := origin.play_run (changeover.take m)

theorem sets_zero {m : Nat} (h : ((world m).sets[0]?).isSome = true) :
    (world m).sets[0]? = some (set m) :=
  eq_some_getD h

end Changeover

open Changeover in
/-- The removal goes on on the second of two records when the first one is handed out again. After
that there are two live handles on two records, and a third one is refused. -/
theorem registry_exact_changeover :
    (∃ sch, (set 9).scheme.HandsOut sch 0 ∧ sch.records = 2 ∧ (world 9).step (.register 0) =
      .ok ⟨(world 9).withMember 0 (set 9) 0 sch, [], some (.registered 2)⟩) ∧
    (world 10).members 0 = [⟨0, 1, 0, .running⟩, ⟨0, 0, 0, .idle⟩] ∧
    (set 10).scheme.records = 2 ∧ (world 10).step (.register 0) =
      .ok ⟨world 10, [], some (.misuse (.tooManyParticipants 2))⟩ := by
  obtain ⟨-, -, hbefore⟩ := (run 9).registry_exact (sets_zero (by decide +kernel)) rfl
  obtain ⟨hbooks, -, hafter⟩ := (run 10).registry_exact (sets_zero (by decide +kernel)) rfl
  have hmembers : (world 10).members 0 = [⟨0, 1, 0, .running⟩, ⟨0, 0, 0, .idle⟩] := by
    decide +kernel
  refine ⟨?_, hmembers, by decide +kernel, ?_⟩
  · obtain ⟨r, sch, hout, hstep⟩ := (hbefore (by decide +kernel)).2 fun n hn => by
      cases hn
      decide +kernel
    have hrecords : sch.records = 2 := hout.records.trans (by decide +kernel)
    have hlt : r < 2 := hrecords ▸ List.mem_range.1 (List.mem_filter.1 hout.taken).1
    have hne : r ≠ 1 := by
      rintro rfl
      exact hout.free (by decide +kernel)
    obtain rfl : r = 0 := by omega
    exact ⟨sch, hout, hrecords, hstep⟩
  · refine ((hafter (by decide +kernel)).1 2).2 ⟨rfl, ?_⟩
    rw [hbooks.active, hmembers]
    decide

end MarkedChain
