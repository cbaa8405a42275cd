import MarkedChain.Proofs.Enrollment

/-!
# When a retirement scans

Under hazard slots a retirement scans if more nodes wait than `Tuning.threshold`, a product of
natural numbers, for the number of handles that are live (`Scheme.Triggers`). The threshold is
worked out in machine words, though, and the product may not fit one: it does not for a scan factor
that is large enough, as soon as there is a second handle. Then the removal that retires the node is
stopped, after the node was unlinked. `Tuning.scan_trigger_exact` has both cases, for every way to
adjust the thresholds, and `Tuning.not_scan_trigger_exact_hugeFactor` is a run that ends like that.
-/

namespace MarkedChain

/-- The usual thresholds after some changes. -/
def Tuning.adjusted (as : List Tuning.Adjustment) : Tuning := ({} : Tuning).adjustAll as

/-- The number of waiting nodes above which a scan is due. -/
def Tuning.threshold (t : Tuning) (participants : Nat) : Nat :=
  max (t.scanFactor.toNat * participants) t.scanFloor.toNat

/-- The product that the threshold is made of fits a word. -/
def Tuning.Fits (t : Tuning) (participants : Nat) : Prop :=
  t.scanFactor.toNat * participants < UInt64.size

namespace Scheme

variable {α : Type} [DecidableEq α] {s s' : Scheme α} {t : Tuning} {r : Nat}

/-- To retire a node puts it on the list and scans if and only if the list is then longer than a
threshold. -/
def Triggers (s : Scheme α) (threshold : Nat) : Prop :=
  ∀ r node, s.retire r node =
    .ok (if threshold < (s.shelve node).limbo.entries.length then (s.shelve node).reclaim
      else ([], s.shelve node))

/-- To retire a node stops the program. -/
def Overflows (s : Scheme α) : Prop :=
  ∀ r node, s.retire r node = .error .thresholdTooLarge

/-- What the thresholds come to for a number of participants: they decide whether a retirement
scans, if they fit a word, and stop it otherwise. -/
structure Heeds (s : Scheme α) (t : Tuning) (participants : Nat) : Prop where
  triggers : t.Fits participants → s.Triggers (t.threshold participants)
  overflows : ¬ t.Fits participants → s.Overflows

/-- The number of records that are held is what counts. -/
theorem heeds (h : s.settings = (Scheme.ofTuning t .hazards : Scheme α).settings)
    (hcounted : s.limbo.Counted) : s.Heeds t s.active := by
  obtain ⟨q, rfl, hfactor, hfloor⟩ := settings_eq_hazards h
  constructor
  · intro hfits r node
    have hthreshold : Tuning.scanThreshold? q.scanFactor q.scanFloor q.roster.active =
        some (t.threshold q.roster.active) := by
      rw [hfactor, hfloor]
      exact if_pos hfits
    have hpending : (q.limbo.push node 0).pending = (q.limbo.push node 0).entries.length :=
      (hcounted.push node 0).pending
    simp only [retire, Hazards.retire, hthreshold, hpending, shelve, active, limbo, reclaim]
    split
    · next hlt => exact congrArg Except.ok (if_pos hlt).symm
    · next hle => exact congrArg Except.ok (if_neg hle).symm
  · intro hfits r node
    have hthreshold : Tuning.scanThreshold? q.scanFactor q.scanFloor q.roster.active = none := by
      rw [hfactor]
      exact if_neg hfits
    rw [retire, Hazards.retire, hthreshold]
    rfl

omit [DecidableEq α] in
theorem Shifts.active (h : Shifts r s s') : s'.active = s.active := by
  cases s with
  | epochs e => rw [h.eq_of_epochs]
  | hazards q =>
    obtain ⟨roster, rfl, hactive, -⟩ := h.exists_roster
    exact hactive

end Scheme

namespace Tuning

variable {κ ν : Type} [Ord κ] [Std.TransOrd κ]

/-- The scan trigger, for every way to adjust the thresholds. Whatever waits and however many
records are held, a retirement scans if and only if the list is longer than the threshold, provided
that the threshold fits a word, and is stopped otherwise. In a run this is so at every moment when
an operation may retire a node, and the records that are held are those of the live handles. -/
theorem scan_trigger_exact (as : List Adjustment) :
    (∀ (α : Type) [DecidableEq α] (s : Scheme α),
      s.settings = (Scheme.ofTuning (adjusted as) .hazards : Scheme α).settings →
      s.limbo.Counted → s.Heeds (adjusted as) s.active) ∧
    ∀ (ts : List Tuning) (es : List (Event κ ν)) (w : World κ ν) (i : Nat) (s : SharedSet κ ν),
      Run (.ofTunings .hazards ts) es w → w.sets[i]? = some s → ts[i]? = some (adjusted as) →
      ∀ r sch, Scheme.Shifts r s.scheme sch → sch.Heeds (adjusted as) (w.members i).length := by
  refine ⟨fun _ _ _ => Scheme.heeds, fun ts es w i s h hs ht r sch hshifts => ?_⟩
  have hw := h.sound (World.sound_ofTunings .hazards ts) h.worldAt_last
  obtain ⟨t, ht', hsettings⟩ := h.settings hs
  cases ht.symm.trans ht'
  have hactive : sch.active = (w.members i).length :=
    hshifts.active.trans (h.manned.active_eq hw hs)
  rw [← hactive]
  exact Scheme.heeds ((Scheme.Grows.shifts hshifts).settings.trans hsettings)
    (hshifts.limbo ▸ (hw.sets i s hs).counted)

end Tuning

/-! ## Two handles and a scan factor -/

/-- With two handles a key is inserted and removed, up to the step that retires its node. -/
def unlinking : List (Action Int Nat) :=
  [.register 0, .register 0, .invoke 0 0 0 (.insert 1 10) none, .proceed, .proceed,
    .invoke 0 0 0 (.remove 1) none, .proceed, .proceed, .proceed]

namespace Unlinking

/-- The one set at the start, with adjusted thresholds. -/
def origin (as : List Tuning.Adjustment) : World Int Nat :=
  .ofTunings .hazards [.adjusted as]

/-- What the actions came to. -/
def events (as : List Tuning.Adjustment) : List (Event Int Nat) := ((origin as).play unlinking).1

/-- The world in the end. -/
def world (as : List Tuning.Adjustment) : World Int Nat := ((origin as).play unlinking).2

/-- The set in the end. -/
def set (as : List Tuning.Adjustment) : SharedSet Int Nat :=
  ((world as).sets[0]?).getD (.ofTuning .hazards {})

theorem run (as : List Tuning.Adjustment) : Run (origin as) (events as) (world as) :=
  (origin as).play_run unlinking

theorem sets_zero {as : List Tuning.Adjustment} (h : ((world as).sets[0]?).isSome = true) :
    (world as).sets[0]? = some (set as) :=
  eq_some_getD h

/-- A scan factor that does not fit a word when it is doubled. -/
def hugeFactor : List Tuning.Adjustment := [⟨.scanFactor 9223372036854775808, true⟩]

/-- No thresholds at all, as nothing raises what is assigned. -/
def nothing : List Tuning.Adjustment := [⟨.scanFactor 0, false⟩, ⟨.scanFloor 0, true⟩]

end Unlinking

open Unlinking in
/-- When the first node is retired there is a scan if the thresholds are set to nothing, and none
with the thresholds of a new set. -/
theorem Tuning.scan_trigger_exact_unlinking :
    (set nothing).scheme.Triggers 0 ∧ (set []).scheme.Triggers 16 := by
  have hnothing := (Tuning.scan_trigger_exact nothing).2 _ _ _ 0 _ (run nothing)
    (sets_zero (by decide +kernel)) rfl 0 _ .refl
  have hnew := (Tuning.scan_trigger_exact []).2 _ _ _ 0 _ (run [])
    (sets_zero (by decide +kernel)) rfl 0 _ .refl
  have hfits : (Tuning.adjusted nothing).Fits ((world nothing).members 0).length := by
    unfold Tuning.Fits
    decide +kernel
  have hfits' : (Tuning.adjusted []).Fits ((world []).members 0).length := by
    unfold Tuning.Fits
    decide +kernel
  have hzero : (Tuning.adjusted nothing).threshold ((world nothing).members 0).length =
      0 := by
    decide +kernel
  have hsixteen : (Tuning.adjusted []).threshold ((world []).members 0).length = 16 := by
    decide +kernel
  exact ⟨hzero ▸ hnothing.triggers hfits, hsixteen ▸ hnew.triggers hfits'⟩

open Unlinking in
/-- With a huge scan factor one waiting node is far from the threshold, so that no scan is due. But
the removal is stopped. -/
theorem Tuning.not_scan_trigger_exact_hugeFactor :
    Run (.ofTunings .hazards [.adjusted hugeFactor]) (events hugeFactor)
        (world hugeFactor) ∧
      ((world hugeFactor).members 0).length = 2 ∧
      (set hugeFactor).scheme.limbo.entries = [] ∧
      1 < (Tuning.adjusted hugeFactor).threshold 2 ∧
      (world hugeFactor).step .proceed = .error (.fault .thresholdTooLarge) ∧
      ¬ (set hugeFactor).scheme.Triggers ((Tuning.adjusted hugeFactor).threshold 2) := by
  have hretire : (set hugeFactor).scheme.retire 0 0 = .error .thresholdTooLarge := by
    decide +kernel
  refine ⟨run hugeFactor, by decide +kernel, by decide +kernel, by decide +kernel, ?_, ?_⟩
  · rfl
  · intro htriggers
    rw [htriggers 0 0] at hretire
    cases hretire

end MarkedChain
