import Mathlib.Algebra.GroupWithZero.Nat
import Mathlib.Algebra.Order.BigOperators.Group.List
import Mathlib.Algebra.Order.Group.Nat
import MarkedChain.Proofs.Holders

/-!
# What the records have retired is counted

Under epochs each record counts what it has retired since it last tried to collect.
`Scheme.Quota` relates these counts to what is waiting: whatever was retired in the present epoch is
counted, and so is all that waits, but for what one record may retire before it tries to collect.
This lasts as long as the attempts that come with retirements succeed (`Scheme.Quota.retire`), which
they do while all pinned records show the global epoch.
-/

namespace MarkedChain

namespace Scheme

variable {α : Type} {s s' : Scheme α} {r : Nat}

/-- After so many retirements a record tries to collect. -/
def period : Scheme α → Nat
  | .epochs e => max e.collectEvery.toNat 1
  | .hazards _ => 1

/-- The number of nodes that were retired in the present epoch and wait. -/
def recent (s : Scheme α) : Nat := s.limbo.entries.countP fun x => decide (x.tag = s.stamp)

/-- What waits is counted by the records. -/
structure Quota (s : Scheme α) : Prop where
  low : ∀ c ∈ s.counts, c < s.period
  recent : s.recent ≤ s.counts.sum
  total : s.limbo.entries.length ≤ s.counts.sum + s.period
  counted : s.limbo.entries ≠ [] → s.counts ≠ []

theorem Grows.period (h : s.Grows s') : s'.period = s.period := by
  have hsettings := h.settings
  cases s with
  | epochs e =>
    cases s' with
    | hazards q => cases hsettings
    | epochs e' =>
      simp only [Scheme.settings, Prod.mk.injEq, List.cons.injEq, true_and, and_true] at hsettings
      simp only [Scheme.period, hsettings]
  | hazards q =>
    cases s' with
    | hazards q' => rfl
    | epochs e => cases hsettings

/-! ## Counts -/

/-- One count is replaced in the sum. -/
theorem sum_set {l : List Nat} {c : Nat} (h : l[r]? = some c) (n : Nat) :
    (l.set r n).sum + c = l.sum + n := by
  obtain ⟨hlt, rfl⟩ := List.getElem?_eq_some_iff.1 h
  have hsplit := List.sum_take_add_sum_drop l r
  rw [List.drop_eq_getElem_cons hlt, List.sum_cons] at hsplit
  rw [List.sum_set, if_pos hlt]
  omega

theorem set_counts_ne_nil {l : List Nat} {c : Nat} (h : l[r]? = some c) (n : Nat) :
    l.set r n ≠ [] := by
  rw [Ne, List.set_eq_nil_iff]
  rintro rfl
  cases h

/-- A node waits since the present epoch, and a record counts `n` retirements. -/
def pushed (e : Epochs α) (r : Nat) (node : α) (n : Nat) : Epochs α :=
  recount { e with limbo := e.limbo.push node e.epoch } r n

theorem counts_pushed (e : Epochs α) (r : Nat) (node : α) (n : Nat) :
    (Scheme.epochs (pushed e r node n)).counts = (Scheme.epochs e).counts.set r n := by
  refine List.ext_getElem? fun r' => ?_
  rw [getElem?_counts, List.getElem?_set', getElem?_counts, pushed, recount, Roster.record?_update]
  split
  · cases e.roster.record? r' <;> rfl
  · rfl

theorem recent_pushed (e : Epochs α) (r : Nat) (node : α) (n : Nat) :
    (Scheme.epochs (pushed e r node n)).recent = (Scheme.epochs e).recent + 1 :=
  List.countP_cons_of_pos (decide_eq_true rfl)

theorem length_pushed (e : Epochs α) (r : Nat) (node : α) (n : Nat) :
    (Scheme.epochs (pushed e r node n)).limbo.entries.length =
      (Scheme.epochs e).limbo.entries.length + 1 :=
  rfl

theorem caught_pushed {e : Epochs α} (h : (Scheme.epochs e).Caught) (r : Nat) (node : α) (n : Nat) :
    (Scheme.epochs (pushed e r node n)).Caught := by
  intro r' p hp hpin
  rw [pushed, recount, Roster.record?_update] at hp
  split at hp
  · obtain ⟨p₀, hp₀, rfl⟩ := Option.map_eq_some_iff.1 hp
    exact h r' p₀ hp₀ hpin
  · exact h r' p hp hpin

/-- A retirement counts, and it reclaims if it is due. -/
theorem retire_of_due {e : Epochs α} {node : α} (h : (Scheme.epochs e).due r = true) :
    e.retire r node = (pushed e r node 0).reclaim := by
  rw [due] at h
  simp only [Epochs.retire, h, if_true]
  rfl

theorem retire_of_not_due {e : Epochs α} {node : α} {p : Pin} (hp : e.roster.record? r = some p)
    (h : (Scheme.epochs e).due r = false) :
    e.retire r node = ([], pushed e r node (p.sinceCollection + 1)) := by
  rw [due, hp] at h
  simp only [Epochs.retire, hp, h]
  rfl

namespace Quota

/-- The sum of the counts is bounded, as no record has retired `period` nodes yet. -/
theorem sum_le (h : s.Quota) : s.counts.sum ≤ s.counts.length * (s.period - 1) := by
  have hle : ∀ c ∈ s.counts, c ≤ s.period - 1 := fun c hc => Nat.le_sub_one_of_lt (h.low c hc)
  simpa using List.sum_le_card_nsmul s.counts (s.period - 1) hle

/-- The bound on what waits. -/
theorem length_le (h : s.Quota) :
    s.limbo.entries.length ≤ 2 * s.counts.length * (s.period - 1) + 1 := by
  by_cases hempty : s.limbo.entries = []
  · simp [hempty]
  · have htotal := h.total
    have hsum := h.sum_le
    have hpos := List.length_pos_iff.2 (h.counted hempty)
    have hperiod : s.period - 1 ≤ s.counts.length * (s.period - 1) :=
      Nat.le_mul_of_pos_left _ hpos
    rw [Nat.mul_assoc]
    omega

theorem rests (h : s.Quota) (hrests : s.Rests s') (hperiod : s'.period = s.period) : s'.Quota := by
  have hrecent : s'.recent = s.recent := by
    rw [Scheme.recent, hrests.limbo, hrests.stamp, Scheme.recent]
  have hcounts : s'.counts.sum = s.counts.sum ∧ (∀ c ∈ s'.counts, c ∈ s.counts ∨ c = 0) ∧
      (s.counts ≠ [] → s'.counts ≠ []) := by
    rcases hrests.counts with hsame | hnew
    · rw [hsame]
      exact ⟨rfl, fun c hc => .inl hc, id⟩
    · rw [hnew]
      exact ⟨by simp, fun c hc => by simpa using hc, by simp⟩
  obtain ⟨hsum, hmem, hne⟩ := hcounts
  refine ⟨fun c hc => ?_, ?_, ?_, fun hentries => ?_⟩
  · rw [hperiod]
    rcases hmem c hc with hc | rfl
    · exact h.low c hc
    · cases s <;> simp [Scheme.period]
  · rw [hrecent, hsum]
    exact h.recent
  · rw [hrests.limbo, hsum, hperiod]
    exact h.total
  · exact hne (h.counted (hrests.limbo ▸ hentries))

variable {e : Epochs α} {node : α}

/-- To collect leaves no more waiting. -/
theorem collect (h : (Scheme.epochs e).Quota) : (Scheme.epochs e.collect.2).Quota := by
  have hentries : e.collect.2.limbo.entries =
      (e.limbo.entries.filter fun x => !e.isRipe x).reverse := Limbo.sweep_entries _ _
  have hsub : (e.limbo.entries.filter fun x => !e.isRipe x).Sublist e.limbo.entries :=
    List.filter_sublist
  refine ⟨h.low, ?_, ?_, fun hne hcounts => ?_⟩
  · have hle := hsub.countP_le (p := fun x => decide (x.tag = e.epoch))
    have hrecent := h.recent
    simp only [Scheme.recent, limbo, stamp] at hrecent ⊢
    rw [hentries, List.countP_reverse]
    exact Nat.le_trans hle hrecent
  · have hle := hsub.length_le
    have htotal := h.total
    simp only [limbo] at htotal ⊢
    rw [hentries, List.length_reverse]
    exact Nat.le_trans hle htotal
  · refine h.counted (fun hempty => hne ?_) hcounts
    simp only [limbo] at hempty ⊢
    rw [hentries, hempty]
    rfl

/-- When the global epoch moves on, nothing that waits was retired in the new one. -/
theorem advance (h : (Scheme.epochs e).Quota) (hstamped : ∀ x ∈ e.limbo.entries, x.tag ≤ e.epoch) :
    (Scheme.epochs e.advance.2).Quota := by
  rw [Epochs.advance]
  split
  · exact h
  · refine ⟨h.low, ?_, h.total, h.counted⟩
    have hnone : (Scheme.epochs { e with epoch := e.epoch + 1 }).recent = 0 := by
      refine List.countP_eq_zero.2 fun x hx => ?_
      have hne : x.tag ≠ e.epoch + 1 := Nat.ne_of_lt (Nat.lt_succ_of_le (hstamped x hx))
      simp [stamp, hne]
    exact hnone ▸ Nat.zero_le _

theorem reclaim (h : (Scheme.epochs e).Quota)
    (hstamped : ∀ x ∈ e.limbo.entries, x.tag ≤ e.epoch) : (Scheme.epochs e.reclaim.2).Quota :=
  (h.advance hstamped).collect

theorem low_set (h : s.Quota) {n : Nat} (hn : n < s.period) :
    ∀ c ∈ s.counts.set r n, c < s.period := by
  intro c hc
  rcases List.mem_or_eq_of_mem_set hc with hc | rfl
  · exact h.low c hc
  · exact hn

/-- A record has retired a node and does not try to collect yet. -/
theorem push {c : Nat} (h : (Scheme.epochs e).Quota) (hc : (Scheme.epochs e).counts[r]? = some c)
    (hlow : c + 1 < (Scheme.epochs e).period) :
    (Scheme.epochs (pushed e r node (c + 1))).Quota := by
  have hsum := sum_set hc (c + 1)
  have hrecent := h.recent
  have htotal := h.total
  have hperiod : (Scheme.epochs (pushed e r node (c + 1))).period = (Scheme.epochs e).period := rfl
  refine ⟨?_, ?_, ?_, fun _ hnone => ?_⟩ <;> rw [counts_pushed] at *
  · exact h.low_set hlow
  · rw [recent_pushed]
    omega
  · rw [length_pushed, hperiod]
    omega
  · exact set_counts_ne_nil hc _ hnone

/-- A record has retired a node and tries to collect. -/
theorem push_reclaim {c : Nat} (h : (Scheme.epochs e).Quota)
    (hc : (Scheme.epochs e).counts[r]? = some c) (hcaught : (Scheme.epochs e).Caught)
    (hstamped : ∀ x ∈ e.limbo.entries, x.tag ≤ e.epoch) :
    (Scheme.epochs (pushed e r node 0).reclaim.2).Quota := by
  have hsum := sum_set hc 0
  have hrecent := h.recent
  have hlow := h.low c (List.mem_of_getElem? hc)
  obtain ⟨hepoch, hroster, hentries⟩ := reclaim_of_caught (caught_pushed hcaught r node 0)
  have hcounts : (Scheme.epochs (pushed e r node 0).reclaim.2).counts =
      (Scheme.epochs e).counts.set r 0 := by
    rw [← counts_pushed e r node 0, counts, hroster, counts]
  have htags : ∀ x ∈ (pushed e r node 0).limbo.entries, x.tag ≤ e.epoch := by
    intro x hx
    rcases List.mem_cons.1 hx with rfl | hx
    · exact Nat.le_refl _
    · exact hstamped x hx
  -- only what was retired in the epoch that has passed is still waiting
  have hlength : (Scheme.epochs (pushed e r node 0).reclaim.2).limbo.entries.length ≤
      (Scheme.epochs e).recent + 1 := by
    rw [limbo, hentries, List.length_reverse, ← List.countP_eq_length_filter,
      ← recent_pushed e r node 0]
    refine List.countP_mono_left fun x hx hlate => ?_
    exact decide_eq_true (Nat.le_antisymm (htags x hx) (of_decide_eq_true hlate))
  have hnone : (Scheme.epochs (pushed e r node 0).reclaim.2).recent = 0 := by
    refine List.countP_eq_zero.2 fun x hx => ?_
    have hx' := (List.mem_filter.1 (List.mem_reverse.1 (hentries ▸ hx))).1
    have hne : x.tag ≠ e.epoch + 1 := Nat.ne_of_lt (Nat.lt_succ_of_le (htags x hx'))
    have hstamp : (Scheme.epochs (pushed e r node 0).reclaim.2).stamp = e.epoch + 1 := hepoch
    simp [hstamp, hne]
  have hperiod : (Scheme.epochs (pushed e r node 0).reclaim.2).period =
      (Scheme.epochs e).period :=
    ((Grows.advance (pushed e r node 0)).trans (.of_epochs rfl (Nat.le_refl _) rfl)).period
  refine ⟨?_, ?_, ?_, fun _ => ?_⟩ <;> rw [hcounts]
  · rw [hperiod]
    exact h.low_set (Nat.lt_of_le_of_lt (Nat.zero_le c) hlow)
  · rw [hnone]
    exact Nat.zero_le _
  · rw [hperiod]
    omega
  · exact set_counts_ne_nil hc 0

/-- A retirement keeps the quota, if the attempt that may come with it succeeds. -/
theorem retire {p : Pin} (h : (Scheme.epochs e).Quota) (hp : e.roster.record? r = some p)
    (hcaught : (Scheme.epochs e).Caught) (hstamped : ∀ x ∈ e.limbo.entries, x.tag ≤ e.epoch) :
    (Scheme.epochs (e.retire r node).2).Quota := by
  have hcount : (Scheme.epochs e).counts[r]? = some p.sinceCollection := by
    rw [getElem?_counts, hp, Option.map_some]
  cases hdue : (Scheme.epochs e).due r with
  | true =>
    rw [retire_of_due hdue]
    exact h.push_reclaim hcount hcaught hstamped
  | false =>
    rw [retire_of_not_due hp hdue]
    refine h.push hcount ?_
    rw [due, hp, decide_eq_false_iff_not] at hdue
    simp only [Option.elim_some] at hdue
    simp only [period]
    omega

/-- A step of an operation keeps the quota, if the attempt that may come with it succeeds. -/
theorem works [DecidableEq α] {p : Pin} (h : (Scheme.epochs e).Quota)
    (hworks : (Scheme.epochs e).Works r s') (hp : e.roster.record? r = some p)
    (hcaught : (Scheme.epochs e).Caught)
    (hstamped : ∀ x ∈ e.limbo.entries, x.tag ≤ e.epoch) : s'.Quota := by
  cases hworks with
  | shifts hshifts => exact hshifts.eq_of_epochs ▸ h
  | retires hbefore hretire hafter =>
    rw [hbefore.eq_of_epochs] at hretire
    cases hretire
    exact hafter.eq_of_epochs ▸ h.retire hp hcaught hstamped

end Quota

end Scheme

/-- While all pinned records show the global epoch, every action keeps the quota of a set. -/
theorem World.Turn.quota {κ ν : Type} [Ord κ] {w : World κ ν} {i : Nat} {s : SharedSet κ ν}
    {s' : Scheme Address} {a : Action κ ν} {e : Epochs Address} (h : w.Turn i s.scheme s' a)
    (hw : w.Sound) (hs : w.sets[i]? = some s) (he : s.scheme = .epochs e)
    (hcaught : s.scheme.Caught) (hquota : s.scheme.Quota) : s'.Quota := by
  have hstamped := (hw.sets i s hs).stamped
  rw [he] at hstamped
  have hworks : ∀ {b rest x sch}, w.running = b :: rest → w.handles[b.handle]? = some x →
      x.set = i → s.scheme.Works x.record sch → sch.Quota := by
    intro b rest x sch hrun hx hset hworks
    subst hset
    obtain ⟨-, -, hd, -⟩ := hw.top hrun hx hs
    rw [he, Scheme.depth?, Option.map_eq_some_iff] at hd
    obtain ⟨p, hp, -⟩ := hd
    rw [he] at hquota hcaught hworks
    exact hquota.works hworks hp hcaught hstamped
  have hgrows := h.grows.period
  cases h with
  | elsewhere | full => exact hquota
  | register hreg => exact hquota.rests (.register hreg) hgrows
  | release => exact hquota.rests (.release _ _) hgrows
  | pin _ _ _ _ _ _ hpin => exact hquota.rests (.pin hpin) hgrows
  | reclaim =>
    rw [he] at hquota ⊢
    exact hquota.reclaim hstamped
  | advance he' =>
    cases he.symm.trans he'
    exact (he ▸ hquota).advance hstamped
  | collect he' =>
    cases he.symm.trans he'
    exact (he ▸ hquota).collect
  | scan he' => cases he.symm.trans he'
  | works hrun hx hset h => exact hworks hrun hx hset h
  | ends hrun hx hset h hunpin =>
    exact (hworks hrun hx hset h).rests (.unpin hunpin) (Scheme.Grows.unpin hunpin).period
  | resume _ _ _ hunpin => exact hquota.rests (.unpin hunpin) hgrows

end MarkedChain
