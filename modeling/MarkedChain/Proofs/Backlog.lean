import MarkedChain.Proofs.Reclaiming
import MarkedChain.Proofs.Removals

/-!
# How much waits under hazard slots

A retirement that does not scan leaves no more nodes waiting than the threshold at that moment, and
a scan leaves only nodes that some record publishes (`Scheme.Works.backlog`). As a record publishes
three nodes at most, and none unless it has a guard, the number of waiting nodes stays within a
bound that depends on the number of records (`Run.backlog_bounded`).
-/

namespace MarkedChain

namespace Scheme

variable {α : Type} {s s' : Scheme α} {r : Nat}

/-! ## Retiring and scanning -/

/-- The length above which a retirement scans now, if there is one. -/
def scanLimit? : Scheme α → Option Nat
  | .epochs _ => none
  | .hazards h => Tuning.scanThreshold? h.scanFactor h.scanFloor h.roster.active

/-- The next retirement scans. -/
def ScansNext (s : Scheme α) : Prop :=
  ∃ n, s.scanLimit? = some n ∧ n < s.limbo.pending + 1

/-- Whatever waits in the second scheme is published in the first one. -/
def Scanned (s s' : Scheme α) : Prop :=
  ∀ x ∈ s'.limbo.entries, ∃ r, x.node ∈ s.published r

theorem Shifts.scanLimit? (h : Shifts r s s') : s'.scanLimit? = s.scanLimit? := by
  cases s with
  | epochs e => rw [h.eq_of_epochs]
  | hazards q =>
    obtain ⟨roster, rfl, hactive, -⟩ := h.exists_roster
    rw [scanLimit?, hactive]
    rfl

theorem Shifts.scansNext (h : Shifts r s s') : s'.ScansNext ↔ s.ScansNext := by
  rw [ScansNext, ScansNext, h.scanLimit?, h.limbo]

theorem Shifts.records (h : Shifts r s s') : s'.records = s.records := by
  cases s with
  | epochs e => rw [h.eq_of_epochs]
  | hazards q =>
    obtain ⟨roster, rfl, -, hsize, -⟩ := h.exists_roster
    exact hsize

/-- What the other records publish stays as it is. -/
theorem Shifts.published (h : Shifts r s s') {r' : Nat} (hr : r ≠ r') :
    s'.published r' = s.published r' := by
  induction h with
  | refl => rfl
  | @publish t _ slot x ih | @transfer t _ source target ih =>
    cases t with
    | epochs e => exact ih
    | hazards q =>
      rw [← ih]
      exact congrArg (fun q => Option.elim q [] Shield.nodes)
        ((Roster.record?_update _ _ _ _).trans (if_neg hr))

theorem scan_scanned [DecidableEq α] (h : Hazards α) :
    (Scheme.hazards h).Scanned (.hazards h.scan.2) := by
  intro x hx
  have hx' : x ∈ (h.limbo.sweep fun entry => !h.protects entry.node).2.entries := hx
  rw [Limbo.sweep_entries, List.mem_reverse, List.mem_filter, Bool.not_not] at hx'
  exact Hazards.protects_iff.1 hx'.2

/-- A retirement scans, or it leaves no more waiting than the length above which it would. -/
theorem retire_backlog [DecidableEq α] {h : Hazards α} {node : α} {nodes : List α}
    (hcounted : h.limbo.Counted) (hretire : (Scheme.hazards h).retire r node = .ok (nodes, s')) :
    ((Scheme.hazards h).ScansNext ∧ (Scheme.hazards h).Scanned s') ∨
      ¬ (Scheme.hazards h).ScansNext ∧
        ∃ n, (Scheme.hazards h).scanLimit? = some n ∧ s'.limbo.pending ≤ n := by
  have hpushed : (h.limbo.push node 0).pending = h.limbo.pending + 1 := by
    rw [(hcounted.push node 0).pending, hcounted.pending]
    rfl
  obtain ⟨n, hn, ⟨hlt, rfl⟩ | ⟨hle, rfl⟩⟩ := retire_hazards hretire
  · exact .inl ⟨⟨n, hn, hpushed ▸ hlt⟩, scan_scanned _⟩
  · refine .inr ⟨?_, n, hn, Nat.le_of_not_lt hle⟩
    rintro ⟨n', hn', hlt⟩
    cases hn.symm.trans hn'
    exact hle (hpushed ▸ hlt)

/-- A step of an operation leaves as much waiting as before, or no more than the length above which
a retirement scans, or nothing but what was published at a moment of the step. -/
theorem Works.backlog [DecidableEq α] {h : Hazards α} (hcounted : h.limbo.Counted)
    (hworks : Works r (.hazards h) s') :
    s'.limbo = h.limbo ∨ ((Scheme.hazards h).ScansNext ∧
        ∃ t, Shifts r (.hazards h) t ∧ t.Scanned s') ∨
      ¬ (Scheme.hazards h).ScansNext ∧
        ∃ n, (Scheme.hazards h).scanLimit? = some n ∧ s'.limbo.pending ≤ n := by
  cases hworks with
  | shifts hs => exact .inl hs.limbo
  | @retires s₁ s₂ _ node nodes hbefore hretire hafter =>
    obtain ⟨roster, rfl, -⟩ := hbefore.exists_roster
    rw [hafter.limbo, ← hbefore.scansNext, ← hbefore.scanLimit?]
    refine .inr ?_
    rcases retire_backlog (h := { h with roster }) hcounted hretire with ⟨hnext, hscanned⟩ | hle
    · exact .inl ⟨hnext, _, hbefore, fun x hx => hscanned x (hafter.limbo ▸ hx)⟩
    · exact .inr hle

theorem length_flatMap_published_le (s : Scheme α) (records : List Nat) :
    (records.flatMap s.published).length ≤ 3 * records.length := by
  induction records with
  | nil => simp
  | cons r records ih =>
    have hle := s.length_published_le r
    rw [List.flatMap_cons, List.length_append, List.length_cons]
    omega

/-- Nodes that are published by some records are no more than three for each record. -/
theorem length_le_of_published {nodes : List α} (hnodup : nodes.Nodup) {records : List Nat}
    (h : ∀ a ∈ nodes, ∃ r ∈ records, a ∈ s.published r) : nodes.length ≤ 3 * records.length := by
  have hsub : nodes ⊆ records.flatMap s.published := fun a ha => List.mem_flatMap.2 (h a ha)
  exact Nat.le_trans (hnodup.subperm hsub).length_le (s.length_flatMap_published_le records)

/-- The most nodes that may wait, if a record publishes three at most. -/
def backlog : Scheme α → Nat
  | .epochs _ => 0
  | .hazards h => max h.scanFloor.toNat (max h.scanFactor.toNat 3 * h.roster.size)

theorem Grows.backlog_le (h : s.Grows s') : s.backlog ≤ s'.backlog := by
  have hsettings := h.settings
  have hrecords := h.records
  cases s with
  | epochs e => exact Nat.zero_le _
  | hazards q =>
    cases s' with
    | epochs e => cases hsettings
    | hazards q' =>
      simp only [Scheme.settings, Prod.mk.injEq, List.cons.injEq, true_and] at hsettings
      obtain ⟨⟨hfactor, hfloor, -⟩, -⟩ := hsettings
      have hmul : max q.scanFactor.toNat 3 * q.roster.size ≤
          max q.scanFactor.toNat 3 * q'.roster.size := Nat.mul_le_mul_left _ hrecords
      simp only [backlog, hfactor, hfloor]
      omega

theorem three_mul_records_le {h : Hazards α} :
    3 * (Scheme.hazards h).records ≤ (Scheme.hazards h).backlog := by
  have hmul : 3 * h.roster.size ≤ max h.scanFactor.toNat 3 * h.roster.size :=
    Nat.mul_le_mul_right _ (by omega)
  simp only [records, backlog]
  omega

/-- As no more records are held than there are, the length above which a retirement scans is within
the bound. -/
theorem scanLimit_le (hc : s.Counted) {n : Nat} (hn : s.scanLimit? = some n) : n ≤ s.backlog := by
  cases s with
  | epochs e => cases hn
  | hazards q =>
    have hactive : q.roster.active ≤ q.roster.size := Roster.Counted.active_le hc
    have hmul : q.scanFactor.toNat * q.roster.active ≤
        max q.scanFactor.toNat 3 * q.roster.size := Nat.mul_le_mul (by omega) hactive
    rw [scanLimit?, Tuning.scanThreshold?] at hn
    split at hn <;> cases hn
    rw [backlog]
    omega

end Scheme

variable {κ ν : Type} [Ord κ]

/-! ## In a world -/

namespace World

/-- An action scans the retired nodes of the set `i`: it is asked to, or it retires a node when so
many wait that a retirement scans. -/
inductive Scans (w : World κ ν) (i : Nat) (s s' : SharedSet κ ν) : Action κ ν → Prop where
  | asked (lane) : Scans w i s s' (.scan i lane)
  | reclaim {k} (lane offer) (hk : w.Ready k i) : Scans w i s s' (.invoke k i lane .reclaim offer)
  | due {a} (hsubject : w.subject? .proceed = some i) (ha : a ∈ s.linked) (hout : a ∉ s'.linked)
    (hnext : s.scheme.ScansNext) : Scans w i s s' .proceed

/-- Whatever waits was left by a scan, which took place while the guards of `w` were there. -/
def Spares (w : World κ ν) (i : Nat) (s sch : Scheme Address) : Prop :=
  ∃ t : Scheme Address, t.records = s.records ∧ t.Scanned sch ∧
    ∀ r a, a ∈ t.published r → ∃ x ∈ w.guards i, x.record = r

variable {w : World κ ν} {i : Nat} {s : SharedSet κ ν} {sch : Scheme Address} {a : Action κ ν}

/-- A scan leaves no more nodes than three for each guard, and for each record. -/
theorem Spares.pending_le {s' : SharedSet κ ν} {own : List Address}
    (h : w.Spares i s.scheme s'.scheme) (hs' : s'.Sound own) :
    s'.pending ≤ 3 * (w.guards i).length ∧ s'.pending ≤ 3 * s.scheme.records := by
  obtain ⟨t, hrecords, hscanned, hguards⟩ := h
  have hnodup : s'.retired.Nodup :=
    (List.nodup_append.1 (List.nodup_append.1 hs'.nodup).2.1).1
  have hpublished : ∀ b ∈ s'.retired, ∃ r, b ∈ t.published r := by
    intro b hb
    obtain ⟨x, hx, rfl⟩ := List.mem_map.1 hb
    exact hscanned x hx
  rw [hs'.accounted.pending]
  constructor
  · rw [← List.length_map (f := Handle.record)]
    refine Scheme.length_le_of_published (s := t) hnodup fun b hb => ?_
    obtain ⟨r, hr⟩ := hpublished b hb
    obtain ⟨x, hx, rfl⟩ := hguards r b hr
    exact ⟨_, List.mem_map_of_mem hx, hr⟩
  · rw [← hrecords, ← List.length_range (n := t.records)]
    refine Scheme.length_le_of_published (s := t) hnodup fun b hb => ?_
    obtain ⟨r, hr⟩ := hpublished b hb
    exact ⟨r, List.mem_range.2 (Scheme.lt_records hr), hr⟩

omit [Ord κ] in
theorem Spares.limbo {sch' : Scheme Address} (h : w.Spares i s.scheme sch)
    (hlimbo : sch'.limbo = sch.limbo) : w.Spares i s.scheme sch' := by
  obtain ⟨t, hrecords, hscanned, hguards⟩ := h
  exact ⟨t, hrecords, fun x hx => hscanned x (hlimbo ▸ hx), hguards⟩

/-- A scan that was asked for. -/
theorem Manned.spares (hm : w.Manned) (hw : w.Sound) (hs : w.sets[i]? = some s)
    (h : s.scheme.Scanned sch) : w.Spares i s.scheme sch :=
  ⟨s.scheme, rfl, h, fun _ _ ha => hm.exists_guard hw hs ha⟩

/-- A scan in the middle of a step, when the running operation has changed its slots. -/
theorem Manned.spares_running (hm : w.Manned) (hw : w.Sound) (hs : w.sets[i]? = some s)
    {b : Activation κ} {rest : List (Activation κ)} {x : Handle} (hrun : w.running = b :: rest)
    (hx : w.handles[b.handle]? = some x) (hset : x.set = i) {t : Scheme Address}
    (hshifts : Scheme.Shifts x.record s.scheme t) (h : t.Scanned sch) :
    w.Spares i s.scheme sch := by
  refine ⟨t, hshifts.records, h, fun r a ha => ?_⟩
  by_cases hr : x.record = r
  · have hrunning := (hw.top hrun hx (hset ▸ hs)).1
    exact ⟨x, mem_guards.2 ⟨_, hx, hset, .inl hrunning⟩, hr⟩
  · rw [hshifts.published hr] at ha
    exact hm.exists_guard hw hs ha

/-- What is waiting after an action: no more than before, or no more than the length above which a
retirement scans, or what a scan has left. -/
theorem Turn.backlog (h : w.Turn i s.scheme sch a) (hm : w.Manned) (hw : w.Sound)
    (hs : w.sets[i]? = some s) {q : Hazards Address} (hq : s.scheme = .hazards q) :
    sch.limbo = s.scheme.limbo ∨ w.Spares i s.scheme sch ∨
      ∃ n, s.scheme.scanLimit? = some n ∧ sch.limbo.pending ≤ n := by
  have hcounted : (Scheme.hazards q).limbo.Counted := hq ▸ (hw.sets i s hs).counted
  have hworks : ∀ {b rest x t}, w.running = b :: rest → w.handles[b.handle]? = some x → x.set = i →
      s.scheme.Works x.record t → t.limbo = s.scheme.limbo ∨ w.Spares i s.scheme t ∨
        ∃ n, s.scheme.scanLimit? = some n ∧ t.limbo.pending ≤ n := by
    intro b rest x t hrun hx hset hworks
    rw [hq] at hworks
    rcases hworks.backlog hcounted with hsame | ⟨-, u, hshifts, hscanned⟩ | ⟨-, hle⟩
    · exact .inl (by rw [hsame, hq]; rfl)
    · exact .inr (.inl (hm.spares_running hw hs hrun hx hset (hq ▸ hshifts) hscanned))
    · exact .inr (.inr (hq ▸ hle))
  cases h with
  | elsewhere | full => exact .inl rfl
  | register hreg => exact .inl (Scheme.Rests.register hreg).limbo
  | release => exact .inl (Scheme.Rests.release _ _).limbo
  | pin _ _ _ _ _ _ hpin => exact .inl (Scheme.Rests.pin hpin).limbo
  | resume _ _ _ hunpin => exact .inl (Scheme.Rests.unpin hunpin).limbo
  | advance he | collect he =>
    rw [hq] at he
    cases he
  | reclaim => exact .inr (.inl (hm.spares hw hs (by rw [hq]; exact Scheme.scan_scanned q)))
  | scan he => exact .inr (.inl (hm.spares hw hs (by rw [he]; exact Scheme.scan_scanned _)))
  | works hrun hx hset hworks' => exact hworks hrun hx hset hworks'
  | ends hrun hx hset hworks' hunpin =>
    have hlimbo := (Scheme.Rests.unpin hunpin).limbo
    rw [hlimbo]
    rcases hworks hrun hx hset hworks' with hsame | hspares | hle
    · exact .inl hsame
    · exact .inr (.inl (hspares.limbo hlimbo))
    · exact .inr (.inr hle)

/-- A step that takes a node out of the chain when a retirement scans comes to a scan. -/
theorem Manned.spares_due (hm : w.Manned) (hw : w.Sound) (hs : w.sets[i]? = some s)
    {q : Hazards Address} (hq : s.scheme = .hazards q) (hnext : s.scheme.ScansNext)
    {b : Activation κ} {rest : List (Activation κ)} {x : Handle} (hrun : w.running = b :: rest)
    (hx : w.handles[b.handle]? = some x) (hset : x.set = i)
    (hworks : s.scheme.Works x.record sch) (hlimbo : sch.limbo ≠ s.scheme.limbo) :
    w.Spares i s.scheme sch := by
  have hcounted : (Scheme.hazards q).limbo.Counted := hq ▸ (hw.sets i s hs).counted
  rw [hq] at hworks hlimbo hnext
  rcases hworks.backlog hcounted with hsame | ⟨-, t, hshifts, hscanned⟩ | ⟨hnot, -⟩
  · exact absurd hsame hlimbo
  · exact hm.spares_running hw hs hrun hx hset (hq ▸ hshifts) hscanned
  · exact absurd hnext hnot

/-- After a scan nothing waits but what it has left. -/
theorem Scans.spares [Std.TransOrd κ] {s' : SharedSet κ ν} {o : Outcome κ ν}
    (h : w.Scans i s s' a) (hm : w.Manned) (hw : w.Sound) (hs : w.sets[i]? = some s)
    {q : Hazards Address} (hq : s.scheme = .hazards q) (hstep : w.step a = .ok o)
    (hs' : o.world.sets[i]? = some s') : w.Spares i s.scheme s'.scheme := by
  have hturn := step_turn hstep hs hs'
  generalize hsch : s'.scheme = sch at hturn ⊢
  cases h with
  | asked lane =>
    cases hturn with
    | elsewhere _ ha => exact absurd rfl ha
    | scan he => exact hm.spares hw hs (by rw [he]; exact Scheme.scan_scanned _)
  | reclaim lane offer hk =>
    obtain ⟨x, hx, -, hset⟩ := hk
    cases hturn with
    | elsewhere _ ha => exact absurd (by simp [subject?, setOf?, hx, hset]) ha
    | pin _ _ _ _ _ hcall => exact absurd rfl hcall
    | reclaim => exact hm.spares hw hs (by rw [hq]; exact Scheme.scan_scanned _)
  | @due c hsubject hc hout hnext =>
    -- the node that has left the chain waits now, so the step was not one that only moves slots
    have hp := (step_settles hw _).of_ok hstep
    have hlive := Option.isSome_iff_exists.2 (hp.live_of_linked hw hs hs' hc)
    obtain ⟨t, ht, hevolves⟩ := hp.evolves hw hs
    obtain rfl := Option.some.inj (hs'.symm.trans ht)
    have hretired := (hevolves.linked c hc hlive).resolve_left hout
    have hlimbo : sch.limbo ≠ s.scheme.limbo := by
      intro hsame
      rw [SharedSet.retired, hsch, hsame] at hretired
      exact (hw.sets i s hs).not_retired_of_linked hc hretired
    cases hturn with
    | elsewhere _ ha => exact absurd hsubject ha
    | works hrun hx hset hworks => exact hm.spares_due hw hs hq hnext hrun hx hset hworks hlimbo
    | ends hrun hx hset hworks hunpin =>
      have hsame := (Scheme.Rests.unpin hunpin).limbo
      exact (hm.spares_due hw hs hq hnext hrun hx hset hworks (hsame ▸ hlimbo)).limbo hsame

end World

/-! ## In a run -/

section

variable [Std.TransOrd κ] {ts : List Tuning} {es : List (Event κ ν)} {w : World κ ν} {i : Nat}
  {s : SharedSet κ ν}

/-- In the last state of a run the waiting nodes are within the bound. -/
theorem Run.pending_le_backlog (h : Run (.ofTunings .hazards ts) es w) (hs : w.sets[i]? = some s) :
    s.pending ≤ s.scheme.backlog := by
  induction h generalizing s with
  | nil =>
    obtain ⟨t, rfl⟩ := World.eq_ofTuning hs
    exact Nat.zero_le _
  | @snoc es w a o h hstep ih =>
    have hw := h.sound (World.sound_ofTunings .hazards ts) h.worldAt_last
    have hp := (World.step_settles hw _).of_ok hstep
    obtain ⟨s₀, hs₀⟩ := hp.exists_set hs
    obtain ⟨t, q, -, hq, -⟩ := h.exists_hazards hs₀
    have hturn := World.step_turn hstep hs₀ hs
    have hgrows := hturn.grows.backlog_le
    rcases hturn.backlog h.manned hw hs₀ hq with hsame | hspares | ⟨n, hn, hle⟩
    · have hbefore := ih hs₀
      rw [SharedSet.pending, ← hsame] at hbefore
      exact Nat.le_trans hbefore hgrows
    · have hrecords := (hspares.pending_le ((hp.sound hw).sets i s hs)).2
      rw [hq] at hrecords hgrows
      exact Nat.le_trans hrecords (Nat.le_trans Scheme.three_mul_records_le hgrows)
    · have hlimit := Scheme.scanLimit_le (h.manned.counted i s₀ hs₀) hn
      exact Nat.le_trans hle (Nat.le_trans hlimit hgrows)

/-- Under hazard slots no more nodes wait in any state of a run than `scanFloor`, or than
`scanFactor` for each record, or three for each record if that is more. After a scan no more wait
than three for each guard that was there when it took place. And where `scanFactor` times the number
of records fits a word, so does the length above which a retirement scans. -/
theorem Run.backlog_bounded (h : Run (.ofTunings .hazards ts) es w) (i : Nat) :
    (∀ m u s t, (World.ofTunings .hazards ts).worldAt es m = some u → u.sets[i]? = some s →
      ts[i]? = some t →
        s.pending ≤ max t.scanFloor.toNat (max t.scanFactor.toNat 3 * s.scheme.records) ∧
        (t.scanFactor.toNat * s.scheme.records < UInt64.size → s.scheme.thresholdFits = true)) ∧
    ∀ m u s s' e, (World.ofTunings .hazards ts).worldAt es m = some u → u.sets[i]? = some s →
      es[m]? = some e → e.outcome.world.sets[i]? = some s' → u.Scans i s s' e.action →
        s'.pending ≤ 3 * (u.guards i).length := by
  have h₀ := World.sound_ofTunings (κ := κ) (ν := ν) .hazards ts
  constructor
  · intro m u s t hu hs ht
    have hrun := h.take hu
    obtain ⟨t', q, ht', hq, hfactor, hfloor⟩ := hrun.exists_hazards hs
    cases ht.symm.trans ht'
    have hle := hrun.pending_le_backlog hs
    have hc := hrun.manned.counted i s hs
    rw [hq] at hle hc ⊢
    constructor
    · rw [← hfactor, ← hfloor]
      exact hle
    · intro hfits
      have hactive : q.roster.active ≤ q.roster.size := Roster.Counted.active_le hc
      rw [← hfactor] at hfits
      have hmul := Nat.lt_of_le_of_lt (Nat.mul_le_mul_left q.scanFactor.toNat hactive) hfits
      rw [Scheme.thresholdFits, Tuning.scanThreshold?, if_pos hmul]
      rfl
  · intro m u s s' e hu hs he hs' hscans
    have hrun := h.take hu
    obtain ⟨u', hu', hstep, -⟩ := h.step_at he
    cases hu.symm.trans hu'
    obtain ⟨-, q, -, hq, -⟩ := hrun.exists_hazards hs
    have hw := h.sound h₀ hu
    have hw' := ((World.step_settles hw _).of_ok hstep).sound hw
    have hspares := hscans.spares hrun.manned hw hs hq hstep hs'
    exact (hspares.pending_le (hw'.sets i s' hs')).1

end

/-- Thresholds with which every retirement scans. -/
def alwaysScanning : Tuning := { scanFactor := 0, scanFloor := 0 }

open HeldBack in
/-- Every retirement scans. When the node of the last key is taken out of the chain, it is kept by
the slots of the removal, and the node that the search has found by those of the search. -/
theorem backlog_bounded_heldBack :
    ∃ u s s' e, (origin .hazards alwaysScanning).worldAt (events .hazards alwaysScanning []) 31 =
        some u ∧ u.sets[0]? = some s ∧ (events .hazards alwaysScanning [])[31]? = some e ∧
      e.outcome.world.sets[0]? = some s' ∧ u.Scans 0 s s' e.action ∧ s'.pending = 2 ∧
      s'.pending ≤ 3 * (u.guards 0).length ∧ s.pending ≤ max 0 (max 0 3 * s.scheme.records) := by
  obtain ⟨hstate, hscan⟩ := (run .hazards alwaysScanning []).backlog_bounded 0
  have he : (events .hazards alwaysScanning [])[31]? =
      some ((events .hazards alwaysScanning []).get ⟨31, by decide +kernel⟩) := by simp
  obtain ⟨u, hu, -, hnext⟩ := (run .hazards alwaysScanning []).step_at he
  -- what the kernel can compute of the states before and after the step
  have hbefore : ((origin .hazards alwaysScanning).worldAt
      (events .hazards alwaysScanning []) 31).any (fun u =>
        decide (u.subject? .proceed = some 0) && (u.sets[0]?).any fun s =>
          decide (s.linked = [1, 0] ∧ s.scheme.scanLimit? = some 0)) = true := by decide +kernel
  have hafter : ((origin .hazards alwaysScanning).worldAt
      (events .hazards alwaysScanning []) 32).any (fun u => (u.sets[0]?).any fun s =>
        decide (s.linked = [1] ∧ s.pending = 2)) = true := by decide +kernel
  have haction : ((events .hazards alwaysScanning []).get ⟨31, by decide +kernel⟩).action =
      .proceed := by decide +kernel
  rw [hu, Option.any_some, Bool.and_eq_true, decide_eq_true_eq, Option.any_eq_true] at hbefore
  rw [hnext, Option.any_some, Option.any_eq_true] at hafter
  obtain ⟨hsubject, s, hs, hbefore⟩ := hbefore
  obtain ⟨s', hs', hafter⟩ := hafter
  rw [decide_eq_true_eq] at hbefore hafter
  have hscans : u.Scans 0 s s' .proceed :=
    .due hsubject (a := 0) (by simp [hbefore.1]) (by simp [hafter.1])
      ⟨0, hbefore.2, Nat.succ_pos _⟩
  rw [← haction] at hscans
  exact ⟨u, s, s', _, hu, hs, he, hs', hscans, hafter.2,
    hscan 31 u s s' _ hu hs he hs' hscans, (hstate 31 u s _ hu hs rfl).1⟩

end MarkedChain
