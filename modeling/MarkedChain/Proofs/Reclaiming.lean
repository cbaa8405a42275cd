import MarkedChain.Proofs.Closing
import MarkedChain.Proofs.Headroom
import MarkedChain.Proofs.Holders
import MarkedChain.Proofs.Placement

/-!
# Reclaiming is deferred and never lost

While no operation is in progress, a handle can always ask for a reclamation
(`World.Sound.reclaims`). What it frees is what the scheme lets go of: under hazard slots all that
no guard publishes (`Hazards.mem_scan`), and under epochs, if nobody has a guard, everything that
was retired before the present epoch, so that two reclamations free all that waits
(`Epochs.entries_reclaim`). `Run.reclaims_pending` puts this together for every run.
-/

namespace MarkedChain

/-! ## What a scheme lets go of -/

namespace Epochs

variable {α : Type} {e : Epochs α}

/-- If no record is pinned, two reclamations leave nothing behind. -/
theorem entries_reclaim (h : ∀ r p, e.roster.record? r = some p → p.pinned = false)
    (hstamped : ∀ x ∈ e.limbo.entries, x.tag ≤ e.epoch) :
    e.reclaim.2.reclaim.2.limbo.entries = [] := by
  have hcaught : ∀ e' : Epochs α, e'.roster = e.roster → (Scheme.epochs e').Caught := by
    intro e' hroster r p hp hpin
    rw [h r p (hroster ▸ hp)] at hpin
    cases hpin
  obtain ⟨hepoch, hroster, hentries⟩ := Scheme.reclaim_of_caught (hcaught e rfl)
  obtain ⟨-, -, hentries'⟩ := Scheme.reclaim_of_caught (hcaught _ hroster)
  rw [hentries', hepoch, hentries, List.reverse_eq_nil_iff, List.filter_eq_nil_iff]
  intro x hx
  rw [List.mem_reverse, List.mem_filter] at hx
  have hearly := hstamped x hx.1
  rw [decide_eq_true_eq]
  omega

end Epochs

/-- A scan hands out the nodes that no record publishes. -/
theorem Hazards.mem_scan {α : Type} [DecidableEq α] {h : Hazards α} {a : α} :
    a ∈ h.scan.1 ↔ a ∈ h.limbo.entries.map Retired.node ∧
      ∀ r, a ∉ (Scheme.hazards h).published r := by
  have hnodes : h.scan.1 =
      (h.limbo.entries.filter fun x => !h.protects x.node).map Retired.node :=
    Limbo.sweep_nodes _ _
  have hfree : h.protects a = false ↔ ∀ r, a ∉ (Scheme.hazards h).published r := by
    rw [← Bool.not_eq_true, protects_iff, not_exists]
  rw [hnodes, ← hfree]
  simp only [List.mem_map, List.mem_filter, Bool.not_eq_true']
  constructor
  · rintro ⟨x, ⟨hx, hkept⟩, rfl⟩
    exact ⟨⟨x, hx, rfl⟩, hkept⟩
  · rintro ⟨⟨x, hx, rfl⟩, hkept⟩
    exact ⟨x, ⟨hx, hkept⟩, rfl⟩

/-! ## A reclamation -/

variable {κ ν : Type} [Ord κ]

namespace World

/-- A handle of the set `i` is free for an operation. -/
def Ready (w : World κ ν) (k i : Nat) : Prop :=
  ∃ x, w.handles[k]? = some x ∧ x.status = .idle ∧ x.set = i

/-- A handle reclaims. The nodes handed out were in limbo and are freed, and nothing else happens to
the nodes of the set. -/
structure Reclaims (w : World κ ν) (k i : Nat) (lane : Lane) (offer : Option Address)
    (s s' : SharedSet κ ν) (nodes : List Address) (w' : World κ ν) : Prop where
  step : ∃ drops, w.step (.invoke k i lane .reclaim offer) =
    .ok ⟨w', drops, some (.reply (.freed nodes.length))⟩
  set : w'.sets[i]? = some s'
  swept : s.Swept s' nodes
  pending : s.pending = nodes.length + s'.pending
  freed : s'.memory.freed = s.memory.freed + nodes.length

variable {w w' : World κ ν} {i k : Nat} {s s' : SharedSet κ ν} {nodes : List Address}

/-- While no operation is in progress, an idle handle can reclaim. -/
theorem Sound.reclaims (hw : w.Sound) (hrun : w.running = []) (hk : w.Ready k i)
    (hs : w.sets[i]? = some s) (hfits : s.PoolsFit) (lane : Lane) (offer : Option Address) :
    ∃ w' s', w.Reclaims k i lane offer s s' s.scheme.reclaim.1 w' ∧
      s'.scheme = s.scheme.reclaim.2 ∧ w'.handles = w.handles ∧ w'.running = w.running := by
  obtain ⟨x, hx, hidle, hset⟩ := hk
  have hsound := hw.sets i s hs
  have hsheds := Scheme.reclaim_sheds hsound.scheme
  obtain ⟨drops, m, hdrops, hfree⟩ := hsound.freeAll_eq_ok hsheds (hsound.roomy hfits) lane
  have hpauses : w.pauses = true := by rw [pauses, hrun]
  have hstep : ∃ drops, w.step (.invoke k i lane .reclaim offer) =
      .ok ⟨w.setSet i { s with scheme := s.scheme.reclaim.2, memory := m }, drops,
        some (.reply (.freed s.scheme.reclaim.1.length))⟩ := by
    refine ⟨drops, ?_⟩
    rw [step, turn, if_pos hpauses]
    refine bind_eq_ok.2 ⟨_, rfl, ?_⟩
    rw [invoke]
    refine bind_eq_ok.2 ⟨_, set_eq_ok hs, bind_eq_ok.2 ⟨_, idleHandle_eq_ok hx hidle, ?_⟩⟩
    rw [if_pos hset]
    exact bind_eq_ok.2 ⟨(none, s), rfl, bind_eq_ok.2 ⟨_, Halt.lift_eq_ok.2 hfree, rfl⟩⟩
  have hswept := hsound.swept hsheds hdrops
  refine ⟨_, _, ⟨hstep, (getElem?_setSet hs _ i).trans (if_pos rfl), hswept, ?_,
    hdrops.freed⟩, rfl, rfl, rfl⟩
  rw [hsound.accounted.pending, (hsound.shed hsheds hdrops).accounted.pending,
    hswept.perm.length_eq, List.length_append]

/-- Under epochs, while nobody has a guard, two reclamations leave nothing behind. -/
theorem Manned.entries_reclaim (hm : w.Manned) (hw : w.Sound) (hguards : w.guards i = [])
    (hs : w.sets[i]? = some s) {e : Epochs Address} (he : s.scheme = .epochs e) :
    s.scheme.reclaim.2.reclaim.2.limbo.entries = [] := by
  have hstamped := (hw.sets i s hs).stamped
  rw [he] at hstamped ⊢
  exact Epochs.entries_reclaim (fun r p hp => hm.unpinned hw hguards hs he hp) hstamped

/-- Under hazard slots a reclamation hands out the waiting nodes that no guard publishes. -/
theorem Manned.mem_reclaim (hm : w.Manned) (hw : w.Sound) (hs : w.sets[i]? = some s)
    {q : Hazards Address} (hq : s.scheme = .hazards q) {a : Address} :
    a ∈ s.scheme.reclaim.1 ↔
      a ∈ s.retired ∧ ∀ x ∈ w.guards i, a ∉ s.scheme.published x.record := by
  rw [SharedSet.retired, hq]
  refine Hazards.mem_scan.trans (and_congr_right fun _ => ?_)
  constructor
  · exact fun hfree x _ => hfree x.record
  · intro hfree r ha
    obtain ⟨x, hx, rfl⟩ := hm.exists_guard hw hs (hq ▸ ha)
    exact hfree x hx ha

end World

/-! ## In a run -/

variable [Std.TransOrd κ]

/-- While no operation is in progress, retired nodes can be freed. Under epochs, if nobody has a
guard, two reclamations in a row free all of them. Under hazard slots one reclamation frees those
that no guard publishes, which are all of them if nobody has a guard. -/
theorem Run.reclaims_pending {kind : Scheme.Kind} {ts : List Tuning} {es : List (Event κ ν)}
    {w : World κ ν} (h : Run (.ofTunings kind ts) es w) (hrun : w.running = []) {i : Nat}
    {s : SharedSet κ ν} (hs : w.sets[i]? = some s) :
    (kind = .epochs → w.guards i = [] → ∀ k k' lane lane' offer offer',
      w.Ready k i → w.Ready k' i → ∃ nodes nodes' w₁ s₁ w₂ s₂,
        w.Reclaims k i lane offer s s₁ nodes w₁ ∧ w₁.Reclaims k' i lane' offer' s₁ s₂ nodes' w₂ ∧
        nodes.length + nodes'.length = s.pending ∧ s₂.pending = 0 ∧
        s₂.memory.freed = s.memory.freed + s.pending) ∧
    (kind = .hazards → ∀ k lane offer, w.Ready k i → ∃ nodes w' s',
      w.Reclaims k i lane offer s s' nodes w' ∧
        (∀ a, a ∈ nodes ↔
          a ∈ s.retired ∧ ∀ x ∈ w.guards i, a ∉ s.scheme.published x.record) ∧
        (w.guards i = [] → s'.pending = 0)) := by
  have h₀ := World.sound_ofTunings (κ := κ) (ν := ν) kind ts
  have hw : w.Sound := h.sound h₀ h.worldAt_last
  constructor
  · rintro rfl hguards k k' lane lane' offer offer' hk hk'
    obtain ⟨w₁, s₁, hfirst, hscheme₁, hhandles₁, hrun₁⟩ :=
      hw.reclaims hrun hk hs (h.poolsFit hs) lane offer
    obtain ⟨drops, hstep₁⟩ := hfirst.step
    have h₁ := h.snoc hstep₁
    obtain ⟨w₂, s₂, hsecond, hscheme₂, -⟩ := (h₁.sound h₀ h₁.worldAt_last).reclaims
      (hrun₁.trans hrun) (by rwa [World.Ready, hhandles₁]) hfirst.set (h₁.poolsFit hfirst.set)
      lane' offer'
    have hw₂ : w₂.Sound := by
      obtain ⟨drops', hstep₂⟩ := hsecond.step
      have h₂ := h₁.snoc hstep₂
      exact h₂.sound h₀ h₂.worldAt_last
    obtain ⟨-, e, -, he, -⟩ := h.exists_epochs hs
    have hempty : s₂.pending = 0 := by
      rw [(hw₂.sets i s₂ hsecond.set).accounted.pending, SharedSet.retired, hscheme₂, hscheme₁,
        h.manned.entries_reclaim hw hguards hs he]
      rfl
    have hpending := hfirst.pending
    have hpending' := hsecond.pending
    have hfreed := hfirst.freed
    have hfreed' := hsecond.freed
    refine ⟨_, _, w₁, s₁, w₂, s₂, hfirst, hsecond, ?_, hempty, ?_⟩ <;> omega
  · rintro rfl k lane offer hk
    obtain ⟨w', s', hreclaims, -⟩ := hw.reclaims hrun hk hs (h.poolsFit hs) lane offer
    obtain ⟨-, q, -, hq, -⟩ := h.exists_hazards hs
    have hfreed := fun a => h.manned.mem_reclaim hw hs hq (a := a)
    refine ⟨_, w', s', hreclaims, hfreed, fun hguards => ?_⟩
    -- with nobody left to publish anything, all that waits is freed
    have hnodup := (List.nodup_append.1 (List.nodup_append.1 (hw.sets i s hs).nodup).2.1).1
    have hall : s.retired ⊆ s.scheme.reclaim.1 := fun a ha => (hfreed a).2 ⟨ha, by simp [hguards]⟩
    have hle := (hnodup.subperm hall).length_le
    have hpending := hreclaims.pending
    rw [(hw.sets i s hs).accounted.pending] at hpending
    omega

/-! ## A guard that keeps one of two nodes -/

/-- The calls of two handles: three keys are inserted, a search for the first one keeps its
protection, and the first and the last one are removed. -/
def heldBack : List (Nat × Call Int Nat) :=
  [(0, .insert 3 30), (0, .insert 2 20), (0, .insert 1 10), (1, .hold 1), (0, .remove 1),
    (0, .remove 3)]

namespace HeldBack

/-- The one set at the start. -/
def origin (kind : Scheme.Kind) (t : Tuning) : World Int Nat := .ofTunings kind [t]

/-- The calls are made one by one, and then something more happens. A step that finds nothing to
move on is left out. -/
def actions (last : List (Action Int Nat)) : List (Action Int Nat) :=
  .register 0 :: .register 0 :: (heldBack.flatMap fun c =>
    .invoke c.1 0 0 c.2 none :: List.replicate 8 .proceed) ++ last

/-- What the actions came to. -/
def events (kind : Scheme.Kind) (t : Tuning) (last : List (Action Int Nat)) :
    List (Event Int Nat) :=
  ((origin kind t).play (actions last)).1

/-- The world in the end. -/
def world (kind : Scheme.Kind) (t : Tuning) (last : List (Action Int Nat)) : World Int Nat :=
  ((origin kind t).play (actions last)).2

/-- The set in the end. -/
def set (kind : Scheme.Kind) (t : Tuning) (last : List (Action Int Nat)) : SharedSet Int Nat :=
  ((world kind t last).sets[0]?).getD (.ofTuning kind t)

theorem run (kind : Scheme.Kind) (t : Tuning) (last : List (Action Int Nat)) :
    Run (origin kind t) (events kind t last) (world kind t last) :=
  (origin kind t).play_run (actions last)

theorem sets_zero {kind : Scheme.Kind} {t : Tuning} {last : List (Action Int Nat)}
    (h : ((world kind t last).sets[0]?).isSome = true) :
    (world kind t last).sets[0]? = some (set kind t last) :=
  eq_some_getD h

end HeldBack

open HeldBack in
/-- Under hazard slots a reclamation frees the node of the last key and leaves the one that the
search has found. Under epochs, once the protection has ended, two reclamations free both. -/
theorem reclaims_pending_heldBack :
    (∃ nodes w' s', (world .hazards {} []).Reclaims 0 0 0 none (set .hazards {} []) s' nodes w' ∧
      (set .hazards {} []).retired = [0, 2] ∧ 0 ∈ nodes ∧ 2 ∉ nodes) ∧
    ∃ nodes nodes' w₁ s₁ w₂ s₂,
      (world .epochs {} [.resume 1]).Reclaims 0 0 0 none (set .epochs {} [.resume 1]) s₁ nodes
          w₁ ∧
        w₁.Reclaims 1 0 0 none s₁ s₂ nodes' w₂ ∧ (set .epochs {} [.resume 1]).retired = [0, 2] ∧
        s₂.pending = 0 := by
  constructor
  · obtain ⟨nodes, w', s', hreclaims, hfreed, -⟩ :=
      ((run .hazards {} []).reclaims_pending (by decide +kernel)
        (sets_zero (by decide +kernel))).2
        rfl 0 0 none ⟨⟨0, 0, 0, .idle⟩, by decide +kernel, rfl, rfl⟩
    refine ⟨nodes, w', s', hreclaims, by decide +kernel, (hfreed 0).2 (by decide +kernel),
      fun hmem => ?_⟩
    exact absurd ((hfreed 2).1 hmem).2 (by decide +kernel)
  · obtain ⟨nodes, nodes', w₁, s₁, w₂, s₂, hfirst, hsecond, -, hempty, -⟩ :=
      ((run .epochs {} [.resume 1]).reclaims_pending (by decide +kernel)
        (sets_zero (by decide +kernel))).1 rfl (by decide +kernel) 0 1 0 0 none none
        ⟨⟨0, 0, 0, .idle⟩, by decide +kernel, rfl, rfl⟩
        ⟨⟨0, 1, 0, .idle⟩, by decide +kernel, rfl, rfl⟩
    exact ⟨nodes, nodes', w₁, s₁, w₂, s₂, hfirst, hsecond, by decide +kernel, hempty⟩

end MarkedChain
