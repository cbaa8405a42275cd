import MarkedChain.World
import MarkedChain.Proofs.Frames

/-!
# Where no limit stops an operation

Two thresholds can stop an operation: pools that cannot be reserved and a scan threshold that does
not fit a word. `SharedSet.Roomy` says that neither does, or only the scan threshold, where that is
allowed for. Pools matter only where there is a node to be freed, for a pool was reserved when the
node was made, and the scan threshold matters only where a node is retired (`Frame.Retires`). Every
step of an operation on such a set leaves such a set (`Frame.step_within`), and the only call that
asks for more is an insertion, which makes a node (`World.task_within`).
-/

namespace MarkedChain

/-! ## Records -/

namespace Scheme

variable {α : Type}

/-- The length above which retired nodes are scanned fits a word. -/
def thresholdFits : Scheme α → Bool
  | .epochs _ => true
  | .hazards h => (Tuning.scanThreshold? h.scanFactor h.scanFloor h.roster.active).isSome

@[simp] theorem thresholdFits_publish (s : Scheme α) (r : Nat) (slot : Slot) (x : Option α) :
    (s.publish r slot x).thresholdFits = s.thresholdFits := by
  cases s <;> rfl

@[simp] theorem thresholdFits_transfer (s : Scheme α) (r : Nat) (source target : Slot) :
    (s.transfer r source target).thresholdFits = s.thresholdFits := by
  cases s <;> rfl

/-- Pinning a record leaves the number of records that are held as it is. -/
theorem thresholdFits_pin {s s' : Scheme α} {r : Nat} (h : s.pin r = .ok s') :
    s'.thresholdFits = s.thresholdFits := by
  obtain ⟨e, rfl, rfl⟩ | ⟨q, shield, rfl, rfl⟩ := pin_cases h <;> rfl

theorem retire_within [DecidableEq α] {s : Scheme α} {beyond : Prop}
    (h : s.thresholdFits = true ∨ beyond) (r : Nat) (node : α) :
    Within beyond (s.retire r node) fun p => p.2.thresholdFits = true ∨ beyond := by
  cases s with
  | epochs e => exact .ok (.inl rfl)
  | hazards q =>
    cases hn : Tuning.scanThreshold? q.scanFactor q.scanFloor q.roster.active with
    | none =>
      have hbeyond : beyond := h.resolve_left (by simp [thresholdFits, hn])
      simp only [retire, Hazards.retire, hn]
      exact fun _ => ⟨hbeyond, rfl⟩
    | some n =>
      simp only [retire, Hazards.retire, hn]
      split <;> exact .pure h

end Scheme

variable {κ ν : Type}

namespace SharedSet

variable {s : SharedSet κ ν} {who : Actor} {retires beyond : Prop}

/-- No limit stops an operation on the set that makes no node. The threshold has to fit only if the
operation may retire a node, and not even then if it is allowed to be `beyond` its limit. -/
structure Roomy (s : SharedSet κ ν) (retires beyond : Prop) : Prop where
  pools : s.memory.Roomy
  threshold : retires → s.scheme.thresholdFits = true ∨ beyond

theorem Roomy.mono {retires' : Prop} (h : s.Roomy retires beyond) (hr : retires' → retires) :
    s.Roomy retires' beyond :=
  ⟨h.pools, fun h' => h.threshold (hr h')⟩

theorem Roomy.publish (h : s.Roomy retires beyond) (slot : Slot) (x : Option Address) :
    (s.publish who slot x).Roomy retires beyond :=
  ⟨h.pools, fun hr => (Scheme.thresholdFits_publish s.scheme _ _ _).symm ▸ h.threshold hr⟩

theorem Roomy.transfer (h : s.Roomy retires beyond) (source target : Slot) :
    (s.transfer who source target).Roomy retires beyond :=
  ⟨h.pools, fun hr => (Scheme.thresholdFits_transfer s.scheme _ _ _).symm ▸ h.threshold hr⟩

/-! ## Single reads and writes -/

theorem link_within (s : SharedSet κ ν) (pl : Place) : Within beyond (s.link pl) fun _ => True := by
  cases pl with
  | head => exact .ok trivial
  | node a => exact (s.memory.read_within a).bind fun _ _ => .pure trivial

theorem setLink_within (h : s.Roomy retires beyond) (l : Link Address) (pl : Place) :
    Within beyond (s.setLink l pl) fun s' => s'.Roomy retires beyond := by
  cases pl with
  | head => exact .ok ⟨h.pools, h.threshold⟩
  | node a =>
    have hwrite : Within beyond (s.memory.setNext a l) Memory.Roomy :=
      (s.memory.read_within a).bind fun n hn => .pure fun _ _ _ => h.pools a n hn
    exact hwrite.bind fun m hm => .pure ⟨hm, h.threshold⟩

theorem exchange_within (h : s.Roomy retires beyond) (pl : Place) (expected new : Link Address) :
    Within beyond (s.exchange pl expected new) fun p => p.2.Roomy retires beyond := by
  rw [exchange]
  refine (s.link_within pl).bind fun seen _ => ?_
  split
  · exact (setLink_within h _ pl).bind fun _ h' => .pure h'
  · exact .pure h

theorem freeAll_within (h : s.Roomy retires beyond) (lane : Lane) (nodes : List Address) :
    Within beyond (s.freeAll lane nodes) fun p => p.2.Roomy retires beyond := by
  rw [freeAll]
  exact (Memory.freeAll_within lane nodes h.pools).bind fun p hp => .pure ⟨hp, h.threshold⟩

/-- What a scheme has let go of is freed, where pools can be reserved. -/
theorem Sound.freeAll_eq_ok [Ord κ] {own : List Address} (hs : s.Sound own) {sch : Scheme Address}
    {nodes : List Address} (hsch : s.scheme.Sheds sch nodes) (hpools : s.memory.Roomy)
    (lane : Lane) :
    ∃ drops m, s.memory.Drops m nodes ∧ ({ s with scheme := sch } : SharedSet κ ν).freeAll lane
      nodes = .ok (drops, { s with scheme := sch, memory := m }) := by
  have hroomy : Roomy { s with scheme := sch } False False := ⟨hpools, False.elim⟩
  obtain ⟨⟨drops, u⟩, hfree, ⟨m, hdrops, hu⟩, -⟩ := Yields.exists_ok
    (hs.freeAll_yields hsch lane) (freeAll_within hroomy lane nodes)
  cases hu
  exact ⟨_, m, hdrops, hfree⟩

theorem retire_within (h : s.Roomy retires beyond) (hr : retires) (r : Nat) (lane : Lane)
    (node : Address) : Within beyond (s.retire r lane node) fun p => p.2.Roomy retires beyond := by
  rw [retire]
  refine (Scheme.retire_within (h.threshold hr) r node).bind fun p hp => ?_
  have hroomy : Roomy { s with scheme := p.2 } retires beyond := ⟨h.pools, fun _ => hp⟩
  exact freeAll_within hroomy lane p.1

end SharedSet

/-! ## The steps of an operation -/

/-- The next step of an operation may have to retire a node: the operation stands before a marked
one that it helps to unlink, or at the one that it removes. -/
def Frame.Retires [Ord κ] (s : SharedSet κ ν) (f : Frame κ) : Prop :=
  match f.point with
  | .start | .inspect _ none | .encounter .. => False
  | .inspect _ (some curr) =>
    s.helps f.task = true ∧ ∃ n, s.memory.node? curr = some n ∧ n.next.marked = true
  | .judge _ curr _ =>
    ∃ k n, f.task = .remove k ∧ s.memory.node? curr = some n ∧ (compare n.key k).isEq = true

namespace Step

variable {s : SharedSet κ ν} {who : Actor} {retires beyond : Prop}

theorem help_within (h : s.Roomy retires beyond) (hr : retires) (t : Task κ) (pred : Place)
    (curr : Address) (after : Option Address) :
    Within beyond (help s who t pred curr after) fun st => st.set.Roomy retires beyond := by
  rw [help]
  refine (SharedSet.exchange_within h _ _ _).bind fun p hp => ?_
  split
  · refine (SharedSet.retire_within hp hr _ _ _).bind fun q hq => ?_
    exact .pure (hq.transfer _ _)
  · split
    · exact .pure hp
    · exact .pure (hp.publish _ _)

theorem inspect_within (h : s.Roomy retires beyond) (t : Task κ) (pred : Place) (curr : Address)
    (hr : ∀ n, s.helps t = true → s.memory.node? curr = some n → n.next.marked = true → retires) :
    Within beyond (inspect s who t pred curr) fun st => st.set.Roomy retires beyond := by
  rw [inspect]
  refine (s.memory.read_within curr).bind fun n hn => ?_
  have hpublish : (s.publish who .succ n.next.target).Roomy retires beyond := h.publish _ _
  have hstill : Within beyond ((s.publish who .succ n.next.target).stillLinked pred curr)
      fun _ => True := by
    rw [SharedSet.stillLinked]
    split
    · exact (SharedSet.link_within _ _).bind fun _ _ => .pure trivial
    · exact .ok trivial
  dsimp only
  split
  · next hhelps =>
    rw [SharedSet.helps_congr (Scheme.publish_touches _ _ _ _).validates] at hhelps
    refine hstill.bind fun still _ => ?_
    split
    · split
      · next hm => exact help_within hpublish (hr n hhelps hn hm) _ _ _ _
      · exact .pure hpublish
    · exact .pure hpublish
  · exact .pure hpublish

theorem linkIn_within (h : s.Roomy retires beyond) (t : Task κ) (node : Address) (pred : Place)
    (curr : Option Address) :
    Within beyond (linkIn s t node pred curr) fun st => st.set.Roomy retires beyond := by
  rw [linkIn]
  refine (SharedSet.setLink_within h _ _).bind fun s₁ h₁ => ?_
  refine (SharedSet.exchange_within h₁ _ _ _).bind fun p hp => ?_
  split <;> exact .pure hp

theorem takeOut_within (h : s.Roomy retires beyond) (hr : retires) (key : κ) (pred : Place)
    (curr : Address) :
    Within beyond (takeOut s who key pred curr) fun st => st.set.Roomy retires beyond := by
  rw [takeOut]
  refine (s.link_within _).bind fun succ _ => ?_
  split
  · exact .pure h
  · refine (SharedSet.exchange_within h _ _ _).bind fun p hp => ?_
    split
    · exact .pure hp
    · refine (SharedSet.exchange_within hp _ _ _).bind fun q hq => ?_
      split
      · exact .pure hq
      · exact (SharedSet.retire_within hq hr _ _ _).bind fun p hp => .pure hp

theorem atEnd_within (h : s.Roomy retires beyond) (t : Task κ) (pred : Place) :
    Within beyond (atEnd s t pred) fun st => st.set.Roomy retires beyond := by
  cases t with
  | insert node key => exact linkIn_within h _ _ _ _
  | _ => exact .ok h

variable [Ord κ]

theorem encounter_within (h : s.Roomy retires beyond) (t : Task κ) (pred : Place) (curr : Address)
    (next : Link Address) :
    Within beyond (encounter s who t pred curr next) fun st => st.set.Roomy retires beyond := by
  rw [encounter]
  refine (s.memory.read_within curr).bind fun n _ => ?_
  split
  · exact .pure ((h.transfer _ _).transfer _ _)
  · exact .pure h

theorem judge_within (h : s.Roomy retires beyond) (t : Task κ) (pred : Place) (curr : Address)
    (next : Link Address) (hr : ∀ k n, t = .remove k → s.memory.node? curr = some n →
      (compare n.key k).isEq = true → retires) :
    Within beyond (judge s who t pred curr next) fun st => st.set.Roomy retires beyond := by
  rw [judge]
  refine (s.memory.read_within curr).bind fun n hn => ?_
  cases t with
  | insert fresh key =>
    dsimp only
    split
    · exact (SharedSet.freeAll_within h _ _).bind fun p hp => .pure hp
    · exact linkIn_within h _ _ _ _
  | remove key =>
    dsimp only
    split
    · next heq => exact takeOut_within h (hr key n rfl hn heq) _ _ _
    · exact .pure h
  | _ => exact .pure h

end Step

/-- No limit stops a step of an operation, and none stops the next one, save a scan threshold that
is allowed to be beyond its limit. -/
theorem Frame.step_within [Ord κ] {s : SharedSet κ ν} {retires beyond : Prop}
    (h : s.Roomy retires beyond) (f : Frame κ) (who : Actor) (hr : f.Retires s → retires) :
    Within beyond (f.step s who) fun st => st.set.Roomy retires beyond := by
  obtain ⟨t, p⟩ := f
  cases p with
  | start => exact .ok (h.publish _ _)
  | inspect pred curr =>
    cases curr with
    | none => exact Step.atEnd_within h t pred
    | some curr =>
      exact Step.inspect_within h t pred curr fun n hhelps hn hm => hr ⟨hhelps, n, hn, hm⟩
  | encounter pred curr next => exact Step.encounter_within h t pred curr next
  | judge pred curr next =>
    exact Step.judge_within h t pred curr next fun k n ht hn heq => hr ⟨k, n, ht, hn, heq⟩

/-- A call becomes a task. To insert, pools have to be reserved. -/
theorem World.task_within {s : SharedSet κ ν} {retires beyond : Prop}
    (h : s.Roomy retires beyond) (lane : Lane) (offer : Option Address) {call : Call κ ν}
    (hinsert : ∀ k v, call = .insert k v → s.memory.poolFits = true) :
    Within beyond (World.task s lane offer call) fun p => p.2.Roomy retires beyond := by
  cases call with
  | insert key value =>
    refine (Memory.allocate_within (hinsert key value rfl) lane offer key value).bind ?_
    exact fun p hp => .pure ⟨hp, h.threshold⟩
  | _ => exact .ok h

end MarkedChain
