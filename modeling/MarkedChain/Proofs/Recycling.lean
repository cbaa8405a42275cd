import Mathlib.Logic.Function.Basic
import MarkedChain.Proofs.Holders
import MarkedChain.Proofs.Payloads
import MarkedChain.Proofs.Pools

/-!
# Where freed nodes are used again

`World.turnovers` lists the nodes of a set that were made and freed in a run, each by the lane of
the code that did it. It is read off from the states of the set: a node was made if it is live after
an action but not before. The `stock` of such a list says what the pools ought to hold. A node that
is freed adds one cell to the pool of its lane unless that pool is full, whoever has made the node,
and a node that is made on a lane takes one cell away if there is one.

The list is complete, and the pools hold what the stock says (`Memory.Accounts`). What their cells
are follows from the state of the set alone: as every live node is linked, retired or private to an
insertion, no cell in a pool is any of these (`SharedSet.Recycles`, `Run.pools_recycle`).
-/

namespace MarkedChain

/-! ## The account of a run -/

/-- A node was made or freed by code on a lane. -/
inductive Turnover where
  | made (lane : Lane)
  | freed (lane : Lane)
  deriving DecidableEq, Repr

/-- Whether a node was made. -/
def Turnover.isMade : Turnover → Bool
  | .made _ => true
  | .freed _ => false

/-- How many cells each pool should hold, and how many nodes were made on cells from a pool. -/
structure Stock where
  kept : Lane → Nat := fun _ => 0
  reused : Nat := 0

/-- Enters a turnover. A pool holds no more cells than the capacity says. -/
def Stock.enter (capacity : Nat) (k : Stock) : Turnover → Stock
  | .freed lane =>
    { k with kept := Function.update k.kept lane (min (k.kept lane + 1) capacity) }
  | .made lane =>
    if 0 < k.kept lane then
      { kept := Function.update k.kept lane (k.kept lane - 1), reused := k.reused + 1 }
    else k

/-- The stock after these turnovers, with empty pools at the beginning. -/
def stock (capacity : Nat) (log : List Turnover) : Stock := log.foldl (Stock.enter capacity) {}

theorem stock_append (capacity : Nat) (log log' : List Turnover) :
    stock capacity (log ++ log') = log'.foldl (Stock.enter capacity) (stock capacity log) :=
  List.foldl_append

namespace Stock

variable {c : Nat} {k : Stock} {lane : Lane}

/-- Freeing nodes on one lane fills up its pool. -/
theorem foldl_freed (hk : k.kept lane ≤ c) (n : Nat) :
    (List.replicate n (Turnover.freed lane)).foldl (enter c) k =
      { k with kept := Function.update k.kept lane (min (k.kept lane + n) c) } := by
  induction n generalizing k with
  | zero => simp [Nat.min_eq_left hk]
  | succ n ih =>
    have hmin : min (min (k.kept lane + 1) c + n) c = min (k.kept lane + (n + 1)) c := by omega
    have hroom : (k.enter c (.freed lane)).kept lane ≤ c := by
      simp only [enter, Function.update_self]
      exact Nat.min_le_right _ _
    rw [List.replicate_succ, List.foldl_cons, ih hroom]
    simp [enter, hmin]

theorem kept_made (c : Nat) (k : Stock) (lane l : Lane) :
    (k.enter c (.made lane)).kept l = if l = lane then k.kept lane - 1 else k.kept l := by
  rw [enter]
  split
  · exact Function.update_apply _ _ _ _
  · split
    · next hl => rw [hl]; omega
    · rfl

theorem reused_made (c : Nat) (k : Stock) (lane : Lane) :
    (k.enter c (.made lane)).reused = k.reused + if k.kept lane = 0 then 0 else 1 := by
  rw [enter]
  split
  · next h => rw [if_neg (Nat.ne_of_gt h)]
  · next h => rw [if_pos (Nat.eq_zero_of_not_pos h), Nat.add_zero]

end Stock

variable {κ ν : Type}

namespace SharedSet

/-- The nodes that are live in one state of a set but not in another. -/
def gone (s s' : SharedSet κ ν) : List Address :=
  s.live.filter fun a => !(s'.memory.node? a).isSome

variable {s s' : SharedSet κ ν}

theorem mem_live_iff {a : Address} : a ∈ s.live ↔ (s.memory.node? a).isSome = true := by
  rw [mem_live, isSome_value?]

/-- If live nodes stay live, those that have come are the difference. -/
theorem gone_of_subset (h : s.live ⊆ s'.live) :
    s.gone s' = [] ∧ (s'.gone s).length + s.live.length = s'.live.length := by
  constructor
  · rw [gone, List.filter_eq_nil_iff]
    intro a ha
    simp [mem_live_iff.1 (h ha)]
  · have hperm : (s'.live.filter fun a => (s.memory.node? a).isSome).Perm s.live := by
      refine (List.perm_ext_iff_of_nodup (s'.nodup_live.filter _) s.nodup_live).2 fun a => ?_
      rw [List.mem_filter, ← mem_live_iff]
      exact ⟨And.right, fun ha => ⟨h ha, ha⟩⟩
    rw [gone, ← hperm.length_eq, Nat.add_comm, ← List.length_append]
    exact (List.filter_append_perm _ _).length_eq

/-- The counts of a set agree with its live nodes. -/
theorem Sound.length_live [Ord κ] {own : List Address} (hs : s.Sound own) :
    s.live.length + s.memory.freed = s.memory.allocated := by
  have hperm : s.live.Perm (s.linked ++ (s.retired ++ own)) := by
    refine (List.perm_ext_iff_of_nodup s.nodup_live hs.nodup).2 fun a => ?_
    rw [mem_live_iff, hs.live]
  rw [hs.balance, hperm.length_eq, List.length_append, List.length_append]
  omega

end SharedSet

namespace World

/-- The nodes of a set that were made and freed with an event, by the lane that its code ran on. -/
def turnover (w : World κ ν) (i : Nat) (e : Event κ ν) : List Turnover :=
  match w.sets[i]?, e.outcome.world.sets[i]?, w.lane? e.action with
  | some s, some s', some lane =>
    List.replicate (s.gone s').length (.freed lane) ++
      List.replicate (s'.gone s).length (.made lane)
  | _, _, _ => []

/-- The nodes of a set that were made and freed with events one after the other. -/
def turnovers (w : World κ ν) (i : Nat) : List (Event κ ν) → List Turnover
  | [] => []
  | e :: es => w.turnover i e ++ e.outcome.world.turnovers i es

end World

theorem Run.turnovers_append [Ord κ] {w₀ w : World κ ν} {es : List (Event κ ν)} (h : Run w₀ es w)
    (i : Nat) (es' : List (Event κ ν)) :
    w₀.turnovers i (es ++ es') = w₀.turnovers i es ++ w.turnovers i es' := by
  induction h generalizing es' with
  | nil => rfl
  | @snoc es w a o h hstep ih =>
    rw [List.append_assoc, ih, ih, List.append_assoc]
    simp [World.turnovers]

/-! ## What an action enters -/

/-- The turnovers so far are all there were, and the pools hold what they say. -/
structure Memory.Accounts (m : Memory κ ν) (c : Nat) (log : List Turnover) : Prop where
  capacity : m.capacity.toNat = c
  kept : ∀ lane, (m.pools lane).length = (stock c log).kept lane
  room : ∀ lane, (m.pools lane).length ≤ c
  reused : m.recycled = (stock c log).reused
  made : m.allocated = log.countP Turnover.isMade
  freed : m.freed = log.countP fun t => !t.isMade

namespace Memory.Accounts

variable {m m' : Memory κ ν} {c : Nat} {log : List Turnover} {lane : Lane}

/-- Nodes were freed on a lane. -/
theorem parks (h : m.Accounts c log) (hparks : m.Parks lane m') :
    m'.Accounts c (log ++ List.replicate (m'.freed - m.freed) (.freed lane)) := by
  have hkept := h.kept lane
  have hroom := h.room lane
  have hpool := hparks.pool
  have hfreed := hparks.freed
  have hstock := Stock.foldl_freed (k := stock c log) (hkept ▸ hroom) (m'.freed - m.freed)
  rw [← stock_append] at hstock
  rw [h.capacity] at hpool
  refine ⟨by rw [hparks.capacity, h.capacity], fun l => ?_, fun l => ?_, ?_, ?_, ?_⟩
  · rw [hstock]
    dsimp only
    rw [Function.update_apply]
    split
    · next hl =>
      rw [hl, ← hkept]
      omega
    · next hl => rw [hparks.others l hl, h.kept]
  · by_cases hl : l = lane
    · rw [hl]
      omega
    · rw [hparks.others l hl]
      exact h.room l
  · rw [hstock, hparks.recycled, h.reused]
  · rw [hparks.allocated, h.made, List.countP_append, List.countP_replicate]
    rfl
  · rw [List.countP_append, List.countP_replicate, ← h.freed]
    simp only [Turnover.isMade, Bool.not_false, if_true]
    omega

/-- A node was made on a lane. -/
theorem takes {a : Address} {n : Node κ ν} (h : m.Accounts c log) (htakes : m.Takes lane m' a)
    (hbirths : m.Births m' a n) : m'.Accounts c (log ++ [.made lane]) := by
  have hlength : ∀ l, (m'.pools l).length =
      if l = lane then (m.pools lane).length - 1 else (m.pools l).length := by
    intro l
    split
    · next hl => rw [hl, htakes.pool, List.length_tail]
    · next hl => rw [htakes.others l hl]
  refine ⟨by rw [hbirths.capacity, h.capacity], fun l => ?_, fun l => ?_, ?_, ?_, ?_⟩
  · rw [stock_append, List.foldl_cons, List.foldl_nil, Stock.kept_made, hlength, h.kept, h.kept]
  · have hroom := h.room lane
    rw [hlength]
    split
    · omega
    · exact h.room l
  · rw [stock_append, List.foldl_cons, List.foldl_nil, Stock.reused_made, htakes.recycled,
      h.reused, ← h.kept]
    simp only [List.length_eq_zero_iff]
  · rw [hbirths.allocated, h.made, List.countP_append]
    rfl
  · rw [hbirths.freed, h.freed, List.countP_append]
    rfl

end Memory.Accounts

namespace World

variable [Ord κ] {w : World κ ν} {i : Nat} {e : Event κ ν} {s s' : SharedSet κ ν}
  {own own' : List Address} {lane : Lane}

/-- Where nodes were only freed, as many are gone as were freed. -/
theorem turnover_of_parks (hset : w.sets[i]? = some s) (hset' : e.outcome.world.sets[i]? = some s')
    (hlane : w.lane? e.action = some lane) (hs : s.Sound own) (hs' : s'.Sound own')
    (h : s.memory.Parks lane s'.memory) :
    w.turnover i e = List.replicate (s'.memory.freed - s.memory.freed) (.freed lane) := by
  have hsub : s'.live ⊆ s.live := by
    intro a ha
    rw [SharedSet.mem_live_iff] at ha ⊢
    exact h.live a ha
  obtain ⟨hnone, hlength⟩ := SharedSet.gone_of_subset hsub
  have hgone : (s.gone s').length = s'.memory.freed - s.memory.freed := by
    have hbefore := hs.length_live
    have hafter := hs'.length_live
    have hallocated := h.allocated
    omega
  rw [turnover, hset, hset', hlane]
  dsimp only
  rw [hnone, hgone, List.length_nil, List.replicate_zero, List.append_nil]

/-- Where a node was made, one has come. -/
theorem turnover_of_births {a : Address} {n : Node κ ν} (hset : w.sets[i]? = some s)
    (hset' : e.outcome.world.sets[i]? = some s') (hlane : w.lane? e.action = some lane)
    (hs : s.Sound own) (hs' : s'.Sound own') (h : s.memory.Births s'.memory a n) :
    w.turnover i e = [.made lane] := by
  have hsub : s.live ⊆ s'.live := by
    intro b hb
    rw [SharedSet.mem_live_iff] at hb ⊢
    rw [h.node?]
    split
    · rfl
    · exact hb
  obtain ⟨hnone, hlength⟩ := SharedSet.gone_of_subset hsub
  have hcome : (s'.gone s).length = 1 := by
    have hbefore := hs.length_live
    have hafter := hs'.length_live
    have hallocated := h.allocated
    have hfreed := h.freed
    omega
  rw [turnover, hset, hset', hlane]
  dsimp only
  rw [hnone, hcome]
  rfl

/-- With every action the account stays right. -/
theorem Traffic.accounts {c : Nat} {log : List Turnover}
    (h : w.Traffic s.memory s'.memory e.action) (hset : w.sets[i]? = some s)
    (hset' : e.outcome.world.sets[i]? = some s') (hs : s.Sound own) (hs' : s'.Sound own')
    (hlog : s.memory.Accounts c log) :
    s'.memory.Accounts c (log ++ w.turnover i e) := by
  generalize hm : s.memory = m, hm' : s'.memory = m', ha : e.action = a at h
  subst hm
  cases h with
  | still =>
    cases hlane : w.lane? e.action with
    | none =>
      rw [turnover, hset, hset', hlane, List.append_nil]
      exact hm' ▸ hlog
    | some lane =>
      have hparks : s.memory.Parks lane s'.memory := hm' ▸ .refl s.memory lane
      rw [turnover_of_parks hset hset' hlane hs hs' hparks]
      exact hm' ▸ hlog.parks hparks
  | edits hlane hedits =>
    subst hm' ha
    rw [turnover_of_parks hset hset' hlane hs hs' hedits.parks]
    exact hlog.parks hedits.parks
  | @makes _ h j lane key value offer b hmade =>
    subst hm'
    have hbirths := Memory.allocate_yields hs.tidy lane offer key value
    rw [hmade] at hbirths
    rw [turnover_of_births hset hset' (by rw [ha]; rfl) hs hs' hbirths]
    exact hlog.takes (Memory.allocate_takes hs.tidy hmade) hbirths

end World

/-! ## In a run -/

/-- The pools hold what an account says, and none of their cells is in use. An insertion gets the
cell of a node that was freed, from the pool of its own lane if that one holds any. The nodes `own`
were made by insertions in progress. -/
structure SharedSet.Recycles (s : SharedSet κ ν) (k : Stock) (own : List Address) : Prop where
  reused : s.memory.recycled = k.reused
  kept : ∀ lane, (s.memory.pools lane).length = k.kept lane
  nodup : ∀ lane, (s.memory.pools lane).Nodup
  apart : ∀ lane lane', lane ≠ lane' → (s.memory.pools lane).Disjoint (s.memory.pools lane')
  unused : ∀ lane, ∀ a ∈ s.memory.pools lane, a ∉ s.linked ∧ a ∉ s.retired ∧ a ∉ own
  makes : s.memory.poolFits = true → ∀ lane offer key value, ∃ a m,
    s.memory.allocate lane offer key value = .ok (a, m) ∧ s.memory.node? a = none ∧
      a ∉ s.linked ∧ a ∉ s.retired ∧ a ∉ own ∧
      ∀ l, a ∈ s.memory.pools l ↔ l = lane ∧ 0 < k.kept lane
  refuses : s.memory.poolFits = false → ∀ lane offer key value,
    s.memory.allocate lane offer key value = .error .poolTooLarge

variable [Ord κ]

/-- A node that is not live is nowhere. -/
theorem SharedSet.Sound.unused {s : SharedSet κ ν} {own : List Address} (hs : s.Sound own)
    {a : Address} (ha : s.memory.node? a = none) : a ∉ s.linked ∧ a ∉ s.retired ∧ a ∉ own := by
  have hout : a ∉ s.linked ++ (s.retired ++ own) := by
    rw [← hs.live, ha]
    exact Bool.false_ne_true
  simpa only [List.mem_append, not_or] using hout

theorem SharedSet.Sound.recycles {s : SharedSet κ ν} {own : List Address} {c : Nat}
    {log : List Turnover} (hs : s.Sound own) (hlog : s.memory.Accounts c log) :
    s.Recycles (stock c log) own where
  reused := hlog.reused
  kept := hlog.kept
  nodup := hs.tidy.nodup
  apart lane lane' hne a ha := hs.tidy.apart lane lane' hne a ha
  unused lane a ha := by
    refine hs.unused ?_
    rw [Memory.node?, hs.tidy.pooled lane a ha]
    rfl
  makes hfits lane offer key value := by
    obtain ⟨⟨a, m⟩, hmade, hbirths, -⟩ := Yields.exists_ok
      (Memory.allocate_yields hs.tidy lane offer key value)
      (Memory.allocate_within hfits lane offer key value)
    obtain ⟨hlinked, hretired, hown⟩ := hs.unused hbirths.dead
    refine ⟨a, m, hmade, hbirths.dead, hlinked, hretired, hown, fun l => ?_⟩
    rw [(Memory.allocate_takes hs.tidy hmade).source, ← hlog.kept, List.length_pos_iff]
  refuses hfits lane offer key value := by
    rw [Memory.allocate, hfits]
    rfl

variable [Std.TransOrd κ] {kind : Scheme.Kind} {ts : List Tuning} {es : List (Event κ ν)}
  {w : World κ ν} {i : Nat} {s : SharedSet κ ν}

/-- The turnovers of a run account for the pools in the end. -/
theorem Run.accounts (h : Run (.ofTunings kind ts) es w) (hs : w.sets[i]? = some s) :
    ∃ t, ts[i]? = some t ∧ s.memory.Accounts t.poolCapacity.toNat
      ((World.ofTunings kind ts : World κ ν).turnovers i es) := by
  have h₀ := World.sound_ofTunings (κ := κ) (ν := ν) kind ts
  induction h generalizing s with
  | nil =>
    obtain ⟨t, ht, rfl⟩ := World.eq_ofTuning_getElem? hs
    exact ⟨t, ht, rfl, fun _ => rfl, fun _ => Nat.zero_le _, rfl, rfl, rfl⟩
  | @snoc es w a o h hstep ih =>
    have hw := h.sound h₀ h.worldAt_last
    have hp := (World.step_settles hw _).of_ok hstep
    obtain ⟨s₀, hs₀⟩ := hp.exists_set hs
    obtain ⟨t, ht, hlog⟩ := ih hs₀
    have hnext := World.Traffic.accounts (e := ⟨a, o⟩) (World.step_traffic hstep hs₀ hs) hs₀ hs
      (hw.sets i s₀ hs₀) ((hp.sound hw).sets i s hs) hlog
    rw [h.turnovers_append]
    simpa [World.turnovers] using ⟨t, ht, hnext⟩

/-- In every state of a run each pool holds as many cells as the nodes made and freed on its lane
have left there, no cell is in two places of the pools, and none of them is linked, retired or
private to an insertion. As many nodes were made on cells from a pool as were made while the pool of
their lane held one. The account covers every node that was ever made or freed. -/
theorem Run.pools_recycle (h : Run (.ofTunings kind ts) es w) {t : Tuning} (ht : ts[i]? = some t)
    (hs : w.sets[i]? = some s) :
    s.Recycles (stock t.poolCapacity.toNat
      ((World.ofTunings kind ts : World κ ν).turnovers i es)) (w.fresh i) ∧
    s.memory.allocated =
      ((World.ofTunings kind ts : World κ ν).turnovers i es).countP Turnover.isMade ∧
    s.memory.freed =
      ((World.ofTunings kind ts : World κ ν).turnovers i es).countP fun t => !t.isMade := by
  obtain ⟨t', ht', hlog⟩ := h.accounts hs
  cases ht.symm.trans ht'
  have hw := h.sound (World.sound_ofTunings kind ts) h.worldAt_last
  exact ⟨(hw.sets i s hs).recycles hlog, hlog.made, hlog.freed⟩

namespace Carried

/-- Each lane keeps one freed node. -/
def origin : World Int Nat := .ofTunings .hazards [{ poolCapacity := 1 }]

/-- An operation on a lane. A step that finds nothing to move on is left out. -/
def operation (lane : Lane) (call : Call Int Nat) : List (Action Int Nat) :=
  .invoke 0 0 lane call none :: List.replicate 6 .proceed

/-- The nodes of two keys are made on one lane, and freed and used again on the other. Then an
insertion on the first lane frees its own node. -/
def actions : List (Action Int Nat) :=
  .register 0 :: operation 0 (.insert 1 10) ++ operation 0 (.insert 2 20) ++
    operation 1 (.remove 1) ++ operation 1 (.remove 2) ++ .scan 0 1 :: operation 0 (.insert 3 30) ++
    operation 1 (.insert 4 40) ++ operation 0 (.insert 3 31) ++ operation 1 (.remove 4) ++
    [.scan 0 1]

/-- What the actions came to. -/
def events : List (Event Int Nat) := (origin.play actions).1

/-- The world in the end. -/
def world : World Int Nat := (origin.play actions).2

/-- The set in the end. -/
def set : SharedSet Int Nat := (world.sets[0]?).getD (.ofTuning .hazards {})

theorem run : Run origin events world := origin.play_run actions

theorem set_eq : world.sets[0]? = some set :=
  eq_some_getD (by decide +kernel)

end Carried

open Carried in
/-- The second of the two nodes that are freed together finds the pool full. In the end there is one
cell in each pool, and one node was made on a cell from a pool. -/
theorem Run.pools_recycle_carried :
    origin.turnovers 0 events = [.made 0, .made 0, .freed 1, .freed 1, .made 0, .made 1, .made 0,
      .freed 0, .freed 1] ∧
    set.Recycles (stock 1 (origin.turnovers 0 events)) (world.fresh 0) ∧
    set.memory.pools 0 = [3] ∧ set.memory.pools 1 = [1] ∧ set.memory.recycled = 1 := by
  refine ⟨by decide +kernel, ?_, by decide +kernel, by decide +kernel, by decide +kernel⟩
  exact (run.pools_recycle rfl set_eq).1

end MarkedChain
