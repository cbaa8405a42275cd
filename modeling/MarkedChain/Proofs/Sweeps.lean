import MarkedChain.Proofs.Closing
import MarkedChain.Proofs.Headroom
import MarkedChain.Proofs.Snapshots

/-!
# What a sweep frees and in which order it keeps the rest

A sweep parts the waiting entries with one test: it hands out the nodes of those that pass, in
order, and turns the order of the others (`Limbo.Parts`). So two sweeps that free nothing leave the
list as it was (`Limbo.Parts.restores`). What passes are the entries that nothing keeps
(`Scheme.frees_iff`): under epochs those of two epochs ago, under hazard slots those whose node no
record publishes, as the search of a sorted snapshot finds out. In a run the nodes handed out are
freed one after the other, which shows in the values dropped and in the pool that takes the cells
in (`World.Sound.sweeps`).
-/

namespace MarkedChain

/-! ## Parting the waiting entries -/

namespace Limbo

variable {α : Type} {l l₁ l₂ : Limbo α} {f g : Retired α → Bool} {nodes : List α}

/-- A sweep with the test `f` takes `nodes` out of the list `l` and leaves `l'`. They are those of
the entries that pass, in the order of the list. The other entries stay as they are, tags and all,
in turned order, and the count goes down by what was taken out. -/
structure Parts (l : Limbo α) (f : Retired α → Bool) (nodes : List α) (l' : Limbo α) : Prop where
  freed : nodes = (l.entries.filter f).map Retired.node
  kept : l'.entries = (l.entries.filter fun x => !f x).reverse
  perm : l.entries.Perm (l.entries.filter f ++ l'.entries)
  count : l'.count + nodes.length = l.count
  counted : l.Counted → l'.Counted

theorem sweep_parts (l : Limbo α) (f : Retired α → Bool) :
    l.Parts f (l.sweep f).1 (l.sweep f).2 := by
  have hperm : l.entries.Perm (l.entries.filter f ++ (l.sweep f).2.entries) := by
    rw [sweep_entries]
    exact (List.filter_append_perm f _).symm.trans ((List.reverse_perm _).symm.append_left _)
  refine ⟨l.sweep_nodes f, l.sweep_entries f, hperm, ?_, fun h => h.sweep f⟩
  have hcount : (l.sweep f).2.count =
      l.count - l.entries.length + (l.sweep f).2.entries.length := rfl
  have hlen := hperm.length_eq
  rw [List.length_append] at hlen
  rw [hcount, sweep_nodes, List.length_map]
  omega

/-- A sweep that frees nothing turns the list. -/
theorem Parts.eq_of_nil (h : l.Parts f [] l₁) : l₁ = ⟨l.entries.reverse, l.count⟩ := by
  have hnone : l.entries.filter f = [] := List.map_eq_nil_iff.1 h.freed.symm
  have hall : l.entries.filter (fun x => !f x) = l.entries := by
    rw [List.filter_eq_self]
    intro x hx
    rw [List.filter_eq_nil_iff] at hnone
    simpa using hnone x hx
  have hentries := h.kept
  have hcount := h.count
  rw [hall] at hentries
  rw [List.length_nil, Int.natCast_zero, Int.add_zero] at hcount
  cases l₁
  exact congrArg₂ Limbo.mk hentries hcount

/-- Two sweeps that free nothing restore the list, whatever their tests. -/
theorem Parts.restores (h : l.Parts f [] l₁) (h' : l₁.Parts g [] l₂) : l₂ = l := by
  rw [h'.eq_of_nil, h.eq_of_nil, List.reverse_reverse]

end Limbo

/-! ## What a scheme sweeps out -/

namespace Scheme

variable {α : Type}

/-- The test of a sweep. Under hazard slots it looks the node up in a snapshot of the slots. -/
def frees [Ord α] : Scheme α → Retired α → Bool
  | .epochs e, x => e.isRipe x
  | .hazards h, x => !h.isProtected x.node

/-- Frees what can be freed as things stand, under the present epoch. -/
def sweep [DecidableEq α] : Scheme α → List α × Scheme α
  | .epochs e => (e.collect.1, .epochs e.collect.2)
  | .hazards h => (h.scan.1, .hazards h.scan.2)

/-- Nothing keeps an entry any more. Under epochs its node was retired at least two epochs ago,
under hazard slots no record publishes it in any slot. -/
def Loose : Scheme α → Retired α → Prop
  | .epochs e, x => x.tag + 2 ≤ e.epoch
  | .hazards h, x => ∀ r q slot, h.roster.record? r = some q → q.published slot ≠ some x.node

variable [Ord α] [Std.TransOrd α] [Std.LawfulEqOrd α]

/-- The test says what it should. -/
theorem frees_iff {s : Scheme α} {x : Retired α} : s.frees x = true ↔ s.Loose x := by
  cases s with
  | epochs e => exact decide_eq_true_iff
  | hazards h =>
    rw [frees, Bool.not_eq_true', ← Bool.not_eq_true, Hazards.isProtected_iff]
    simp only [mem_published, Shield.mem_nodes_iff, Loose]
    constructor
    · exact fun hnone r q slot hq hslot => hnone ⟨r, q, hq, slot, hslot⟩
    · rintro hnone ⟨r, q, hq, slot, hslot⟩
      exact hnone r q slot hq hslot

/-- A sweep parts the waiting entries by its test. -/
theorem sweep_parts [DecidableEq α] (s : Scheme α) :
    s.limbo.Parts s.frees s.sweep.1 s.sweep.2.limbo := by
  cases s with
  | epochs e => exact e.limbo.sweep_parts e.isRipe
  | hazards h =>
    change h.limbo.Parts (fun x => !h.isProtected x.node) h.scan.1 h.scan.2.limbo
    rw [h.scan_eq]
    exact h.limbo.sweep_parts _

end Scheme

/-! ## Freeing in order -/

namespace Memory

variable {κ ν : Type} {m m' : Memory κ ν} {lane : Lane}

/-- The cell of a node that was freed is on top of the pool, if there was room for it. -/
theorem pools_free {a : Address} {v : ν} (h : m.free lane a = .ok (v, m')) :
    m'.capacity = m.capacity ∧ m'.pools lane =
      if (m.pools lane).length < m.capacity.toNat then a :: m.pools lane else m.pools lane := by
  rw [free] at h
  obtain ⟨n, -, h⟩ := bind_eq_ok.1 h
  dsimp only at h
  split at h
  · split at h
    · next hroom =>
      cases h
      exact ⟨rfl, by simp [setPool, updatePool, hroom]⟩
    · next hfull =>
      cases h
      exact ⟨rfl, (if_neg hfull).symm⟩
  · cases h

/-- Of the nodes freed one after the other the first ones fill up the pool, each on top of the one
before. -/
theorem pools_freeAll {nodes : List Address} {values : List ν}
    (h : m.freeAll lane nodes = .ok (values, m')) : m'.pools lane =
      (nodes.take (m.capacity.toNat - (m.pools lane).length)).reverse ++ m.pools lane := by
  induction nodes generalizing m values with
  | nil =>
    cases h
    simp
  | cons a as ih =>
    rw [freeAll] at h
    obtain ⟨⟨v, m₁⟩, hfree, h⟩ := bind_eq_ok.1 h
    obtain ⟨⟨vs, m₂⟩, hrest, h⟩ := bind_eq_ok.1 h
    cases h
    obtain ⟨hcapacity, hpool⟩ := pools_free hfree
    rw [ih hrest, hcapacity, hpool]
    split
    · next hroom =>
      obtain ⟨n, hn⟩ := Nat.exists_eq_add_of_lt hroom
      have hleft : m.capacity.toNat - (m.pools lane).length = n + 1 := by omega
      have hleft' : m.capacity.toNat - (a :: m.pools lane).length = n := by
        rw [List.length_cons]
        omega
      rw [hleft, hleft', List.take_succ_cons, List.reverse_cons, List.append_assoc]
      rfl
    · next hfull =>
      rw [Nat.sub_eq_zero_of_le (Nat.le_of_not_lt hfull), List.take_zero, List.take_zero]

end Memory

/-! ## Sweeping a set -/

variable {κ ν : Type}

/-- A sweep of a set, with the values that were dropped. It parts the waiting entries by the test,
and the nodes handed out are freed in order: their values come out in this order, and their cells
go on top of the pool of the lane in this order, as far as there is room. -/
structure SharedSet.Sweeps (s : SharedSet κ ν) (lane : Lane) (drops : List ν)
    (s' : SharedSet κ ν) : Prop where
  scheme : s'.scheme = s.scheme.sweep.2
  parts : s.scheme.limbo.Parts s.scheme.frees s.scheme.sweep.1 s'.scheme.limbo
  counted : s'.scheme.limbo.Counted
  nodup : s.scheme.sweep.1.Nodup
  drops : drops.map some = s.scheme.sweep.1.map s.value?
  node? : ∀ a, s'.memory.node? a = if a ∈ s.scheme.sweep.1 then none else s.memory.node? a
  pool : s'.memory.pools lane = (s.scheme.sweep.1.take
    (s.memory.capacity.toNat - (s.memory.pools lane).length)).reverse ++ s.memory.pools lane
  freed : s'.memory.freed = s.memory.freed + s.scheme.sweep.1.length

variable [Ord κ]

theorem Scheme.sweep_sheds {α : Type} [DecidableEq α] {s : Scheme α} (hs : s.Sound) :
    s.Sheds s.sweep.2 s.sweep.1 := by
  cases s with
  | epochs e => exact collect_sheds hs
  | hazards h => exact scan_sheds hs

omit [Ord κ] in
/-- Of live nodes all values are found. -/
theorem SharedSet.map_value? {s : SharedSet κ ν} {nodes : List Address}
    (h : ∀ a ∈ nodes, (s.memory.node? a).isSome = true) :
    (nodes.filterMap s.value?).map some = nodes.map s.value? := by
  induction nodes with
  | nil => rfl
  | cons a as ih =>
    obtain ⟨n, hn⟩ := Option.isSome_iff_exists.1 (h a List.mem_cons_self)
    have hvalue : s.value? a = some n.value := SharedSet.value?_eq hn
    rw [List.filterMap_cons_some hvalue, List.map_cons, List.map_cons, hvalue,
      ih fun b hb => h b (List.mem_cons_of_mem _ hb)]

/-- A set in order can be swept. -/
theorem SharedSet.Sound.sweeps {s : SharedSet κ ν} {own : List Address} (hs : s.Sound own)
    (hfits : s.PoolsFit) (lane : Lane) :
    ∃ drops s', ({ s with scheme := s.scheme.sweep.2 } : SharedSet κ ν).freeAll lane
        s.scheme.sweep.1 = .ok (drops, s') ∧ s.Sweeps lane drops s' := by
  have hsheds := Scheme.sweep_sheds hs.scheme
  obtain ⟨drops, m, hm, hfree⟩ := hs.freeAll_eq_ok hsheds (hs.roomy hfits) lane
  have hswept := hs.swept hsheds hm
  refine ⟨drops, _, hfree, rfl, s.scheme.sweep_parts, hsheds.counted hs.counted, hswept.nodup, ?_,
    hm.node?, ?_, hm.freed⟩
  · have hyields := hs.freeAll_yields hsheds lane
    rw [hfree] at hyields
    obtain ⟨_, -, heq⟩ := hyields
    rw [(Prod.mk.inj heq).1]
    exact map_value? fun a ha => by
      obtain ⟨n, hn⟩ := hs.live_of_retired (hswept.subset ha)
      rw [hn, Option.isSome_some]
  · rw [freeAll] at hfree
    obtain ⟨⟨values, m'⟩, hfreeAll, hok⟩ := bind_eq_ok.1 hfree
    cases hok
    exact Memory.pools_freeAll hfreeAll

/-- The kind of a scheme. -/
def Scheme.kind {α : Type} : Scheme α → Kind
  | .epochs _ => .epochs
  | .hazards _ => .hazards

/-- The action that sweeps a set of a kind. -/
def Action.sweep : Scheme.Kind → Nat → Lane → Action κ ν
  | .epochs, i, lane => .collect i lane
  | .hazards, i, lane => .scan i lane

namespace World

variable {w : World κ ν} {i : Nat} {s s' : SharedSet κ ν} {lane : Lane} {drops : List ν}

/-- Whenever other operations may run, a set can be swept. The answer is the number of nodes that
were freed. -/
theorem step_sweep (hpauses : w.pauses = true) (hs : w.sets[i]? = some s)
    (hfree : ({ s with scheme := s.scheme.sweep.2 } : SharedSet κ ν).freeAll lane
      s.scheme.sweep.1 = .ok (drops, s')) :
    w.step (.sweep s.scheme.kind i lane) =
      .ok ⟨w.setSet i s', drops, some (.freed s.scheme.sweep.1.length)⟩ := by
  have hturn : w.turn = .ok () := if_pos hpauses
  cases hscheme : s.scheme with
  | epochs e =>
    rw [hscheme] at hfree
    refine bind_eq_ok.2 ⟨(), hturn, bind_eq_ok.2 ⟨s, set_eq_ok hs, ?_⟩⟩
    rw [hscheme]
    exact bind_eq_ok.2 ⟨_, Halt.lift_eq_ok.2 hfree, rfl⟩
  | hazards h =>
    rw [hscheme] at hfree
    refine bind_eq_ok.2 ⟨(), hturn, bind_eq_ok.2 ⟨s, set_eq_ok hs, ?_⟩⟩
    rw [hscheme]
    exact bind_eq_ok.2 ⟨_, Halt.lift_eq_ok.2 hfree, rfl⟩

/-- Only a record that somebody holds publishes anything. -/
theorem Manned.taken_of_published (hm : w.Manned) (hw : w.Sound) (hs : w.sets[i]? = some s)
    {r : Nat} {a : Address} (ha : a ∈ s.scheme.published r) : s.scheme.taken? r = some true := by
  obtain ⟨x, hguard, rfl⟩ := hm.exists_guard hw hs ha
  obtain ⟨h, hx, rfl, hbusy⟩ := mem_guards.1 hguard
  have hlive : x.status ≠ .released := by
    rcases hbusy with hbusy | hbusy <;> simp [hbusy]
  exact (hw.depth? hx hlive hs).1

end World

variable [Std.TransOrd κ]

theorem Run.kind_eq {kind : Scheme.Kind} {ts : List Tuning} {es : List (Event κ ν)}
    {w : World κ ν} (h : Run (.ofTunings kind ts) es w) {i : Nat} {s : SharedSet κ ν}
    (hs : w.sets[i]? = some s) : s.scheme.kind = kind := by
  cases kind with
  | epochs =>
    obtain ⟨-, e, -, he, -⟩ := h.exists_epochs hs
    rw [he, Scheme.kind]
  | hazards =>
    obtain ⟨-, q, -, hq, -⟩ := h.exists_hazards hs
    rw [hq, Scheme.kind]

/-- A sweep of any list of waiting nodes, in any state of the records, parts the list by a test that
the entries pass which nothing keeps, and two sweeps that free nothing, whatever happens to the
records and the epoch in between, leave the list as it was. In every world of a run a set can be
swept whenever other operations may run: exactly the nodes handed out are freed, in order, and the
answer is their number. There only records that are held publish anything. -/
theorem Run.sweep_exact {kind : Scheme.Kind} {ts : List Tuning} {es : List (Event κ ν)}
    {w : World κ ν} (h : Run (.ofTunings kind ts) es w) :
    (∀ sch : Scheme Address, sch.limbo.Parts sch.frees sch.sweep.1 sch.sweep.2.limbo ∧
      (∀ x, sch.frees x = true ↔ sch.Loose x) ∧
      ∀ sch' : Scheme Address, sch'.limbo = sch.sweep.2.limbo → sch.sweep.1 = [] →
        sch'.sweep.1 = [] → sch'.sweep.2.limbo = sch.limbo) ∧
    ∀ (i : Nat) (s : SharedSet κ ν) (lane : Lane), w.sets[i]? = some s →
      (∀ r, ∀ a ∈ s.scheme.published r, s.scheme.taken? r = some true) ∧
      ∃ drops s', s.Sweeps lane drops s' ∧ (w.pauses = true → w.step (.sweep kind i lane) =
        .ok ⟨w.setSet i s', drops, some (.freed s.scheme.sweep.1.length)⟩) := by
  refine ⟨fun sch => ⟨sch.sweep_parts, fun x => Scheme.frees_iff, ?_⟩, ?_⟩
  · intro sch' hlimbo hnone hnone'
    have hfirst := sch.sweep_parts
    have hsecond := sch'.sweep_parts
    rw [hnone] at hfirst
    rw [hnone', hlimbo] at hsecond
    exact hfirst.restores hsecond
  · intro i s lane hs
    have hw : w.Sound := h.sound (World.sound_ofTunings kind ts) h.worldAt_last
    obtain ⟨drops, s', hfree, hsweeps⟩ := (hw.sets i s hs).sweeps (h.poolsFit hs) lane
    refine ⟨fun r a ha => h.manned.taken_of_published hw hs ha, drops, s', hsweeps,
      fun hpauses => ?_⟩
    rw [← h.kind_eq hs]
    exact World.step_sweep hpauses hs hfree

/-! ## A sweep under a guard -/

/-- Two keys are inserted, a search for the second one keeps its protection, and both are removed,
with another key that comes and goes in between. -/
def cameAndWent : List (Nat × Call Int Nat) :=
  [(0, .insert 1 10), (0, .insert 2 20), (1, .hold 2), (0, .remove 1), (0, .insert 3 30),
    (0, .remove 3), (0, .remove 2)]

namespace CameAndWent

/-- The one set at the start. -/
def origin : World Int Nat := .ofTunings .hazards [{}]

/-- The calls of two handles, one by one. A step that finds nothing to move on is left out. -/
def actions : List (Action Int Nat) :=
  .register 0 :: .register 0 :: cameAndWent.flatMap fun c =>
    .invoke c.1 0 0 c.2 none :: List.replicate 10 .proceed

/-- What the calls came to. -/
def events : List (Event Int Nat) := (origin.play actions).1

/-- The world in the end. -/
def world : World Int Nat := (origin.play actions).2

/-- The set in the end. -/
def set : SharedSet Int Nat := (world.sets[0]?).getD (.ofTuning .hazards {})

theorem run : Run origin events world := origin.play_run actions

theorem sets_zero : world.sets[0]? = some set :=
  eq_some_getD (by decide +kernel)

end CameAndWent

open CameAndWent in
/-- The last key's node lies between two that the search publishes. A scan frees it alone, drops its
value, and keeps the two others in turned order. -/
theorem sweep_exact_cameAndWent :
    set.scheme.limbo.entries = [⟨1, 0⟩, ⟨2, 0⟩, ⟨0, 0⟩] ∧
    set.scheme.limbo.Parts set.scheme.frees [2] set.scheme.sweep.2.limbo ∧
    ∃ s', set.Sweeps 0 [30] s' ∧ s'.scheme.limbo.entries = [⟨0, 0⟩, ⟨1, 0⟩] ∧
      world.step (.scan 0 0) = .ok ⟨world.setSet 0 s', [30], some (.freed 1)⟩ := by
  obtain ⟨hparts, hsweeps⟩ := run.sweep_exact
  obtain ⟨-, drops, s', hs', hstep⟩ := hsweeps 0 set 0 sets_zero
  have hfreed : set.scheme.sweep.1 = [2] := by decide +kernel
  have hdrops : drops = [30] := by
    refine (List.map_inj_right fun _ _ => Option.some.inj).1 ?_
    rw [hs'.drops, hfreed]
    decide +kernel
  subst hdrops
  refine ⟨by decide +kernel, hfreed ▸ (hparts set.scheme).1, s', hs', ?_, ?_⟩
  · rw [hs'.scheme]
    decide +kernel
  · rw [hfreed] at hstep
    exact hstep (by decide +kernel)

end MarkedChain
