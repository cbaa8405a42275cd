import MarkedChain.Proofs.Retirements

/-!
# What an action does to the pools

A step of an operation changes memory by writing links and by freeing nodes on the lane it runs on
(`Memory.Edits`, `Frame.step_edits`), and so does a sweep. However these are mixed, what was freed
fills up the pool of this lane and no other one (`Memory.Parks`, `Memory.Edits.parks`). Only the
beginning of an insertion makes a node, which empties the pool of its lane by one cell if there is
one (`Memory.Takes`). `World.Traffic` lists what an action can do to the memory of a set, and every
action does one of these things (`World.step_traffic`). Nothing here depends on what the chain looks
like.
-/

namespace MarkedChain

variable {κ ν : Type}

/-! ## Freeing nodes -/

namespace Memory

variable {m m' m'' : Memory κ ν} {lane : Lane}

/-- Links were written, and nodes were freed on a lane, in any order. -/
inductive Edits (m : Memory κ ν) (lane : Lane) : Memory κ ν → Prop where
  | refl : Edits m lane m
  | setNext {m₁ m₂ a l} (h : Edits m lane m₁) (hset : m₁.setNext a l = .ok m₂) : Edits m lane m₂
  | free {m₁ m₂ a v} (h : Edits m lane m₁) (hfree : m₁.free lane a = .ok (v, m₂)) :
    Edits m lane m₂

theorem Edits.trans (h : m.Edits lane m') (h' : m'.Edits lane m'') : m.Edits lane m'' := by
  induction h' with
  | refl => exact h
  | setNext _ hset ih => exact ih.setNext hset
  | free _ hfree ih => exact ih.free hfree

theorem freeAll_edits {nodes : List Address} {values : List ν}
    (h : m.freeAll lane nodes = .ok (values, m')) : m.Edits lane m' := by
  induction nodes generalizing m values with
  | nil =>
    cases h
    exact .refl
  | cons a as ih =>
    obtain ⟨⟨v, m₁⟩, hfree, h⟩ := bind_eq_ok.1 h
    obtain ⟨⟨vs, m₂⟩, hrest, h⟩ := bind_eq_ok.1 h
    cases h
    exact (Edits.refl.free hfree).trans (ih hrest)

theorem node?_of_read {a : Address} {n : Node κ ν} (h : m.read a = .ok n) : m.node? a = some n := by
  have hread : Within False (m.read a) fun n => m.node? a = some n := m.read_within a
  rw [h] at hread
  exact hread

/-- Nodes were freed on a lane and none was made. The pool of the lane has as many of their cells as
it had room for. -/
structure Parks (m : Memory κ ν) (lane : Lane) (m' : Memory κ ν) : Prop where
  live : ∀ a, (m'.node? a).isSome = true → (m.node? a).isSome = true
  pool : (m'.pools lane).length = (m.pools lane).length +
    min (m'.freed - m.freed) (m.capacity.toNat - (m.pools lane).length)
  others : ∀ l, l ≠ lane → m'.pools l = m.pools l
  freed : m.freed ≤ m'.freed
  allocated : m'.allocated = m.allocated
  recycled : m'.recycled = m.recycled
  capacity : m'.capacity = m.capacity

namespace Parks

theorem refl (m : Memory κ ν) (lane : Lane) : m.Parks lane m where
  live _ h := h
  pool := by rw [Nat.sub_self, Nat.zero_min, Nat.add_zero]
  others _ _ := rfl
  freed := Nat.le_refl _
  allocated := rfl
  recycled := rfl
  capacity := rfl

theorem trans (h : m.Parks lane m') (h' : m'.Parks lane m'') : m.Parks lane m'' where
  live a ha := h.live a (h'.live a ha)
  pool := by
    have hpool := h.pool
    have hpool' := h'.pool
    have hfreed := h.freed
    have hfreed' := h'.freed
    rw [h.capacity] at hpool'
    omega
  others l hl := (h'.others l hl).trans (h.others l hl)
  freed := Nat.le_trans h.freed h'.freed
  allocated := h'.allocated.trans h.allocated
  recycled := h'.recycled.trans h.recycled
  capacity := h'.capacity.trans h.capacity

/-- A write of a link frees nothing. -/
theorem of_setNext {a : Address} {l : Link Address} (h : m.setNext a l = .ok m')
    (lane : Lane) : m.Parks lane m' := by
  obtain ⟨n, hn, -⟩ := bind_eq_ok.1 h
  have hn := node?_of_read hn
  rw [setNext_eq hn] at h
  cases h
  refine { refl m lane with live := fun b hb => ?_ }
  rw [node?_relink hn] at hb
  split at hb
  · next hba => rw [hba, hn]; rfl
  · exact hb

/-- The cell of a node that is freed goes to the pool of the lane, if there is room. -/
theorem of_free {a : Address} {v : ν} (h : m.free lane a = .ok (v, m')) : m.Parks lane m' := by
  obtain ⟨n, hn, h⟩ := bind_eq_ok.1 h
  have hn := node?_of_read hn
  have hlive : ∀ c : Cell κ ν, c.node? = none → ∀ b, ((m.put a c).node? b).isSome = true →
      (m.node? b).isSome = true := by
    intro c hc b hb
    rw [node?_empty_cell hn hc] at hb
    split at hb
    · cases hb
    · exact hb
  dsimp only at h
  split at h
  · split at h
    · next hroom =>
      cases h
      refine ⟨hlive .pooled rfl, ?_, fun l hl => ?_, Nat.le_succ _, rfl, rfl, rfl⟩
      · simp only [setPool, updatePool, put, if_true, List.length_cons]
        omega
      · simp [setPool, updatePool, put, hl]
    · next hfull =>
      cases h
      refine ⟨hlive .released rfl, ?_, fun l _ => rfl, Nat.le_succ _, rfl, rfl, rfl⟩
      simp only [put]
      omega
  · cases h

end Parks

/-- The pool of the lane takes in what is freed as long as it has room. -/
theorem Edits.parks (h : m.Edits lane m') : m.Parks lane m' := by
  induction h with
  | refl => exact .refl m lane
  | setNext _ hset ih => exact ih.trans (.of_setNext hset lane)
  | free _ hfree ih => exact ih.trans (.of_free hfree)

/-! ## Making a node -/

/-- A node was made on a lane. Its cell was on top of the pool of the lane, or in no pool if that
one was empty. -/
structure Takes (m : Memory κ ν) (lane : Lane) (m' : Memory κ ν) (a : Address) : Prop where
  pool : m'.pools lane = (m.pools lane).tail
  others : ∀ l, l ≠ lane → m'.pools l = m.pools l
  recycled : m'.recycled = m.recycled + if m.pools lane = [] then 0 else 1
  source : ∀ l, a ∈ m.pools l ↔ l = lane ∧ m.pools lane ≠ []

/-- The system has no cell that is in a pool. -/
theorem place_takes (h : m.Tidy) (offer : Option Address) (n : Node κ ν) :
    (m.place offer n).2.pools = m.pools ∧ (m.place offer n).2.recycled = m.recycled ∧
      ∀ l, (m.place offer n).1 ∉ m.pools l := by
  rw [place]
  split
  · next a hoffer =>
    refine ⟨rfl, rfl, fun l ha => ?_⟩
    have hreleased := (Option.filter_eq_some_iff.1 hoffer).2
    rw [isReleased, h.pooled l a ha] at hreleased
    cases hreleased
  · exact ⟨rfl, rfl, fun l ha => Nat.lt_irrefl _ (lt_size_of_cell (h.pooled l _ ha))⟩

/-- Making a node takes the top of the pool, if there is any. -/
theorem allocate_takes (h : m.Tidy) {offer : Option Address} {key : κ} {value : ν} {a : Address}
    (hmade : m.allocate lane offer key value = .ok (a, m')) : m.Takes lane m' a := by
  rw [allocate] at hmade
  split at hmade
  · split at hmade
    · next b rest hpool =>
      split at hmade
      · cases hmade
        have hmem : a ∈ m.pools lane := by simp [hpool]
        refine ⟨?_, fun l hl => ?_, ?_, fun l => ⟨fun ha => ?_, ?_⟩⟩
        · simp [setPool, updatePool, put, hpool]
        · simp [setPool, updatePool, put, hl]
        · simp [hpool]
        · refine ⟨?_, List.ne_nil_of_mem hmem⟩
          by_contra hl
          exact h.apart l lane hl a ha hmem
        · rintro ⟨rfl, -⟩
          exact hmem
      · cases hmade
    · next hpool =>
      obtain ⟨hpools, hrecycled, hout⟩ := place_takes h offer ⟨key, value, .null⟩
      cases hmade
      refine ⟨?_, fun l _ => congrFun hpools l, ?_, fun l => ?_⟩
      · rw [hpools, hpool, List.tail_nil]
      · rw [hpool, if_pos rfl, hrecycled]
        rfl
      · simp [hpool, hout]
  · cases hmade

end Memory

/-! ## What a step does -/

section

open Memory

variable {s s' : SharedSet κ ν} {who : Actor} {st : Stride κ ν} {lane : Lane}

theorem SharedSet.setLink_edits {l : Link Address} {pl : Place} (h : s.setLink l pl = .ok s')
    (lane : Lane) : s.memory.Edits lane s'.memory := by
  cases pl with
  | head =>
    cases h
    exact .refl
  | node a =>
    obtain ⟨m, hset, h⟩ := bind_eq_ok.1 h
    cases h
    exact Edits.refl.setNext hset

theorem SharedSet.exchange_edits {pl : Place} {expected new : Link Address}
    {x : Exchange (Link Address)} (h : s.exchange pl expected new = .ok (x, s')) (lane : Lane) :
    s.memory.Edits lane s'.memory := by
  obtain ⟨seen, -, h⟩ := bind_eq_ok.1 h
  split at h
  · obtain ⟨t, ht, h⟩ := bind_eq_ok.1 h
    cases h
    exact setLink_edits ht lane
  · cases h
    exact .refl

theorem SharedSet.freeAll_edits {nodes : List Address} {drops : List ν}
    (h : s.freeAll lane nodes = .ok (drops, s')) : s.memory.Edits lane s'.memory := by
  obtain ⟨⟨values, m⟩, hfree, h⟩ := bind_eq_ok.1 h
  cases h
  exact Memory.freeAll_edits hfree

theorem SharedSet.retire_edits {r : Nat} {node : Address} {drops : List ν}
    (h : s.retire r lane node = .ok (drops, s')) : s.memory.Edits lane s'.memory := by
  obtain ⟨⟨nodes, sch⟩, -, h⟩ := bind_eq_ok.1 h
  exact freeAll_edits (s := { s with scheme := sch }) h

namespace Step

theorem help_edits {t : Task κ} {pred : Place} {curr : Address} {after : Option Address}
    (h : help s who t pred curr after = .ok st) : s.memory.Edits who.lane st.set.memory := by
  obtain ⟨⟨x, s₁⟩, hx, h⟩ := bind_eq_ok.1 h
  have hedits := SharedSet.exchange_edits hx who.lane
  cases x with
  | written _ =>
    obtain ⟨⟨drops, s₂⟩, hretire, h⟩ := bind_eq_ok.1 h
    have hfreed := hedits.trans (SharedSet.retire_edits hretire)
    cases h
    exact hfreed
  | refused seen =>
    dsimp only at h
    split at h <;> cases h <;> exact hedits

theorem inspect_edits {t : Task κ} {pred : Place} {curr : Address}
    (h : inspect s who t pred curr = .ok st) : s.memory.Edits who.lane st.set.memory := by
  obtain ⟨n, -, h⟩ := bind_eq_ok.1 h
  dsimp only at h
  split at h
  · obtain ⟨still, -, h⟩ := bind_eq_ok.1 h
    split at h
    · split at h
      · exact help_edits (s := s.publish who .succ n.next.target) h
      · cases h
        exact .refl
    · cases h
      exact .refl
  · cases h
    exact .refl

theorem linkIn_edits {t : Task κ} {node : Address} {pred : Place} {curr : Option Address}
    (h : linkIn s t node pred curr = .ok st) (lane : Lane) :
    s.memory.Edits lane st.set.memory := by
  obtain ⟨s₁, hset, h⟩ := bind_eq_ok.1 h
  obtain ⟨⟨x, s₂⟩, hx, h⟩ := bind_eq_ok.1 h
  have hedits := (SharedSet.setLink_edits hset lane).trans (SharedSet.exchange_edits hx lane)
  cases x <;> cases h <;> exact hedits

theorem takeOut_edits {key : κ} {pred : Place} {curr : Address}
    (h : takeOut s who key pred curr = .ok st) : s.memory.Edits who.lane st.set.memory := by
  obtain ⟨succ, -, h⟩ := bind_eq_ok.1 h
  split at h
  · cases h
    exact .refl
  · obtain ⟨⟨x, s₁⟩, hx, h⟩ := bind_eq_ok.1 h
    have hmark := SharedSet.exchange_edits hx who.lane
    cases x with
    | refused _ =>
      cases h
      exact hmark
    | written _ =>
      obtain ⟨⟨y, s₂⟩, hy, h⟩ := bind_eq_ok.1 h
      have hunlink := hmark.trans (SharedSet.exchange_edits hy who.lane)
      cases y with
      | refused _ =>
        cases h
        exact hunlink
      | written _ =>
        obtain ⟨⟨drops, s₃⟩, hretire, h⟩ := bind_eq_ok.1 h
        cases h
        exact hunlink.trans (SharedSet.retire_edits hretire)

variable [Ord κ]

theorem encounter_edits {t : Task κ} {pred : Place} {curr : Address} {next : Link Address}
    (h : encounter s who t pred curr next = .ok st) : s.memory.Edits who.lane st.set.memory := by
  obtain ⟨n, -, h⟩ := bind_eq_ok.1 h
  split at h <;> cases h <;> exact .refl

theorem judge_edits {t : Task κ} {pred : Place} {curr : Address} {next : Link Address}
    (h : judge s who t pred curr next = .ok st) : s.memory.Edits who.lane st.set.memory := by
  obtain ⟨n, -, h⟩ := bind_eq_ok.1 h
  cases t with
  | insert fresh key =>
    dsimp only at h
    split at h
    · obtain ⟨⟨drops, s₁⟩, hfree, h⟩ := bind_eq_ok.1 h
      cases h
      exact SharedSet.freeAll_edits hfree
    · exact linkIn_edits h who.lane
  | remove key =>
    dsimp only at h
    split at h
    · exact takeOut_edits h
    · cases h
      exact .refl
  | _ =>
    cases h
    exact .refl

end Step

/-- A step of an operation writes links and frees nodes on its own lane. -/
theorem Frame.step_edits [Ord κ] {f : Frame κ} (h : f.step s who = .ok st) :
    s.memory.Edits who.lane st.set.memory := by
  obtain ⟨t, p⟩ := f
  cases p with
  | start =>
    cases h
    exact .refl
  | inspect pred curr =>
    cases curr with
    | some curr => exact Step.inspect_edits h
    | none =>
      cases t with
      | insert node key => exact Step.linkIn_edits h who.lane
      | _ =>
        cases h
        exact .refl
  | encounter pred curr next => exact Step.encounter_edits h
  | judge pred curr next => exact Step.judge_edits h

end

/-! ## What an action does -/

namespace World

/-- The lane that the code of an action runs on, if it has to do with memory. -/
def lane? (w : World κ ν) : Action κ ν → Option Lane
  | .invoke _ _ lane _ _ | .collect _ lane | .scan _ lane => some lane
  | .proceed => w.running.head?.map Activation.lane
  | .register _ | .release _ | .resume _ | .advance _ => none

/-- What an action does to the memory of a set. -/
inductive Traffic (w : World κ ν) (m : Memory κ ν) : Memory κ ν → Action κ ν → Prop where
  | still (a) : Traffic w m m a
  /-- The running operation makes a step, or there is a sweep. -/
  | edits {m' a lane} (hlane : w.lane? a = some lane) (h : m.Edits lane m') : Traffic w m m' a
  /-- An insertion begins. -/
  | makes {m' h i lane key value offer a}
    (hmade : m.allocate lane offer key value = .ok (a, m')) :
    Traffic w m m' (.invoke h i lane (.insert key value) offer)

variable {w : World κ ν} {o : Outcome κ ν} {i : Nat} {s s' : SharedSet κ ν}

theorem traffic_setSet {a : Action κ ν} {j : Nat} {t t' : SharedSet κ ν} (ht : w.sets[j]? = some t)
    (hs : w.sets[i]? = some s) (hs' : (w.setSet j t').sets[i]? = some s')
    (h : w.Traffic t.memory t'.memory a) : w.Traffic s.memory s'.memory a := by
  rcases setSet_cases ht hs hs' with ⟨rfl, rfl, rfl⟩ | rfl
  · exact h
  · exact .still a

theorem freeNodes_traffic {a : Action κ ν} {j : Nat} {t u : SharedSet κ ν} {lane : Lane}
    {nodes : List Address} {answer : Answer κ ν} (h : w.freeNodes j lane u nodes answer = .ok o)
    (ht : w.sets[j]? = some t) (hmemory : u.memory = t.memory) (hlane : w.lane? a = some lane)
    (hs : w.sets[i]? = some s) (hs' : o.world.sets[i]? = some s') :
    w.Traffic s.memory s'.memory a := by
  obtain ⟨⟨drops, v⟩, hfree, h⟩ := bind_eq_ok.1 h
  cases h
  exact traffic_setSet ht hs hs'
    (.edits hlane (hmemory ▸ SharedSet.freeAll_edits (Halt.lift_eq_ok.1 hfree)))

theorem register_traffic {j : Nat} (h : w.register j = .ok o) (hs : w.sets[i]? = some s)
    (hs' : o.world.sets[i]? = some s') : w.Traffic s.memory s'.memory (.register j) := by
  obtain ⟨t, ht, h⟩ := bind_eq_ok.1 h
  split at h <;> cases h
  · rw [hs] at hs'
    cases hs'
    exact .still _
  · exact traffic_setSet (of_set ht) hs hs' (.still _)

theorem release_traffic {k : Nat} (h : w.release k = .ok o) (hs : w.sets[i]? = some s)
    (hs' : o.world.sets[i]? = some s') : w.Traffic s.memory s'.memory (.release k) := by
  obtain ⟨x, -, h⟩ := bind_eq_ok.1 h
  obtain ⟨t, ht, h⟩ := bind_eq_ok.1 h
  cases h
  exact traffic_setSet (of_set ht) hs hs' (.still _)

/-- The task of an insertion comes with a new node, all other calls leave memory as it is. -/
theorem task_traffic {k j : Nat} {lane : Lane} {offer : Option Address} {call : Call κ ν}
    {new : Option (Task κ)} (h : task s lane offer call = .ok (new, s')) :
    w.Traffic s.memory s'.memory (.invoke k j lane call offer) ∧
      (new = none → s'.memory = s.memory) := by
  cases call with
  | insert key value =>
    obtain ⟨⟨node, m⟩, hmade, h⟩ := bind_eq_ok.1 h
    cases h
    exact ⟨.makes hmade, fun hnew => nomatch hnew⟩
  | _ =>
    cases h
    exact ⟨.still _, fun _ => rfl⟩

theorem invoke_traffic {k j : Nat} {lane : Lane} {call : Call κ ν} {offer : Option Address}
    (h : w.invoke k j lane call offer = .ok o) (hs : w.sets[i]? = some s)
    (hs' : o.world.sets[i]? = some s') :
    w.Traffic s.memory s'.memory (.invoke k j lane call offer) := by
  obtain ⟨t, ht, h⟩ := bind_eq_ok.1 h
  obtain ⟨x, -, h⟩ := bind_eq_ok.1 h
  split at h
  · obtain ⟨⟨new, u⟩, htask, h⟩ := bind_eq_ok.1 h
    obtain ⟨htraffic, hnone⟩ := task_traffic (w := w) (k := k) (j := j) (Halt.lift_eq_ok.1 htask)
    cases new with
    | none => exact freeNodes_traffic h (of_set ht) (hnone rfl) rfl hs hs'
    | some new =>
      obtain ⟨sch, -, h⟩ := bind_eq_ok.1 h
      cases h
      exact traffic_setSet (of_set ht) hs hs' htraffic
  · cases h
    rw [hs] at hs'
    cases hs'
    exact .still _

theorem proceed_traffic [Ord κ] (h : w.proceed = .ok o) (hs : w.sets[i]? = some s)
    (hs' : o.world.sets[i]? = some s') : w.Traffic s.memory s'.memory .proceed := by
  rw [proceed] at h
  split at h
  · cases h
  · next b rest hrun =>
    obtain ⟨x, -, h⟩ := bind_eq_ok.1 h
    obtain ⟨t, ht, h⟩ := bind_eq_ok.1 h
    obtain ⟨st, hst, h⟩ := bind_eq_ok.1 h
    have hedits : w.Traffic t.memory st.set.memory .proceed :=
      .edits (by rw [lane?, hrun]; rfl) (Frame.step_edits (Halt.lift_eq_ok.1 hst))
    dsimp only at h
    split at h
    · cases h
      exact traffic_setSet (of_set ht) hs hs' hedits
    · obtain ⟨w', hfinish, h⟩ := bind_eq_ok.1 h
      cases h
      have hfinish := Halt.lift_eq_ok.1 hfinish
      rw [finish] at hfinish
      split at hfinish
      · obtain ⟨sch, -, hfinish⟩ := bind_eq_ok.1 hfinish
        cases hfinish
        exact traffic_setSet (of_set ht) hs hs' hedits
      · cases hfinish
        exact traffic_setSet (of_set ht) hs hs' hedits

theorem resume_traffic {k : Nat} (h : w.resume k = .ok o) (hs : w.sets[i]? = some s)
    (hs' : o.world.sets[i]? = some s') : w.Traffic s.memory s'.memory (.resume k) := by
  obtain ⟨x, -, h⟩ := bind_eq_ok.1 h
  split at h
  · obtain ⟨t, ht, h⟩ := bind_eq_ok.1 h
    obtain ⟨sch, -, h⟩ := bind_eq_ok.1 h
    cases h
    exact traffic_setSet (of_set ht) hs hs' (.still _)
  · cases h

theorem advance_traffic {j : Nat} (h : w.advance j = .ok o) (hs : w.sets[i]? = some s)
    (hs' : o.world.sets[i]? = some s') : w.Traffic s.memory s'.memory (.advance j) := by
  obtain ⟨t, ht, h⟩ := bind_eq_ok.1 h
  split at h
  · cases h
    exact traffic_setSet (of_set ht) hs hs' (.still _)
  · cases h

theorem collect_traffic {j : Nat} {lane : Lane} (h : w.collect j lane = .ok o)
    (hs : w.sets[i]? = some s) (hs' : o.world.sets[i]? = some s') :
    w.Traffic s.memory s'.memory (.collect j lane) := by
  obtain ⟨t, ht, h⟩ := bind_eq_ok.1 h
  split at h
  · exact freeNodes_traffic h (of_set ht) rfl rfl hs hs'
  · cases h

theorem scan_traffic {j : Nat} {lane : Lane} (h : w.scan j lane = .ok o)
    (hs : w.sets[i]? = some s) (hs' : o.world.sets[i]? = some s') :
    w.Traffic s.memory s'.memory (.scan j lane) := by
  obtain ⟨t, ht, h⟩ := bind_eq_ok.1 h
  split at h
  · cases h
  · exact freeNodes_traffic h (of_set ht) rfl rfl hs hs'

/-- Every action does one of these things to the memory of every set. -/
theorem step_traffic [Ord κ] {a : Action κ ν} (h : w.step a = .ok o) (hs : w.sets[i]? = some s)
    (hs' : o.world.sets[i]? = some s') : w.Traffic s.memory s'.memory a := by
  cases a with
  | proceed => exact proceed_traffic h hs hs'
  | register j => exact (bind_eq_ok.1 h).elim fun _ h => register_traffic h.2 hs hs'
  | release k => exact (bind_eq_ok.1 h).elim fun _ h => release_traffic h.2 hs hs'
  | invoke k j lane call offer => exact (bind_eq_ok.1 h).elim fun _ h => invoke_traffic h.2 hs hs'
  | resume k => exact (bind_eq_ok.1 h).elim fun _ h => resume_traffic h.2 hs hs'
  | advance j => exact (bind_eq_ok.1 h).elim fun _ h => advance_traffic h.2 hs hs'
  | collect j lane => exact (bind_eq_ok.1 h).elim fun _ h => collect_traffic h.2 hs hs'
  | scan j lane => exact (bind_eq_ok.1 h).elim fun _ h => scan_traffic h.2 hs hs'

end World

end MarkedChain
