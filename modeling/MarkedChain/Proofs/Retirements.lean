import MarkedChain.Proofs.Lifetime

/-!
# What is done to the records of a set

A step of an operation moves the slots of its record and retires one node at most
(`Scheme.Works`, `Frame.step_works`). `World.Turn` lists what an action does to the reclamation of a
set, one constructor for each kind of action, and every action does one of these things
(`World.step_turn`). Nothing here depends on what the chain looks like.
-/

namespace MarkedChain

namespace Scheme

variable {α : Type}

/-! ## What a step does -/

/-- Nothing has changed but what the slots of a record publish. -/
inductive Shifts (r : Nat) (s : Scheme α) : Scheme α → Prop where
  | refl : Shifts r s s
  | publish {s'} (h : Shifts r s s') (slot x) : Shifts r s (s'.publish r slot x)
  | transfer {s'} (h : Shifts r s s') (source target) : Shifts r s (s'.transfer r source target)

/-- The slots of a record have changed, and perhaps its holder has retired a node in between. -/
inductive Works [DecidableEq α] (r : Nat) (s : Scheme α) : Scheme α → Prop where
  | shifts {s'} (h : Shifts r s s') : Works r s s'
  | retires {s₁ s₂ s' node nodes} (hbefore : Shifts r s s₁)
    (hretire : s₁.retire r node = .ok (nodes, s₂)) (hafter : Shifts r s₂ s') : Works r s s'

variable {r : Nat} {s s' s'' : Scheme α}

/-- What a retirement comes to under hazard slots: the node waits with the others, and there is a
scan if they have become more than the threshold. -/
theorem retire_hazards [DecidableEq α] {h : Hazards α} {node : α} {nodes : List α}
    (hretire : (Scheme.hazards h).retire r node = .ok (nodes, s')) :
    ∃ n, Tuning.scanThreshold? h.scanFactor h.scanFloor h.roster.active = some n ∧
      (n < (h.limbo.push node 0).pending ∧
          s' = .hazards ({ h with limbo := h.limbo.push node 0 } : Hazards α).scan.2 ∨
        ¬ n < (h.limbo.push node 0).pending ∧
          s' = .hazards { h with limbo := h.limbo.push node 0 }) := by
  obtain ⟨⟨freed, h'⟩, hh', hok⟩ := bind_eq_ok.1 hretire
  cases hok
  rw [Hazards.retire] at hh'
  split at hh'
  · cases hh'
  · next n hn =>
    refine ⟨n, hn, ?_⟩
    split at hh' <;> cases hh'
    · next hlt => exact .inl ⟨hlt, rfl⟩
    · next hle => exact .inr ⟨hle, rfl⟩

theorem Shifts.trans (h : Shifts r s s') (h' : Shifts r s' s'') : Shifts r s s'' := by
  induction h' with
  | refl => exact h
  | publish _ slot x ih => exact ih.publish slot x
  | transfer _ source target ih => exact ih.transfer source target

/-- What is moved in the slots only is nothing under epochs. -/
theorem Shifts.eq_of_epochs {e : Epochs α} (h : Shifts r (.epochs e) s') : s' = .epochs e := by
  induction h with
  | refl => rfl
  | publish _ slot x ih | transfer _ source target ih => rw [ih]; rfl

/-- Under hazard slots only the roster has changed, and no record has come or gone. -/
theorem Shifts.exists_roster {h : Hazards α} (hs : Shifts r (.hazards h) s') :
    ∃ roster, s' = .hazards { h with roster } ∧ roster.active = h.roster.active ∧
      roster.size = h.roster.size ∧ ∀ i, roster.taken? i = h.roster.taken? i := by
  induction hs with
  | refl => exact ⟨h.roster, rfl, rfl, rfl, fun _ => rfl⟩
  | publish _ slot x ih | transfer _ source target ih =>
    obtain ⟨roster, rfl, hactive, hsize, htaken⟩ := ih
    refine ⟨_, rfl, hactive, ?_, fun i => (Roster.taken?_update _ _ _ _).trans (htaken i)⟩
    simpa [Roster.update, Roster.size] using hsize

theorem Shifts.limbo (h : Shifts r s s') : s'.limbo = s.limbo := by
  induction h with
  | refl => rfl
  | publish _ _ _ ih => exact (publish_touches _ _ _ _).limbo.trans ih
  | transfer _ _ _ ih => exact (transfer_touches _ _ _ _).limbo.trans ih

end Scheme

variable {κ ν : Type}

section

open Scheme

variable {s s' : SharedSet κ ν} {who : Actor} {st : Stride κ ν}

theorem SharedSet.publish_shifts (s : SharedSet κ ν) (who : Actor) (slot : Slot)
    (x : Option Address) : Shifts who.record s.scheme (s.publish who slot x).scheme :=
  .publish .refl slot x

theorem SharedSet.transfer_shifts (s : SharedSet κ ν) (who : Actor) (source target : Slot) :
    Shifts who.record s.scheme (s.transfer who source target).scheme :=
  .transfer .refl source target

theorem SharedSet.freeAll_scheme {lane : Lane} {nodes : List Address} {drops : List ν}
    (h : s.freeAll lane nodes = .ok (drops, s')) : s'.scheme = s.scheme := by
  obtain ⟨⟨values, m⟩, -, h⟩ := bind_eq_ok.1 h
  cases h
  rfl

theorem SharedSet.retire_scheme {r : Nat} {lane : Lane} {node : Address} {drops : List ν}
    (h : s.retire r lane node = .ok (drops, s')) :
    ∃ nodes, s.scheme.retire r node = .ok (nodes, s'.scheme) := by
  obtain ⟨⟨nodes, sch⟩, hretire, h⟩ := bind_eq_ok.1 h
  exact ⟨nodes, by rw [hretire, freeAll_scheme h]⟩

namespace Step

theorem help_works {t : Task κ} {pred : Place} {curr : Address} {after : Option Address}
    (h : help s who t pred curr after = .ok st) : Works who.record s.scheme st.set.scheme := by
  obtain ⟨⟨x, s₁⟩, hx, h⟩ := bind_eq_ok.1 h
  have hscheme := SharedSet.exchange_scheme hx
  cases x with
  | written _ =>
    obtain ⟨⟨drops, s₂⟩, hretire, h⟩ := bind_eq_ok.1 h
    obtain ⟨nodes, hretire⟩ := SharedSet.retire_scheme hretire
    cases h
    exact .retires .refl (hscheme ▸ hretire) (SharedSet.transfer_shifts _ _ _ _)
  | refused seen =>
    dsimp only at h
    split at h <;> cases h
    · exact .shifts (hscheme ▸ .refl)
    · exact .shifts (hscheme ▸ SharedSet.publish_shifts _ _ _ _)

theorem inspect_works {t : Task κ} {pred : Place} {curr : Address}
    (h : inspect s who t pred curr = .ok st) : Works who.record s.scheme st.set.scheme := by
  obtain ⟨n, -, h⟩ := bind_eq_ok.1 h
  have hshifts := SharedSet.publish_shifts s who .succ n.next.target
  dsimp only at h
  split at h
  · obtain ⟨still, -, h⟩ := bind_eq_ok.1 h
    split at h
    · split at h
      · cases help_works h with
        | shifts h' => exact .shifts (hshifts.trans h')
        | retires hbefore hretire hafter => exact .retires (hshifts.trans hbefore) hretire hafter
      · cases h
        exact .shifts hshifts
    · cases h
      exact .shifts hshifts
  · cases h
    exact .shifts hshifts

theorem linkIn_works {t : Task κ} {node : Address} {pred : Place} {curr : Option Address}
    (h : linkIn s t node pred curr = .ok st) : Works who.record s.scheme st.set.scheme := by
  obtain ⟨s₁, hset, h⟩ := bind_eq_ok.1 h
  obtain ⟨⟨x, s₂⟩, hx, h⟩ := bind_eq_ok.1 h
  have hscheme := (SharedSet.exchange_scheme hx).trans (SharedSet.setLink_scheme hset)
  cases x <;> cases h <;> exact .shifts (hscheme ▸ .refl)

theorem takeOut_works {key : κ} {pred : Place} {curr : Address}
    (h : takeOut s who key pred curr = .ok st) : Works who.record s.scheme st.set.scheme := by
  obtain ⟨succ, -, h⟩ := bind_eq_ok.1 h
  split at h
  · cases h
    exact .shifts .refl
  · obtain ⟨⟨x, s₁⟩, hx, h⟩ := bind_eq_ok.1 h
    have hscheme := SharedSet.exchange_scheme hx
    cases x with
    | refused _ =>
      cases h
      exact .shifts (hscheme ▸ .refl)
    | written _ =>
      obtain ⟨⟨y, s₂⟩, hy, h⟩ := bind_eq_ok.1 h
      have hscheme := (SharedSet.exchange_scheme hy).trans hscheme
      cases y with
      | refused _ =>
        cases h
        exact .shifts (hscheme ▸ .refl)
      | written _ =>
        obtain ⟨⟨drops, s₃⟩, hretire, h⟩ := bind_eq_ok.1 h
        obtain ⟨nodes, hretire⟩ := SharedSet.retire_scheme hretire
        cases h
        exact .retires .refl (hscheme ▸ hretire) .refl

variable [Ord κ]

theorem encounter_works {t : Task κ} {pred : Place} {curr : Address} {next : Link Address}
    (h : encounter s who t pred curr next = .ok st) :
    Works who.record s.scheme st.set.scheme := by
  obtain ⟨n, -, h⟩ := bind_eq_ok.1 h
  split at h <;> cases h
  · exact .shifts ((SharedSet.transfer_shifts s who .curr .pred).trans
      (SharedSet.transfer_shifts _ who .succ .curr))
  · exact .shifts .refl

theorem judge_works {t : Task κ} {pred : Place} {curr : Address} {next : Link Address}
    (h : judge s who t pred curr next = .ok st) : Works who.record s.scheme st.set.scheme := by
  obtain ⟨n, -, h⟩ := bind_eq_ok.1 h
  cases t with
  | insert fresh key =>
    dsimp only at h
    split at h
    · obtain ⟨⟨drops, s₁⟩, hfree, h⟩ := bind_eq_ok.1 h
      cases h
      exact .shifts (SharedSet.freeAll_scheme hfree ▸ .refl)
    · exact linkIn_works h
  | remove key =>
    dsimp only at h
    split at h
    · exact takeOut_works h
    · cases h
      exact .shifts .refl
  | _ =>
    cases h
    exact .shifts .refl

end Step

/-- A step of an operation moves the slots of its record and retires one node at most. -/
theorem Frame.step_works [Ord κ] {f : Frame κ} (h : f.step s who = .ok st) :
    Works who.record s.scheme st.set.scheme := by
  obtain ⟨t, p⟩ := f
  cases p with
  | start =>
    cases h
    exact .shifts (SharedSet.publish_shifts _ _ _ _)
  | inspect pred curr =>
    cases curr with
    | some curr => exact Step.inspect_works h
    | none =>
      cases t with
      | insert node key => exact Step.linkIn_works h
      | _ =>
        cases h
        exact .shifts .refl
  | encounter pred curr next => exact Step.encounter_works h
  | judge pred curr next => exact Step.judge_works h

end

/-! ## What an action does -/

namespace World

/-- The set that an action concerns. -/
def subject? (w : World κ ν) : Action κ ν → Option Nat
  | .register i | .advance i | .collect i _ | .scan i _ => some i
  | .release h | .resume h => w.setOf? h
  | .invoke h i _ _ _ => if w.setOf? h = some i then some i else none
  | .proceed => w.running.head?.bind fun b => w.setOf? b.handle

/-- What an action does to the reclamation of the set `i`. -/
inductive Turn (w : World κ ν) (i : Nat) (s : Scheme Address) :
    Scheme Address → Action κ ν → Prop where
  /-- It concerns another set. -/
  | elsewhere (a) (ha : w.subject? a ≠ some i) : Turn w i s s a
  /-- No more handles can be registered. -/
  | full {reason} (hreg : s.register = .error reason) : Turn w i s s (.register i)
  | register {r s'} (hreg : s.register = .ok (r, s')) : Turn w i s s' (.register i)
  | release {h x} (hx : w.handles[h]? = some x) (hidle : x.status = .idle) (hset : x.set = i) :
    Turn w i s (s.release x.record) (.release h)
  /-- An operation began. -/
  | pin {h x call s'} (lane offer) (hx : w.handles[h]? = some x) (hidle : x.status = .idle)
    (hset : x.set = i) (hcall : call ≠ .reclaim) (hpin : s.pin x.record = .ok s') :
    Turn w i s s' (.invoke h i lane call offer)
  | reclaim {h x} (lane offer) (hx : w.handles[h]? = some x) (hidle : x.status = .idle)
    (hset : x.set = i) : Turn w i s s.reclaim.2 (.invoke h i lane .reclaim offer)
  | advance {e} (hs : s = .epochs e) : Turn w i s (.epochs e.advance.2) (.advance i)
  | collect {e} (hs : s = .epochs e) (lane) : Turn w i s (.epochs e.collect.2) (.collect i lane)
  | scan {h} (hs : s = .hazards h) (lane) : Turn w i s (.hazards h.scan.2) (.scan i lane)
  /-- The running operation made a step and keeps its guard. -/
  | works {b rest x s'} (hrun : w.running = b :: rest) (hx : w.handles[b.handle]? = some x)
    (hset : x.set = i) (hworks : s.Works x.record s') : Turn w i s s' .proceed
  /-- The running operation made its last step and dropped its guard. -/
  | ends {b rest x s₁ s'} (hrun : w.running = b :: rest) (hx : w.handles[b.handle]? = some x)
    (hset : x.set = i) (hworks : s.Works x.record s₁) (hunpin : s₁.unpin x.record = .ok s') :
    Turn w i s s' .proceed
  /-- The guard of an operation that had kept it was dropped. -/
  | resume {h x s'} (hx : w.handles[h]? = some x) (hholding : x.status = .holding)
    (hset : x.set = i) (hunpin : s.unpin x.record = .ok s') : Turn w i s s' (.resume h)

variable {w : World κ ν} {o : Outcome κ ν} {i : Nat} {s s' : SharedSet κ ν}

theorem of_set {j : Nat} (h : w.set j = .ok s) : w.sets[j]? = some s := by
  exact (w.set_settles j).of_ok h

theorem of_idleHandle {h : Nat} {x : Handle} (hx : w.idleHandle h = .ok x) :
    w.handles[h]? = some x ∧ x.status = .idle :=
  (w.idleHandle_settles h).of_ok hx

/-- An action that replaces one set does nothing to the others. -/
theorem turn_setSet {a : Action κ ν} {j : Nat} {t t' : SharedSet κ ν} (ht : w.sets[j]? = some t)
    (hj : w.subject? a = some j) (hs : w.sets[i]? = some s)
    (hs' : (w.setSet j t').sets[i]? = some s') (h : w.Turn j t.scheme t'.scheme a) :
    w.Turn i s.scheme s'.scheme a := by
  rw [getElem?_setSet ht] at hs'
  split at hs'
  · next hij =>
    subst hij
    rw [hs] at ht
    cases ht
    cases hs'
    exact h
  · next hij =>
    rw [hs] at hs'
    cases hs'
    exact .elsewhere _ (by rw [hj]; exact fun h => hij (Option.some.inj h).symm)

theorem freeNodes_turn {a : Action κ ν} {j : Nat} {t u : SharedSet κ ν} {lane : Lane}
    {nodes : List Address} {answer : Answer κ ν} (h : w.freeNodes j lane u nodes answer = .ok o)
    (ht : w.sets[j]? = some t) (hj : w.subject? a = some j) (hs : w.sets[i]? = some s)
    (hs' : o.world.sets[i]? = some s') (hturn : w.Turn j t.scheme u.scheme a) :
    w.Turn i s.scheme s'.scheme a := by
  obtain ⟨⟨drops, v⟩, hfree, h⟩ := bind_eq_ok.1 h
  cases h
  refine turn_setSet ht hj hs hs' ?_
  rw [SharedSet.freeAll_scheme (Halt.lift_eq_ok.1 hfree)]
  exact hturn

theorem register_turn {j : Nat} (h : w.register j = .ok o) (hs : w.sets[i]? = some s)
    (hs' : o.world.sets[i]? = some s') : w.Turn i s.scheme s'.scheme (.register j) := by
  obtain ⟨t, ht, h⟩ := bind_eq_ok.1 h
  split at h
  · next reason hreg =>
    cases h
    rw [hs] at hs'
    cases hs'
    by_cases hij : i = j
    · subst hij
      obtain rfl := Option.some.inj (hs.symm.trans (of_set ht))
      exact .full hreg
    · exact .elsewhere _ fun h => hij (Option.some.inj h).symm
  · next r sch hreg =>
    cases h
    exact turn_setSet (of_set ht) rfl hs hs' (.register hreg)

theorem release_turn {k : Nat} (h : w.release k = .ok o) (hs : w.sets[i]? = some s)
    (hs' : o.world.sets[i]? = some s') : w.Turn i s.scheme s'.scheme (.release k) := by
  obtain ⟨x, hx, h⟩ := bind_eq_ok.1 h
  obtain ⟨t, ht, h⟩ := bind_eq_ok.1 h
  obtain ⟨hx, hidle⟩ := of_idleHandle hx
  cases h
  exact turn_setSet (of_set ht) (by simp [subject?, setOf?, hx]) hs hs' (.release hx hidle rfl)

/-- To make the task of a call changes nothing of the records, and only to reclaim needs no task. -/
theorem task_scheme {lane : Lane} {offer : Option Address} {call : Call κ ν}
    {new : Option (Task κ)} {t : SharedSet κ ν} (h : task s lane offer call = .ok (new, t)) :
    t.scheme = s.scheme ∧ (new = none ↔ call = .reclaim) := by
  cases call with
  | insert key value =>
    obtain ⟨⟨node, m⟩, -, h⟩ := bind_eq_ok.1 h
    cases h
    simp
  | _ =>
    cases h
    simp

theorem invoke_turn {k j : Nat} {lane : Lane} {call : Call κ ν} {offer : Option Address}
    (h : w.invoke k j lane call offer = .ok o) (hs : w.sets[i]? = some s)
    (hs' : o.world.sets[i]? = some s') :
    w.Turn i s.scheme s'.scheme (.invoke k j lane call offer) := by
  obtain ⟨t, ht, h⟩ := bind_eq_ok.1 h
  obtain ⟨x, hx, h⟩ := bind_eq_ok.1 h
  obtain ⟨hx, hidle⟩ := of_idleHandle hx
  have ht := of_set ht
  split at h
  · next hset =>
    have hj : w.subject? (.invoke k j lane call offer) = some j := by
      simp [subject?, setOf?, hx, hset]
    obtain ⟨⟨new, u⟩, htask, h⟩ := bind_eq_ok.1 h
    obtain ⟨hscheme, hnew⟩ := task_scheme (Halt.lift_eq_ok.1 htask)
    cases new with
    | none =>
      have hturn : w.Turn j t.scheme u.scheme.reclaim.2 (.invoke k j lane call offer) := by
        rw [hnew.1 rfl, hscheme]
        exact .reclaim lane offer hx hidle hset
      exact freeNodes_turn h ht hj hs hs' hturn
    | some new =>
      obtain ⟨sch, hpin, h⟩ := bind_eq_ok.1 h
      cases h
      have hpin := Halt.lift_eq_ok.1 hpin
      rw [hscheme] at hpin
      exact turn_setSet ht hj hs hs'
        (.pin lane offer hx hidle hset (fun hcall => by simpa using hnew.2 hcall) hpin)
  · next hset =>
    cases h
    rw [hs] at hs'
    cases hs'
    exact .elsewhere _ (by simp [subject?, setOf?, hx, hset])

/-- The last step of an operation drops its guard or keeps it. -/
theorem finish_turn {u w' : World κ ν} {k : Nat} {x : Handle} {t v : SharedSet κ ν}
    {reply : Reply κ ν} (h : u.finish k x v reply = .ok w') (hsets : u.sets = w.sets)
    (ht : w.sets[x.set]? = some t) (hj : w.subject? .proceed = some x.set)
    (hs : w.sets[i]? = some s) (hs' : w'.sets[i]? = some s')
    (hkeep : w.Turn x.set t.scheme v.scheme .proceed)
    (hdrop : ∀ sch, v.scheme.unpin x.record = .ok sch → w.Turn x.set t.scheme sch .proceed) :
    w.Turn i s.scheme s'.scheme .proceed := by
  have hset : ∀ {t' : SharedSet κ ν}, (u.setSet x.set t').sets = (w.setSet x.set t').sets := by
    intro t'
    rw [setSet, hsets, setSet]
  rw [finish] at h
  split at h
  · obtain ⟨sch, hunpin, h⟩ := bind_eq_ok.1 h
    cases h
    exact turn_setSet ht hj hs (hset ▸ hs') (hdrop sch hunpin)
  · cases h
    exact turn_setSet ht hj hs (hset ▸ hs') hkeep

theorem proceed_turn [Ord κ] (h : w.proceed = .ok o) (hs : w.sets[i]? = some s)
    (hs' : o.world.sets[i]? = some s') : w.Turn i s.scheme s'.scheme .proceed := by
  rw [proceed] at h
  split at h
  · cases h
  · next b rest hrun =>
    obtain ⟨x, hx, h⟩ := bind_eq_ok.1 h
    obtain ⟨t, ht, h⟩ := bind_eq_ok.1 h
    obtain ⟨st, hst, h⟩ := bind_eq_ok.1 h
    have hx := ((w.handle_settles _).of_ok hx).1
    have ht := of_set ht
    have hworks := Frame.step_works (Halt.lift_eq_ok.1 hst)
    have hj : w.subject? .proceed = some x.set := by simp [subject?, hrun, setOf?, hx]
    dsimp only at h
    split at h
    · cases h
      exact turn_setSet ht hj hs hs' (.works hrun hx rfl hworks)
    · obtain ⟨w', hfinish, h⟩ := bind_eq_ok.1 h
      cases h
      exact finish_turn (Halt.lift_eq_ok.1 hfinish) rfl ht hj hs hs' (.works hrun hx rfl hworks)
        fun sch hunpin => .ends hrun hx rfl hworks hunpin

theorem resume_turn {k : Nat} (h : w.resume k = .ok o) (hs : w.sets[i]? = some s)
    (hs' : o.world.sets[i]? = some s') : w.Turn i s.scheme s'.scheme (.resume k) := by
  obtain ⟨x, hx, h⟩ := bind_eq_ok.1 h
  have hx := ((w.handle_settles k).of_ok hx).1
  split at h
  · next hholding =>
    obtain ⟨t, ht, h⟩ := bind_eq_ok.1 h
    obtain ⟨sch, hunpin, h⟩ := bind_eq_ok.1 h
    cases h
    exact turn_setSet (of_set ht) (by simp [subject?, setOf?, hx]) hs hs'
      (.resume hx hholding rfl (Halt.lift_eq_ok.1 hunpin))
  · cases h

theorem advance_turn {j : Nat} (h : w.advance j = .ok o) (hs : w.sets[i]? = some s)
    (hs' : o.world.sets[i]? = some s') : w.Turn i s.scheme s'.scheme (.advance j) := by
  obtain ⟨t, ht, h⟩ := bind_eq_ok.1 h
  split at h
  · next e he =>
    cases h
    exact turn_setSet (of_set ht) rfl hs hs' (.advance he)
  · cases h

theorem collect_turn {j : Nat} {lane : Lane} (h : w.collect j lane = .ok o)
    (hs : w.sets[i]? = some s) (hs' : o.world.sets[i]? = some s') :
    w.Turn i s.scheme s'.scheme (.collect j lane) := by
  obtain ⟨t, ht, h⟩ := bind_eq_ok.1 h
  split at h
  · next e he => exact freeNodes_turn h (of_set ht) rfl hs hs' (.collect he lane)
  · cases h

theorem scan_turn {j : Nat} {lane : Lane} (h : w.scan j lane = .ok o)
    (hs : w.sets[i]? = some s) (hs' : o.world.sets[i]? = some s') :
    w.Turn i s.scheme s'.scheme (.scan j lane) := by
  obtain ⟨t, ht, h⟩ := bind_eq_ok.1 h
  split at h
  · cases h
  · next q hq => exact freeNodes_turn h (of_set ht) rfl hs hs' (.scan hq lane)

/-- Every action does one of these things to the reclamation of every set. -/
theorem step_turn [Ord κ] {a : Action κ ν} (h : w.step a = .ok o) (hs : w.sets[i]? = some s)
    (hs' : o.world.sets[i]? = some s') : w.Turn i s.scheme s'.scheme a := by
  cases a with
  | proceed => exact proceed_turn h hs hs'
  | register j => exact (bind_eq_ok.1 h).elim fun _ h => register_turn h.2 hs hs'
  | release k => exact (bind_eq_ok.1 h).elim fun _ h => release_turn h.2 hs hs'
  | invoke k j lane call offer => exact (bind_eq_ok.1 h).elim fun _ h => invoke_turn h.2 hs hs'
  | resume k => exact (bind_eq_ok.1 h).elim fun _ h => resume_turn h.2 hs hs'
  | advance j => exact (bind_eq_ok.1 h).elim fun _ h => advance_turn h.2 hs hs'
  | collect j lane => exact (bind_eq_ok.1 h).elim fun _ h => collect_turn h.2 hs hs'
  | scan j lane => exact (bind_eq_ok.1 h).elim fun _ h => scan_turn h.2 hs hs'

end World

/-! ## What is never changed -/

namespace Scheme

variable {α : Type} {s s' s'' : Scheme α} {r : Nat}

/-- The kind of a scheme, its thresholds, and its limit of handles. -/
def settings : Scheme α → Kind × List UInt64 × Option UInt64
  | .epochs e => (.epochs, [e.collectEvery], e.roster.limit)
  | .hazards h => (.hazards, [h.scanFactor, h.scanFloor], h.roster.limit)

/-- Kind, thresholds and limit are as they were, and no record has gone. -/
structure Grows (s s' : Scheme α) : Prop where
  settings : s'.settings = s.settings
  records : s.records ≤ s'.records

namespace Grows

theorem refl (s : Scheme α) : s.Grows s := ⟨rfl, Nat.le_refl _⟩

theorem trans (h : s.Grows s') (h' : s'.Grows s'') : s.Grows s'' :=
  ⟨h'.settings.trans h.settings, Nat.le_trans h.records h'.records⟩

theorem of_epochs {e e' : Epochs α} (h : e'.collectEvery = e.collectEvery)
    (hsize : e.roster.size ≤ e'.roster.size) (hlimit : e'.roster.limit = e.roster.limit) :
    (Scheme.epochs e).Grows (.epochs e') :=
  ⟨by simp [Scheme.settings, h, hlimit], hsize⟩

theorem of_roster {h : Hazards α} {roster : Roster (Shield α)} {limbo : Limbo α}
    (hsize : h.roster.size ≤ roster.size) (hlimit : roster.limit = h.roster.limit) :
    (Scheme.hazards h).Grows (.hazards { h with roster, limbo }) :=
  ⟨by simp [Scheme.settings, hlimit], hsize⟩

theorem update_le {ρ : Type} (roster : Roster ρ) (i : Nat) (f : ρ → ρ) :
    roster.size ≤ (roster.update i f).size := by
  simp [Roster.update, Roster.size]

theorem shifts (h : Shifts r s s') : s.Grows s' := by
  induction h with
  | refl => exact .refl s
  | @publish t _ slot x ih | @transfer t _ source target ih =>
    cases t with
    | epochs e => exact ih
    | hazards q => exact ih.trans (.of_roster (update_le _ _ _) rfl)

theorem advance (e : Epochs α) : (Scheme.epochs e).Grows (.epochs e.advance.2) := by
  rw [Epochs.advance]
  split <;> exact .of_epochs rfl (Nat.le_refl _) rfl

theorem reclaim [DecidableEq α] (s : Scheme α) : s.Grows s.reclaim.2 := by
  cases s with
  | epochs e => exact (advance e).trans (.of_epochs rfl (Nat.le_refl _) rfl)
  | hazards q => exact .of_roster (Nat.le_refl _) rfl

theorem retire [DecidableEq α] {node : α} {nodes : List α}
    (h : s.retire r node = .ok (nodes, s')) : s.Grows s' := by
  cases s with
  | epochs e =>
    cases h
    have hpushed : ∀ n, (Scheme.epochs e).Grows (.epochs (recount { e with
        limbo := e.limbo.push node e.epoch } r n)) :=
      fun n => .of_epochs rfl (update_le _ _ _) rfl
    rw [Epochs.retire]
    split
    · exact (hpushed 0).trans (reclaim _)
    · exact hpushed _
  | hazards q =>
    obtain ⟨n, -, ⟨-, rfl⟩ | ⟨-, rfl⟩⟩ := retire_hazards h <;> exact .of_roster (Nat.le_refl _) rfl

theorem works [DecidableEq α] (h : s.Works r s') : s.Grows s' := by
  cases h with
  | shifts h => exact shifts h
  | retires hbefore hretire hafter =>
    exact (shifts hbefore).trans ((retire hretire).trans (shifts hafter))

theorem pin (h : s.pin r = .ok s') : s.Grows s' := by
  obtain ⟨e, rfl, rfl⟩ | ⟨q, shield, rfl, rfl⟩ := pin_cases h
  · exact .of_epochs rfl (update_le _ _ _) rfl
  · exact .of_roster (update_le _ _ _) rfl

theorem unpin (h : s.unpin r = .ok s') : s.Grows s' := by
  obtain ⟨e, p, p', rfl, -, -, rfl⟩ | ⟨q, rfl, rfl⟩ := unpin_cases h
  · exact .of_epochs rfl (update_le _ _ _) rfl
  · exact .of_roster (update_le _ _ _) rfl

theorem acquire_grows {ρ : Type} {roster roster' : Roster ρ} {fresh : ρ} {i : Nat}
    (h : roster.acquire fresh = .ok (i, roster')) :
    roster.size ≤ roster'.size ∧ roster'.limit = roster.limit := by
  unfold Roster.acquire at h
  split at h
  · cases h
  · split at h <;> cases h <;> simp [Roster.size]

theorem register (h : s.register = .ok (r, s')) : s.Grows s' := by
  cases s with
  | epochs e =>
    obtain ⟨⟨i, roster⟩, hacquire, h⟩ := bind_eq_ok.1 h
    cases h
    exact .of_epochs rfl (acquire_grows hacquire).1 (acquire_grows hacquire).2
  | hazards q =>
    obtain ⟨⟨i, roster⟩, hacquire, h⟩ := bind_eq_ok.1 h
    cases h
    exact .of_roster (acquire_grows hacquire).1 (acquire_grows hacquire).2

theorem release (s : Scheme α) (r : Nat) : s.Grows (s.release r) := by
  cases s with
  | epochs e => exact .of_epochs rfl (by simp [Roster.release, Roster.size]) rfl
  | hazards q =>
    exact .of_roster (by simp [Hazards.clear, Roster.update, Roster.release, Roster.size]) rfl

end Grows

end Scheme

/-- No action changes the thresholds of a set or takes a record away from it. -/
theorem World.Turn.grows {w : World κ ν} {i : Nat} {s s' : Scheme Address} {a : Action κ ν}
    (h : w.Turn i s s' a) : s.Grows s' := by
  cases h with
  | elsewhere | full => exact .refl s
  | register hreg => exact .register hreg
  | release => exact .release s _
  | pin _ _ _ _ _ _ hpin => exact .pin hpin
  | reclaim => exact .reclaim s
  | advance he => exact he ▸ .advance _
  | collect he => exact he ▸ .of_epochs rfl (Nat.le_refl _) rfl
  | scan he => exact he ▸ .of_roster (Nat.le_refl _) rfl
  | works _ _ _ hworks => exact .works hworks
  | ends _ _ _ hworks hunpin => exact (Scheme.Grows.works hworks).trans (.unpin hunpin)
  | resume _ _ _ hunpin => exact .unpin hunpin

/-! ## What only retirements change -/

namespace Scheme

variable {α : Type} {s s' : Scheme α} {r : Nat}

/-- How many nodes each record has retired since it last tried to collect, the oldest record
first. -/
def counts : Scheme α → List Nat
  | .epochs e => e.roster.seats.toList.map fun seat => seat.record.sinceCollection
  | .hazards _ => []

/-- Nothing was retired and nothing freed. A record that was made has retired nothing yet. -/
structure Rests (s s' : Scheme α) : Prop where
  limbo : s'.limbo = s.limbo
  stamp : s'.stamp = s.stamp
  counts : s'.counts = s.counts ∨ s'.counts = s.counts ++ [0]

theorem getElem?_counts {e : Epochs α} (r : Nat) :
    (Scheme.epochs e).counts[r]? = (e.roster.record? r).map Pin.sinceCollection := by
  simp [counts, Roster.record?, Function.comp_def]

namespace Rests

/-- A change of a record that leaves its retirements as they are. -/
theorem of_update (e : Epochs α) (r : Nat) {f : Pin → Pin}
    (hf : ∀ p, e.roster.record? r = some p → (f p).sinceCollection = p.sinceCollection) :
    (Scheme.epochs e).Rests (.epochs { e with roster := e.roster.update r f }) where
  limbo := rfl
  stamp := rfl
  counts := by
    refine .inl (List.ext_getElem? fun r' => ?_)
    rw [getElem?_counts, getElem?_counts, Roster.record?_update]
    split
    · next hr =>
      subst hr
      cases hp : e.roster.record? r with
      | none => rfl
      | some p => exact congrArg some (hf p hp)
    · rfl

theorem pin (h : s.pin r = .ok s') : s.Rests s' := by
  obtain ⟨e, rfl, rfl⟩ | ⟨q, shield, rfl, rfl⟩ := pin_cases h
  · refine of_update e r fun p _ => ?_
    unfold Pin.enter
    split <;> rfl
  · exact ⟨rfl, rfl, .inl rfl⟩

theorem unpin (h : s.unpin r = .ok s') : s.Rests s' := by
  obtain ⟨e, p, p', rfl, hp, hexit, rfl⟩ | ⟨q, rfl, rfl⟩ := unpin_cases h
  · refine of_update e r fun p₀ hp₀ => ?_
    cases hp.symm.trans hp₀
    unfold Pin.exit at hexit
    split at hexit <;> cases hexit
    rfl
  · exact ⟨rfl, rfl, .inl rfl⟩

theorem register (h : s.register = .ok (r, s')) : s.Rests s' := by
  cases s with
  | hazards q =>
    obtain ⟨⟨i, roster⟩, -, h⟩ := bind_eq_ok.1 h
    cases h
    exact ⟨rfl, rfl, .inl rfl⟩
  | epochs e =>
    obtain ⟨⟨i, roster⟩, hacquire, h⟩ := bind_eq_ok.1 h
    cases h
    refine ⟨rfl, rfl, ?_⟩
    unfold Roster.acquire at hacquire
    split at hacquire
    · cases hacquire
    · split at hacquire <;> cases hacquire
      · refine .inl (List.ext_getElem? fun r' => ?_)
        simp only [Scheme.counts, List.getElem?_map, Array.getElem?_toList, Array.getElem?_modify]
        split
        · rw [Option.map_map]
          rfl
        · rfl
      · exact .inr (by simp [Scheme.counts])

theorem release (s : Scheme α) (r : Nat) : s.Rests (s.release r) := by
  cases s with
  | hazards q => exact ⟨rfl, rfl, .inl rfl⟩
  | epochs e =>
    refine ⟨rfl, rfl, .inl (List.ext_getElem? fun r' => ?_)⟩
    rw [Scheme.release, getElem?_counts, getElem?_counts, Roster.record?_release]

end Rests

end Scheme

end MarkedChain
