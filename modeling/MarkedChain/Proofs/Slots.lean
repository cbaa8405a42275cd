import MarkedChain.Proofs.Retirements

/-!
# What the slots of an operation publish

Under hazard slots the record of an operation publishes the nodes it stands on (`Point.Published`):
the owner of the link before, the current node, and the next node once it was read. Whichever way a
step goes through the walk, it moves the slots along with the operation (`Frame.step_publishes`).
What others do leaves the slots alone (`World.Turn.shield?`).
-/

namespace MarkedChain

namespace Scheme

variable {α : Type} {s s' : Scheme α} {r r' : Nat}

/-! ## The slots of a record -/

/-- The slots of a record, under hazard slots. -/
def shield? : Scheme α → Nat → Option (Shield α)
  | .epochs _, _ => none
  | .hazards h, r => h.roster.record? r

/-- Under hazard slots a record that exists has slots. -/
theorem exists_shield {d : Nat} (hv : s.validates = true) (hd : s.depth? r = some d) :
    ∃ q, s.shield? r = some q := by
  cases s with
  | epochs e => cases hv
  | hazards h =>
    obtain ⟨q, hq, -⟩ := Option.map_eq_some_iff.1 hd
    exact ⟨q, hq⟩

theorem shield?_publish (s : Scheme α) (r : Nat) (slot : Slot) (x : Option α) (r' : Nat) :
    (s.publish r slot x).shield? r' =
      if r = r' then (s.shield? r').map (·.publish slot x) else s.shield? r' := by
  cases s with
  | epochs e => simp [publish, shield?]
  | hazards h => exact Roster.record?_update _ _ _ _

theorem shield?_transfer (s : Scheme α) (r : Nat) (source target : Slot) (r' : Nat) :
    (s.transfer r source target).shield? r' =
      if r = r' then (s.shield? r').map (·.transfer source target) else s.shield? r' := by
  cases s with
  | epochs e => simp [transfer, shield?]
  | hazards h => exact Roster.record?_update _ _ _ _

/-- A change of one record leaves the slots of the others alone. -/
theorem shield?_of_spares {h : Hazards α} {roster : Roster (Shield α)}
    (hspares : h.roster.Spares roster r) (hr : r ≠ r') :
    (Scheme.hazards { h with roster := roster }).shield? r' = (Scheme.hazards h).shield? r' :=
  hspares.record? r' (Ne.symm hr)

theorem Shifts.shield? (h : Shifts r s s') (hr : r ≠ r') : s'.shield? r' = s.shield? r' := by
  induction h with
  | refl => rfl
  | publish _ slot x ih => rw [shield?_publish, if_neg hr, ih]
  | transfer _ source target ih => rw [shield?_transfer, if_neg hr, ih]

/-- A reclamation looks at the slots and does not change them. -/
theorem shield?_reclaim [DecidableEq α] (s : Scheme α) (r : Nat) :
    s.reclaim.2.shield? r = s.shield? r := by
  cases s <;> rfl

/-- A retirement may scan, but it changes no slot. -/
theorem shield?_retire [DecidableEq α] {node : α} {nodes : List α}
    (h : s.retire r node = .ok (nodes, s')) (r' : Nat) : s'.shield? r' = s.shield? r' := by
  cases s with
  | epochs e =>
    cases h
    rfl
  | hazards q => obtain ⟨n, -, ⟨-, rfl⟩ | ⟨-, rfl⟩⟩ := retire_hazards h <;> rfl

theorem Works.shield? [DecidableEq α] (h : Works r s s') (hr : r ≠ r') :
    s'.shield? r' = s.shield? r' := by
  cases h with
  | shifts h => exact h.shield? hr
  | retires hbefore hretire hafter =>
    rw [hafter.shield? hr, shield?_retire hretire, hbefore.shield? hr]

theorem shield?_pin (h : s.pin r = .ok s') (hr : r ≠ r') : s'.shield? r' = s.shield? r' := by
  obtain ⟨e, rfl, rfl⟩ | ⟨q, shield, rfl, rfl⟩ := pin_cases h
  · rfl
  · exact shield?_of_spares (Roster.spares_update _ _ _) hr

theorem shield?_unpin (h : s.unpin r = .ok s') (hr : r ≠ r') : s'.shield? r' = s.shield? r' := by
  obtain ⟨e, p, p', rfl, -, -, rfl⟩ | ⟨q, rfl, rfl⟩ := unpin_cases h
  · rfl
  · exact shield?_of_spares (Roster.spares_update _ _ _) hr

theorem shield?_register (h : s.register = .ok (r, s')) (hr : r ≠ r') :
    s'.shield? r' = s.shield? r' := by
  cases s with
  | epochs e =>
    obtain ⟨⟨i, roster⟩, -, hok⟩ := bind_eq_ok.1 h
    cases hok
    rfl
  | hazards q =>
    obtain ⟨⟨i, roster⟩, hacquire, hok⟩ := bind_eq_ok.1 h
    cases hok
    exact shield?_of_spares (Roster.acquire_eq_ok hacquire).1 hr

theorem shield?_release (s : Scheme α) (hr : r ≠ r') :
    (s.release r).shield? r' = s.shield? r' := by
  cases s with
  | epochs e => rfl
  | hazards q =>
    exact shield?_of_spares ((Roster.spares_update _ _ _).trans (Roster.spares_release _ _)) hr

end Scheme

/-! ## Where an operation stands -/

/-- The slots publish what an operation stands on: the owner of the link before, the current node,
and the next node once the link to it was read. -/
def Point.Published (q : Shield Address) : Point → Prop
  | .start => True
  | .inspect pred curr => (∀ a, pred = .node a → q.pred = some a) ∧ q.curr = curr
  | .encounter pred curr next | .judge pred curr next =>
    (∀ a, pred = .node a → q.pred = some a) ∧ q.curr = some curr ∧ q.succ = next.target

variable {κ ν : Type} {s : SharedSet κ ν} {who : Actor} {st : Stride κ ν} {q : Shield Address}

/-- A record publishes what an operation stands on. -/
def SharedSet.Publishes (s : SharedSet κ ν) (r : Nat) (p : Point) : Prop :=
  ∃ q, s.scheme.shield? r = some q ∧ p.Published q

namespace SharedSet

theorem shield?_publish (hq : s.scheme.shield? who.record = some q) (slot : Slot)
    (x : Option Address) :
    (s.publish who slot x).scheme.shield? who.record = some (q.publish slot x) := by
  rw [publish, Scheme.shield?_publish, if_pos rfl, hq, Option.map_some]

theorem shield?_transfer (hq : s.scheme.shield? who.record = some q) (source target : Slot) :
    (s.transfer who source target).scheme.shield? who.record =
      some (q.transfer source target) := by
  rw [transfer, Scheme.shield?_transfer, if_pos rfl, hq, Option.map_some]

theorem Publishes.congr {s' : SharedSet κ ν} {r : Nat} {p : Point} (h : s.Publishes r p)
    (hsame : s'.scheme.shield? r = s.scheme.shield? r) : s'.Publishes r p := by
  obtain ⟨q, hq, hp⟩ := h
  exact ⟨q, hsame.trans hq, hp⟩

end SharedSet

/-- What a step leaves in the slots: if the operation goes on, what it stands on then, and if it
ends, what was there before. -/
def Stride.Publishes (s : SharedSet κ ν) (r : Nat) (st : Stride κ ν) : Prop :=
  match st.next with
  | .goes f => st.set.Publishes r f.point
  | .ends _ => st.set.scheme.shield? r = s.scheme.shield? r

namespace Step

/-- A walk that starts again relies on no slot. -/
theorem again_publishes {s' : SharedSet κ ν} {r : Nat} (hq : s'.scheme.shield? r = some q)
    (t : Task κ) : (again s' t).Publishes s r :=
  ⟨q, hq, trivial⟩

/-- When a marked node was unlinked the next node becomes the current one. When the link before has
changed, the node that it leads to now is published instead. -/
theorem help_publishes {t : Task κ} {pred : Place} {curr : Address} {after : Option Address}
    {s₀ : SharedSet κ ν} (h : help s who t pred curr after = .ok st)
    (hq : s.scheme.shield? who.record = some q) (hpred : ∀ a, pred = .node a → q.pred = some a)
    (hsucc : q.succ = after) : st.Publishes s₀ who.record := by
  obtain ⟨⟨x, s₁⟩, hx, h⟩ := bind_eq_ok.1 h
  have hq₁ := (congrArg (·.shield? who.record) (SharedSet.exchange_scheme hx)).trans hq
  cases x with
  | written _ =>
    obtain ⟨⟨drops, s₂⟩, hretire, h⟩ := bind_eq_ok.1 h
    obtain ⟨nodes, hretire⟩ := SharedSet.retire_scheme hretire
    have hq₂ := (Scheme.shield?_retire hretire who.record).trans hq₁
    cases h
    exact ⟨_, SharedSet.shield?_transfer hq₂ .succ .curr, hpred, hsucc⟩
  | refused seen =>
    dsimp only at h
    split at h <;> cases h
    · exact again_publishes hq₁ t
    · exact ⟨_, SharedSet.shield?_publish hq₁ .curr seen.target, hpred, rfl⟩

/-- The next node is published before anything is made of it. -/
theorem inspect_publishes {t : Task κ} {pred : Place} {curr : Address}
    (h : inspect s who t pred curr = .ok st)
    (hp : s.Publishes who.record (.inspect pred (some curr))) :
    st.Publishes s who.record := by
  obtain ⟨q, hq, hpred, hcurr⟩ := hp
  obtain ⟨n, -, h⟩ := bind_eq_ok.1 h
  have hq₁ := SharedSet.shield?_publish hq .succ n.next.target
  dsimp only at h
  split at h
  · obtain ⟨still, -, h⟩ := bind_eq_ok.1 h
    split at h
    · split at h
      · exact help_publishes h hq₁ hpred rfl
      · cases h
        exact ⟨_, hq₁, hpred, hcurr, rfl⟩
    · cases h
      exact again_publishes hq₁ t
  · cases h
    exact ⟨_, hq₁, hpred, hcurr, rfl⟩

/-- A step behind the walk leaves the slots alone, and after it the operation ends or walks
again. -/
theorem linkIn_publishes {t : Task κ} {node : Address} {pred : Place} {curr : Option Address}
    (h : linkIn s t node pred curr = .ok st) (hq : s.scheme.shield? who.record = some q) :
    st.Publishes s who.record := by
  obtain ⟨s₁, hset, h⟩ := bind_eq_ok.1 h
  obtain ⟨⟨x, s₂⟩, hx, h⟩ := bind_eq_ok.1 h
  have hscheme := congrArg (·.shield? who.record)
    ((SharedSet.exchange_scheme hx).trans (SharedSet.setLink_scheme hset))
  cases x <;> cases h
  · exact hscheme
  · exact again_publishes (hscheme.trans hq) t

theorem takeOut_publishes {key : κ} {pred : Place} {curr : Address}
    (h : takeOut s who key pred curr = .ok st) (hq : s.scheme.shield? who.record = some q) :
    st.Publishes s who.record := by
  obtain ⟨succ, -, h⟩ := bind_eq_ok.1 h
  split at h
  · cases h
    exact again_publishes hq _
  · obtain ⟨⟨x, s₁⟩, hx, h⟩ := bind_eq_ok.1 h
    have hsame := congrArg (·.shield? who.record) (SharedSet.exchange_scheme hx)
    cases x with
    | refused _ =>
      cases h
      exact again_publishes (hsame.trans hq) _
    | written _ =>
      obtain ⟨⟨y, s₂⟩, hy, h⟩ := bind_eq_ok.1 h
      have hsame := (congrArg (·.shield? who.record) (SharedSet.exchange_scheme hy)).trans hsame
      cases y with
      | refused _ =>
        cases h
        exact again_publishes (hsame.trans hq) _
      | written _ =>
        obtain ⟨⟨drops, s₃⟩, hretire, h⟩ := bind_eq_ok.1 h
        obtain ⟨nodes, hretire⟩ := SharedSet.retire_scheme hretire
        cases h
        exact (Scheme.shield?_retire hretire who.record).trans hsame

variable [Ord κ]

/-- When a walk passes on, the current node becomes the owner of the link before and the next node
the current one. -/
theorem encounter_publishes {t : Task κ} {pred : Place} {curr : Address} {next : Link Address}
    (h : encounter s who t pred curr next = .ok st)
    (hp : s.Publishes who.record (.encounter pred curr next)) : st.Publishes s who.record := by
  have ⟨q, hq, hpred, hcurr, hsucc⟩ := hp
  obtain ⟨n, -, h⟩ := bind_eq_ok.1 h
  split at h <;> cases h
  · refine ⟨_, SharedSet.shield?_transfer (SharedSet.shield?_transfer hq .curr .pred) .succ .curr,
      ?_, hsucc⟩
    intro a ha
    cases ha
    exact hcurr
  · cases t with
    | unlink | size | isEmpty | keys => rfl
    | _ => exact hp

theorem judge_publishes {t : Task κ} {pred : Place} {curr : Address} {next : Link Address}
    (h : judge s who t pred curr next = .ok st) (hq : s.scheme.shield? who.record = some q) :
    st.Publishes s who.record := by
  obtain ⟨n, -, h⟩ := bind_eq_ok.1 h
  cases t with
  | insert fresh key =>
    dsimp only at h
    split at h
    · obtain ⟨⟨drops, s₁⟩, hfree, h⟩ := bind_eq_ok.1 h
      cases h
      exact congrArg (·.shield? who.record) (SharedSet.freeAll_scheme hfree)
    · exact linkIn_publishes h hq
  | remove key =>
    dsimp only at h
    split at h
    · exact takeOut_publishes h hq
    · cases h
      rfl
  | _ =>
    cases h
    rfl

end Step

/-- A step moves the slots along with the operation. -/
theorem Frame.step_publishes [Ord κ] {f : Frame κ} (h : f.step s who = .ok st)
    (hp : s.Publishes who.record f.point) : st.Publishes s who.record := by
  obtain ⟨t, p⟩ := f
  obtain ⟨q, hq, -⟩ := id hp
  cases p with
  | start =>
    cases h
    exact ⟨_, SharedSet.shield?_publish hq .curr s.head.target, nofun, rfl⟩
  | inspect pred curr =>
    cases curr with
    | some curr => exact Step.inspect_publishes h hp
    | none =>
      cases t with
      | insert node key => exact Step.linkIn_publishes h hq
      | _ =>
        cases h
        rfl
  | encounter pred curr next => exact Step.encounter_publishes h hp
  | judge pred curr next => exact Step.judge_publishes h hq

/-! ## Others -/

namespace World

variable {w : World κ ν} {a : Action κ ν} {i n : Nat} {y : Handle}

/-- An action moves the operation of a handle on, or it ends the protection that the operation has
kept. -/
def Drives (w : World κ ν) (n : Nat) : Action κ ν → Prop
  | .proceed => ∃ b rest, w.running = b :: rest ∧ b.handle = n
  | .resume h => h = n ∧ ∃ x, w.handles[n]? = some x ∧ x.status = .holding
  | _ => False

theorem handle_ne_of_not_drives {b : Activation κ} {rest : List (Activation κ)}
    (h : ¬ w.Drives n .proceed) (hrun : w.running = b :: rest) : b.handle ≠ n :=
  fun hn => h ⟨b, rest, hrun, hn⟩

variable [Ord κ]

/-- As long as the operation of a handle is not moved on and its protection not ended, its slots
stay as they are. -/
theorem Turn.shield? {s : SharedSet κ ν} {sch : Scheme Address} (h : w.Turn i s.scheme sch a)
    (hw : w.Sound) (hs : w.sets[i]? = some s) (hy : w.handles[n]? = some y) (hset : y.set = i)
    (hbusy : y.status = .running ∨ y.status = .holding) (hother : ¬ w.Drives n a) :
    sch.shield? y.record = s.scheme.shield? y.record := by
  have hlive : y.status ≠ .released := by rcases hbusy with hy | hy <;> rw [hy] <;> decide
  -- the record of another handle of the set
  have hapart : ∀ {k : Nat} {x : Handle}, w.handles[k]? = some x → x.status ≠ .released →
      x.set = i → k ≠ n → x.record ≠ y.record := by
    intro k x hx hxlive hxset hne hrecord
    exact hne (hw.apart _ _ x y hx hy hxlive hlive (hxset.trans hset.symm) hrecord)
  have hidle : ∀ {k : Nat} {x : Handle}, w.handles[k]? = some x → x.status = .idle → k ≠ n := by
    rintro k x hx hidle rfl
    rw [hx] at hy
    cases hy
    rw [hidle] at hbusy
    rcases hbusy with h | h <;> cases h
  cases h with
  | elsewhere | full => rfl
  | register hreg =>
    obtain ⟨-, -, -, hfree, -⟩ :=
      Scheme.register_eq_ok (hw.sets i s hs).scheme (hw.quiet i s hs) hreg
    refine Scheme.shield?_register hreg fun hr => ?_
    subst hset
    subst hr
    exact hfree (hw.depth? hy hlive hs).1
  | release hx hrest hxset =>
    exact Scheme.shield?_release _ (hapart hx (by rw [hrest]; decide) hxset (hidle hx hrest))
  | pin lane offer hx hrest hxset hcall hpin =>
    exact Scheme.shield?_pin hpin (hapart hx (by rw [hrest]; decide) hxset (hidle hx hrest))
  | reclaim => exact Scheme.shield?_reclaim _ _
  | advance hs | collect hs lane | scan hs lane => rw [hs]; rfl
  | @works b rest x s' hrun hx hxset hworks =>
    obtain ⟨x', t, hx', hstatus, -⟩ := hw.running b (by simp [hrun])
    rw [hx] at hx'
    cases hx'
    exact hworks.shield?
      (hapart hx (by rw [hstatus]; decide) hxset (handle_ne_of_not_drives hother hrun))
  | @ends b rest x s₁ s' hrun hx hxset hworks hunpin =>
    obtain ⟨x', t, hx', hstatus, -⟩ := hw.running b (by simp [hrun])
    rw [hx] at hx'
    cases hx'
    have hne :=
      hapart hx (by rw [hstatus]; decide) hxset (handle_ne_of_not_drives hother hrun)
    rw [Scheme.shield?_unpin hunpin hne, hworks.shield? hne]
  | resume hx hholding hxset hunpin =>
    refine Scheme.shield?_unpin hunpin (hapart hx (by rw [hholding]; decide) hxset ?_)
    rintro rfl
    exact hother ⟨rfl, _, hx, hholding⟩

end World

end MarkedChain
