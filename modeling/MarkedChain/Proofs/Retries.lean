import MarkedChain.Proofs.Atomicity
import MarkedChain.Proofs.Interposition

/-!
# Retries are caused by others, and operations end

The course of an operation is made of its own steps and of groups of steps that others make while it
pauses (`Course`). Each retry is the answer to a group that has changed the chain since the one
before (`Course.accounts`), so there are no more retries than groups. And however a finite number of
groups is interposed, the operation runs out of steps (`World.RunsOut`), since it comes nearer to
its end with each step but for one retry after each group. It ends, unless the scan threshold stops
it at a step that has to retire a node. `Run.retries_bounded` states both for every operation of an
idle handle in a state of a run. An insertion may be stopped before its first step, where pools
cannot be reserved (`not_begins_unreservable`).
-/

namespace MarkedChain

variable {κ ν : Type}

/-- A part of the course of an operation, with the states before and after it: a step of its own,
or steps of others. -/
inductive Leg (κ ν : Type) where
  | own (before after : World κ ν)
  | others (before after : World κ ν)

namespace Leg

/-- Whether others have made steps. -/
def isGroup : Leg κ ν → Bool
  | .own .. => false
  | .others .. => true

/-- The operation has counted a retry on its handle. -/
def Retries (l : Leg κ ν) (k : Nat) : Prop :=
  ∃ v v' x x', l = .own v v' ∧ v.handles[k]? = some x ∧ v'.handles[k]? = some x' ∧
    x.retries < x'.retries

/-- Others have changed the chain of a set. -/
def Changes (l : Leg κ ν) (i : Nat) : Prop :=
  ∃ v v' s s', l = .others v v' ∧ v.sets[i]? = some s ∧ v'.sets[i]? = some s' ∧ ¬ s.SameChain s'

end Leg

/-- The number of groups. -/
def groups (legs : List (Leg κ ν)) : Nat := legs.countP Leg.isGroup

/-- Since the last retry a group has changed the chain. -/
def Disturbed (legs : List (Leg κ ν)) (k i : Nat) : Prop :=
  ∃ earlier g between, legs = earlier ++ g :: between ∧ g.Changes i ∧ ∀ l ∈ between, ¬ l.Retries k

variable [Ord κ]

/-- The course of the operation that is the running one in a state. -/
inductive Course (w : World κ ν) : List (Leg κ ν) → World κ ν → Prop where
  | nil : Course w [] w
  | own {legs v o} (h : Course w legs v) (hdepth : v.running.length = w.running.length)
    (hstep : v.step .proceed = .ok o) : Course w (legs ++ [.own v o.world]) o.world
  | others {legs v es v'} (h : Course w legs v) (hdepth : v.running.length = w.running.length)
    (hgroup : v.Interposes es v') : Course w (legs ++ [.others v v']) v'

/-- However `n` more groups are interposed, the running operation, one on a set `i` and above `d`
others, makes only so many steps. After them it has ended, or it stands at a step that has to retire
a node on a set whose scan threshold does not fit, and is stopped there by that. -/
inductive World.RunsOut (i d : Nat) : Nat → World κ ν → Prop where
  | ended {n w} (hdepth : w.running.length = d) : RunsOut i d n w
  | goes {n w o} (hdepth : w.running.length = d + 1) (hstep : w.step .proceed = .ok o)
    (hown : RunsOut i d n o.world)
    (hothers : ∀ m es w', n = m + 1 → w.Interposes es w' → RunsOut i d m w') : RunsOut i d n w
  | stops {n w b rest s} (hdepth : w.running.length = d + 1) (hrun : w.running = b :: rest)
    (hset : w.sets[i]? = some s) (hretires : b.frame.Retires s)
    (hbeyond : s.scheme.thresholdFits = false)
    (hfault : w.step .proceed = .error (.fault .thresholdTooLarge))
    (hothers : ∀ m es w', n = m + 1 → w.Interposes es w' → RunsOut i d m w') : RunsOut i d n w

/-! ## Retries -/

section

omit [Ord κ]

variable {legs : List (Leg κ ν)} {l : Leg κ ν} {k i : Nat}

theorem groups_snoc_own (v v' : World κ ν) : groups (legs ++ [.own v v']) = groups legs := by
  simp [groups, Leg.isGroup]

theorem groups_snoc_others (v v' : World κ ν) :
    groups (legs ++ [.others v v']) = groups legs + 1 := by
  simp [groups, Leg.isGroup]

theorem Disturbed.snoc (h : Disturbed legs k i) (hl : ¬ l.Retries k) :
    Disturbed (legs ++ [l]) k i := by
  obtain ⟨earlier, g, between, rfl, hg, hbetween⟩ := h
  refine ⟨earlier, g, between ++ [l], by simp, hg, fun m hm => ?_⟩
  rcases List.mem_append.1 hm with hm | hm
  · exact hbetween m hm
  · obtain rfl := List.mem_singleton.1 hm
    exact hl

theorem Leg.not_retries_others (v v' : World κ ν) : ¬ (Leg.others v v').Retries k := by
  rintro ⟨_, _, _, _, hl, -⟩
  cases hl

theorem Leg.not_retries_own {v v' : World κ ν} {x x' : Handle} (hx : v.handles[k]? = some x)
    (hx' : v'.handles[k]? = some x') (h : x'.retries = x.retries) :
    ¬ (Leg.own v v').Retries k := by
  rintro ⟨_, _, _, _, hl, hy, hy', hlt⟩
  cases hl
  cases hx.symm.trans hy
  cases hx'.symm.trans hy'
  exact Nat.ne_of_gt hlt h

end

/-- What the course of an operation has come to: each retry is the answer to a group, and so there
are no more retries than groups. -/
structure Accounts (legs : List (Leg κ ν)) (k i : Nat) (x x' : Handle) : Prop where
  grown : x.retries ≤ x'.retries
  bounded : x'.retries ≤ x.retries + groups legs
  answers : ∀ before l after, legs = before ++ l :: after → l.Retries k → Disturbed before k i

section

omit [Ord κ]

variable {legs : List (Leg κ ν)} {l : Leg κ ν} {k i : Nat} {x x' x'' : Handle}

/-- One more part, of which it is known how many retries it has counted. -/
theorem Accounts.snoc (h : Accounts legs k i x x') (hgrown : x'.retries ≤ x''.retries)
    (hbounded : x''.retries ≤ x.retries + groups (legs ++ [l]))
    (hanswers : l.Retries k → Disturbed legs k i) : Accounts (legs ++ [l]) k i x x'' := by
  refine ⟨Nat.le_trans h.grown hgrown, hbounded, fun before m after hsplit hm => ?_⟩
  rcases List.eq_nil_or_concat after with rfl | ⟨init, last, rfl⟩
  · obtain ⟨rfl, hlast⟩ := List.append_inj' hsplit rfl
    cases hlast
    exact hanswers hm
  · rw [List.concat_eq_append, ← List.cons_append, ← List.append_assoc] at hsplit
    exact h.answers before m init (List.append_inj' hsplit rfl).1 hm

end

section

variable [Std.TransOrd κ] {kind : Scheme.Kind} {ts : List Tuning} {w u v : World κ ν}
  {es : List (Event κ ν)} {b : Activation κ} {rest : List (Activation κ)} {x : Handle}
  {s : SharedSet κ ν} {legs : List (Leg κ ν)}

omit [Std.TransOrd κ] in
theorem Run.append {w₀ : World κ ν} {es' : List (Event κ ν)} (h : Run w₀ es w)
    (h' : Run w es' v) : Run w₀ (es ++ es') v := by
  induction h' with
  | nil => rwa [List.append_nil]
  | snoc _ hstep ih =>
    rw [← List.append_assoc]
    exact ih.snoc hstep

/-- What is known of an operation in its course: it has ended, or it is the running one, and what it
has read is up to date unless a group that it has not answered yet has changed the chain. -/
theorem Course.accounts (h : Run (.ofTunings kind ts) es u) (htop : u.OnTop b rest x s)
    (hrecent : b.frame.Recent s) (hcourse : Course u legs v) :
    ∃ es' x', Run (.ofTunings kind ts) es' v ∧ v.handles[b.handle]? = some x' ∧
      Accounts legs b.handle x.set x x' ∧
      (v.running = rest ∨ ∃ f s', v.OnTop { b with frame := f } rest x' s' ∧ x'.set = x.set ∧
        (f.Recent s' ∨ x'.retries < x.retries + groups legs ∧
          Disturbed legs b.handle x.set)) := by
  have h₀ := World.sound_ofTunings (κ := κ) (ν := ν) kind ts
  -- an operation that can still make a step has not ended
  have hrunning : ∀ {v : World κ ν}, v.running.length = u.running.length → v.running ≠ rest := by
    intro v hdepth hrest
    rw [hrest, htop.running, List.length_cons] at hdepth
    exact Nat.ne_of_lt (Nat.lt_succ_self _) hdepth
  induction hcourse with
  | nil =>
    refine ⟨es, x, h, htop.handle, ⟨Nat.le_refl _, Nat.le_add_right _ _, ?_⟩,
      .inr ⟨b.frame, s, htop, rfl, .inl hrecent⟩⟩
    rintro before l after hsplit
    simp at hsplit
  | @own legs v o hcourse hdepth hstep ih =>
    obtain ⟨es', x', hrun, hx', haccounts, hended | ⟨f, s', htop', hset, hknown⟩⟩ := ih
    · exact absurd hended (hrunning hdepth)
    have hv := hrun.sound h₀ hrun.worldAt_last
    have hp := (World.step_settles hv _).of_ok hstep
    have hbounded := haccounts.bounded
    rw [← groups_snoc_own v o.world] at hbounded
    rcases hp.own_step hv htop' (hrun.orderly htop'.set) with
      ⟨f', x'', s'', htop'', hset', ⟨hsame, hkept, -⟩ | ⟨hone, hnot, hrecent'⟩⟩ |
        ⟨hrest, x'', hx'', hsame⟩
    · have hno := Leg.not_retries_own hx' htop''.handle hsame
      refine ⟨_, x'', hrun.snoc hstep, htop''.handle,
        haccounts.snoc (Nat.le_of_eq hsame.symm) (hsame ▸ hbounded) fun hyes => absurd hyes hno,
        .inr ⟨f', s'', htop'', hset'.trans hset, ?_⟩⟩
      refine hknown.imp hkept ?_
      rintro ⟨hless, hdisturbed⟩
      exact ⟨by rwa [groups_snoc_own, hsame], hdisturbed.snoc hno⟩
    · -- a retry is the answer to a group, and uses up what there was between the two counts
      obtain ⟨hless, hdisturbed⟩ := hknown.resolve_left hnot
      refine ⟨_, x'', hrun.snoc hstep, htop''.handle,
        haccounts.snoc (by omega) ?_ fun _ => hdisturbed,
        .inr ⟨f', s'', htop'', hset'.trans hset, .inl hrecent'⟩⟩
      rw [groups_snoc_own, hone]
      exact hless
    · have hno := Leg.not_retries_own hx' hx'' hsame
      exact ⟨_, x'', hrun.snoc hstep, hx'',
        haccounts.snoc (Nat.le_of_eq hsame.symm) (hsame ▸ hbounded) fun hyes => absurd hyes hno,
        .inl hrest⟩
  | @others legs v es₂ v' hcourse hdepth hgroup ih =>
    obtain ⟨es', x', hrun, hx', haccounts, hended | ⟨f, s', htop', hset, hknown⟩⟩ := ih
    · exact absurd hended (hrunning hdepth)
    have hv := hrun.sound h₀ hrun.worldAt_last
    obtain ⟨s'', htop'', hvalidates⟩ := hgroup.onTop hv htop'
    have hbounded := haccounts.bounded
    have hless : x'.retries < x.retries + groups (legs ++ [.others v v']) := by
      rw [groups_snoc_others]
      omega
    refine ⟨_, x', hrun.append hgroup.run, htop''.handle,
      haccounts.snoc (Nat.le_refl _) (Nat.le_of_lt hless) fun hyes =>
        absurd hyes (Leg.not_retries_others v v'), .inr ⟨f, s'', htop'', hset, ?_⟩⟩
    rcases hknown with hrecent' | ⟨-, hdisturbed⟩
    · by_cases hsame : s'.SameChain s''
      · obtain ⟨-, hfits, -, hsound⟩ := hv.top htop'.running htop'.handle htop'.set
        exact .inl (hrecent'.others hsound hfits hvalidates hsame)
      · refine .inr ⟨hless, legs, _, [], rfl, ⟨v, v', s', s'', rfl, ?_, ?_, hsame⟩, by simp⟩
        · exact hset ▸ htop'.set
        · exact hset ▸ htop''.set
    · exact .inr ⟨hless, hdisturbed.snoc (Leg.not_retries_others v v')⟩

/-! ## The end -/

/-- Every operation above `rest` runs out of steps, however `n` more groups are interposed. -/
def AllRunOut (kind : Scheme.Kind) (ts : List Tuning) (rest : List (Activation κ)) (n : Nat) :
    Prop :=
  ∀ (es : List (Event κ ν)) u b x s, Run (.ofTunings kind ts) es u → u.OnTop b rest x s →
    u.RunsOut x.set rest.length n

/-- The running operation runs out of steps, if it does after its next step and after a group. -/
theorem World.OnTop.runsOut {n : Nat} (htop : u.OnTop b rest x s)
    (h : Run (.ofTunings kind ts) es u)
    (hown : ∀ o f x' s', u.step .proceed = .ok o → o.world.OnTop { b with frame := f } rest x' s' →
      ¬ b.frame.Recent s ∧ f.Recent s' ∨ (b.frame.Recent s → f.Recent s') ∧
        f.point.height s' < b.frame.point.height s → o.world.RunsOut x'.set rest.length n)
    (hgroups : ∀ m, n = m + 1 → AllRunOut (ν := ν) kind ts rest m) :
    u.RunsOut x.set rest.length n := by
  have hu := h.sound (World.sound_ofTunings kind ts) h.worldAt_last
  have hdepth : u.running.length = rest.length + 1 := by rw [htop.running, List.length_cons]
  have hothers : ∀ m es' w', n = m + 1 → u.Interposes es' w' →
      w'.RunsOut x.set rest.length m := by
    intro m es' w' hn hgroup
    obtain ⟨s', htop', -⟩ := hgroup.onTop hu htop
    exact hgroups m hn _ w' b x s' (h.append hgroup.run) htop'
  have hroomy : s.Roomy (b.frame.Retires s)
      (b.frame.Retires s ∧ s.scheme.thresholdFits = false) := by
    refine ⟨(hu.sets _ s htop.set).roomy (h.poolsFit htop.set), fun hr => ?_⟩
    cases hfits : s.scheme.thresholdFits with
    | true => exact .inl rfl
    | false => exact .inr ⟨hr, rfl⟩
  obtain ⟨o, hstep, -⟩ | ⟨⟨hretires, hbeyond⟩, hfault⟩ :=
    hu.proceed_ok_or_beyond htop.running htop.handle htop.set hroomy id
  · refine .goes hdepth hstep ?_ hothers
    have hp := (World.step_settles hu _).of_ok hstep
    rcases hp.own_step hu htop (h.orderly htop.set) with
      ⟨f, x', s', htop', hset, hnext⟩ | ⟨hrest, -⟩
    · rw [← hset]
      refine hown o f x' s' hstep htop' ?_
      rcases hnext with ⟨-, hnext⟩ | ⟨-, hnext⟩
      · exact .inr hnext
      · exact .inl hnext
    · exact .ended (by rw [hrest])
  · exact .stops hdepth htop.running htop.set hretires hbeyond hfault hothers

/-- While all that an operation has read is up to date, it does not retry, and each of its steps
brings it nearer to its end. -/
theorem World.OnTop.runsOut_of_recent {n : Nat} (htop : u.OnTop b rest x s)
    (h : Run (.ofTunings kind ts) es u) (hrecent : b.frame.Recent s)
    (hgroups : ∀ m, n = m + 1 → AllRunOut (ν := ν) kind ts rest m) :
    u.RunsOut x.set rest.length n := by
  induction hd : b.frame.point.height s using Nat.strongRecOn generalizing es u b x s with
  | ind d ih =>
    subst hd
    refine htop.runsOut h (fun o f x' s' hstep htop' hnext => ?_) hgroups
    rcases hnext with ⟨hnot, -⟩ | ⟨hkept, hless⟩
    · exact absurd hrecent hnot
    · exact ih _ hless htop' (h.snoc hstep) (hkept hrecent) rfl

/-- An operation in progress runs out of steps, however so many groups are interposed. -/
theorem allRunOut (n : Nat) : AllRunOut (ν := ν) kind ts rest n := by
  -- by the number of groups to come, and for each by what is left of the walk: a retry makes all
  -- that was read up to date again, so until the next group there is no other
  induction n using Nat.strongRecOn with
  | ind n ih =>
    have hgroups : ∀ m, n = m + 1 → AllRunOut (ν := ν) kind ts rest m :=
      fun m hn => ih m (hn ▸ Nat.lt_succ_self m)
    intro es u b x s h htop
    induction hd : b.frame.point.height s using Nat.strongRecOn generalizing es u b x s with
    | ind d ihd =>
      subst hd
      refine htop.runsOut h (fun o f x' s' hstep htop' hnext => ?_) hgroups
      rcases hnext with ⟨-, hrecent⟩ | ⟨-, hless⟩
      · exact htop'.runsOut_of_recent (h.snoc hstep) hrecent hgroups
      · exact ihd _ hless _ _ _ _ _ (h.snoc hstep) htop' rfl

omit [Std.TransOrd κ] in
/-- An insertion needs a pool of which its node is taken. -/
theorem World.insert_eq_error (hpauses : w.pauses = true) {k i : Nat}
    (hx : w.handles[k]? = some x) (hidle : x.status = .idle) (hset : x.set = i)
    (hs : w.sets[i]? = some s) (hpools : s.memory.poolFits = false) (lane : Lane) (key : κ)
    (value : ν) (offer : Option Address) :
    w.step (.invoke k i lane (.insert key value) offer) = .error (.fault .poolTooLarge) := by
  have htask : World.task s lane offer (.insert key value) = .error .poolTooLarge := by
    rw [World.task, Memory.allocate, hpools]
    rfl
  rw [step, turn, if_pos hpauses]
  refine (bind_of_eq_ok rfl).trans ?_
  rw [invoke]
  refine (bind_of_eq_ok (set_eq_ok hs)).trans ?_
  refine (bind_of_eq_ok (idleHandle_eq_ok hx hidle)).trans ?_
  rw [if_pos hset, htask]
  rfl

/-- An operation of an idle handle in a state of a run retries only because of others: no more often
than groups of steps are interposed, and each time because a group has changed the chain since the
retry before. However many groups are interposed, as long as their number is finite, it ends, unless
the scan threshold stops it where it has to retire a node. Only an insertion may be stopped before
that: where pools cannot be reserved it does not begin. -/
theorem Run.retries_bounded (h : Run (.ofTunings kind ts) es w) {k i : Nat}
    (hpauses : w.pauses = true) (hx : w.handles[k]? = some x) (hidle : x.status = .idle)
    (hset : x.set = i) (hs : w.sets[i]? = some s) (lane : Lane) (call : Call κ ν)
    (offer : Option Address) (hcall : call ≠ .reclaim) :
    (∃ o, w.step (.invoke k i lane call offer) = .ok o ∧ o.answer = none ∧
      (∀ legs v, Course o.world legs v →
        ∃ x', v.handles[k]? = some x' ∧ Accounts legs k i x x') ∧
      ∀ n, o.world.RunsOut i w.running.length n) ∨
    ((∃ key value, call = .insert key value) ∧ s.memory.poolFits = false ∧
      w.step (.invoke k i lane call offer) = .error (.fault .poolTooLarge)) := by
  have hw := h.sound (World.sound_ofTunings kind ts) h.worldAt_last
  by_cases hstopped : (∃ key value, call = .insert key value) ∧ s.memory.poolFits = false
  · obtain ⟨⟨key, value, rfl⟩, hpools⟩ := hstopped
    exact .inr ⟨⟨key, value, rfl⟩, hpools,
      World.insert_eq_error hpauses hx hidle hset hs hpools lane key value offer⟩
  · have hinsert : ∀ key value, call = .insert key value → s.memory.poolFits = true :=
      fun key value hc => eq_true_of_ne_false fun hpools => hstopped ⟨⟨key, value, hc⟩, hpools⟩
    have hroomy : s.Roomy False False :=
      ⟨(hw.sets i s hs).roomy (h.poolsFit hs), False.elim⟩
    obtain ⟨o, hstep, ⟨hanswer, -⟩ | ⟨hreclaim, -⟩⟩ :=
      hw.invoke_eq_ok hpauses hx hidle hset hs hroomy lane offer hinsert
    · have hrun := h.snoc hstep
      obtain ⟨y, task, t, hy, rfl, htop⟩ :=
        ((World.step_settles hw _).of_ok hstep).onTop_begin hanswer
      cases hx.symm.trans hy
      refine .inl ⟨o, hstep, hanswer, fun legs v hcourse => ?_, fun n => ?_⟩
      · obtain ⟨-, x', -, hx', haccounts, -⟩ := hcourse.accounts hrun htop fun _ => trivial
        exact ⟨x', hx', haccounts.grown, haccounts.bounded, haccounts.answers⟩
      · exact allRunOut n _ _ _ { x with status := .running } _ hrun htop
    · exact absurd hreclaim hcall

end

/-! ## An insertion that is crossed by a removal -/

section

variable {w v : World κ ν} {legs : List (Leg κ ν)}

/-- An action that was carried out and not answered yet. -/
theorem World.exists_step_of_play {a : Action κ ν}
    (h : (w.play [a]).1.map (fun e => e.outcome.answer.isNone) = [true]) :
    ∃ o, w.step a = .ok o ∧ o.answer = none ∧ (w.play [a]).2 = o.world := by
  rw [World.play] at h ⊢
  split at h
  · next o hstep => exact ⟨o, hstep, by simpa [World.play] using h, rfl⟩
  · cases h
  · cases h

theorem Course.own_play (h : Course w legs v) (hdepth : v.running.length = w.running.length)
    (hgoes : (v.play [.proceed]).1.map (fun e => e.outcome.answer.isNone) = [true]) :
    Course w (legs ++ [.own v (v.play [.proceed]).2]) (v.play [.proceed]).2 := by
  obtain ⟨o, hstep, -, hworld⟩ := World.exists_step_of_play hgoes
  rw [hworld]
  exact h.own hdepth hstep

theorem Course.others_play (h : Course w legs v) (hdepth : v.running.length = w.running.length)
    (as : List (Action κ ν)) (hnonempty : (v.play as).1.isEmpty = false)
    (hwaits : ∀ m < (v.play as).1.length, ((v.play as).1[m]?).map Event.action = some .proceed →
      (v.worldAt (v.play as).1 m).all
        (fun u => decide (v.running.length < u.running.length)) = true)
    (hback : (v.play as).2.running = v.running) :
    Course w (legs ++ [.others v (v.play as).2]) (v.play as).2 := by
  refine h.others hdepth ⟨v.play_run as, by simpa using hnonempty, fun m e u he hu ha => ?_, hback⟩
  have hall := hwaits m (List.getElem?_eq_some_iff.1 he).1 (by rw [he, Option.map_some, ha])
  rw [hu] at hall
  exact of_decide_eq_true hall

end

namespace Crossed

/-- Two handles are registered, and one key is inserted. -/
def start : World Int Nat :=
  ((World.ofTunings .hazards [{}]).play
    (.register 0 :: .register 0 :: .invoke 0 0 0 (.insert 1 10) none ::
      List.replicate 2 .proceed)).2

theorem run_start : ∃ es, Run (World.ofTunings .hazards [{}]) es start :=
  ⟨_, (World.ofTunings .hazards [{}]).play_run _⟩

/-- A greater key is going to be inserted. -/
def begun : World Int Nat := (start.play [.invoke 0 0 0 (.insert 2 20) none]).2

/-- Before the keys are compared, the other handle removes the first key. -/
def crossing : List (Action Int Nat) :=
  .invoke 1 0 0 (.remove 1) none :: List.replicate 4 .proceed

/-- The insertion stands before the node of the first key. -/
def met : World Int Nat := ((begun.play [.proceed]).2.play [.proceed]).2

/-- The node has been removed, and the insertion passes it. -/
def passed : World Int Nat := ((met.play crossing).2.play [.proceed]).2

/-- The insertion has found the node removed that it wanted to write to. -/
def retried : World Int Nat := (passed.play [.proceed]).2

/-- The steps of the insertion and the removal up to the retry. -/
def legs : List (Leg Int Nat) :=
  [.own begun (begun.play [.proceed]).2, .own (begun.play [.proceed]).2 met,
    .others met (met.play crossing).2, .own (met.play crossing).2 passed, .own passed retried]

theorem course : Course begun legs retried := by
  have hstart : Course begun [] begun := .nil
  have hread := hstart.own_play rfl (by decide +kernel)
  have hmet := hread.own_play (by decide +kernel) (by decide +kernel)
  have hcrossed := hmet.others_play (by decide +kernel) crossing (by decide +kernel)
    (by decide +kernel) (by decide +kernel)
  have hpassed := hcrossed.own_play (by decide +kernel) (by decide +kernel)
  exact hpassed.own_play (by decide +kernel) (by decide +kernel)

end Crossed

open Crossed in
/-- The insertion retries once, because of the one group, which has changed the chain, and it will
run out of steps. -/
theorem retries_bounded_crossed :
    groups legs = 1 ∧ (∃ x, retried.handles[0]? = some x ∧ x.retries = 1 ∧ Accounts legs 0 0
      ⟨0, 0, 0, .idle⟩ x) ∧ Disturbed (legs.take 4) 0 0 ∧ ∀ n, begun.RunsOut 0 0 n := by
  obtain ⟨o, hstep, -, hworld⟩ : ∃ o, start.step (.invoke 0 0 0 (.insert 2 20) none) = .ok o ∧
      o.answer = none ∧ begun = o.world := World.exists_step_of_play (by decide +kernel)
  have hhandle : start.handles[0]? = some ⟨0, 0, 0, .idle⟩ := by decide +kernel
  have hidle : start.running.length = 0 := by decide +kernel
  obtain ⟨s, hs⟩ := Option.isSome_iff_exists.1 (by decide +kernel : start.sets[0]?.isSome = true)
  obtain ⟨es, hrun⟩ := run_start
  obtain ⟨o', hstep', -, haccounts, hends⟩ | ⟨-, -, hstopped⟩ :=
    hrun.retries_bounded (i := 0) (by decide +kernel) hhandle rfl rfl hs 0 (.insert 2 20) none
      (by decide)
  swap
  · rw [hstep] at hstopped
    cases hstopped
  cases hstep.symm.trans hstep'
  rw [hidle] at hends
  rw [← hworld] at haccounts hends
  obtain ⟨x', hx', haccounts⟩ := haccounts legs retried course
  have hretried : retried.handles[0]? = some ⟨0, 0, 1, .running⟩ := by decide +kernel
  have hpassed : passed.handles[0]? = some ⟨0, 0, 0, .running⟩ := by decide +kernel
  cases hx'.symm.trans hretried
  refine ⟨rfl, ⟨_, hx', rfl, haccounts⟩, ?_, hends⟩
  exact haccounts.answers (legs.take 4) (.own passed retried) [] rfl
    ⟨passed, retried, _, _, rfl, hpassed, hretried, by decide⟩

namespace Unreservable

/-- The size in bytes of the pools is no signed word. -/
def tuning : Tuning := { poolCapacity := 1152921504606846976 }

/-- The one set at the start. -/
def origin : World Int Nat := .ofTunings .hazards [tuning]

/-- A handle has been registered. -/
def events : List (Event Int Nat) := (origin.play [.register 0]).1

/-- The world in the end. -/
def world : World Int Nat := (origin.play [.register 0]).2

end Unreservable

open Unreservable in
/-- Where pools cannot be reserved, an insertion is stopped before its first step and does not end,
although nobody interposes anything. -/
theorem not_begins_unreservable :
    Run (.ofTunings .hazards [tuning]) events world ∧ world.running = [] ∧
      world.handles[0]? = some ⟨0, 0, 0, .idle⟩ ∧
      world.step (.invoke 0 0 0 (.insert 1 1) none) = .error (.fault .poolTooLarge) ∧
      ¬ ∃ es reply w, world.Performs (.invoke 0 0 0 (.insert 1 1) none) es reply w := by
  have hstep : world.step (.invoke 0 0 0 (.insert 1 1) none) = .error (.fault .poolTooLarge) := by
    rfl
  exact ⟨origin.play_run [.register 0], by decide, by decide, hstep, World.not_performs hstep⟩

end MarkedChain
