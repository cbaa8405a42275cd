import MarkedChain.Proofs.Headroom
import MarkedChain.Proofs.Payloads
import MarkedChain.Proofs.Runs
import MarkedChain.Proofs.Undisturbed

/-!
# Operations that run to their end

`World.Underway` says that the running operation serves a call and that nobody has disturbed it. Its
steps keep it so until it ends with the reply of a ledger (`Passage.underway`), and no step fails
where no limit stops it (`Sound.proceed_ok_or_beyond`, `Sound.proceed_eq_ok`). As each step brings
it nearer to its end, the operation runs to its end (`Underway.exists_run`). With what begins it
this gives `World.Sound.performs`: an operation of an idle handle that runs while all others wait.
`World.ComesToRetire` says that such an operation has to retire a node on its way, which it does
only if there was one to retire when it began (`Underway.mayRetire`).
-/

namespace MarkedChain

variable {κ ν : Type} [Ord κ]

namespace World

/-- The running operation serves a call on a set. Nobody has disturbed it, and `after` are the nodes
that it has still before it. -/
structure Underway (w : World κ ν) (i : Nat) (call : Call κ ν) (a : Activation κ)
    (rest : List (Activation κ)) (s : SharedSet κ ν) (after : List Address) : Prop where
  running : w.running = a :: rest
  handle : w.setOf? a.handle = some i
  set : w.sets[i]? = some s
  serves : a.frame.task.Serves s call
  current : a.frame.point.Current s a.frame.task after

/-- An action and what is done until the reply to it: the actions after the first one only move the
running operation on, and only the last one is answered. -/
structure Performs (w : World κ ν) (first : Action κ ν) (es : List (Event κ ν))
    (reply : Reply κ ν) (w' : World κ ν) : Prop where
  run : Run w es w'
  actions : ∃ n, es.map Event.action = first :: List.replicate n .proceed
  answers : ∃ n, es.map (fun e => e.outcome.answer) = List.replicate n none ++ [some (.reply reply)]

/-- The operation of a handle on a set has ended with a reply. All other sets are as they were. -/
structure Ends (w : World κ ν) (h i : Nat) (rest : List (Activation κ)) (reply : Reply κ ν)
    (s' : SharedSet κ ν) (w' : World κ ν) : Prop where
  running : w'.running = rest
  handle : ∃ x, w'.handles[h]? = some x ∧ x.status = statusAfter reply
  sets : ∀ j, w'.sets[j]? = if j = i then some s' else w.sets[j]?

/-- The operation above `rest`, while it runs and all others wait, comes to a step at which it has
to retire a node of a set. -/
inductive ComesToRetire (rest : List (Activation κ)) (i : Nat) : World κ ν → Prop where
  | now {w a s} (hrun : w.running = a :: rest) (hset : w.sets[i]? = some s)
    (hretires : a.frame.Retires s) : ComesToRetire rest i w
  | later {w a o} (hrun : w.running = a :: rest) (hstep : w.step .proceed = .ok o)
    (h : ComesToRetire rest i o.world) : ComesToRetire rest i w

variable {w : World κ ν} {i : Nat} {call : Call κ ν} {a : Activation κ}
  {rest : List (Activation κ)} {s : SharedSet κ ν} {after : List Address} {o : Outcome κ ν}

omit [Ord κ] in
theorem Underway.exists_handle (h : w.Underway i call a rest s after) :
    ∃ x, w.handles[a.handle]? = some x ∧ x.set = i :=
  Option.map_eq_some_iff.1 h.handle

end World

open World

section

variable [Std.TransOrd κ] {w : World κ ν} {i : Nat} {call : Call κ ν} {a : Activation κ}
  {rest : List (Activation κ)} {s : SharedSet κ ν} {after : List Address} {o : Outcome κ ν}

/-! ## What the steps come to -/

/-- A step of an undisturbed operation leaves the contents of its set as they are and no more to be
retired, or it ends the operation and does to the contents what the call asks for. -/
theorem Passage.underway (hp : Passage w .proceed o) (hw : w.Sound)
    (h : w.Underway i call a rest s after) :
    (∃ frame s' after', o.answer = none ∧
        o.world.Underway i call { a with frame } rest s' after' ∧
        (∀ j, o.world.sets[j]? = if j = i then some s' else w.sets[j]?) ∧
        frame.point.distance after'.length < a.frame.point.distance after.length ∧
        s'.contents = s.contents ∧ (s'.MayRetire call → s.MayRetire call)) ∨
      ∃ reply s', o.answer = some (.reply reply) ∧ w.Ends a.handle i rest reply s' o.world ∧
        Ledger.serve s.contents call = (s'.contents, some reply) := by
  obtain ⟨x, hx, rfl⟩ := h.exists_handle
  obtain ⟨-, hfits, hd, hsound⟩ := hw.top h.running hx h.set
  cases hp with
  | misuse _ _ _ ha => exact absurd rfl ha
  | sweep _ _ _ ha => exact absurd rfl ha
  | @goes b rest' y t st frame hrun hy ht hmove hnext =>
    cases h.running.symm.trans hrun
    cases hx.symm.trans hy
    cases h.set.symm.trans ht
    obtain ⟨after', hcurrent, hless, hsame⟩ := hmove.nearer hsound hfits hd h.current hnext
    refine .inl ⟨frame, st.set, after', rfl, ?_, getElem?_setSet h.set _, hless, hsame,
      hmove.mayRetire_back hsound hfits hd h.current hnext⟩
    refine ⟨rfl, ?_, ?_, hmove.serves hsound hfits hd h.serves hnext, hcurrent⟩
    · exact (setOf?_setHandle hx { x with retries := x.retries + st.retries } rfl rfl _).trans
        h.handle
    · exact (getElem?_setSet h.set _ _).trans (if_pos rfl)
  | @ends b rest' y t st reply sch hrun hy ht hmove hnext =>
    cases h.running.symm.trans hrun
    cases hx.symm.trans hy
    cases h.set.symm.trans ht
    have hserve := hmove.served hsound hfits hd h.current h.serves hnext
    have hhandle := getElem?_setHandle hx
      { x with retries := x.retries + st.retries, status := statusAfter reply } a.handle
    rw [if_pos rfl] at hhandle
    exact .inr ⟨reply, { st.set with scheme := sch }, rfl,
      ⟨rfl, ⟨_, hhandle, rfl⟩, getElem?_setSet h.set _⟩, hserve⟩

omit [Std.TransOrd κ] in
/-- An operation that begins has been disturbed by nobody. -/
theorem Passage.underway_begin {h : Nat} {lane : Lane} {offer : Option Address}
    (hp : Passage w (.invoke h i lane call offer) o) (hw : w.Sound) (hs : w.sets[i]? = some s)
    (hanswer : o.answer = none) :
    ∃ s' task, (∀ j, o.world.sets[j]? = if j = i then some s' else w.sets[j]?) ∧
      o.world.Underway i call ⟨h, lane, ⟨task, .start⟩⟩ w.running s' s'.linked ∧
      s'.linked = s.linked ∧ s'.contents = s.contents := by
  cases hp with
  | misuse | sweep => cases hanswer
  | @begin h i lane call offer x t u task sch hx hidle hset ht hopens hpin =>
    rw [hs] at ht
    cases ht
    have hsound := hw.sets _ _ hs
    obtain ⟨-, -, -, hlinked, -⟩ := hopens.sound hsound
    have hsets : ∀ j, ((w.setSet i { u with scheme := sch }).sets)[j]? =
        if j = i then some { u with scheme := sch } else w.sets[j]? := getElem?_setSet hs _
    have hsame : u.contents = s.contents := SharedSet.contents_opens hopens hsound
    have hown : w.setOf? h = some i := by rw [World.setOf?, hx, Option.map_some, hset]
    refine ⟨{ u with scheme := sch }, task, hsets, ⟨rfl, ?_, ?_, ?_, rfl, ?_⟩, hlinked, hsame⟩
    · exact (setOf?_setHandle hx { x with status := .running } rfl rfl _).trans hown
    · exact (hsets i).trans (if_pos rfl)
    · cases hopens with
      | insert hbirth => exact ⟨rfl, _, (hbirth.node? _).trans (if_pos rfl), rfl⟩
      | plain htask => cases call <;> cases htask <;> first | exact rfl | trivial
    · cases hopens with
      | insert => trivial
      | plain htask => cases call <;> cases htask <;> first | exact rfl | trivial

/-! ## No step fails -/

omit [Std.TransOrd κ] in
/-- What an undisturbed operation has to retire with its next step, its call may have to retire. -/
theorem Point.Current.mayRetire {f : Frame κ} (h : f.point.Current s f.task after)
    (hserves : f.task.Serves s call) (hr : f.Retires s) : s.MayRetire call := by
  obtain ⟨t, p⟩ := f
  cases p with
  | start | encounter => exact hr.elim
  | inspect pred curr =>
    cases curr with
    | none => exact hr.elim
    | some curr =>
      obtain ⟨-, n, hn, hm⟩ := hr
      obtain ⟨hhead, before, hstands⟩ := h
      exact .inl ⟨hserves.ne_reclaim, curr, hstands.mem_linked hhead, n, hn, hm⟩
  | judge pred curr next =>
    obtain ⟨k, n, rfl, hn, heq⟩ := hr
    obtain ⟨-, -, hhead, before, hstands⟩ := h
    have hlinked := hstands.mem_linked hhead
    have hcall := hserves.ne_reclaim
    cases call <;> first | exact hserves.elim | skip
    obtain rfl : k = _ := hserves
    by_cases hm : n.next.marked = true
    · exact .inl ⟨hcall, curr, hlinked, n, hn, hm⟩
    · refine .inr ⟨k, rfl, ?_⟩
      have hmem : (n.key, n.value) ∈ s.contents :=
        SharedSet.mem_contents.2 ⟨curr, n, hlinked, hn, by simpa using hm, rfl⟩
      rw [Ledger.find?, List.find?_isSome]
      exact ⟨_, hmem, heq⟩

namespace World

/-- The running operation can make a step, or the scan threshold stops it. -/
theorem Sound.proceed_ok_or_beyond (hw : w.Sound) (hrun : w.running = a :: rest) {x : Handle}
    (hx : w.handles[a.handle]? = some x) (hs : w.sets[x.set]? = some s) {retires beyond : Prop}
    (hroomy : s.Roomy retires beyond) (hr : a.frame.Retires s → retires) :
    (∃ o, w.step .proceed = .ok o ∧ (o.answer = none →
      ∀ s', o.world.sets[x.set]? = some s' → s'.Roomy retires beyond)) ∨
      beyond ∧ w.step .proceed = .error (.fault .thresholdTooLarge) := by
  obtain ⟨hstatus, hfits, hd, hsound⟩ := hw.top hrun hx hs
  have hhandle := handle_eq_ok hx (by rw [hstatus]; decide)
  rw [step, proceed, hrun]
  obtain ⟨st, hst, hmove, hroomy'⟩ | ⟨hbeyond, hst⟩ := Yields.ok_or_beyond
    (Frame.step_yields hsound hfits hd (List.subset_append_left _ _))
    (Frame.step_within hroomy a.frame ⟨x.record, a.lane⟩ hr)
  swap
  · refine .inr ⟨hbeyond, (bind_of_eq_ok hhandle).trans ((bind_of_eq_ok (set_eq_ok hs)).trans ?_)⟩
    rw [hst]
    rfl
  obtain ⟨hs', hkeeps⟩ := hmove.sound_keeps hsound hfits hd
  refine .inl (exists_ok_bind hhandle ?_)
  refine exists_ok_bind (set_eq_ok hs) ?_
  refine exists_ok_bind (Halt.lift_eq_ok.2 hst) ?_
  dsimp only
  split
  · refine ⟨_, rfl, fun _ s' hset => ?_⟩
    have hset' := (getElem?_setSet hs st.set x.set).symm.trans hset
    rw [if_pos rfl] at hset'
    cases hset'
    exact hroomy'
  · next reply hnext =>
    have hfinish : ∃ w', ({ w with running := rest } : World κ ν).finish a.handle
        { x with retries := x.retries + st.retries } st.set reply = .ok w' := by
      rw [finish]
      split
      · obtain ⟨sch, hsch, -⟩ := Scheme.exists_unpin hs'.scheme (hkeeps.depth?.trans hd)
        rw [hsch]
        exact ⟨_, rfl⟩
      · exact ⟨_, rfl⟩
    obtain ⟨w', hw'⟩ := hfinish
    exact exists_ok_bind (Halt.lift_eq_ok.2 hw') ⟨_, rfl, fun hanswer => by cases hanswer⟩

/-- Where no limit stops it, the running operation can make a step. -/
theorem Sound.proceed_eq_ok (hw : w.Sound) (hrun : w.running = a :: rest) {x : Handle}
    (hx : w.handles[a.handle]? = some x) (hs : w.sets[x.set]? = some s) {retires : Prop}
    (hroomy : s.Roomy retires False) (hr : a.frame.Retires s → retires) :
    ∃ o, w.step .proceed = .ok o ∧ (o.answer = none →
      ∀ s', o.world.sets[x.set]? = some s' → s'.Roomy retires False) :=
  (hw.proceed_ok_or_beyond hrun hx hs hroomy hr).resolve_right fun hbeyond => hbeyond.1

omit [Std.TransOrd κ] in
/-- Where no limit stops it, an idle handle can begin an operation on its set. To reclaim, nothing
has to be done after that. -/
theorem Sound.invoke_eq_ok (hw : w.Sound) (hpauses : w.pauses = true) {h : Nat} {x : Handle}
    (hx : w.handles[h]? = some x) (hidle : x.status = .idle) (hset : x.set = i)
    (hs : w.sets[i]? = some s) {retires : Prop} (hroomy : s.Roomy retires False) (lane : Lane)
    (offer : Option Address) (hinsert : ∀ k v, call = .insert k v → s.memory.poolFits = true) :
    ∃ o, w.step (.invoke h i lane call offer) = .ok o ∧
      ((o.answer = none ∧ ∀ s', o.world.sets[i]? = some s' → s'.Roomy retires False) ∨
        call = .reclaim ∧ ∃ n s', o.answer = some (.reply (.freed n)) ∧
          w.Ends h i w.running (.freed n) s' o.world ∧ s'.contents = s.contents) := by
  have hsound := hw.sets i s hs
  obtain ⟨⟨task?, t⟩, htask, hopens, hroomy'⟩ := Yields.exists_ok
    (task_yields hsound lane offer call) (task_within hroomy lane offer hinsert)
  rw [step, turn, if_pos hpauses]
  refine exists_ok_bind rfl ?_
  rw [invoke]
  refine exists_ok_bind (set_eq_ok hs) ?_
  refine exists_ok_bind (idleHandle_eq_ok hx hidle) ?_
  rw [if_pos hset]
  refine exists_ok_bind (Halt.lift_eq_ok.2 htask) ?_
  obtain ⟨task, rfl, hopens⟩ | ⟨rfl, rfl, rfl⟩ := hopens
  · have hd := (hw.depth? hx (by rw [hidle]; decide) (hset ▸ hs)).2
    rw [Handle.depth, if_pos hidle] at hd
    have hscheme : t.scheme = s.scheme := by cases hopens <;> rfl
    obtain ⟨sch, hsch, -⟩ := Scheme.exists_pin hsound.scheme hd
    rw [← hscheme] at hsch
    refine exists_ok_bind (Halt.lift_eq_ok.2 hsch) ⟨_, rfl, .inl ⟨rfl, fun s' hs' => ?_⟩⟩
    have hset' := (getElem?_setSet hs { t with scheme := sch } i).symm.trans hs'
    rw [if_pos rfl] at hset'
    cases hset'
    exact ⟨hroomy'.pools, fun hr => (Scheme.thresholdFits_pin hsch).symm ▸ hroomy'.threshold hr⟩
  · have hsheds := Scheme.reclaim_sheds hsound.scheme
    obtain ⟨drops, m, hdrops, hfree⟩ := hsound.freeAll_eq_ok hsheds hroomy.pools lane
    refine exists_ok_bind (Halt.lift_eq_ok.2 hfree) ⟨_, rfl, .inr ⟨rfl, _, _, rfl,
      ⟨rfl, ⟨x, hx, hidle⟩, getElem?_setSet hs _⟩, hsound.contents_shed hsheds hdrops⟩⟩

/-- An undisturbed operation comes to retire a node only if there was one to retire all along. -/
theorem Underway.mayRetire (h : w.Underway i call a rest s after) (hw : w.Sound)
    (hr : w.ComesToRetire rest i) : s.MayRetire call := by
  induction hr generalizing a s after with
  | now hrun hs hretires =>
    cases h.running.symm.trans hrun
    cases h.set.symm.trans hs
    exact h.current.mayRetire h.serves hretires
  | later hrun hstep hr ih =>
    have hp := (step_settles hw _).of_ok hstep
    rcases hp.underway hw h with ⟨f, t, after', -, h', -, -, -, hback⟩ | ⟨reply, t, -, hends, -⟩
    · exact hback (ih h' (hp.sound hw))
    · -- after its end the operation makes no further step
      cases hr with
      | now hrun' | later hrun' =>
        rw [hends.running] at hrun'
        exact absurd (congrArg List.length hrun') (by simp)

/-! ## The whole operation -/

omit [Std.TransOrd κ] in
/-- What is stopped at its first step never ends. -/
theorem not_performs {first : Action κ ν} {halt : Halt} (h : w.step first = .error halt) :
    ¬ ∃ es reply w', w.Performs first es reply w' := by
  rintro ⟨es, reply, w', hrun, ⟨n, hactions⟩, -⟩
  cases es with
  | nil => cases hactions
  | cons e es =>
    obtain ⟨u, hu, hok, -⟩ := hrun.step_at (m := 0) rfl
    cases hu
    rw [(List.cons.inj hactions).1, h] at hok
    cases hok

/-- Where no limit stops it, an operation that is underway runs to its end. -/
theorem Underway.exists_run (h : w.Underway i call a rest s after) (hw : w.Sound)
    (hroomy : s.Roomy (w.ComesToRetire rest i) False) :
    ∃ es reply w' s', es.length ≤ a.frame.point.distance after.length + 1 ∧ Run w es w' ∧
      es.map Event.action = List.replicate es.length .proceed ∧
      (∃ n, es.map (fun e => e.outcome.answer) = List.replicate n none ++ [some (.reply reply)]) ∧
      w.Ends a.handle i rest reply s' w' ∧
      Ledger.serve s.contents call = (s'.contents, some reply) := by
  induction hn : a.frame.point.distance after.length using Nat.strongRecOn
    generalizing w a s after with
  | ind n ih =>
    subst hn
    obtain ⟨x, hx, rfl⟩ := h.exists_handle
    obtain ⟨o, hstep, hkeeps⟩ := hw.proceed_eq_ok h.running hx h.set hroomy
      (.now h.running h.set)
    have hp := (step_settles hw _).of_ok hstep
    rcases hp.underway hw h with
      ⟨frame, s₁, after', hanswer, h', hsets, hless, hsame, -⟩ |
        ⟨reply, s', hanswer, hends, hserve⟩
    · have hroomy' := (hkeeps hanswer s₁ h'.set).mono (.later h.running hstep)
      obtain ⟨es, reply, w', s', hlength, hrun, hactions, ⟨n, hanswers⟩, hends, hserve⟩ :=
        ih _ hless h' (hp.sound hw) hroomy' rfl
      refine ⟨⟨.proceed, o⟩ :: es, reply, w', s', ?_, hrun.cons hstep, ?_, ⟨n + 1, ?_⟩,
        ⟨hends.running, hends.handle, fun j => ?_⟩, hsame ▸ hserve⟩
      · rw [List.length_cons]
        omega
      · rw [List.map_cons, hactions]
        rfl
      · rw [List.map_cons, hanswers, hanswer]
        rfl
      · rw [hends.sets, hsets]
        split <;> rfl
    · refine ⟨[⟨.proceed, o⟩], reply, o.world, s', ?_, .snoc .nil hstep, rfl, ⟨0, ?_⟩, hends,
        hserve⟩
      · simp
      · exact congrArg (fun x => [x]) hanswer

/-- Where no limit stops it, an operation of an idle handle that runs while all others wait comes to
its end, in about three steps for each node of the chain. It does to the contents what a ledger does
and gives the same reply. -/
theorem Sound.performs (hw : w.Sound) (hpauses : w.pauses = true) {h : Nat} {x : Handle}
    (hx : w.handles[h]? = some x) (hidle : x.status = .idle) (hset : x.set = i)
    (hs : w.sets[i]? = some s) (lane : Lane) (offer : Option Address)
    (hroomy : s.Roomy (∃ o, w.step (.invoke h i lane call offer) = .ok o ∧
      o.world.ComesToRetire w.running i) False)
    (hinsert : ∀ k v, call = .insert k v → s.memory.poolFits = true) :
    ∃ es reply w' s', es.length ≤ 3 * s.linked.length + 5 ∧
      w.Performs (.invoke h i lane call offer) es reply w' ∧
      w.Ends h i w.running reply s' w' ∧
      (Ledger.serve s.contents call = (s'.contents, some reply) ∨
        call = .reclaim ∧ s'.contents = s.contents ∧ ∃ n, reply = .freed n) := by
  obtain ⟨o, hstep, ⟨hanswer, hroomy'⟩ | ⟨rfl, n, s', hanswer, hends, hsame⟩⟩ :=
    hw.invoke_eq_ok hpauses hx hidle hset hs hroomy lane offer hinsert
  · have hp := (step_settles hw _).of_ok hstep
    obtain ⟨s₁, task, hsets, hunderway, hlinked, hsame⟩ := hp.underway_begin hw hs hanswer
    obtain ⟨es, reply, w', s', hlength, hrun, hactions, ⟨n, hanswers⟩, hends, hserve⟩ :=
      hunderway.exists_run (hp.sound hw)
        ((hroomy' s₁ hunderway.set).mono fun hr => ⟨o, hstep, hr⟩)
    refine ⟨⟨_, o⟩ :: es, reply, w', s', ?_, ⟨hrun.cons hstep, ⟨es.length, ?_⟩, ⟨n + 1, ?_⟩⟩,
      ⟨hends.running, hends.handle, fun j => ?_⟩, .inl (hsame ▸ hserve)⟩
    · rw [hlinked] at hlength
      simp only [Point.distance] at hlength
      rw [List.length_cons]
      omega
    · rw [List.map_cons, hactions]
    · rw [List.map_cons, hanswers, hanswer]
      rfl
    · rw [hends.sets, hsets]
      split <;> rfl
  · refine ⟨[⟨_, o⟩], .freed n, o.world, s', ?_, ⟨.snoc .nil hstep, ⟨0, rfl⟩, ⟨0, ?_⟩⟩, hends,
      .inr ⟨rfl, hsame, n, rfl⟩⟩
    · simp
    · exact congrArg (fun x => [x]) hanswer

end World

end

end MarkedChain
