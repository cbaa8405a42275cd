import MarkedChain.Proofs.Retries
import MarkedChain.Proofs.Retirements

/-!
# Sets do not touch each other

A set with its handles and the operations on it is a part of the world (`World.Part`), and an action
changes the part of one set only, the one that it is about (`World.step_part`). To an operation this
means that another set is changed by nothing but the steps that others make while it pauses
(`Course.part_eq`). A call with the handle of another set is refused before it has done anything.
`Run.sets_apart` puts this together for every run.
-/

namespace MarkedChain

variable {κ ν : Type}

/-! ## The part of a set -/

/-- What belongs to one set: its state with chain, limbo, records and pools, its handles by their
numbers, and the operations in progress on it. -/
@[ext] structure World.Part (κ ν : Type) where
  set? : Option (SharedSet κ ν)
  handle? : Nat → Option Handle
  running : List (Activation κ)

namespace World

/-- A handle, if it is one of the set `i`. -/
def handleOf? (w : World κ ν) (i k : Nat) : Option Handle :=
  (w.handles[k]?).filter fun x => decide (x.set = i)

/-- Whether an operation is one on the set `i`. -/
def isOn (w : World κ ν) (i : Nat) (b : Activation κ) : Bool := decide (w.setOf? b.handle = some i)

/-- The part of the set `i`. -/
def part (w : World κ ν) (i : Nat) : World.Part κ ν where
  set? := w.sets[i]?
  handle? := w.handleOf? i
  running := w.running.filter (w.isOn i)

/-- No action of a run is about the set `i`. -/
def Elsewhere (w : World κ ν) (es : List (Event κ ν)) (i : Nat) : Prop :=
  ∀ m e u, es[m]? = some e → w.worldAt es m = some u → u.subject? e.action ≠ some i

variable {w w' : World κ ν} {o : Outcome κ ν} {i j k : Nat} {x x' : Handle} {s t : SharedSet κ ν}

theorem setOf?_eq_some_iff : w.setOf? k = some i ↔ (w.handleOf? i k).isSome = true := by
  rw [setOf?, handleOf?, Option.map_eq_some_iff]
  cases w.handles[k]? with
  | none => simp
  | some x => simp [Option.filter]

/-! ## What an action leaves alone -/

theorem part_congr (hset : w'.sets[i]? = w.sets[i]?)
    (hhandle : ∀ k, w'.handleOf? i k = w.handleOf? i k)
    (hrun : w'.running.filter (w.isOn i) = w.running.filter (w.isOn i)) :
    w'.part i = w.part i := by
  have hon : w'.isOn i = w.isOn i := by
    funext b
    simp only [isOn, setOf?_eq_some_iff, hhandle]
  rw [part, part, hset, funext hhandle, hon, hrun]

theorem part_setSet (hj : j ≠ i) (t : SharedSet κ ν) : (w.setSet j t).part i = w.part i :=
  part_congr (by simp [setSet, hj]) (fun _ => rfl) rfl

/-- A handle of another set is replaced by one of that set. -/
theorem part_setHandle (hx : w.handles[k]? = some x) (hi : x.set ≠ i) (hset : x'.set = x.set) :
    (w.setHandle k x').part i = w.part i := by
  refine part_congr rfl (fun k' => ?_) rfl
  rw [handleOf?, getElem?_setHandle hx]
  split
  · next hk => simp [handleOf?, hk, hx, hset, hi, Option.filter]
  · rfl

/-- Another set and one of its handles are replaced. -/
theorem part_setSet_setHandle (hx : w.handles[k]? = some x) (hi : x.set ≠ i) (x' : Handle)
    (hset : x'.set = x.set) (t : SharedSet κ ν) :
    ((w.setSet x.set t).setHandle k x').part i = w.part i :=
  (part_setHandle (w := w.setSet x.set t) hx hi hset).trans (part_setSet hi t)

/-- One more handle of another set. -/
theorem part_push (hi : x.set ≠ i) :
    ({ w with handles := w.handles.push x } : World κ ν).part i = w.part i := by
  refine part_congr rfl (fun k' => ?_) rfl
  rw [handleOf?, handleOf?, Array.getElem?_push]
  split
  · next hk => simp [hk, hi, Option.filter]
  · rfl

/-- The operations in progress have changed, though not those on the set. -/
theorem part_running {bs : List (Activation κ)}
    (hbs : bs.filter (w.isOn i) = w.running.filter (w.isOn i)) :
    ({ w with running := bs } : World κ ν).part i = w.part i :=
  part_congr rfl (fun _ => rfl) hbs

theorem register_part (h : w.register j = .ok o) (hj : j ≠ i) : o.world.part i = w.part i := by
  obtain ⟨s, -, h⟩ := bind_eq_ok.1 h
  split at h <;> cases h
  · rfl
  · exact (part_push hj).trans (part_setSet hj _)

theorem release_part (h : w.release k = .ok o) (hk : w.setOf? k ≠ some i) :
    o.world.part i = w.part i := by
  obtain ⟨x, hx, h⟩ := bind_eq_ok.1 h
  obtain ⟨s, -, h⟩ := bind_eq_ok.1 h
  have hx := (of_idleHandle hx).1
  have hi : x.set ≠ i := by simpa [setOf?, hx] using hk
  cases h
  exact part_setSet_setHandle hx hi { x with status := .released } rfl _

theorem freeNodes_part {lane : Lane} {nodes : List Address} {answer : Answer κ ν}
    (h : w.freeNodes j lane s nodes answer = .ok o) (hj : j ≠ i) :
    o.world.part i = w.part i := by
  obtain ⟨⟨drops, s'⟩, -, h⟩ := bind_eq_ok.1 h
  cases h
  exact part_setSet hj _

theorem invoke_part {lane : Lane} {call : Call κ ν} {offer : Option Address}
    (h : w.invoke k j lane call offer = .ok o)
    (hsubject : w.subject? (.invoke k j lane call offer) ≠ some i) :
    o.world.part i = w.part i := by
  obtain ⟨s, -, h⟩ := bind_eq_ok.1 h
  obtain ⟨x, hx, h⟩ := bind_eq_ok.1 h
  have hx := (of_idleHandle hx).1
  split at h
  · next hset =>
    subst hset
    have hi : x.set ≠ i := by simpa [subject?, setOf?, hx] using hsubject
    obtain ⟨⟨new, t⟩, -, h⟩ := bind_eq_ok.1 h
    cases new with
    | none => exact freeNodes_part h hi
    | some task =>
      obtain ⟨sch, -, h⟩ := bind_eq_ok.1 h
      cases h
      have hopened := part_setSet_setHandle hx hi { x with status := .running } rfl
        { t with scheme := sch }
      refine (part_running (List.filter_cons_of_neg ?_)).trans hopened
      have hsame : ((w.setSet x.set { t with scheme := sch }).setHandle k
          { x with status := .running }).setOf? k = w.setOf? k :=
        setOf?_setHandle hx { x with status := .running } rfl rfl k
      rw [isOn, hsame, setOf?, hx]
      simpa using hi
  · cases h
    rfl

theorem finish_part {reply : Reply κ ν} (h : w.finish k x s reply = .ok w')
    (hx : ∃ x₀, w.handles[k]? = some x₀ ∧ x₀.set = x.set) (hi : x.set ≠ i) :
    w'.part i = w.part i := by
  obtain ⟨x₀, hx, hset⟩ := hx
  have hboth : ∀ (t : SharedSet κ ν) (x' : Handle), x'.set = x.set →
      ((w.setSet x.set t).setHandle k x').part i = w.part i := fun t x' hx' =>
    hset ▸ part_setSet_setHandle hx (hset ▸ hi) x' (hx'.trans hset.symm) t
  rw [finish] at h
  split at h
  · obtain ⟨sch, -, h⟩ := bind_eq_ok.1 h
    cases h
    exact hboth _ _ rfl
  · cases h
    exact hboth _ _ rfl

theorem proceed_part [Ord κ] (h : w.proceed = .ok o) (hsubject : w.subject? .proceed ≠ some i) :
    o.world.part i = w.part i := by
  rw [proceed] at h
  split at h
  · cases h
  · next b rest hrun =>
    obtain ⟨x, hx, h⟩ := bind_eq_ok.1 h
    obtain ⟨s, -, h⟩ := bind_eq_ok.1 h
    obtain ⟨stride, -, h⟩ := bind_eq_ok.1 h
    have hx := ((w.handle_settles _).of_ok hx).1
    have hi : x.set ≠ i := by simpa [subject?, hrun, setOf?, hx] using hsubject
    have hoff : ∀ f, w.isOn i { b with frame := f } = false := fun f => by
      simp [isOn, setOf?, hx, hi]
    have hrest : rest.filter (w.isOn i) = w.running.filter (w.isOn i) := by
      rw [hrun]
      exact (List.filter_cons_of_neg (by simp [hoff b.frame])).symm
    dsimp only at h
    split at h
    · next frame _ =>
      cases h
      have hgoes : ({ w with running := { b with frame } :: rest } : World κ ν).part i =
          w.part i :=
        part_running ((List.filter_cons_of_neg (by simp [hoff frame])).trans hrest)
      refine Eq.trans ?_ hgoes
      exact part_setSet_setHandle (w := { w with running := { b with frame } :: rest })
        hx hi { x with retries := x.retries + stride.retries } rfl _
    · obtain ⟨w', hfinish, h⟩ := bind_eq_ok.1 h
      cases h
      exact (finish_part (Halt.lift_eq_ok.1 hfinish) ⟨x, hx, rfl⟩ hi).trans (part_running hrest)

theorem resume_part (h : w.resume k = .ok o) (hk : w.setOf? k ≠ some i) :
    o.world.part i = w.part i := by
  obtain ⟨x, hx, h⟩ := bind_eq_ok.1 h
  have hx := ((w.handle_settles k).of_ok hx).1
  have hi : x.set ≠ i := by simpa [setOf?, hx] using hk
  split at h
  · obtain ⟨s, -, h⟩ := bind_eq_ok.1 h
    obtain ⟨sch, -, h⟩ := bind_eq_ok.1 h
    cases h
    exact part_setSet_setHandle hx hi { x with status := .idle } rfl _
  · cases h

theorem advance_part (h : w.advance j = .ok o) (hj : j ≠ i) : o.world.part i = w.part i := by
  obtain ⟨s, -, h⟩ := bind_eq_ok.1 h
  split at h <;> cases h
  exact part_setSet hj _

theorem collect_part {lane : Lane} (h : w.collect j lane = .ok o) (hj : j ≠ i) :
    o.world.part i = w.part i := by
  obtain ⟨s, -, h⟩ := bind_eq_ok.1 h
  split at h
  · exact freeNodes_part h hj
  · cases h

theorem scan_part {lane : Lane} (h : w.scan j lane = .ok o) (hj : j ≠ i) :
    o.world.part i = w.part i := by
  obtain ⟨s, -, h⟩ := bind_eq_ok.1 h
  split at h
  · cases h
  · exact freeNodes_part h hj

/-- An action changes nothing of a set that it is not about. -/
theorem step_part [Ord κ] {a : Action κ ν} (h : w.step a = .ok o) (ha : w.subject? a ≠ some i) :
    o.world.part i = w.part i := by
  have hne : ∀ {j : Nat}, some j ≠ some i → j ≠ i := fun h hj => h (congrArg some hj)
  cases a with
  | proceed => exact proceed_part h ha
  | register j => exact (bind_eq_ok.1 h).elim fun _ h => register_part h.2 (hne ha)
  | release k => exact (bind_eq_ok.1 h).elim fun _ h => release_part h.2 ha
  | invoke k j lane call offer => exact (bind_eq_ok.1 h).elim fun _ h => invoke_part h.2 ha
  | resume k => exact (bind_eq_ok.1 h).elim fun _ h => resume_part h.2 ha
  | advance j => exact (bind_eq_ok.1 h).elim fun _ h => advance_part h.2 (hne ha)
  | collect j lane => exact (bind_eq_ok.1 h).elim fun _ h => collect_part h.2 (hne ha)
  | scan j lane => exact (bind_eq_ok.1 h).elim fun _ h => scan_part h.2 (hne ha)

/-- A handle of another set is refused, whatever it is to do, and the world stays as it is. What was
handed over is dropped. -/
theorem step_foreign [Ord κ] (hpauses : w.pauses = true) (hx : w.handles[k]? = some x)
    (hidle : x.status = .idle) (hs : w.sets[j]? = some s) (hj : x.set ≠ j) (lane : Lane)
    (call : Call κ ν) (offer : Option Address) :
    w.step (.invoke k j lane call offer) =
      .ok { world := w, drops := call.payload, answer := some (.misuse .foreignHandle) } := by
  refine bind_eq_ok.2 ⟨(), if_pos hpauses, bind_eq_ok.2 ⟨s, set_eq_ok hs, bind_eq_ok.2 ⟨x,
    idleHandle_eq_ok hx hidle, ?_⟩⟩⟩
  exact if_neg hj

end World

/-! ## In a run -/

section

variable [Ord κ] {w w₀ u v : World κ ν} {es : List (Event κ ν)} {i : Nat}

/-- Actions that are not about a set change nothing of it. -/
theorem Run.part_eq (h : Run w₀ es w) (helsewhere : w₀.Elsewhere es i) : w.part i = w₀.part i := by
  induction h with
  | nil => rfl
  | @snoc es w a o h hstep ih =>
    have hlast : w.subject? a ≠ some i := by
      refine helsewhere es.length ⟨a, o⟩ w (by simp) ?_
      rw [World.worldAt_append (Nat.le_refl _), h.worldAt_last]
    refine (World.step_part hstep hlast).trans (ih fun m e u he hu => ?_)
    have hm := (List.getElem?_eq_some_iff.1 he).1
    refine helsewhere m e u ?_ ?_
    · rw [List.getElem?_append_left hm, he]
    · rw [World.worldAt_append (Nat.le_of_lt hm), hu]

variable [Std.TransOrd κ] {kind : Scheme.Kind} {ts : List Tuning} {b : Activation κ}
  {rest : List (Activation κ)} {x : Handle} {s : SharedSet κ ν} {legs : List (Leg κ ν)}

/-- An operation changes nothing of another set, so that only others can have done so. -/
theorem Course.part_eq (h : Run (.ofTunings kind ts) es u) (htop : u.OnTop b rest x s)
    (hrecent : b.frame.Recent s) (hcourse : Course u legs v) (hi : x.set ≠ i)
    (hothers : ∀ t t', .others t t' ∈ legs → t'.part i = t.part i) : v.part i = u.part i := by
  induction hcourse with
  | nil => rfl
  | @own legs v o hcourse hdepth hstep ih =>
    refine (World.step_part hstep ?_).trans (ih fun t t' ht => hothers t t' (by simp [ht]))
    obtain ⟨-, x', -, -, -, hended | ⟨f, s', htop', hset, -⟩⟩ := hcourse.accounts h htop hrecent
    · rw [hended, htop.running] at hdepth
      simp at hdepth
    · simp [World.subject?, World.setOf?, htop'.running, htop'.handle, hset, hi]
  | @others legs v es' v' hcourse hdepth hgroup ih =>
    exact (hothers v v' (by simp)).trans (ih fun t t' ht => hothers t t' (by simp [ht]))

/-- After every run, whenever other operations may run, a call on a set with an idle handle of
another one is refused, and the world stays as it is. Whatever is done next changes nothing of a set
that no action is about. And an operation on a set, whatever it comes to, leaves every other set as
it was, but for what others do to that one while the operation pauses. -/
theorem Run.sets_apart (h : Run (.ofTunings kind ts) es w) :
    (∀ k x j s lane call offer, w.pauses = true → w.handles[k]? = some x → x.status = .idle →
      w.sets[j]? = some s → x.set ≠ j → w.step (.invoke k j lane call offer) =
        .ok { world := w, drops := call.payload, answer := some (.misuse .foreignHandle) }) ∧
    (∀ i es' v, Run w es' v → w.Elsewhere es' i → v.part i = w.part i) ∧
    ∀ k j lane call offer o, w.step (.invoke k j lane call offer) = .ok o → ∀ i, j ≠ i →
      o.world.part i = w.part i ∧ (o.answer = none → ∀ legs v, Course o.world legs v →
        (∀ t t', .others t t' ∈ legs → t'.part i = t.part i) → v.part i = w.part i) := by
  refine ⟨fun k x j s lane call offer hpauses hx hidle hs hj =>
    World.step_foreign hpauses hx hidle hs hj lane call offer, fun i es' v h' => h'.part_eq,
    fun k j lane call offer o hstep i hi => ?_⟩
  have hw := h.sound (World.sound_ofTunings kind ts) h.worldAt_last
  have hbegun : o.world.part i = w.part i := by
    refine World.step_part hstep ?_
    rw [World.subject?]
    split
    · exact fun hij => hi (Option.some.inj hij)
    · exact (Option.some_ne_none i).symm
  refine ⟨hbegun, fun hanswer legs v hcourse hothers => ?_⟩
  obtain ⟨x, task, s, -, hset, htop⟩ := ((World.step_settles hw _).of_ok hstep).onTop_begin hanswer
  have hcourse := hcourse.part_eq (h.snoc hstep) htop (fun _ => trivial) (hset ▸ hi) hothers
  exact hcourse.trans hbegun

end

/-! ## Operations on two sets -/

theorem World.elsewhere_of_forall {w : World κ ν} {es : List (Event κ ν)} {i : Nat}
    (h : ∀ m < es.length, ((es[m]?).all fun e =>
      (w.worldAt es m).all fun u => decide (u.subject? e.action ≠ some i)) = true) :
    w.Elsewhere es i := by
  intro m e u he hu
  have hm := h m (List.getElem?_eq_some_iff.1 he).1
  rw [he, hu] at hm
  exact of_decide_eq_true hm

namespace TwoSets

/-- Two sets at the start. -/
def origin : World Int Nat := .ofTunings .hazards [{}, {}]

/-- Of three handles the second one is of the second set. It is removing a key of that set, and the
first one is going to look for a key of the first set. -/
def waiting : World Int Nat :=
  (origin.play [.register 0, .register 1, .register 0, .invoke 1 1 0 (.insert 5 50) none, .proceed,
    .proceed, .invoke 0 0 0 (.insert 1 10) none, .proceed, .proceed,
    .invoke 1 1 0 (.remove 5) none, .proceed, .proceed]).2

/-- The search has begun. -/
def begun : World Int Nat := (waiting.play [.invoke 0 0 0 (.contains 1) none]).2

/-- The search stands before the node of the key. -/
def met : World Int Nat := ((begun.play [.proceed]).2.play [.proceed]).2

/-- The third handle is refused by the second set and removes the key from the first one. -/
def between : List (Action Int Nat) :=
  .invoke 2 1 0 (.insert 7 70) none :: .invoke 2 0 0 (.remove 1) none :: List.replicate 4 .proceed

/-- The search goes on. -/
def found : World Int Nat := ((met.play between).2.play [.proceed]).2

/-- The steps of the search and what was done in between. -/
def legs : List (Leg Int Nat) :=
  [.own begun (begun.play [.proceed]).2, .own (begun.play [.proceed]).2 met,
    .others met (met.play between).2, .own (met.play between).2 found]

theorem run_waiting : ∃ es, Run origin es waiting := ⟨_, origin.play_run _⟩

theorem run_met : ∃ es, Run origin es met := by
  obtain ⟨es, hwaiting⟩ := run_waiting
  have hbegun : Run origin _ begun := hwaiting.play waiting _
  have hread : Run origin _ (begun.play [.proceed]).2 := hbegun.play begun _
  exact ⟨_, hread.play _ _⟩

theorem course : Course begun legs found := by
  have hstart : Course begun [] begun := .nil
  have hread := hstart.own_play rfl (by decide +kernel)
  have hmet := hread.own_play (by decide +kernel) (by decide +kernel)
  have hbetween := hmet.others_play (by decide +kernel) between (by decide +kernel)
    (by decide +kernel) (by decide +kernel)
  exact hbetween.own_play (by decide +kernel) (by decide +kernel)

end TwoSets

open TwoSets in
/-- A handle of the first set is refused by the second one, on which a removal is in progress. The
search of the first set changes nothing of the second one, and neither does what is done while the
search pauses. -/
theorem sets_apart_twoSets :
    met.step (.invoke 2 1 0 (.insert 7 70) none) =
      .ok { world := met, drops := [70], answer := some (.misuse .foreignHandle) } ∧
    (waiting.part 1).running.map Activation.handle = [1] ∧ found.part 1 = waiting.part 1 := by
  obtain ⟨o, hstep, hanswer, hworld⟩ : ∃ o, waiting.step (.invoke 0 0 0 (.contains 1) none) = .ok o ∧
      o.answer = none ∧ begun = o.world := World.exists_step_of_play (by decide +kernel)
  obtain ⟨es, hwaiting⟩ := run_waiting
  obtain ⟨es', hmet⟩ := run_met
  obtain ⟨t, ht⟩ := Option.isSome_iff_exists.1 (by decide +kernel : met.sets[1]?.isSome = true)
  obtain ⟨hforeign, helsewhere, -⟩ := hmet.sets_apart
  refine ⟨hforeign 2 ⟨0, 1, 0, .idle⟩ 1 t 0 (.insert 7 70) none (by decide +kernel)
    (by decide +kernel) rfl ht (by decide), by decide +kernel, ?_⟩
  have hbetween : (met.play between).2.part 1 = met.part 1 :=
    helsewhere 1 _ _ (met.play_run between) (World.elsewhere_of_forall (by decide +kernel))
  refine (hwaiting.sets_apart.2.2 0 0 0 (.contains 1) none o hstep 1 (by decide)).2 hanswer legs
    found (hworld ▸ course) fun t t' hmem => ?_
  simp only [legs, List.mem_cons, List.not_mem_nil, reduceCtorEq, false_or, or_false,
    Leg.others.injEq] at hmem
  obtain ⟨rfl, rfl⟩ := hmem
  exact hbetween

end MarkedChain
