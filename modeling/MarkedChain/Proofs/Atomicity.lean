import MarkedChain.Proofs.Closing
import MarkedChain.Proofs.Completion
import MarkedChain.Proofs.Journal
import MarkedChain.Proofs.Removals

/-!
# Uninterrupted operations are atomic

From every state of a run an operation that runs while all others wait does what a ledger with the
contents of its set does, all at once (`World.Sound.performs`). So a run in which no operation is
interrupted serves one call after the other (`InTurn`, `Run.inTurn`), and what its calls are replied
follows from the calls alone (`Run.uninterrupted`).
-/

namespace MarkedChain

variable {κ ν : Type}

/-! ## Runs without interruption -/

/-- While an operation is in progress nothing is done but to move it on. -/
def World.Unnested (w₀ : World κ ν) (es : List (Event κ ν)) : Prop :=
  ∀ m e u, es[m]? = some e → w₀.worldAt es m = some u → e.action ≠ .proceed → u.running = []

/-- The calls on a set that have ended, in order, with their replies. -/
def replies (es : List (Event κ ν)) (i : Nat) : List (Call κ ν × Reply κ ν) :=
  ((journal es).spans.filter fun x => decide (x.set = i)).map fun x => (x.call, x.reply)

theorem replies_congr {es es' : List (Event κ ν)} (h : (journal es').spans = (journal es).spans)
    (i : Nat) : replies es' i = replies es i := by
  rw [replies, h, replies]

/-- A call that ends adds its reply to those of its set. -/
theorem replies_snoc {es es' : List (Event κ ν)} {x : Span κ ν}
    (h : (journal es').spans = (journal es).spans ++ [x]) (i : Nat) :
    replies es' i = if x.set = i then replies es i ++ [(x.call, x.reply)] else replies es i := by
  rw [replies, h, replies, List.filter_append, List.map_append, List.filter_singleton]
  split <;> simp_all

variable [Ord κ]

omit [Ord κ] in
theorem World.Unnested.of_snoc {w₀ w : World κ ν} {es : List (Event κ ν)} {e : Event κ ν}
    (h : w₀.Unnested (es ++ [e])) (hlast : w₀.worldAt es es.length = some w) :
    w₀.Unnested es ∧ (e.action ≠ .proceed → w.running = []) := by
  refine ⟨fun m e' u he hu ha => ?_, fun ha => ?_⟩
  · have hm := (List.getElem?_eq_some_iff.1 he).1
    refine h m e' u ?_ ?_ ha
    · rw [List.getElem?_append_left hm, he]
    · rw [World.worldAt_append (Nat.le_of_lt hm), hu]
  · refine h es.length e w (by simp) ?_ ha
    rw [World.worldAt_append (Nat.le_refl _), hlast]

/-- Every set has served its calls one after the other, and the one operation that may be in
progress has been disturbed by nobody. -/
structure InTurn (es : List (Event κ ν)) (w : World κ ν) : Prop where
  running : (w.running = [] ∧ (journal es).pending = []) ∨
    ∃ i call a s after b, w.Underway i call a [] s after ∧ (journal es).pending = [⟨i, call, b⟩]
  explains : ∀ (i : Nat) (s : SharedSet κ ν), w.sets[i]? = some s →
    Ledger.Explains [] (replies es i) s.contents

/-- An action is answered, and no operation begins or ends with it, or it begins one. -/
theorem Passage.answered {w : World κ ν} {a : Action κ ν} {o : Outcome κ ν} (h : Passage w a o)
    (ha : a ≠ .proceed) :
    (∃ x, o.answer = some x ∧ o.world.running = w.running) ∨
      ∃ k i lane call offer, a = .invoke k i lane call offer ∧ o.answer = none := by
  cases h with
  | misuse | sweep | register | release | resume => exact .inl ⟨_, rfl, rfl⟩
  | begin => exact .inr ⟨_, _, _, _, _, rfl, rfl⟩
  | goes | ends => exact absurd rfl ha

namespace InTurn

variable [Std.TransOrd κ] {w : World κ ν} {es : List (Event κ ν)} {a : Action κ ν}
  {o : Outcome κ ν}

omit [Std.TransOrd κ] in
/-- Only the contents of one set change, and they do with a reply. -/
theorem explains_of_sets (h : InTurn es w) {es' : List (Event κ ν)} {w' : World κ ν} {i : Nat}
    {s s' : SharedSet κ ν} (hs : w.sets[i]? = some s)
    (hsets : ∀ j, w'.sets[j]? = if j = i then some s' else w.sets[j]?)
    (hother : ∀ j, j ≠ i → replies es' j = replies es j)
    (hserve : ∀ l, Ledger.Explains l (replies es i) s.contents →
      Ledger.Explains l (replies es' i) s'.contents) (j : Nat) (t : SharedSet κ ν)
    (ht : w'.sets[j]? = some t) : Ledger.Explains [] (replies es' j) t.contents := by
  rw [hsets] at ht
  split at ht
  · next hj =>
    cases ht
    exact hj ▸ hserve [] (h.explains i s hs)
  · next hj =>
    rw [hother j hj]
    exact h.explains j t ht

omit [Std.TransOrd κ] in
/-- An action that begins while no operation is in progress. -/
theorem quiet (h : InTurn es w) (hw : w.Sound) (hp : Passage w a o) (ha : a ≠ .proceed)
    (hidle : w.running = []) : InTurn (es ++ [⟨a, o⟩]) o.world := by
  have hpending : (journal es).pending = [] := by
    rcases h.running with ⟨-, hpending⟩ | ⟨i, call, b, s, after, n, hunderway, -⟩
    · exact hpending
    · rw [hunderway.running] at hidle
      cases hidle
  rcases hp.answered ha with ⟨x, hanswer, hrun⟩ | ⟨k, i, lane, call, offer, rfl, hanswer⟩
  · have hnote := journal_answered es (e := ⟨a, o⟩) hanswer ha
    refine ⟨.inl ⟨hrun.trans hidle, hnote.1.trans hpending⟩, fun i s hs => ?_⟩
    obtain ⟨t, ht⟩ := hp.exists_set hs
    rw [hp.contents hw ha ht hs, replies_congr hnote.2]
    exact h.explains i t ht
  · have hnote := journal_begins es k i lane call offer hanswer
    have hset : ∃ s, w.sets[i]? = some s := by
      cases hp with
      | misuse | sweep => cases hanswer
      | begin _ _ _ _ _ _ _ _ hs => exact ⟨_, hs⟩
    obtain ⟨s, hs⟩ := hset
    obtain ⟨s', task, hsets, hunderway, -, hsame⟩ := hp.underway_begin hw hs hanswer
    rw [hidle] at hunderway
    refine ⟨.inr ⟨i, call, _, s', _, _, hunderway, by rw [hnote.1, hpending]⟩, ?_⟩
    refine h.explains_of_sets hs hsets (fun j _ => replies_congr hnote.2 j) fun l hl => ?_
    rw [replies_congr hnote.2, hsame]
    exact hl

/-- The operation in progress makes a step. -/
theorem proceed (h : InTurn es w) (hw : w.Sound) (hp : Passage w .proceed o) :
    InTurn (es ++ [⟨.proceed, o⟩]) o.world := by
  rcases h.running with ⟨hidle, -⟩ | ⟨i, call, b, s, after, n, hunderway, hpending⟩
  · cases hp with
    | misuse _ _ _ ha => exact absurd rfl ha
    | sweep _ _ _ ha => exact absurd rfl ha
    | goes hrun | ends hrun =>
      rw [hidle] at hrun
      cases hrun
  · rcases hp.underway hw hunderway with
      ⟨frame, s', after', hanswer, hunderway', hsets, -, hsame, -⟩ |
        ⟨reply, s', hanswer, hends, hserve⟩
    · have hnote := journal_goes es hanswer
      refine ⟨.inr ⟨i, call, _, s', after', n, hunderway', hnote.1.trans hpending⟩, ?_⟩
      refine h.explains_of_sets hunderway.set hsets (fun j _ => replies_congr hnote.2 j)
        fun l hl => ?_
      rw [replies_congr hnote.2, hsame]
      exact hl
    · have hnote := journal_ends hpending hanswer
      have hreplies := replies_snoc hnote.2
      refine ⟨.inl ⟨hends.running, hnote.1⟩, ?_⟩
      refine h.explains_of_sets hunderway.set hends.sets (fun j hj => ?_) fun l hl => ?_
      · rw [hreplies, if_neg (Ne.symm hj)]
      · rw [hreplies, if_pos rfl]
        exact hl.snoc hserve

end InTurn

variable [Std.TransOrd κ]

/-- A run without interruption serves one call after the other. -/
theorem Run.inTurn {w₀ w : World κ ν} {es : List (Event κ ν)} (h : Run w₀ es w) (h₀ : w₀.Sound)
    (hidle : w₀.running = [])
    (hempty : ∀ (i : Nat) (s : SharedSet κ ν), w₀.sets[i]? = some s → s.contents = [])
    (hunnested : w₀.Unnested es) : InTurn es w := by
  induction h with
  | nil =>
    refine ⟨.inl ⟨hidle, rfl⟩, fun i s hs => ?_⟩
    rw [hempty i s hs]
    exact .nil _
  | @snoc es w a o h hstep ih =>
    have hw := h.sound h₀ h.worldAt_last
    have hp := (World.step_settles hw _).of_ok hstep
    obtain ⟨hbefore, hlast⟩ := hunnested.of_snoc h.worldAt_last
    by_cases ha : a = .proceed
    · subst ha
      exact (ih hbefore).proceed hw hp
    · exact (ih hbefore).quiet hw hp ha (hlast ha)

omit [Ord κ] [Std.TransOrd κ] in
/-- A set that was just made is empty. -/
theorem World.contents_of_ofTunings {kind : Scheme.Kind} {ts : List Tuning} {i : Nat}
    {s : SharedSet κ ν} (hs : (World.ofTunings kind ts).sets[i]? = some s) : s.contents = [] := by
  obtain ⟨t, rfl⟩ := World.eq_ofTuning hs
  rfl

/-- In a run without interruption the replies on a set are those of a ledger. -/
theorem Run.explains_replies {kind : Scheme.Kind} {ts : List Tuning} {es : List (Event κ ν)}
    {w : World κ ν} (h : Run (.ofTunings kind ts) es w)
    (hunnested : (World.ofTunings kind ts).Unnested es) {i : Nat} {s : SharedSet κ ν}
    (hs : w.sets[i]? = some s) : Ledger.Explains [] (replies es i) s.contents := by
  have hturn := h.inTurn (World.sound_ofTunings kind ts) rfl
    (fun _ _ => World.contents_of_ofTunings) hunnested
  exact hturn.explains i s hs

/-- From every state of a run an operation of an idle handle that runs while all others wait,
however many of them, comes to its end. It does to the contents of its set, which are in ascending
order, what a ledger does and gives the same reply; to reclaim leaves the contents as they are. What
is asked of the thresholds is that pools can be reserved, to insert, and that the scan threshold
fits, if the operation comes to a step at which it has to retire a node. In a run without
interruption the replies on a set are those of a ledger, so in two such runs the same calls get the
same replies and lead to the same contents, whatever the schemes and the thresholds are. -/
theorem Run.uninterrupted {kind : Scheme.Kind} {ts : List Tuning} {es : List (Event κ ν)}
    {w : World κ ν} (h : Run (.ofTunings kind ts) es w) :
    (∀ (k i : Nat) (x : Handle) (s : SharedSet κ ν) (lane : Lane) (call : Call κ ν)
        (offer : Option Address), w.pauses = true → w.handles[k]? = some x → x.status = .idle →
      x.set = i → w.sets[i]? = some s →
      (∀ o, w.step (.invoke k i lane call offer) = .ok o → o.world.ComesToRetire w.running i →
        s.scheme.thresholdFits = true) →
      (∀ key value, call = .insert key value → s.memory.poolFits = true) →
      s.contents.Pairwise (fun p q => compare p.1 q.1 = .lt) ∧
        ∃ es' reply w' s', es'.length ≤ 3 * s.linked.length + 5 ∧
          w.Performs (.invoke k i lane call offer) es' reply w' ∧
          w.Ends k i w.running reply s' w' ∧
          (Ledger.serve s.contents call = (s'.contents, some reply) ∨
            call = .reclaim ∧ s'.contents = s.contents ∧ ∃ n, reply = .freed n)) ∧
    ((World.ofTunings kind ts).Unnested es → ∀ (i : Nat) (s : SharedSet κ ν),
      w.sets[i]? = some s → Ledger.Explains [] (replies es i) s.contents ∧
        ∀ (kind' : Scheme.Kind) (ts' : List Tuning) (es' : List (Event κ ν)) (w' : World κ ν)
            (i' : Nat) (s' : SharedSet κ ν),
          Run (.ofTunings kind' ts') es' w' → (World.ofTunings kind' ts').Unnested es' →
          w'.sets[i']? = some s' → (replies es i).map Prod.fst = (replies es' i').map Prod.fst →
          replies es i = replies es' i' ∧ s.contents = s'.contents) := by
  have hw : w.Sound := h.sound (World.sound_ofTunings kind ts) h.worldAt_last
  refine ⟨?_, fun hunnested i s hs => ⟨h.explains_replies hunnested hs, ?_⟩⟩
  · intro k i x s lane call offer hpauses hx hidle hset hs hthreshold hinsert
    have hsound := hw.sets i s hs
    have hroomy : s.Roomy (∃ o, w.step (.invoke k i lane call offer) = .ok o ∧
        o.world.ComesToRetire w.running i) False :=
      ⟨hsound.roomy (h.poolsFit hs), fun ⟨o, hstep, hr⟩ => .inl (hthreshold o hstep hr)⟩
    exact ⟨hsound.ascending_contents,
      hw.performs hpauses hx hidle hset hs lane offer hroomy hinsert⟩
  · intro kind' ts' es' w' i' s' h' hunnested' hs' hcalls
    exact (h.explains_replies hunnested hs).unique (h'.explains_replies hunnested' hs') hcalls

/-! ## Calls one by one -/

omit [Ord κ] [Std.TransOrd κ] in
theorem World.unnested_of_running {w₀ : World κ ν} {es : List (Event κ ν)}
    (h : ∀ m < es.length, (es[m]?).map Event.action ≠ some .proceed →
      (w₀.worldAt es m).all (·.running.isEmpty) = true) : w₀.Unnested es := by
  intro m e u he hu ha
  have hrun := h m (List.getElem?_eq_some_iff.1 he).1 (by simpa [he] using ha)
  rw [hu] at hrun
  simpa using hrun

namespace OneByOne

/-- Two keys are inserted, one of them twice, and that one is removed. -/
def calls : List (Call Int Nat) :=
  [.insert 1 10, .insert 2 20, .insert 1 11, .remove 1, .keys, .get 2]

/-- One handle makes the calls. A step that finds nothing to move on is left out. -/
def actions : List (Action Int Nat) :=
  .register 0 :: calls.flatMap fun c => .invoke 0 0 0 c none :: List.replicate 6 .proceed

/-- Every retirement scans. -/
def scanning : Tuning := { scanFactor := 1, scanFloor := 0 }

/-- The one set at the start. -/
def origin (kind : Scheme.Kind) (t : Tuning) : World Int Nat := .ofTunings kind [t]

/-- What the actions came to. -/
def events (kind : Scheme.Kind) (t : Tuning) : List (Event Int Nat) :=
  ((origin kind t).play actions).1

/-- The world in the end. -/
def world (kind : Scheme.Kind) (t : Tuning) : World Int Nat := ((origin kind t).play actions).2

theorem run (kind : Scheme.Kind) (t : Tuning) :
    Run (.ofTunings kind [t]) (events kind t) (world kind t) :=
  (origin kind t).play_run actions

end OneByOne

open OneByOne in
/-- While a removal is paused whose node is marked and still on the chain, an insertion of the same
key takes the node out of its way. And calls one by one get the same replies under epochs and under
hazard slots that are scanned at every retirement. -/
theorem uninterrupted_comingBack :
    (∃ es' w' s', (ComingBack.world 17).Performs (.invoke 1 0 0 (.insert 2 21) none) es'
      .inserted w' ∧ w'.sets[0]? = some s' ∧ s'.contents = [(1, 10), (2, 21)]) ∧
    (replies (events .hazards scanning) 0).map Prod.snd =
      [.inserted, .inserted, .alreadyPresent, .removed, .listed [2], .got (some 20)] := by
  constructor
  · have hstate : ComingBack.origin.worldAt ComingBack.events 17 = some (ComingBack.world 17) :=
      ComingBack.worldAt_eq (by decide)
    obtain ⟨-, es', reply, w', s', -, hperforms, hends, hserve | ⟨hcall, -⟩⟩ :=
      (ComingBack.run.take hstate).uninterrupted.1 1 0 ⟨0, 1, 0, .idle⟩ (ComingBack.set 17) 0
        (.insert 2 21) none (by decide) (by decide) rfl rfl (by rfl) (fun _ _ _ => by decide)
        fun _ _ _ => by decide
    · have hright : Ledger.serve (ComingBack.set 17).contents (.insert 2 21) =
          ([(1, 10), (2, 21)], some .inserted) := by decide
      obtain ⟨hcontents, hreply⟩ := Prod.ext_iff.1 (hserve.symm.trans hright)
      cases hreply
      exact ⟨es', w', s', hperforms, (hends.sets 0).trans (if_pos rfl), hcontents⟩
    · cases hcall
  · have hscanning : (World.ofTunings .hazards [scanning]).Unnested (events .hazards scanning) :=
      World.unnested_of_running (by decide +kernel)
    have hepochs : (World.ofTunings .epochs [{}]).Unnested (events .epochs {}) :=
      World.unnested_of_running (by decide +kernel)
    obtain ⟨s, hs⟩ := Option.isSome_iff_exists.1
      (by decide +kernel : (world .hazards scanning).sets[0]?.isSome = true)
    obtain ⟨s', hs'⟩ := Option.isSome_iff_exists.1
      (by decide +kernel : (world .epochs {}).sets[0]?.isSome = true)
    have hcalls : (replies (events .hazards scanning) 0).map Prod.fst =
        (replies (events .epochs {}) 0).map Prod.fst := by decide +kernel
    rw [(((run .hazards scanning).uninterrupted.2 hscanning 0 s hs).2
      .epochs [{}] _ _ 0 s' (run .epochs {}) hepochs hs' hcalls).1]
    decide +kernel

namespace HugePool

/-- The one set at the start. The size in bytes of the pools that it asks for is no signed word. -/
def origin : World Int Nat := .ofTunings .epochs [{ poolCapacity := 1152921504606846976 }]

/-- A handle has been registered. -/
def events : List (Event Int Nat) := (origin.play [.register 0]).1

/-- The world in the end. -/
def world : World Int Nat := (origin.play [.register 0]).2

theorem run : Run origin events world := origin.play_run [.register 0]

end HugePool

open HugePool in
/-- A pool is reserved when the first node is made. Where it cannot be reserved, an insertion is
stopped, although the set is empty and nobody else uses it. -/
theorem not_performs_hugePool :
    Run (.ofTunings .epochs [{ poolCapacity := 1152921504606846976 }]) events world ∧
      world.running = [] ∧ world.handles[0]? = some ⟨0, 0, 0, .idle⟩ ∧
      (world.sets[0]?).map SharedSet.contents = some [] ∧
      world.step (.invoke 0 0 0 (.insert 1 1) none) = .error (.fault .poolTooLarge) ∧
      ¬ ∃ es reply w, world.Performs (.invoke 0 0 0 (.insert 1 1) none) es reply w := by
  have hstep : world.step (.invoke 0 0 0 (.insert 1 1) none) = .error (.fault .poolTooLarge) := by
    rfl
  exact ⟨run, by decide, by decide, by decide, hstep, World.not_performs hstep⟩

end MarkedChain
