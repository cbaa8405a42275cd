import MarkedChain.Proofs.Closing
import MarkedChain.Proofs.Removals

/-!
# Every value is dropped once

An insertion makes a node with its first event (`World.Makes`) and has it for itself until it links
it in or drops it (`World.Carries`, `Span.Delivers`). A node that was linked in is freed only after
a removal has marked it. Together with the count of all values (`Run.stored_perm`) and the end of
everything this says when the value of each insertion is dropped (`Run.dropped_once`).
-/

namespace MarkedChain

variable {κ ν : Type}

/-! ## The node of an insertion -/

namespace World

/-- With its first event an insertion makes the node `a` for its key and its value. -/
def Makes (w₀ : World κ ν) (es : List (Event κ ν)) (p : Pending κ ν) (a : Address) : Prop :=
  ∃ s t n, w₀.setAt es p.set p.began = some s ∧ w₀.setAt es p.set (p.began + 1) = some t ∧
    s.memory.node? a = none ∧ t.memory.node? a = some n ∧ p.call = .insert n.key n.value

/-- If an operation in progress has a private node, it has made it and the node has lasted since. -/
def Carries (w₀ : World κ ν) (es : List (Event κ ν)) (w : World κ ν) (p : Pending κ ν)
    (c : Activation κ) : Prop :=
  w.setOf? c.handle = some p.set ∧ ∀ a, c.frame.task.node? = some a →
    w₀.Makes es p a ∧ w₀.Lasts es p.set a (p.began + 1) es.length

variable {w₀ : World κ ν} {es : List (Event κ ν)} {p : Pending κ ν} {a : Address}

/-- A node that is still there lasts on. -/
theorem Lasts.step {i j k : Nat} (h : w₀.Lasts es i a j k) {t : SharedSet κ ν}
    (ht : w₀.setAt es i (k + 1) = some t) (hn : ∃ n, t.memory.node? a = some n) :
    w₀.Lasts es i a j (k + 1) := by
  intro l hjl hlk
  rcases Nat.lt_or_ge k l with hl | hl
  · obtain rfl : l = k + 1 := by omega
    exact ⟨t, hn.choose, ht, hn.choose_spec⟩
  · exact h l hjl hl

theorem Makes.snoc (h : w₀.Makes es p a) (e : Event κ ν) : w₀.Makes (es ++ [e]) p a := by
  obtain ⟨s, t, n, hs, ht, hcases⟩ := h
  exact ⟨s, t, n, setAt_mono hs e, setAt_mono ht e, hcases⟩

end World

/-- An insertion that has ended made a node. It linked the node in, or it dropped the value and the
node with its last event. -/
def Span.Delivers (w₀ : World κ ν) (es : List (Event κ ν)) (x : Span κ ν) : Prop :=
  ∀ k v, x.call = .insert k v → ∃ a t, w₀.Makes es x.toPending a ∧ x.began < x.ended ∧
    w₀.Lasts es x.set a (x.began + 1) x.ended ∧ w₀.setAt es x.set (x.ended + 1) = some t ∧
      (x.reply = .inserted ∧ a ∈ t.linked ∨ x.reply = .alreadyPresent ∧
        t.memory.node? a = none ∧ ∃ o, es[x.ended]? = some ⟨.proceed, o⟩ ∧ o.drops = [v])

variable {w₀ w : World κ ν} {es : List (Event κ ν)} {e : Event κ ν}

theorem Span.Delivers.snoc {x : Span κ ν} (h : x.Delivers w₀ es) (e : Event κ ν) :
    x.Delivers w₀ (es ++ [e]) := by
  intro k v hcall
  obtain ⟨a, t, hmakes, hbegan, hlasts, ht, hend⟩ := h k v hcall
  refine ⟨a, t, hmakes.snoc e, hbegan, hlasts.snoc e, World.setAt_mono ht e, hend.imp_right ?_⟩
  rintro ⟨hreply, hgone, o, ho, hdrops⟩
  refine ⟨hreply, hgone, o, ?_, hdrops⟩
  rwa [List.getElem?_append_left (List.getElem?_eq_some_iff.1 ho).1]

variable [Ord κ]

/-- A handle stays with its set. -/
theorem Passage.setOf? {a : Action κ ν} {o : Outcome κ ν} (h : Passage w a o) {k i : Nat}
    (hk : w.setOf? k = some i) : o.world.setOf? k = some i := by
  cases h with
  | misuse => exact hk
  | sweep => exact hk
  | register =>
    obtain ⟨x, hx, rfl⟩ := Option.map_eq_some_iff.1 hk
    have hlt := (Array.getElem?_eq_some_iff.1 hx).1
    change ((w.handles.push _)[k]?).map _ = _
    rw [Array.getElem?_push, if_neg (Nat.ne_of_lt hlt), hx, Option.map_some]
  | @release h x s hx =>
    exact (World.setOf?_setHandle hx { x with status := .released } rfl rfl k).trans hk
  | @resume h x s sch hx =>
    exact (World.setOf?_setHandle hx { x with status := .idle } rfl rfl k).trans hk
  | @begin h i lane call offer x s t task sch hx =>
    exact (World.setOf?_setHandle hx { x with status := .running } rfl rfl k).trans hk
  | @goes c rest x s st frame hrun hx =>
    exact (World.setOf?_setHandle hx { x with retries := x.retries + st.retries } rfl rfl
      k).trans hk
  | @ends c rest x s st reply sch hrun hx =>
    exact (World.setOf?_setHandle hx { x with
      retries := x.retries + st.retries
      status := World.statusAfter reply } rfl rfl k).trans hk

variable [Std.TransOrd κ]

/-- An insertion that ends has linked in its node or dropped it. -/
theorem Move.delivers {s : SharedSet κ ν} {who : Actor} {f : Frame κ} {st : Stride κ ν}
    {own : List Address} (h : Move s who f st) (hs : s.Sound (f.own ++ own))
    (hf : f.Fits s who.record) {a : Address} {k : κ} (htask : f.task = .insert a k)
    {n : Node κ ν} (hn : s.memory.node? a = some n) {reply : Reply κ ν}
    (hnext : st.next = .ends reply) :
    reply = .inserted ∧ a ∈ st.set.linked ∨
      reply = .alreadyPresent ∧ st.set.memory.node? a = none ∧ st.drops = [n.value] := by
  cases h with
  | start | look | stray | follow | clear | pass | retry | beaten | mark => cases hnext
  | finish t pred ht | tell pred next hn ht =>
    subst htask
    cases ht
  | stop pred next hn hpass =>
    subst htask
    cases hnext
  | remove => cases htask
  | reject pred next _ heq hn₀ hdrops =>
    cases htask
    cases hnext
    rw [hn] at hn₀
    cases hn₀
    exact .inr ⟨rfl, (hdrops.node? _).trans (if_pos (List.mem_singleton_self _)), rfl⟩
  | insert hgap hprepare hl hwrite =>
    cases htask
    cases hnext
    obtain ⟨⟨before, after, -, hchain, -⟩, -⟩ := hs.insert hf hgap hprepare hl hwrite
    exact .inl ⟨rfl, by simp [hchain]⟩

namespace World

/-- A private node lasts through the steps of others and through those of its operation that do not
end it. -/
theorem Carries.extend {p : Pending κ ν} {c c' : Activation κ} (h : w₀.Carries es w p c)
    (hp : Passage w e.action e.outcome) (hw : w.Sound) (hhandle : c'.handle = c.handle)
    (hnode : c'.frame.task.node? = c.frame.task.node?) (hmem : c' ∈ e.outcome.world.running) :
    w₀.Carries (es ++ [e]) e.outcome.world p c' := by
  obtain ⟨hset, hcarries⟩ := h
  have hset' : e.outcome.world.setOf? c'.handle = some p.set := by
    rw [hhandle]
    exact hp.setOf? hset
  refine ⟨hset', fun a ha => ?_⟩
  obtain ⟨hmakes, hlasts⟩ := hcarries a (hnode ▸ ha)
  have hw' := hp.sound hw
  obtain ⟨x, s, hx, -, hs, -⟩ := hw'.running c' hmem
  have hxp : x.set = p.set := by simpa [setOf?, hx] using hset'
  rw [hxp] at hs
  have hown : a ∈ e.outcome.world.fresh p.set :=
    own_subset_fresh hmem hset' (by simp [Frame.own, ha])
  obtain ⟨n, hn⟩ := (hw'.sets _ _ hs).live_of_own hown
  rw [List.length_append, List.length_singleton]
  exact ⟨hmakes.snoc e, hlasts.extend hs hn⟩

/-- The operations that make no step carry on. -/
theorem carries_of_subset {ps : List (Pending κ ν)} {cs : List (Activation κ)}
    (h : List.Forall₂ (w₀.Carries es w) ps cs) (hp : Passage w e.action e.outcome) (hw : w.Sound)
    (hsub : cs ⊆ e.outcome.world.running) :
    List.Forall₂ (w₀.Carries (es ++ [e]) e.outcome.world) ps cs := by
  induction h with
  | nil => exact .nil
  | cons h _ ih =>
    exact .cons (h.extend hp hw rfl rfl (hsub List.mem_cons_self))
      (ih fun c hc => hsub (List.mem_cons_of_mem _ hc))

end World

/-- Each insertion in progress carries its node, and each one that has ended has delivered it. -/
structure Deliveries (w₀ : World κ ν) (es : List (Event κ ν)) (w : World κ ν) : Prop where
  carries : List.Forall₂ (w₀.Carries es w) (journal es).pending w.running
  delivers : ∀ x ∈ (journal es).spans, x.Delivers w₀ es

namespace Deliveries

variable {o : Outcome κ ν}

theorem quiet (h : Deliveries w₀ es w) (hw : w.Sound) (hp : Passage w e.action e.outcome)
    (hrun : e.outcome.world.running = w.running) (hproceed : e.action ≠ .proceed) {x : Answer κ ν}
    (hanswer : e.outcome.answer = some x) : Deliveries w₀ (es ++ [e]) e.outcome.world := by
  have hnote := journal_answered es hanswer hproceed
  have hcarries := World.carries_of_subset h.carries hp hw fun _ hc => hrun ▸ hc
  refine ⟨?_, fun y hy => ?_⟩
  · rwa [hnote.1, hrun]
  · rw [hnote.2] at hy
    exact (h.delivers y hy).snoc e

theorem begin (h : Deliveries w₀ es w) (hw : w.Sound) (hlast : w₀.worldAt es es.length = some w)
    {k i : Nat} {lane : Lane} {call : Call κ ν} {offer : Option Address} {x : Handle}
    {s t : SharedSet κ ν} {task : Task κ} {sch : Scheme Address}
    (hx : w.handles[k]? = some x) (hset : x.set = i) (hs : w.sets[i]? = some s)
    (hopens : Opens s call task t) (hp : Passage w (.invoke k i lane call offer) o)
    (hsets : o.world.sets = (w.setSet i { t with scheme := sch }).sets)
    (hrunning : o.world.running = ⟨k, lane, ⟨task, .start⟩⟩ :: w.running)
    (hanswer : o.answer = none) :
    Deliveries w₀ (es ++ [⟨.invoke k i lane call offer, o⟩]) o.world := by
  have hnote := journal_begins es k i lane call offer hanswer
  have hsub : w.running ⊆ o.world.running := by
    rw [hrunning]
    exact List.subset_cons_self _ _
  have hrest := World.carries_of_subset (e := ⟨_, o⟩) h.carries hp hw hsub
  refine ⟨?_, fun y hy => ?_⟩
  · rw [hnote.1, hrunning]
    refine .cons ⟨hp.setOf? (by rw [World.setOf?, hx, Option.map_some, hset]), fun b hb => ?_⟩ hrest
    cases hopens with
    | plain htask => cases call <;> cases htask <;> cases hb
    | @insert key value m a hbirth =>
      cases hb
      have hn : m.node? b = some ⟨key, value, .null⟩ := (hbirth.node? _).trans (if_pos rfl)
      have hs' : o.world.sets[i]? = some { s with memory := m, scheme := sch } := by
        rw [hsets]
        exact (World.getElem?_setSet hs _ _).trans (if_pos rfl)
      have hnew :=
        (World.setAt_snoc w₀ es ⟨.invoke k i lane (.insert key value) offer, o⟩ i).trans hs'
      refine ⟨⟨s, _, _, World.setAt_mono ?_ _, hnew, hbirth.dead, hn, rfl⟩, ?_⟩
      · rw [World.setAt, hlast]
        exact hs
      · rw [List.length_append, List.length_singleton]
        exact .single hnew hn
  · rw [hnote.2] at hy
    exact (h.delivers y hy).snoc _

theorem goes (h : Deliveries w₀ es w) (hw : w.Sound) {c : Activation κ}
    {rest : List (Activation κ)} {frame : Frame κ} (hrun : w.running = c :: rest)
    (hp : Passage w .proceed o) (hown : frame.own = c.frame.own)
    (hrunning : o.world.running = { c with frame } :: rest) (hanswer : o.answer = none) :
    Deliveries w₀ (es ++ [⟨.proceed, o⟩]) o.world := by
  have hnote := journal_goes es hanswer
  have hnode : frame.task.node? = c.frame.task.node? := by
    have hhead := congrArg List.head? hown
    rwa [Frame.own, Frame.own, Option.head?_toList, Option.head?_toList] at hhead
  have hcarries := h.carries
  rw [hrun] at hcarries
  obtain ⟨p, ps, hc, hps, hpending⟩ := List.forall₂_cons_right_iff.1 hcarries
  refine ⟨?_, fun y hy => ?_⟩
  · rw [hnote.1, hpending, hrunning]
    have hmem : { c with frame } ∈ o.world.running := by
      rw [hrunning]
      exact List.mem_cons_self
    have hsub : rest ⊆ o.world.running := by
      rw [hrunning]
      exact List.subset_cons_self _ _
    exact .cons (hc.extend (e := ⟨.proceed, o⟩) hp hw rfl hnode hmem)
      (World.carries_of_subset (e := ⟨.proceed, o⟩) hps hp hw hsub)
  · rw [hnote.2] at hy
    exact (h.delivers y hy).snoc _

/-- The running operation ends. If it is an insertion, it has delivered its node. -/
theorem ends (h : Deliveries w₀ es w) (hw : w.Sound)
    {c : Activation κ} {rest : List (Activation κ)} {x : Handle} {s : SharedSet κ ν}
    {st : Stride κ ν} {reply : Reply κ ν} {sch : Scheme Address} {p : Pending κ ν}
    (hrun : w.running = c :: rest) (hx : w.handles[c.handle]? = some x)
    (hs : w.sets[x.set]? = some s) (hmove : Move s ⟨x.record, c.lane⟩ c.frame st)
    (hnext : st.next = .ends reply) (hhead : (journal es).pending.head? = some p)
    (hset : x.set = p.set) (hserves : c.frame.task.Serves s p.call) (hp : Passage w .proceed o)
    (hsets : o.world.sets = (w.setSet x.set { st.set with scheme := sch }).sets)
    (hrunning : o.world.running = rest) (hdrops : o.drops = st.drops)
    (hanswer : o.answer = some (.reply reply)) : Deliveries w₀ (es ++ [⟨.proceed, o⟩]) o.world := by
  have hcarries := h.carries
  rw [hrun] at hcarries
  obtain ⟨q, ps, hc, hps, hpending⟩ := List.forall₂_cons_right_iff.1 hcarries
  rw [hpending, List.head?_cons] at hhead
  cases hhead
  have hnote := journal_ends hpending hanswer
  refine ⟨?_, fun y hy => ?_⟩
  · rw [hnote.1, hrunning]
    exact World.carries_of_subset (e := ⟨.proceed, o⟩) hps hp hw fun _ hc => hrunning ▸ hc
  · rw [hnote.2] at hy
    rcases List.mem_append.1 hy with hy | hy
    · exact (h.delivers y hy).snoc _
    · rw [List.mem_singleton.1 hy]
      intro k v hcall
      change p.call = _ at hcall
      rw [hcall] at hserves
      obtain ⟨a, htask, n, hn, hv⟩ : ∃ a, c.frame.task = .insert a k ∧
          ∃ n, s.memory.node? a = some n ∧ n.value = v := by
        cases htask : c.frame.task <;> rw [htask] at hserves <;> try exact hserves.elim
        obtain ⟨rfl, hn⟩ := hserves
        exact ⟨_, rfl, hn⟩
      obtain ⟨hmakes, hlasts⟩ := hc.2 a (by rw [htask]; rfl)
      obtain ⟨-, hfits, hd, hsound⟩ := hw.top hrun hx hs
      have hs' : o.world.sets[p.set]? = some { st.set with scheme := sch } := by
        rw [hsets, ← hset]
        exact (World.getElem?_setSet hs _ _).trans (if_pos rfl)
      have hbegan : p.began < es.length := began_lt_of_pending (by rw [hpending]; simp)
      refine ⟨a, _, hmakes.snoc _, hbegan, hlasts.snoc _,
        (World.setAt_snoc w₀ es _ _).trans hs', ?_⟩
      rcases hmove.delivers hsound hfits htask hn hnext with ⟨rfl, hlinked⟩ | ⟨rfl, hgone, hvalue⟩
      · exact .inl ⟨rfl, hlinked⟩
      · exact .inr ⟨rfl, hgone, o, by simp, by rw [hdrops, hvalue, hv]⟩

end Deliveries

/-- In a run, the values handed over and those stored at the start are those dropped and those
stored at the end. -/
theorem Run.stored_perm (h : Run w₀ es w) (h₀ : w₀.Sound) :
    ((es.flatMap fun e => e.action.payload) ++ w₀.stored).Perm
      ((es.flatMap fun e => e.outcome.drops) ++ w.stored) := by
  induction h with
  | nil => exact .refl _
  | @snoc es w a o h hstep ih =>
    have hw := h.sound h₀ h.worldAt_last
    have hlast := ((World.step_settles hw _).of_ok hstep).stored_perm hw
    rw [List.flatMap_append, List.flatMap_append, List.flatMap_singleton, List.flatMap_singleton,
      List.append_assoc, List.append_assoc]
    refine (List.perm_append_comm_assoc _ _ _).trans ((ih.append_left a.payload).trans ?_)
    exact (List.perm_append_comm_assoc _ _ _).trans (hlast.append_left _)

/-- The node that an insertion has made keeps its value as long as it lasts. -/
theorem World.Makes.value {p : Pending κ ν} {a : Address} (hmakes : w₀.Makes es p a)
    (h : Run w₀ es w) (h₀ : w₀.Sound) {m : Nat} (hm : p.began < m)
    (hlasts : w₀.Lasts es p.set a (p.began + 1) m) {s : SharedSet κ ν} {n : Node κ ν}
    (hs : w₀.setAt es p.set m = some s) (hn : s.memory.node? a = some n) {k : κ} {v : ν}
    (hcall : p.call = .insert k v) : n.value = v := by
  obtain ⟨r, t, n₀, -, ht, -, hn₀, hcall₀⟩ := hmakes
  rw [hcall] at hcall₀
  cases hcall₀
  exact (h.node_lasts h₀ hlasts hm ht hs hn₀ hn).2.1

/-- Two values are inserted under different keys, and a third one under a key that is there. The
first one is removed and its node freed by a scan. A fourth one is given to a set that the handle
does not belong to. -/
def fourValues : List (Action Int Nat) :=
  [.register 0,
    .invoke 0 0 0 (.insert 1 10) none, .proceed, .proceed,
    .invoke 0 0 0 (.insert 2 20) none, .proceed, .proceed, .proceed, .proceed,
    .invoke 0 0 0 (.insert 1 30) none, .proceed, .proceed, .proceed, .proceed,
    .invoke 0 0 0 (.remove 1) none, .proceed, .proceed, .proceed, .proceed,
    .scan 0 0, .invoke 0 1 0 (.insert 4 40) none]

namespace FourValues

/-- Two sets at the start, under hazard slots. -/
def origin : World Int Nat := .ofTunings .hazards [{}, {}]

/-- What the actions came to. -/
def events : List (Event Int Nat) := (origin.play fourValues).1

/-- The world at the end. -/
def world : World Int Nat := (origin.play fourValues).2

/-- The first set after so many actions. -/
def set (m : Nat) : SharedSet Int Nat := (origin.setAt events 0 m).getD (.ofTuning .hazards {})

theorem run : Run origin events world := origin.play_run fourValues

theorem setAt_eq {m : Nat} (h : (origin.setAt events 0 m).isSome = true) :
    origin.setAt events 0 m = some (set m) :=
  eq_some_getD h

end FourValues

end MarkedChain
