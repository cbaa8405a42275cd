import MarkedChain.Proofs.Descent
import MarkedChain.Proofs.Removals

/-!
# What an operation learns on one walk

An operation walks from the head, and whenever it starts again it forgets what it has learned.
`World.OnWalk` says how far back in a run the present walk goes. `Knowledge` is what an operation
may know of the states that its set has gone through since: it is there at the start of a walk, and
steps of others and of the operation itself leave it, until the walk starts again. In every world of
a run all operations in progress have it (`Run.walks`).
-/

namespace MarkedChain

variable {κ ν : Type}

/-- Since the state `m` the operation in progress on a handle has been on one walk. -/
def World.OnWalk (w₀ : World κ ν) (es : List (Event κ ν)) (h m : Nat) : Prop :=
  ∀ j, m ≤ j → j ≤ es.length → ∃ u a, w₀.worldAt es j = some u ∧ a ∈ u.running ∧ a.handle = h ∧
    (m < j → a.frame.point ≠ .start)

theorem World.OnWalk.mono {w₀ : World κ ν} {es : List (Event κ ν)} {h m n : Nat}
    (hwalk : w₀.OnWalk es h m) (hmn : m ≤ n) : w₀.OnWalk es h n := by
  intro j hnj hj
  obtain ⟨u, a, hu, ha, hhandle, hgoes⟩ := hwalk j (Nat.le_trans hmn hnj) hj
  exact ⟨u, a, hu, ha, hhandle, fun hlt => hgoes (Nat.lt_of_le_of_lt hmn hlt)⟩

/-- A walk that goes on. -/
theorem World.OnWalk.snoc {w₀ : World κ ν} {es : List (Event κ ν)} {e : Event κ ν} {m : Nat}
    {a : Activation κ} (h : w₀.OnWalk es a.handle m) (ha : a ∈ e.outcome.world.running)
    (hgoes : a.frame.point ≠ .start) : w₀.OnWalk (es ++ [e]) a.handle m := by
  intro j hmj hj
  rw [List.length_append, List.length_singleton] at hj
  rcases Nat.lt_or_ge es.length j with hlast | hlast
  · obtain rfl : j = es.length + 1 := by omega
    exact ⟨_, a, World.worldAt_length e, ha, rfl, fun _ => hgoes⟩
  · rw [World.worldAt_append hlast]
    exact h j hmj hlast

/-- A walk that starts. -/
theorem World.OnWalk.last {w₀ : World κ ν} {es : List (Event κ ν)} {e : Event κ ν}
    {a : Activation κ} (ha : a ∈ e.outcome.world.running) :
    w₀.OnWalk (es ++ [e]) a.handle (es.length + 1) := by
  intro j hmj hj
  rw [List.length_append, List.length_singleton] at hj
  obtain rfl : j = es.length + 1 := Nat.le_antisymm hj hmj
  exact ⟨_, a, World.worldAt_length e, ha, rfl, fun h => absurd h (Nat.lt_irrefl _)⟩

@[simp] theorem Task.restart_restart (t : Task κ) : t.restart.restart = t.restart := by
  cases t <;> rfl

variable [Ord κ]

/-- What an operation may know of the states that its set has gone through since its walk began. -/
structure Knowledge (K : (SharedSet κ ν → Prop) → SharedSet κ ν → Frame κ → Prop) : Prop where
  /-- It takes nothing to start a walk. -/
  start : ∀ (s : SharedSet κ ν) (t : Task κ), t.restart = t → K (· = s) s ⟨t, .start⟩
  /-- What others do leaves it. -/
  others : ∀ {seen : SharedSet κ ν → Prop} {s s' : SharedSet κ ν} {f : Frame κ}
    {own own' : List Address} {r : Nat} {who : Option Nat} {window : Option (Place × Address)},
    K seen s f → f.Informed seen s r → f.Fits s r → s.Sound own → s'.Sound own' →
    s.Evolves s' window → s.Respects s' who → who ≠ some r → K (fun t => seen t ∨ t = s') s' f
  /-- A step that goes on with the walk leaves it. -/
  goes : ∀ {seen : SharedSet κ ν → Prop} {s : SharedSet κ ν} {f f' : Frame κ} {own : List Address}
    {who : Actor} {st : Stride κ ν}, K seen s f → f.Informed seen s who.record →
    s.Sound (f.own ++ own) → f.Fits s who.record → s.scheme.depth? who.record = some 1 →
    s.Orderly → Move s who f st → st.next = .goes f' → f'.point ≠ .start →
    K (fun t => seen t ∨ t = st.set) st.set f'

variable {K : (SharedSet κ ν → Prop) → SharedSet κ ν → Frame κ → Prop} {w₀ w : World κ ν}
  {es : List (Event κ ν)} {e : Event κ ν} {a : Activation κ} {p : Pending κ ν}

/-- An operation in progress, in the world and in the journal, whose walk began with the event `b`,
and what it has learned since. -/
structure World.Walk (K : (SharedSet κ ν → Prop) → SharedSet κ ν → Frame κ → Prop)
    (w₀ : World κ ν) (es : List (Event κ ν)) (w : World κ ν) (a : Activation κ) (p : Pending κ ν)
    (b : Nat) : Prop where
  began : p.began ≤ b
  lt : b < es.length
  on : w₀.OnWalk es a.handle (b + 1)
  fresh : a.frame.point = .start → a.frame.task.restart = a.frame.task
  knows : ∃ x s, w.handles[a.handle]? = some x ∧ x.set = p.set ∧ w.sets[x.set]? = some s ∧
    a.frame.Informed (w₀.SeenSince es p.set b) s x.record ∧ K (w₀.SeenSince es p.set b) s a.frame

/-- An operation in progress is on a walk and has learned what there is to know. -/
def World.Walks (K : (SharedSet κ ν → Prop) → SharedSet κ ν → Frame κ → Prop)
    (w₀ : World κ ν) (es : List (Event κ ν)) (w : World κ ν) (a : Activation κ)
    (p : Pending κ ν) : Prop :=
  ∃ b, w₀.Walk K es w a p b

/-- A walk that starts anew starts with nothing gathered. -/
theorem Move.fresh {s : SharedSet κ ν} {who : Actor} {f f' : Frame κ} {st : Stride κ ν}
    (h : Move s who f st) (hnext : st.next = .goes f') (hstart : f'.point = .start) :
    f'.task.restart = f'.task := by
  cases h with
  | start | look | follow | clear | pass => cases hnext; cases hstart
  | @stop t => cases t <;> cases hnext <;> cases hstart
  | stray t => cases hnext; exact t.restart_restart
  | retry | beaten | mark => cases hnext; rfl
  | finish | reject | insert | remove | tell => cases hnext

namespace World

variable {x : Handle} {s : SharedSet κ ν}

/-- What is known when a walk starts. -/
theorem Walk.start (hK : Knowledge K) (hw : e.outcome.world.Sound)
    (ha : a ∈ e.outcome.world.running) (hstart : a.frame.point = .start)
    (hfresh : a.frame.task.restart = a.frame.task) (hbegan : p.began ≤ es.length)
    (hx : e.outcome.world.handles[a.handle]? = some x) (hset : x.set = p.set)
    (hs : e.outcome.world.sets[x.set]? = some s) :
    w₀.Walk K (es ++ [e]) e.outcome.world a p es.length := by
  obtain ⟨-, -, hd⟩ := hw.fits ha hx hs
  have hsound := hw.sets _ _ hs
  have hseen : w₀.SeenSince (es ++ [e]) p.set es.length = (· = s) := by
    rw [seenSince_snoc (Nat.le_refl _) (hset ▸ hs)]
    funext u
    simp [seenSince_last]
  refine ⟨hbegan, by simp, .last ha, fun _ => hfresh, x, s, hx, hset, hs, ?_, ?_⟩
  · rw [hseen]
    refine ⟨rfl, ?_, fun hv => hsound.remembers hv hd, fun k _ => ?_⟩
    · rintro u rfl
      exact ⟨_, hsound⟩
    · rw [hstart]
      trivial
  · have hframe : a.frame = ⟨a.frame.task, .start⟩ := by rw [← hstart]
    rw [hseen, hframe]
    exact hK.start s _ hfresh

variable [Std.TransOrd κ]

/-- An operation that makes no step itself goes on to know what it knew. -/
theorem Walks.others (hK : Knowledge K) (h : w₀.Walks K es w a p) (hw : w.Sound)
    (hp : Passage w e.action e.outcome) (hold : a ∈ w.running)
    (hnew : a ∈ e.outcome.world.running)
    (hother : e.action = .proceed → ∃ c rest, w.running = c :: rest ∧ a ∈ rest) :
    w₀.Walks K (es ++ [e]) e.outcome.world a p := by
  obtain ⟨b, hbegan, hlt, hon, hfresh, x, s, hx, hset, hs, hinf, hknows⟩ := h
  have hw' := hp.sound hw
  obtain ⟨-, hfits, hd⟩ := hw.fits hold hx hs
  obtain ⟨hkeep, s', who, hs', hwho, hresp⟩ := hp.bystander hw hold hother hx hs
  obtain ⟨s'', hs'', hevolves⟩ := hp.evolves hw hs
  cases hs'.symm.trans hs''
  by_cases hstart : a.frame.point = .start
  · exact ⟨_, .start hK hw' hnew hstart (hfresh hstart)
      (Nat.le_of_lt (Nat.lt_of_le_of_lt hbegan hlt)) hkeep hset hs'⟩
  · have hsound := hw.sets _ _ hs
    have hsound' := hw'.sets _ _ hs'
    have hseen : w₀.SeenSince (es ++ [e]) p.set b = fun t => w₀.SeenSince es p.set b t ∨ t = s' :=
      seenSince_snoc (Nat.le_of_lt hlt) (hset ▸ hs')
    refine ⟨b, hbegan, by simp; omega, hon.snoc hnew hstart, hfresh, x, s', hkeep, hset, hs', ?_,
      ?_⟩
    · rw [hseen]
      exact hinf.others hfits hsound hsound' hevolves hresp hwho hd
    · rw [hseen]
      exact hK.others hknows hinf hfits hsound hsound' hevolves hresp hwho

/-- The operations that make no step go on to know what they knew. -/
theorem walks_of_subset (hK : Knowledge K) {cs : List (Activation κ)} {ps : List (Pending κ ν)}
    (h : List.Forall₂ (w₀.Walks K es w) cs ps) (hw : w.Sound)
    (hp : Passage w e.action e.outcome) (hold : cs ⊆ w.running)
    (hnew : cs ⊆ e.outcome.world.running)
    (hother : e.action = .proceed → ∃ c rest, w.running = c :: rest ∧ cs ⊆ rest) :
    List.Forall₂ (w₀.Walks K (es ++ [e]) e.outcome.world) cs ps := by
  induction h with
  | nil => exact .nil
  | cons h _ ih =>
    refine .cons
      (h.others hK hw hp (hold List.mem_cons_self) (hnew List.mem_cons_self) fun ha => ?_)
      (ih (fun c hc => hold (List.mem_cons_of_mem _ hc)) (fun c hc =>
        hnew (List.mem_cons_of_mem _ hc)) fun ha => ?_)
    · obtain ⟨c, rest, hrun, hsub⟩ := hother ha
      exact ⟨c, rest, hrun, hsub List.mem_cons_self⟩
    · obtain ⟨c, rest, hrun, hsub⟩ := hother ha
      exact ⟨c, rest, hrun, fun c hc => hsub (List.mem_cons_of_mem _ hc)⟩

/-- The running operation goes on, with its walk or with a new one. -/
theorem Walks.goes (hK : Knowledge K) (h : w₀.Walks K es w a p) (hw : w.Sound) {o : Outcome κ ν}
    (hp : Passage w .proceed o) {rest : List (Activation κ)} {st : Stride κ ν} {frame : Frame κ}
    (hrun : w.running = a :: rest) (hx : w.handles[a.handle]? = some x)
    (hs : w.sets[x.set]? = some s) (horderly : s.Orderly)
    (hmove : Move s ⟨x.record, a.lane⟩ a.frame st) (hnext : st.next = .goes frame)
    (hworld : o.world = { (w.setSet x.set st.set).setHandle a.handle
      { x with retries := x.retries + st.retries } with running := { a with frame } :: rest }) :
    w₀.Walks K (es ++ [⟨.proceed, o⟩]) o.world { a with frame } p := by
  obtain ⟨b, hbegan, hlt, hon, -, y, u, hy, hset, hu, hinf, hknows⟩ := h
  cases hx.symm.trans hy
  cases hs.symm.trans hu
  obtain ⟨-, hfits, hd, hsound⟩ := hw.top hrun hx hs
  have hmem : { a with frame } ∈ o.world.running := by
    rw [hworld]
    exact List.mem_cons_self
  have hs' : o.world.sets[x.set]? = some st.set := by
    rw [hworld]
    exact (World.getElem?_setSet hs _ _).trans (if_pos rfl)
  have hx' : o.world.handles[a.handle]? =
      some { x with retries := x.retries + st.retries } := by
    rw [hworld]
    exact (World.getElem?_setHandle hx _ _).trans (if_pos rfl)
  by_cases hstart : frame.point = .start
  · exact ⟨_, .start (e := ⟨.proceed, o⟩) hK (hp.sound hw) hmem hstart (hmove.fresh hnext hstart)
      (Nat.le_of_lt (Nat.lt_of_le_of_lt hbegan hlt)) hx' hset hs'⟩
  · have hseen : w₀.SeenSince (es ++ [⟨.proceed, o⟩]) p.set b =
        fun t => w₀.SeenSince es p.set b t ∨ t = st.set :=
      seenSince_snoc (Nat.le_of_lt hlt) (hset ▸ hs')
    refine ⟨b, hbegan, by simp; omega, ?_, fun h => absurd h hstart, _, _, hx', hset, hs', ?_, ?_⟩
    · exact hon.snoc (e := ⟨.proceed, o⟩) (a := { a with frame }) hmem hstart
    · rw [hseen]
      exact hmove.informed hsound hfits hd hinf hnext
    · rw [hseen]
      exact hK.goes hknows hinf hsound hfits hd horderly hmove hnext hstart

end World

variable [Std.TransOrd κ] {kind : Scheme.Kind} {ts : List Tuning}

/-- In every world of a run all operations in progress know what there is to know of their walks. -/
theorem Run.walks (hK : Knowledge K) (h : Run (.ofTunings kind ts) es w) :
    List.Forall₂ ((World.ofTunings kind ts).Walks K es w) w.running (journal es).pending := by
  have h₀ := World.sound_ofTunings (κ := κ) (ν := ν) kind ts
  induction h with
  | nil => exact .nil
  | @snoc es w a o h hstep ih =>
    have hlast := h.worldAt_last
    have hw := h.sound h₀ hlast
    have hp := (World.step_settles hw _).of_ok hstep
    have hp' := hp
    have hquiet : ∀ {x : Answer κ ν}, a ≠ .proceed → o.answer = some x →
        o.world.running = w.running → List.Forall₂ ((World.ofTunings kind ts).Walks K
          (es ++ [⟨a, o⟩]) o.world) o.world.running (journal (es ++ [⟨a, o⟩])).pending := by
      intro x ha hanswer hrun
      rw [(journal_answered es (e := ⟨a, o⟩) hanswer ha).1, hrun]
      exact World.walks_of_subset (e := ⟨a, o⟩) hK ih hw hp' (fun _ hc => hc)
        (fun _ hc => hrun ▸ hc) fun h => absurd h ha
    cases hp with
    | misuse _ _ _ ha | sweep _ _ _ ha => exact hquiet ha rfl rfl
    | register | release | resume => exact hquiet (by simp) rfl rfl
    | @begin k i lane call offer x s t task sch hx hidle hset hs hopens hpin =>
      subst hset
      rw [(journal_begins es k x.set lane call offer rfl).1]
      refine .cons ⟨es.length, ?_⟩ (World.walks_of_subset (e := ⟨_, _⟩) hK ih hw hp'
        (fun _ hc => hc) (fun _ hc => List.mem_cons_of_mem _ hc) (by simp))
      refine .start (e := ⟨_, _⟩) hK (hp'.sound hw) List.mem_cons_self rfl ?_ (Nat.le_refl _)
        ((World.getElem?_setHandle hx _ _).trans (if_pos rfl)) rfl
        ((World.getElem?_setSet hs _ _).trans (if_pos rfl))
      cases hopens with
      | insert => rfl
      | plain htask => cases call <;> cases htask <;> rfl
    | @goes c rest x s st frame hrun hx hs hmove hnext =>
      rw [hrun] at ih
      rw [(journal_goes es rfl).1]
      obtain ⟨p, ps, hc, hps, hpending⟩ := List.forall₂_cons_left_iff.1 ih
      rw [hpending]
      refine .cons (hc.goes hK hw hp' hrun hx hs (h.orderly hs) hmove hnext rfl) ?_
      exact World.walks_of_subset (e := ⟨_, _⟩) hK hps hw hp'
        (fun _ hc => hrun ▸ List.mem_cons_of_mem _ hc) (fun _ hc => List.mem_cons_of_mem _ hc)
        fun _ => ⟨c, rest, hrun, fun _ hc => hc⟩
    | @ends c rest x s st reply sch hrun hx hs hmove hnext =>
      rw [hrun] at ih
      obtain ⟨p, ps, hc, hps, hpending⟩ := List.forall₂_cons_left_iff.1 ih
      rw [(journal_ends hpending rfl).1]
      exact World.walks_of_subset (e := ⟨_, _⟩) hK hps hw hp'
        (fun _ hc => hrun ▸ List.mem_cons_of_mem _ hc) (fun _ hc => hc)
        fun _ => ⟨c, rest, hrun, fun _ hc => hc⟩

/-- What an operation that has ended knew before its last step, and the step. -/
theorem Run.walks_span (hK : Knowledge K) (h : Run (.ofTunings kind ts) es w) {x : Span κ ν}
    (hx : x ∈ (journal es).spans) : ∃ f s who st b, x.began ≤ b ∧
      f.Informed (fun t => ∃ m, b < m ∧ m ≤ x.ended ∧
        (World.ofTunings kind ts).setAt es x.set m = some t) s who.record ∧
      K (fun t => ∃ m, b < m ∧ m ≤ x.ended ∧
        (World.ofTunings kind ts).setAt es x.set m = some t) s f ∧
      f.task.Serves s x.call ∧ Move s who f st ∧ st.next = .ends x.reply := by
  have h₀ := World.sound_ofTunings (κ := κ) (ν := ν) kind ts
  obtain ⟨ps, o, he, hanswer, hpending⟩ := journal_span hx
  obtain ⟨u, hu, hstep, -⟩ := h.step_at he
  have hle := Nat.le_of_lt (List.getElem?_eq_some_iff.1 he).1
  have hbefore := h.take hu
  have hwalks := hbefore.walks hK
  rw [hpending] at hwalks
  obtain ⟨a, rest, ⟨b, hbegan, -, -, -, y, s, hy, hset, hs, hinf, hknows⟩, -, hrun⟩ :=
    List.forall₂_cons_right_iff.1 hwalks
  obtain ⟨q, y', s', hhead, hy', -, hs', hserves⟩ := hbefore.serves h₀ rfl hrun
  rw [hpending, List.head?_cons] at hhead
  cases hhead
  rw [← hset] at hs'
  cases hs.symm.trans hs'
  -- the states that were seen are states of the whole run
  have hseen : (World.ofTunings kind ts).SeenSince (es.take x.ended) x.set b =
      fun t => ∃ m, b < m ∧ m ≤ x.ended ∧
        (World.ofTunings kind ts).setAt es x.set m = some t := by
    funext t
    rw [World.SeenSince, List.length_take, Nat.min_eq_left hle]
    refine propext (exists_congr fun m => and_congr_right fun _ => and_congr_right fun hm => ?_)
    rw [World.setAt_take hm hle]
  rw [hseen] at hinf hknows
  have hp : Passage u .proceed o := (World.step_settles (h.sound h₀ hu) _).of_ok hstep
  cases hp with
  | misuse _ _ _ ha | sweep _ _ _ ha => exact absurd rfl ha
  | goes => cases hanswer
  | ends hrun' hz ht hmove hnext =>
    cases hanswer
    cases hrun.symm.trans hrun'
    cases hy.symm.trans hz
    cases hs.symm.trans ht
    exact ⟨_, _, _, _, b, hbegan, hinf, hknows, hserves, hmove, hnext⟩

end MarkedChain
