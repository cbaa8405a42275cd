import MarkedChain.Proofs.Evolution

/-!
# Runs

A run is a list of actions that were carried out one after the other, each with what it came to.
`World.worldAt` and `World.setAt` look up the world and a set before each action and at the end. The
theorems here carry what one step preserves through a whole run: every world of a run is sound
(`Run.sound`), every set moves on by `SharedSet.Evolves` (`Run.evolves`), and so a node that stays
live keeps its key and value, keeps its link once it is marked, and never comes back to the chain.
-/

namespace MarkedChain

variable {κ ν : Type}

/-- An action with what it came to. -/
structure Event (κ ν : Type) where
  action : Action κ ν
  outcome : Outcome κ ν

/-- Actions that are carried out one after the other, the first one first. -/
inductive Run [Ord κ] (w₀ : World κ ν) : List (Event κ ν) → World κ ν → Prop where
  | nil : Run w₀ [] w₀
  | snoc {es w a o} (h : Run w₀ es w) (hstep : w.step a = .ok o) : Run w₀ (es ++ [⟨a, o⟩]) o.world

namespace World

/-- The world after so many actions. -/
def worldAt (w₀ : World κ ν) (es : List (Event κ ν)) (m : Nat) : Option (World κ ν) :=
  (w₀ :: es.map fun e => e.outcome.world)[m]?

/-- A set after so many actions. -/
def setAt (w₀ : World κ ν) (es : List (Event κ ν)) (i m : Nat) : Option (SharedSet κ ν) :=
  (w₀.worldAt es m).bind fun w => w.sets[i]?

/-- Carries out actions in order. One that is refused is left out, and a fault is the end. -/
def play [Ord κ] (w : World κ ν) : List (Action κ ν) → List (Event κ ν) × World κ ν
  | [] => ([], w)
  | a :: as =>
    match w.step a with
    | .ok o => (⟨a, o⟩ :: (o.world.play as).1, (o.world.play as).2)
    | .error (.fault _) => ([], w)
    | .error _ => w.play as

end World

section

variable {w₀ w : World κ ν} {es : List (Event κ ν)}

theorem World.worldAt_append {m : Nat} (hm : m ≤ es.length) (es' : List (Event κ ν)) :
    w₀.worldAt (es ++ es') m = w₀.worldAt es m := by
  rw [worldAt, worldAt, List.map_append, ← List.cons_append, List.getElem?_append_left]
  simpa using Nat.lt_succ_of_le hm

theorem World.worldAt_length (e : Event κ ν) :
    w₀.worldAt (es ++ [e]) (es.length + 1) = some e.outcome.world := by
  simp [worldAt]

theorem World.lt_of_worldAt {m : Nat} {u : World κ ν} (h : w₀.worldAt es m = some u) :
    m ≤ es.length := by
  have hlt := (List.getElem?_eq_some_iff.1 h).1
  simpa using Nat.le_of_lt_succ (by simpa using hlt)

theorem World.setAt_append {i m : Nat} (hm : m ≤ es.length) (es' : List (Event κ ν)) :
    w₀.setAt (es ++ es') i m = w₀.setAt es i m := by
  rw [setAt, worldAt_append hm, setAt]

theorem World.setAt_eq_some {i m : Nat} {u : World κ ν} {s : SharedSet κ ν}
    (hu : w₀.worldAt es m = some u) (hs : u.sets[i]? = some s) : w₀.setAt es i m = some s := by
  rw [setAt, hu, Option.bind_some, hs]

variable [Ord κ]

namespace Run

/-- The last world of a run. -/
theorem worldAt_last (h : Run w₀ es w) : w₀.worldAt es es.length = some w := by
  cases h with
  | nil => rfl
  | snoc => simp [World.worldAt]

/-- One more action at the beginning. -/
theorem cons {a : Action κ ν} {o : Outcome κ ν} (hstep : w₀.step a = .ok o)
    (h : Run o.world es w) : Run w₀ (⟨a, o⟩ :: es) w := by
  induction h with
  | nil => exact .snoc .nil hstep
  | snoc _ hlast ih => exact ih.snoc hlast

/-- Each action of a run leads from the world before it to the world after it. -/
theorem step_at (h : Run w₀ es w) {m : Nat} {e : Event κ ν} (he : es[m]? = some e) :
    ∃ u, w₀.worldAt es m = some u ∧ u.step e.action = .ok e.outcome ∧
      w₀.worldAt es (m + 1) = some e.outcome.world := by
  induction h with
  | nil => cases he
  | @snoc es w a o h hstep ih =>
    rcases Nat.lt_or_ge m es.length with hm | hm
    · rw [List.getElem?_append_left hm] at he
      obtain ⟨u, hu, hok, hnext⟩ := ih he
      exact ⟨u, by rw [World.worldAt_append (Nat.le_of_lt hm), hu], hok,
        by rw [World.worldAt_append hm, hnext]⟩
    · rw [List.getElem?_append_right hm] at he
      obtain ⟨hlt, rfl⟩ := List.getElem?_eq_some_iff.1 he
      have hm : m = es.length := by simp at hlt; omega
      subst hm
      refine ⟨w, ?_, by simpa using hstep, by simpa using World.worldAt_length _⟩
      rw [World.worldAt_append (Nat.le_refl _)]
      exact h.worldAt_last

theorem step_from (h : Run w₀ es w) {m : Nat} {u : World κ ν} {e : Event κ ν}
    (hu : w₀.worldAt es m = some u) (he : es[m]? = some e) :
    u.step e.action = .ok e.outcome ∧ w₀.worldAt es (m + 1) = some e.outcome.world := by
  obtain ⟨v, hv, hok, hnext⟩ := h.step_at he
  cases hu.symm.trans hv
  exact ⟨hok, hnext⟩

variable [Std.TransOrd κ]

/-- Every world of a run is sound. -/
theorem sound (h : Run w₀ es w) (h₀ : w₀.Sound) {m : Nat} {u : World κ ν}
    (hu : w₀.worldAt es m = some u) : u.Sound := by
  induction m generalizing u with
  | zero =>
    cases hu
    exact h₀
  | succ m ih =>
    have hm : m < es.length := World.lt_of_worldAt hu
    obtain ⟨v, hv, hok, hnext⟩ := h.step_at (List.getElem?_eq_getElem hm)
    rw [hu] at hnext
    cases hnext
    exact ((World.step_settles (ih hv) _).of_ok hok).sound (ih hv)

theorem sound_setAt (h : Run w₀ es w) (h₀ : w₀.Sound) {i m : Nat} {s : SharedSet κ ν}
    (hs : w₀.setAt es i m = some s) :
    ∃ u, w₀.worldAt es m = some u ∧ u.Sound ∧ u.sets[i]? = some s ∧ s.Sound (u.fresh i) := by
  obtain ⟨u, hu, hs⟩ := Option.bind_eq_some_iff.1 hs
  have hsound := h.sound h₀ hu
  exact ⟨u, hu, hsound, hs, hsound.sets i s hs⟩

/-- Every set moves on with every action. -/
theorem evolves (h : Run w₀ es w) (h₀ : w₀.Sound) {i m : Nat} {s : SharedSet κ ν}
    (hs : w₀.setAt es i m = some s) (hm : m < es.length) :
    ∃ u e s', w₀.worldAt es m = some u ∧ es[m]? = some e ∧ u.step e.action = .ok e.outcome ∧
      Passage u e.action e.outcome ∧ w₀.setAt es i (m + 1) = some s' ∧
      s.Evolves s' (u.window? i e.action) := by
  obtain ⟨u, hu, hsound, hs, -⟩ := h.sound_setAt h₀ hs
  have he := List.getElem?_eq_getElem hm
  obtain ⟨hok, hnext⟩ := h.step_from hu he
  have hpassage := (World.step_settles hsound _).of_ok hok
  obtain ⟨s', hs', hevolves⟩ := hpassage.evolves hsound hs
  exact ⟨u, _, s', hu, he, hok, hpassage, World.setAt_eq_some hnext hs', hevolves⟩

end Run

/-! ## What lasts as long as a node -/

/-- A node of a set is live from one moment of a run to another. -/
def World.Lasts (w₀ : World κ ν) (es : List (Event κ ν)) (i : Nat) (a : Address) (j k : Nat) :
    Prop :=
  ∀ m, j ≤ m → m ≤ k → ∃ s n, w₀.setAt es i m = some s ∧ s.memory.node? a = some n

omit [Ord κ] in
theorem World.lasts_of_isSome {i j k : Nat} {a : Address}
    (h : ∀ m < k + 1, j ≤ m → ((w₀.setAt es i m).bind fun s => s.memory.node? a).isSome = true) :
    w₀.Lasts es i a j k := by
  intro m hjm hmk
  obtain ⟨n, hn⟩ := Option.isSome_iff_exists.1 (h m (Nat.lt_succ_of_le hmk) hjm)
  obtain ⟨s, hs, hn⟩ := Option.bind_eq_some_iff.1 hn
  exact ⟨s, n, hs, hn⟩

variable [Std.TransOrd κ]

/-- What every step preserves that leaves a node live is preserved as long as the node lasts. -/
theorem Run.carry (h : Run w₀ es w) (h₀ : w₀.Sound) {i j k : Nat} {a : Address}
    {P : SharedSet κ ν → Prop}
    (hP : ∀ s s' window n n', s.Evolves s' window → s.memory.node? a = some n →
      s'.memory.node? a = some n' → P s → P s')
    (hlasts : w₀.Lasts es i a j k) (hjk : j ≤ k) {s t : SharedSet κ ν}
    (hs : w₀.setAt es i j = some s) (ht : w₀.setAt es i k = some t) (hPs : P s) : P t := by
  induction hjk generalizing t with
  | refl =>
    rw [hs] at ht
    cases ht
    exact hPs
  | @step k hjk ih =>
    obtain ⟨u, n, hu, hn⟩ := hlasts k hjk (Nat.le_succ k)
    obtain ⟨t', n', ht', hn'⟩ := hlasts (k + 1) (Nat.le_succ_of_le hjk) (Nat.le_refl _)
    rw [ht] at ht'
    cases ht'
    have hPu := ih (fun m hjm hmk => hlasts m hjm (Nat.le_succ_of_le hmk)) hu
    have hk : k < es.length := by
      obtain ⟨v, hv, -⟩ := Option.bind_eq_some_iff.1 ht
      exact World.lt_of_worldAt hv
    obtain ⟨v, e, s', -, -, -, -, hs', hevolves⟩ := h.evolves h₀ hu hk
    rw [ht] at hs'
    cases hs'
    exact hP u t _ n n' hevolves hn hn' hPu

/-- A node keeps its key and its value, and its link once it is marked. -/
theorem Run.node_lasts (h : Run w₀ es w) (h₀ : w₀.Sound) {i j k : Nat} {a : Address}
    (hlasts : w₀.Lasts es i a j k) (hjk : j ≤ k) {s t : SharedSet κ ν}
    (hs : w₀.setAt es i j = some s) (ht : w₀.setAt es i k = some t) {n n' : Node κ ν}
    (hn : s.memory.node? a = some n) (hn' : t.memory.node? a = some n') :
    n'.key = n.key ∧ n'.value = n.value ∧ (n.next.marked = true → n'.next = n.next) := by
  refine h.carry h₀ (P := fun t => ∀ n', t.memory.node? a = some n' →
    n'.key = n.key ∧ n'.value = n.value ∧ (n.next.marked = true → n'.next = n.next))
    ?_ hlasts hjk hs ht ?_ n' hn'
  · intro s₁ s₂ window n₁ n₂ hevolves hn₁ hn₂ hP n' hn'
    rw [hn₂] at hn'
    cases hn'
    obtain ⟨hkey, hvalue, hmark⟩ := hP n₁ hn₁
    obtain ⟨hkey', hvalue', hmark'⟩ := hevolves.node a n₁ n₂ hn₁ hn₂
    refine ⟨hkey'.trans hkey, hvalue'.trans hvalue, ?_⟩
    intro hm
    have hm₁ : n₁.next.marked = true := by rw [hmark hm, hm]
    rw [hmark' hm₁, hmark hm]
  · intro n' hn'
    rw [hn] at hn'
    cases hn'
    exact ⟨rfl, rfl, fun _ => rfl⟩

/-- A node goes from the chain to limbo and stays there. -/
theorem Run.retired_lasts (h : Run w₀ es w) (h₀ : w₀.Sound) {i j k : Nat} {a : Address}
    (hlasts : w₀.Lasts es i a j k) (hjk : j ≤ k) {s t : SharedSet κ ν}
    (hs : w₀.setAt es i j = some s) (ht : w₀.setAt es i k = some t) (ha : a ∈ s.retired) :
    a ∈ t.retired :=
  h.carry h₀ (P := fun t => a ∈ t.retired)
    (fun _ _ _ _ _ hevolves _ hn' ha => hevolves.retired a ha (Option.isSome_iff_exists.2 ⟨_, hn'⟩))
    hlasts hjk hs ht ha

theorem Run.linked_lasts (h : Run w₀ es w) (h₀ : w₀.Sound) {i j k : Nat} {a : Address}
    (hlasts : w₀.Lasts es i a j k) (hjk : j ≤ k) {s t : SharedSet κ ν}
    (hs : w₀.setAt es i j = some s) (ht : w₀.setAt es i k = some t) (ha : a ∈ s.linked) :
    a ∈ t.linked ∨ a ∈ t.retired := by
  refine h.carry h₀ (P := fun t => a ∈ t.linked ∨ a ∈ t.retired) ?_ hlasts hjk hs ht (.inl ha)
  intro s₁ s₂ window n₁ n₂ hevolves hn₁ hn₂ hP
  have hlive := Option.isSome_iff_exists.2 ⟨_, hn₂⟩
  exact hP.elim (fun ha => hevolves.linked a ha hlive) fun ha => .inr (hevolves.retired a ha hlive)

omit [Std.TransOrd κ] in
/-- Playing actions gives a run. -/
theorem Run.play (w : World κ ν) (as : List (Action κ ν)) {w₀ : World κ ν} {es : List (Event κ ν)}
    (h : Run w₀ es w) : Run w₀ (es ++ (w.play as).1) (w.play as).2 := by
  induction as generalizing w es with
  | nil => simpa [World.play] using h
  | cons a as ih =>
    rw [World.play]
    split
    · next o hok => simpa using ih o.world (h.snoc hok)
    · simpa using h
    · exact ih w h

omit [Std.TransOrd κ] in
theorem World.play_run (w : World κ ν) (as : List (Action κ ν)) :
    Run w (w.play as).1 (w.play as).2 := by
  simpa using Run.play w as .nil

end

/-! ## A short run -/

/-- Where there is a value, the one that stands in for a missing one is not used. -/
theorem eq_some_getD {α : Type} {x : Option α} {d : α} (h : x.isSome = true) :
    x = some (x.getD d) := by
  obtain ⟨a, rfl⟩ := Option.isSome_iff_exists.1 h
  rfl

/-- Two nodes are linked in. A search for the second one stands at the first one when that one is
removed, unlinked and retired, and then goes on. -/
def overtaking : List (Action Int Nat) :=
  [.register 0, .register 0,
    .invoke 0 0 0 (.insert 1 10) none, .proceed, .proceed,
    .invoke 0 0 0 (.insert 2 20) none, .proceed, .proceed, .proceed, .proceed,
    .invoke 1 0 0 (.contains 2) none, .proceed, .proceed,
    .invoke 0 0 0 (.remove 1) none, .proceed, .proceed, .proceed, .proceed,
    .proceed, .proceed, .proceed, .proceed]

namespace Overtaking

/-- The one set at the start, under epochs. -/
def origin : World Int Nat := .ofTunings .epochs [{}]

/-- What the actions came to. -/
def events : List (Event Int Nat) := (origin.play overtaking).1

/-- The set after so many actions. -/
def set (m : Nat) : SharedSet Int Nat := (origin.setAt events 0 m).getD (.ofTuning .epochs {})

theorem run : Run origin events (origin.play overtaking).2 := origin.play_run overtaking

theorem setAt_eq {m : Nat} (h : (origin.setAt events 0 m).isSome = true) :
    origin.setAt events 0 m = some (set m) :=
  eq_some_getD h

end Overtaking

end MarkedChain
