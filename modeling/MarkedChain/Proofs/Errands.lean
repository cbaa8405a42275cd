import MarkedChain.Proofs.Books
import MarkedChain.Proofs.Pursuit

/-!
# What the removals of a run have marked

`World.Marks` says that a removal marks a node with an event, `World.Retires` that a node goes from
the chain to limbo. `Errands` goes through a run beside the operations in progress and knows for
each of them the node that it has marked: either the node has gone to limbo meanwhile, or it is on
the chain and the operation is after it. `Run.errands` is the induction over the run, with one lemma
for each kind of event.
-/

namespace MarkedChain

variable {κ ν : Type}

/-! ## Operations are told apart by their beginning -/

namespace Journal

/-- The events by which the operations in a journal began. -/
def begun (j : Journal κ ν) : List Nat :=
  j.pending.map Pending.began ++ j.spans.map fun x => x.began

/-- No two operations in the journal began with the same event. -/
structure Distinct (j : Journal κ ν) : Prop where
  nodup : j.begun.Nodup
  lt : ∀ b ∈ j.begun, b < j.clock

theorem Distinct.note {j : Journal κ ν} (h : j.Distinct) (e : Event κ ν) : (j.note e).Distinct := by
  have hclock : ∀ {j' : Journal κ ν}, j'.begun.Perm j.begun → j'.clock = j.clock + 1 →
      j'.Distinct := by
    intro j' hperm hj'
    refine ⟨hperm.nodup_iff.2 h.nodup, fun b hb => ?_⟩
    rw [hj']
    exact Nat.lt_succ_of_lt (h.lt b (hperm.mem_iff.1 hb))
  rw [Journal.note]
  split
  · refine ⟨List.nodup_cons.2 ⟨fun hb => Nat.lt_irrefl _ (h.lt _ hb), h.nodup⟩, fun b hb => ?_⟩
    rcases List.mem_cons.1 hb with rfl | hb
    · exact Nat.lt_succ_self _
    · exact Nat.lt_succ_of_lt (h.lt b hb)
  · next reply p rest hpending =>
    refine hclock ?_ rfl
    rw [begun, begun, hpending, List.map_append, List.map_cons, ← List.append_assoc]
    exact List.perm_append_singleton _ _
  · exact hclock (.refl _) rfl

end Journal

theorem journal_distinct (es : List (Event κ ν)) : (journal es).Distinct := by
  have hfold : ∀ j : Journal κ ν, j.Distinct → (es.foldl Journal.note j).Distinct := by
    induction es with
    | nil => exact fun _ hj => hj
    | cons e es ih => exact fun _ hj => ih _ (hj.note e)
  exact hfold {} ⟨.nil, by simp [Journal.begun]⟩

/-- An operation in progress began before now. -/
theorem began_lt_of_pending {es : List (Event κ ν)} {p : Pending κ ν}
    (hp : p ∈ (journal es).pending) : p.began < es.length := by
  rw [← clock_journal es]
  exact (journal_distinct es).lt _ (List.mem_append_left _ (List.mem_map_of_mem hp))

/-- An operation that has ended is not in progress. -/
theorem not_pending_of_span {es : List (Event κ ν)} {x : Span κ ν} (hx : x ∈ (journal es).spans) :
    x.toPending ∉ (journal es).pending := by
  intro hp
  have hnodup := (journal_distinct es).nodup
  exact (List.nodup_append.1 hnodup).2.2 _ (List.mem_map_of_mem hp) _ (List.mem_map_of_mem hx) rfl

/-- The running operation is not one of those below it. -/
theorem head_not_mem_tail {es : List (Event κ ν)} {p : Pending κ ν} {ps : List (Pending κ ν)}
    (hpending : (journal es).pending = p :: ps) : p ∉ ps := by
  intro hp
  have hnodup := (List.nodup_append.1 (journal_distinct es).nodup).1
  rw [hpending, List.map_cons, List.nodup_cons] at hnodup
  exact hnodup.1 (List.mem_map_of_mem hp)

/-! ## Marking and retiring in a run -/

namespace World

/-- With the event `j` a node goes from the chain to limbo. -/
def Retires (w₀ : World κ ν) (es : List (Event κ ν)) (i : Nat) (a : Address) (j : Nat) : Prop :=
  ∃ s t, w₀.setAt es i j = some s ∧ w₀.setAt es i (j + 1) = some t ∧ a ∈ s.linked ∧
    a ∉ s.retired ∧ a ∉ t.linked ∧ a ∈ t.retired

/-- With the event `m` the removal `p` marks a node of the chain with the key it was asked for. -/
structure Marks [Ord κ] (w₀ : World κ ν) (es : List (Event κ ν)) (p : Pending κ ν) (a : Address)
    (m : Nat) : Prop where
  running : (journal (es.take m)).pending.head? = some p
  event : ∃ o, es[m]? = some ⟨.proceed, o⟩
  takes : ∃ k s t, p.call = .remove k ∧ w₀.setAt es p.set m = some s ∧
    w₀.setAt es p.set (m + 1) = some t ∧ s.Takes t k a

/-- The node that was marked with the event `m` has gone to limbo since. -/
def Cleared (w₀ : World κ ν) (es : List (Event κ ν)) (i : Nat) (a : Address) (m : Nat) : Prop :=
  ∃ j, m ≤ j ∧ w₀.Lasts es i a m (j + 1) ∧ w₀.Retires es i a j

variable {w₀ w : World κ ν} {es : List (Event κ ν)} {e : Event κ ν} {i m : Nat} {a : Address}
  {p : Pending κ ν}

theorem Lasts.snoc {j k : Nat} (h : w₀.Lasts es i a j k) (e : Event κ ν) :
    w₀.Lasts (es ++ [e]) i a j k := by
  intro l hjl hlk
  obtain ⟨s, n, hs, hn⟩ := h l hjl hlk
  exact ⟨s, n, setAt_mono hs e, hn⟩

theorem Lasts.single {s : SharedSet κ ν} (hs : w₀.setAt es i m = some s) {n : Node κ ν}
    (hn : s.memory.node? a = some n) : w₀.Lasts es i a m m := by
  intro l hjl hlk
  obtain rfl := Nat.le_antisymm hlk hjl
  exact ⟨s, n, hs, hn⟩

/-- A node lasts on if it is there after one more event. -/
theorem Lasts.extend {j : Nat} (h : w₀.Lasts es i a j es.length) {s' : SharedSet κ ν}
    (hs' : e.outcome.world.sets[i]? = some s') {n : Node κ ν} (hn : s'.memory.node? a = some n) :
    w₀.Lasts (es ++ [e]) i a j (es.length + 1) := by
  intro l hjl hlk
  rcases Nat.lt_or_ge es.length l with hl | hl
  · obtain rfl : l = es.length + 1 := by omega
    exact ⟨s', n, by rw [setAt_snoc, hs'], hn⟩
  · exact h.snoc e l hjl hl

theorem Retires.snoc {j : Nat} (h : w₀.Retires es i a j) (e : Event κ ν) :
    w₀.Retires (es ++ [e]) i a j := by
  obtain ⟨s, t, hs, ht, hcases⟩ := h
  exact ⟨s, t, setAt_mono hs e, setAt_mono ht e, hcases⟩

theorem Cleared.snoc (h : w₀.Cleared es i a m) (e : Event κ ν) : w₀.Cleared (es ++ [e]) i a m := by
  obtain ⟨j, hmj, hlasts, hretires⟩ := h
  exact ⟨j, hmj, hlasts.snoc e, hretires.snoc e⟩

variable [Ord κ]

theorem Marks.lt (h : w₀.Marks es p a m) : m < es.length := by
  obtain ⟨o, ho⟩ := h.event
  exact (List.getElem?_eq_some_iff.1 ho).1

/-- An operation marks a node after it began. -/
theorem Marks.began_lt (h : w₀.Marks es p a m) : p.began < m := by
  have hlt := began_lt_of_pending (List.mem_of_head? h.running)
  rwa [List.length_take, Nat.min_eq_left (Nat.le_of_lt h.lt)] at hlt

theorem Marks.snoc (h : w₀.Marks es p a m) (e : Event κ ν) : w₀.Marks (es ++ [e]) p a m := by
  obtain ⟨k, s, t, hcall, hs, ht, htakes⟩ := h.takes
  refine ⟨?_, ?_, k, s, t, hcall, setAt_mono hs e, setAt_mono ht e, htakes⟩
  · rw [List.take_append_of_le_length (Nat.le_of_lt h.lt)]
    exact h.running
  · rw [List.getElem?_append_left h.lt]
    exact h.event

/-- A node was marked with the last event or before. -/
theorem Marks.of_snoc (h : w₀.Marks (es ++ [e]) p a m) : w₀.Marks es p a m ∨ m = es.length ∧
    (journal es).pending.head? = some p ∧ e.action = .proceed ∧
      ∃ k s t, p.call = .remove k ∧ w₀.setAt es p.set es.length = some s ∧
        e.outcome.world.sets[p.set]? = some t ∧ s.Takes t k a := by
  obtain ⟨k, s, t, hcall, hs, ht, htakes⟩ := h.takes
  have hlt := h.lt
  rw [List.length_append, List.length_singleton] at hlt
  rcases Nat.lt_or_ge m es.length with hm | hm
  · left
    have hrunning := h.running
    have hevent := h.event
    rw [List.take_append_of_le_length (Nat.le_of_lt hm)] at hrunning
    rw [List.getElem?_append_left hm] at hevent
    rw [setAt_append (Nat.le_of_lt hm)] at hs
    rw [setAt_append hm] at ht
    exact ⟨hrunning, hevent, k, s, t, hcall, hs, ht, htakes⟩
  · obtain rfl : m = es.length := by omega
    have hrunning := h.running
    obtain ⟨o, ho⟩ := h.event
    rw [List.take_append_of_le_length (Nat.le_refl _), List.take_length] at hrunning
    rw [List.getElem?_append_right (Nat.le_refl _), Nat.sub_self] at ho
    cases ho
    rw [setAt_append (Nat.le_refl _)] at hs
    rw [setAt_snoc] at ht
    exact .inr ⟨rfl, hrunning, rfl, k, s, t, hcall, hs, ht, htakes⟩

end World

/-! ## What becomes of a marked node -/

/-- An operation in progress, in the journal and in the world, with the event by which it has marked
a node and the node. -/
structure Errand (κ ν : Type) where
  pending : Pending κ ν
  activation : Activation κ
  victim : Option (Nat × Address) := none

variable [Ord κ]

/-- The node that was marked with the event `m` is on the chain, and the operation is after it. -/
def World.Chases (w₀ : World κ ν) (es : List (Event κ ν)) (w : World κ ν) (i : Nat) (f : Frame κ)
    (a : Address) (m : Nat) : Prop :=
  w₀.Lasts es i a m es.length ∧ ∃ s, w.sets[i]? = some s ∧ f.Chases s a

/-- What the operation has marked, and what has become of it. -/
structure Errand.Follows (w₀ : World κ ν) (es : List (Event κ ν)) (w : World κ ν)
    (o : Errand κ ν) : Prop where
  set : w.setOf? o.activation.handle = some o.pending.set
  done : o.victim.isSome = o.activation.frame.task.done
  marks : ∀ m a, o.victim = some (m, a) → w₀.Marks es o.pending a m
  fate : ∀ m a, o.victim = some (m, a) → w₀.Cleared es o.pending.set a m ∨
    w₀.Chases es w o.pending.set o.activation.frame a m
  only : ∀ m a, w₀.Marks es o.pending a m → o.victim = some (m, a)

/-- A removal that has ended marked one node, and the node went to limbo before the end. -/
def Span.Removed (w₀ : World κ ν) (es : List (Event κ ν)) (x : Span κ ν) : Prop :=
  ∃ a m, w₀.Marks es x.toPending a m ∧ (∀ b l, w₀.Marks es x.toPending b l → b = a ∧ l = m) ∧
    ∃ j, m ≤ j ∧ j ≤ x.ended ∧ w₀.Lasts es x.set a m (j + 1) ∧ w₀.Retires es x.set a j

/-- An operation that has ended replied that it removed something if and only if it marked a
node. -/
structure Span.Settled (w₀ : World κ ν) (es : List (Event κ ν)) (x : Span κ ν) : Prop where
  removed : x.reply = .removed → x.Removed w₀ es
  marks : ∀ a m, w₀.Marks es x.toPending a m → x.reply = .removed

/-- Operations in progress that belong to a run, all marks in it, and the operations that have
ended. -/
structure Errands (w₀ : World κ ν) (es : List (Event κ ν)) (w : World κ ν)
    (os : List (Errand κ ν)) : Prop where
  pending : os.map Errand.pending = (journal es).pending
  running : os.map Errand.activation = w.running
  follows : ∀ o ∈ os, o.Follows w₀ es w
  marked : ∀ (i : Nat) s a, w.sets[i]? = some s → s.Marked a →
    ∃ p m, p.set = i ∧ w₀.Marks es p a m ∧ w₀.Lasts es i a m es.length
  linked : ∀ (i : Nat) s a, w.sets[i]? = some s → a ∈ s.linked → s.Marked a →
    ∃ o ∈ os, o.pending.set = i ∧ ∃ m, o.victim = some (m, a) ∧
      w₀.Chases es w i o.activation.frame a m
  spans : ∀ x ∈ (journal es).spans, x.Settled w₀ es

variable {w₀ w : World κ ν} {es : List (Event κ ν)} {e : Event κ ν} {os os' : List (Errand κ ν)}
  {o : Errand κ ν} {i m : Nat} {b : Address}

/-- An operation that has ended marks nothing any more. -/
theorem World.Marks.of_span {x : Span κ ν} (hx : x ∈ (journal es).spans)
    (h : w₀.Marks (es ++ [e]) x.toPending b m) : w₀.Marks es x.toPending b m := by
  rcases h.of_snoc with h | ⟨-, hhead, -⟩
  · exact h
  · exact absurd (List.mem_of_head? hhead) (not_pending_of_span hx)

/-- What has ended stays as it was. -/
theorem Span.Settled.snoc {x : Span κ ν} (h : x.Settled w₀ es) (hx : x ∈ (journal es).spans)
    (e : Event κ ν) : x.Settled w₀ (es ++ [e]) := by
  refine ⟨fun hreply => ?_, fun a m hm => h.marks a m (hm.of_span hx)⟩
  obtain ⟨a, m, hmarks, honly, j, hmj, hj, hlasts, hretires⟩ := h.removed hreply
  exact ⟨a, m, hmarks.snoc e, fun b l hb => honly b l (hb.of_span hx), j, hmj, hj, hlasts.snoc e,
    hretires.snoc e⟩

/-- A removal ends with the last event, and the node that it has marked has gone to limbo. -/
theorem Span.removed_last {p : Pending κ ν} {reply : Reply κ ν}
    (hmarks : w₀.Marks (es ++ [e]) p b m) (hcleared : w₀.Cleared (es ++ [e]) p.set b m)
    (honly : ∀ c l, w₀.Marks (es ++ [e]) p c l → c = b ∧ l = m) :
    Span.Removed w₀ (es ++ [e]) ⟨p, reply, es.length⟩ := by
  obtain ⟨j, hmj, hlasts, hretires⟩ := hcleared
  obtain ⟨-, t, -, ht, -⟩ := id hretires
  have hle := World.le_of_setAt ht
  rw [List.length_append, List.length_singleton] at hle
  exact ⟨b, m, hmarks, honly, j, hmj, Nat.le_of_succ_le_succ hle, hlasts, hretires⟩

variable [Std.TransOrd κ]

/-- A node that leaves the chain with the last event goes to limbo. -/
theorem World.Cleared.last {s s' : SharedSet κ ν} (hlast : w₀.worldAt es es.length = some w)
    (hw : w.Sound) (hp : Passage w e.action e.outcome) (hs : w.sets[i]? = some s)
    (hs' : e.outcome.world.sets[i]? = some s') (hlasts : w₀.Lasts es i b m es.length)
    (hm : m ≤ es.length) (hb : b ∈ s.linked) (hout : b ∉ s'.linked) :
    w₀.Cleared (es ++ [e]) i b m := by
  obtain ⟨n, hn⟩ := hp.live_of_linked hw hs hs' hb
  obtain ⟨t, ht, hevolves⟩ := hp.evolves hw hs
  rw [hs'] at ht
  cases ht
  have hretired := (hevolves.linked b hb (Option.isSome_iff_exists.2 ⟨n, hn⟩)).resolve_left hout
  refine ⟨es.length, hm, hlasts.extend hs' hn, s, s', World.setAt_mono ?_ e, ?_, hb,
    (hw.sets i s hs).not_retired_of_linked hb, hout, hretired⟩
  · rw [World.setAt, hlast]
    exact hs
  · rw [World.setAt_snoc, hs']

omit [Std.TransOrd κ] in
/-- What an operation is after is still there, if it is on the chain. -/
theorem World.Chases.lasts {f : Frame κ} (h : w₀.Chases es w i f b m) {s' : SharedSet κ ν}
    (hs' : e.outcome.world.sets[i]? = some s') {f' : Frame κ} (hchases : f'.Chases s' b) :
    w₀.Chases (es ++ [e]) e.outcome.world i f' b m := by
  obtain ⟨n, hn, -⟩ := hchases.marked
  have hlasts := h.1.extend hs' hn
  rw [World.Chases, List.length_append, List.length_singleton]
  exact ⟨hlasts, s', hs', hchases⟩

/-- The node that an operation is after leaves the chain with the last event, or the operation is
after it still. -/
theorem World.Chases.fate {f f' : Frame κ} (h : w₀.Chases es w i f b m)
    (hlast : w₀.worldAt es es.length = some w) (hw : w.Sound)
    (hp : Passage w e.action e.outcome) {s' : SharedSet κ ν}
    (hs' : e.outcome.world.sets[i]? = some s') (hm : m ≤ es.length)
    (hchases : b ∈ s'.linked → f'.Chases s' b) :
    w₀.Cleared (es ++ [e]) i b m ∨ w₀.Chases (es ++ [e]) e.outcome.world i f' b m := by
  obtain ⟨hlasts, s, hs, hold⟩ := id h
  by_cases hin : b ∈ s'.linked
  · exact .inr (h.lasts hs' (hchases hin))
  · exact .inl (.last hlast hw hp hs hs' hlasts hm hold.linked hin)

/-- An operation that makes no step itself stays after its node. -/
theorem Errand.Follows.chases (h : o.Follows w₀ es w) (hw : w.Sound)
    (hp : Passage w e.action e.outcome) (hold : o.activation ∈ w.running)
    (hother : e.action = .proceed → ∃ c rest, w.running = c :: rest ∧ o.activation ∈ rest)
    {s' : SharedSet κ ν} (hs' : e.outcome.world.sets[o.pending.set]? = some s')
    (hchases : w₀.Chases es w o.pending.set o.activation.frame b m) (hin : b ∈ s'.linked) :
    o.activation.frame.Chases s' b := by
  obtain ⟨x, s, hx, -, hs, hfits⟩ := hw.running _ hold
  have hset : x.set = o.pending.set := by simpa [World.setOf?, hx] using h.set
  obtain ⟨-, t, who, ht, -, hresp⟩ := hp.bystander hw hold hother hx hs
  rw [hset] at hs ht
  obtain ⟨-, u, hu, hchases⟩ := hchases
  rw [hs] at hu
  cases hu
  rw [hs'] at ht
  cases ht
  exact hchases.others (hw.sets _ _ hs) hfits hresp ((hp.sound hw).sets _ _ hs') hin

/-- An operation that makes no step itself is followed through the step of another one. -/
theorem Errand.Follows.others (h : o.Follows w₀ es w) (hlast : w₀.worldAt es es.length = some w)
    (hw : w.Sound) (hp : Passage w e.action e.outcome) (hold : o.activation ∈ w.running)
    (hother : e.action = .proceed → ∃ c rest, w.running = c :: rest ∧ o.activation ∈ rest)
    (hhead : e.action = .proceed → (journal es).pending.head? ≠ some o.pending) :
    o.Follows w₀ (es ++ [e]) e.outcome.world := by
  obtain ⟨x, s, hx, -, hs, -⟩ := hw.running _ hold
  have hset : x.set = o.pending.set := by simpa [World.setOf?, hx] using h.set
  obtain ⟨hkeep, s', -, hs', -⟩ := hp.bystander hw hold hother hx hs
  rw [hset] at hs'
  refine ⟨?_, h.done, fun m a hv => (h.marks m a hv).snoc e, fun m a hv => ?_, fun m a hm => ?_⟩
  · rw [World.setOf?, hkeep, Option.map_some, hset]
  · rcases h.fate m a hv with hcleared | hchases
    · exact .inl (hcleared.snoc e)
    · exact hchases.fate hlast hw hp hs' (Nat.le_of_lt (h.marks m a hv).lt)
        (h.chases hw hp hold hother hs' hchases)
  · rcases hm.of_snoc with hm | ⟨-, hrunning, hproceed, -⟩
    · exact h.only m a hm
    · exact absurd hrunning (hhead hproceed)

namespace Errands

/-- One more event, if all operations in progress are accounted for: every marked node was marked
before or is marked with this event, and what was on the chain and marked is still somebody's. -/
theorem advance (h : Errands w₀ es w os) (hw : w.Sound)
    (hp : Passage w e.action e.outcome)
    (hpending : os'.map Errand.pending = (journal (es ++ [e])).pending)
    (hrunning : os'.map Errand.activation = e.outcome.world.running)
    (hfollows : ∀ o ∈ os', o.Follows w₀ (es ++ [e]) e.outcome.world)
    (hnew : ∀ (i : Nat) s t b, w.sets[i]? = some s → e.outcome.world.sets[i]? = some t →
      t.Marked b → s.Marked b ∨ ∃ p, p.set = i ∧ w₀.Marks (es ++ [e]) p b es.length ∧
        (b ∈ t.linked → ∃ o ∈ os', o.pending.set = i ∧ ∃ m, o.victim = some (m, b) ∧
          w₀.Chases (es ++ [e]) e.outcome.world i o.activation.frame b m))
    (hkept : ∀ o ∈ os, ∀ m b t, o.victim = some (m, b) →
      w₀.Chases es w o.pending.set o.activation.frame b m →
      e.outcome.world.sets[o.pending.set]? = some t → b ∈ t.linked →
        ∃ o' ∈ os', o'.pending = o.pending ∧ o'.victim = some (m, b) ∧
          o'.activation.frame.Chases t b)
    (hspans : ∀ x ∈ (journal (es ++ [e])).spans, x ∈ (journal es).spans ∨
      x.Settled w₀ (es ++ [e])) :
    Errands w₀ (es ++ [e]) e.outcome.world os' := by
  have hsets : ∀ {i : Nat} {t}, e.outcome.world.sets[i]? = some t →
      ∃ s, w.sets[i]? = some s ∧ s.Evolves t (w.window? i e.action) := by
    intro i t ht
    obtain ⟨s, hs⟩ := hp.exists_set ht
    obtain ⟨t', ht', hevolves⟩ := hp.evolves hw hs
    rw [ht] at ht'
    cases ht'
    exact ⟨s, hs, hevolves⟩
  refine ⟨hpending, hrunning, hfollows, fun i t b ht hb => ?_, fun i t b ht hin hb => ?_,
    fun x hx => ?_⟩
  · obtain ⟨s, hs, -⟩ := hsets ht
    obtain ⟨n, hn, -⟩ := id hb
    rw [List.length_append, List.length_singleton]
    rcases hnew i s t b hs ht hb with hold | ⟨p, rfl, hmarks, -⟩
    · obtain ⟨p, m, hset, hmarks, hlasts⟩ := h.marked i s b hs hold
      exact ⟨p, m, hset, hmarks.snoc e, hlasts.extend ht hn⟩
    · obtain ⟨k, u, u', -, hu, -, htakes⟩ := hmarks.takes
      obtain ⟨v, hv, -⟩ := htakes.bears
      rw [World.setAt_append (Nat.le_refl _)] at hu
      exact ⟨p, _, rfl, hmarks, (World.Lasts.single hu hv).extend ht hn⟩
  · obtain ⟨s, hs, hevolves⟩ := hsets ht
    rcases hnew i s t b hs ht hb with hold | ⟨p, -, -, hlinked⟩
    · have hlinked := hevolves.linked_back (hw.sets i s hs) ((hp.sound hw).sets i t ht) hold hin
      obtain ⟨o, ho, rfl, m, hv, hchases⟩ := h.linked i s b hs hlinked hold
      obtain ⟨o', ho', hpending', hv', hchases'⟩ := hkept o ho m b t hv hchases ht hin
      exact ⟨o', ho', by rw [hpending'], m, hv', hchases.lasts ht hchases'⟩
    · exact hlinked hin
  · rcases hspans x hx with hx | hx
    · exact (h.spans x hx).snoc hx e
    · exact hx

/-- An operation that makes no step itself keeps what it is after. -/
theorem kept (h : Errands w₀ es w os) (hw : w.Sound) (hp : Passage w e.action e.outcome)
    (ho : o ∈ os)
    (hother : e.action = .proceed → ∃ c rest, w.running = c :: rest ∧ o.activation ∈ rest)
    {t : SharedSet κ ν} (hchases : w₀.Chases es w o.pending.set o.activation.frame b m)
    (ht : e.outcome.world.sets[o.pending.set]? = some t) (hin : b ∈ t.linked) :
    o.activation.frame.Chases t b :=
  (h.follows o ho).chases hw hp (h.running ▸ List.mem_map_of_mem ho) hother ht hchases hin

/-- An action that moves no operation on marks nothing. -/
theorem quiet (h : Errands w₀ es w os) (hw : w.Sound) (hlast : w₀.worldAt es es.length = some w)
    (hp : Passage w e.action e.outcome) (hrun : e.outcome.world.running = w.running)
    (hproceed : e.action ≠ .proceed) {x : Answer κ ν} (hanswer : e.outcome.answer = some x) :
    Errands w₀ (es ++ [e]) e.outcome.world os := by
  have hnote := journal_answered es hanswer hproceed
  have hother : ∀ o : Errand κ ν, e.action = .proceed →
      ∃ c rest, w.running = c :: rest ∧ o.activation ∈ rest := fun _ ha => absurd ha hproceed
  refine h.advance hw hp (hnote.1 ▸ h.pending) (hrun ▸ h.running) (fun o ho => ?_)
    (fun i s t b hs ht hb => .inl (hp.marked_back hproceed hs ht hb))
    (fun o ho m b t hv hchases ht hin => ?_) fun x hx => .inl (hnote.2 ▸ hx)
  · exact (h.follows o ho).others hlast hw hp (h.running ▸ List.mem_map_of_mem ho) (hother o)
      fun ha => absurd ha hproceed
  · exact ⟨o, ho, rfl, hv, h.kept hw hp ho (hother o) hchases ht hin⟩

/-- An operation that begins has marked nothing. -/
theorem begin (h : Errands w₀ es w os) (hw : w.Sound) (hlast : w₀.worldAt es es.length = some w)
    {h' i : Nat} {lane : Lane} {call : Call κ ν} {offer : Option Address} {x : Handle}
    {s t : SharedSet κ ν} {task : Task κ} {sch : Scheme Address} {o : Outcome κ ν}
    (hx : w.handles[h']? = some x) (hset : x.set = i) (hopens : Opens s call task t)
    (hworld : o.world = { (w.setSet i { t with scheme := sch }).setHandle h'
      { x with status := .running } with running := ⟨h', lane, ⟨task, .start⟩⟩ :: w.running })
    (hanswer : o.answer = none) (hp : Passage w (.invoke h' i lane call offer) o) :
    Errands w₀ (es ++ [⟨.invoke h' i lane call offer, o⟩]) o.world
      (⟨⟨i, call, es.length⟩, ⟨h', lane, ⟨task, .start⟩⟩, none⟩ :: os) := by
  have hnote := journal_begins es h' i lane call offer hanswer
  have hrunning : o.world.running = ⟨h', lane, ⟨task, .start⟩⟩ :: w.running := by rw [hworld]
  refine h.advance hw hp ?_ ?_ (fun o' ho' => ?_)
    (fun j u u' b hu hu' hb => .inl (hp.marked_back (by simp) hu hu' hb))
    (fun o' ho' m b u hv hchases hu hin => ?_) fun y hy => .inl (hnote.2 ▸ hy)
  · rw [hnote.1, List.map_cons, h.pending]
  · rw [hrunning, List.map_cons, h.running]
  · rcases List.mem_cons.1 ho' with rfl | ho'
    · refine ⟨?_, ?_, by simp, by simp, fun m a hm => ?_⟩
      · rw [World.setOf?, hworld]
        change ((w.setHandle h' _).handles[h']?).map Handle.set = some i
        rw [World.getElem?_setHandle hx, if_pos rfl, ← hset]
        rfl
      · cases hopens with
        | insert => rfl
        | plain htask => cases call <;> cases htask <;> rfl
      · rcases hm.of_snoc with hm | ⟨-, -, hproceed, -⟩
        · exact absurd (Nat.lt_trans hm.began_lt hm.lt) (Nat.lt_irrefl _)
        · cases hproceed
    · exact (h.follows o' ho').others hlast hw hp (h.running ▸ List.mem_map_of_mem ho') (by simp)
        (by simp)
  · exact ⟨o', List.mem_cons_of_mem _ ho', rfl, hv, h.kept hw hp ho' (by simp) hchases hu hin⟩

/-! ## Steps of the running operation -/

section

variable {o₁ : Errand κ ν} {o : Outcome κ ν} {a : Activation κ} {rest : List (Activation κ)}
  {x : Handle} {s s' : SharedSet κ ν} {st : Stride κ ν}

omit [Std.TransOrd κ] in
/-- The running operation is the one that the next step belongs to. -/
theorem head (h : Errands w₀ es w (o₁ :: os)) :
    (journal es).pending = o₁.pending :: os.map Errand.pending := by
  rw [← h.pending, List.map_cons]

/-- The operations below the running one are followed through its step. -/
theorem follows_rest (h : Errands w₀ es w (o₁ :: os)) (hw : w.Sound)
    (hlast : w₀.worldAt es es.length = some w) (hp : Passage w .proceed o) :
    ∀ o₂ ∈ os, o₂.Follows w₀ (es ++ [⟨.proceed, o⟩]) o.world := by
  intro o₂ ho₂
  have hrun := h.running
  rw [List.map_cons] at hrun
  have hmem : o₂.activation ∈ os.map Errand.activation := List.mem_map_of_mem ho₂
  refine (h.follows o₂ (by simp [ho₂])).others hlast hw hp ?_ (fun _ => ⟨_, _, hrun.symm, hmem⟩)
    fun _ heq => ?_
  · rw [← hrun]
    exact List.mem_cons_of_mem _ hmem
  · have hhead := h.head
    rw [hhead, List.head?_cons] at heq
    refine head_not_mem_tail hhead ?_
    rw [Option.some.inj heq]
    exact List.mem_map_of_mem ho₂

/-- The operations below the running one stay after their nodes. -/
theorem kept_rest (h : Errands w₀ es w (o₁ :: os)) (hw : w.Sound) (hp : Passage w .proceed o)
    {o₂ : Errand κ ν} (ho₂ : o₂ ∈ os) {t : SharedSet κ ν}
    (hchases : w₀.Chases es w o₂.pending.set o₂.activation.frame b m)
    (ht : o.world.sets[o₂.pending.set]? = some t) (hin : b ∈ t.linked) :
    o₂.activation.frame.Chases t b := by
  have hrun := h.running
  rw [List.map_cons] at hrun
  exact h.kept (e := ⟨.proceed, o⟩) hw hp (List.mem_cons_of_mem _ ho₂)
    (fun _ => ⟨_, _, hrun.symm, List.mem_map_of_mem ho₂⟩) hchases ht hin

omit [Std.TransOrd κ] in
/-- What the step marks, the running operation marks. -/
theorem marks_last (h : Errands w₀ es w (o₁ :: os)) (hlast : w₀.worldAt es es.length = some w)
    (hs : w.sets[o₁.pending.set]? = some s) (hs' : o.world.sets[o₁.pending.set]? = some s') {k : κ}
    (hcall : o₁.pending.call = .remove k) (htakes : s.Takes s' k b) :
    w₀.Marks (es ++ [⟨.proceed, o⟩]) o₁.pending b es.length := by
  refine ⟨?_, ⟨o, by simp⟩, k, s, s', hcall, World.setAt_mono ?_ _, ?_, htakes⟩
  · rw [List.take_append_of_le_length (Nat.le_refl _), List.take_length, h.head, List.head?_cons]
  · rw [World.setAt, hlast]
    exact hs
  · exact (World.setAt_snoc w₀ es _ _).trans hs'

omit [Std.TransOrd κ] in
/-- What is marked with the step was not marked before. -/
theorem marks_of_snoc (h : Errands w₀ es w (o₁ :: os)) (hlast : w₀.worldAt es es.length = some w)
    (hs : w.sets[o₁.pending.set]? = some s) (hs' : o.world.sets[o₁.pending.set]? = some s')
    {p : Pending κ ν} (hm : w₀.Marks (es ++ [⟨.proceed, o⟩]) p b m) :
    w₀.Marks es p b m ∨ m = es.length ∧ ¬ s.Marked b ∧ s'.Marked b := by
  rcases hm.of_snoc with hm | ⟨rfl, hhead, -, k, u, u', -, hu, hu', htakes⟩
  · exact .inl hm
  · rw [h.head, List.head?_cons] at hhead
    cases hhead
    rw [World.setAt, hlast, Option.bind_some, hs] at hu
    cases hu
    change o.world.sets[o₁.pending.set]? = some u' at hu'
    rw [hs'] at hu'
    cases hu'
    exact .inr ⟨rfl, htakes.unmarked, htakes.marked⟩

/-- If the running operation goes on, only what it has marked is left to show. -/
theorem goes_of_victim (h : Errands w₀ es w (o₁ :: os)) (hw : w.Sound)
    (hlast : w₀.worldAt es es.length = some w) (hp : Passage w .proceed o) {frame : Frame κ}
    (hset : x.set = o₁.pending.set) (hs : w.sets[x.set]? = some s)
    (hsets : o.world.sets = (w.setSet x.set s').sets)
    (hrunning : o.world.running =
      { o₁.activation with frame } :: os.map Errand.activation) (hanswer : o.answer = none)
    (hstays : ∀ b, o₁.activation.frame.Chases s b → b ∈ s'.linked → frame.Chases s' b)
    (victim : Option (Nat × Address))
    (hnew : Errand.Follows w₀ (es ++ [⟨.proceed, o⟩]) o.world
      ⟨o₁.pending, { o₁.activation with frame }, victim⟩)
    (hback : ∀ b, s'.Marked b → s.Marked b ∨ victim = some (es.length, b) ∧
      w₀.Marks (es ++ [⟨.proceed, o⟩]) o₁.pending b es.length ∧
        w₀.Chases (es ++ [⟨.proceed, o⟩]) o.world o₁.pending.set frame b es.length)
    (hsame : ∀ m b, o₁.victim = some (m, b) → victim = some (m, b)) :
    Errands w₀ (es ++ [⟨.proceed, o⟩]) o.world
      (⟨o₁.pending, { o₁.activation with frame }, victim⟩ :: os) := by
  have hnote := journal_goes es hanswer
  refine h.advance hw hp ?_ hrunning.symm (fun o₂ ho₂ => ?_) (fun j u u' b hu hu' hb => ?_)
    (fun o₂ ho₂ m b u hv hchases hu hin => ?_) fun y hy => .inl (hnote.2 ▸ hy)
  · rw [hnote.1, h.head, List.map_cons]
  · rcases List.mem_cons.1 ho₂ with rfl | ho₂
    · exact hnew
    · exact h.follows_rest hw hlast hp o₂ ho₂
  · obtain ⟨rfl, rfl, rfl⟩ | rfl := World.setSet_cases hs hu (hsets ▸ hu')
    · rcases hback b hb with hb | ⟨hv, hm, hchases⟩
      · exact .inl hb
      · exact .inr ⟨o₁.pending, hset.symm, hm, fun _ =>
          ⟨_, List.mem_cons_self, hset.symm, es.length, hv, hset ▸ hchases⟩⟩
    · exact .inl hb
  · rcases List.mem_cons.1 ho₂ with rfl | ho₂
    · obtain ⟨-, t, ht, hchases⟩ := hchases
      change o.world.sets[_]? = some u at hu
      rw [hsets, ← hset, World.getElem?_setSet hs, if_pos rfl] at hu
      rw [← hset, hs] at ht
      cases hu
      cases ht
      exact ⟨_, List.mem_cons_self, rfl, hsame m b hv, hstays b hchases hin⟩
    · exact ⟨o₂, List.mem_cons_of_mem _ ho₂, rfl, hv, h.kept_rest hw hp ho₂ hchases hu hin⟩

/-- The running operation goes on. It may have marked a node that it has to clear away. -/
theorem goes (h : Errands w₀ es w (o₁ :: os)) (hw : w.Sound)
    (hlast : w₀.worldAt es es.length = some w) {frame : Frame κ} (ha : o₁.activation = a)
    (hrun : w.running = a :: rest) (hx : w.handles[a.handle]? = some x)
    (hs : w.sets[x.set]? = some s) (hcall : ∀ k, a.frame.task = .remove k →
      o₁.pending.call = .remove k)
    (hmove : Move s ⟨x.record, a.lane⟩ a.frame st) (hnext : st.next = .goes frame)
    (hworld : o.world = { (w.setSet x.set st.set).setHandle a.handle
      { x with retries := x.retries + st.retries } with running := { a with frame } :: rest })
    (hanswer : o.answer = none) (hp : Passage w .proceed o) :
    ∃ os', Errands w₀ (es ++ [⟨.proceed, o⟩]) o.world os' := by
  subst ha
  have hfollows := h.follows o₁ (by simp)
  have hset : x.set = o₁.pending.set := by simpa [World.setOf?, hx] using hfollows.set
  obtain ⟨-, hfits, hd, hsound⟩ := hw.top hrun hx hs
  have hsets : o.world.sets = (w.setSet x.set st.set).sets := by rw [hworld]; rfl
  have hs₀ : w.sets[o₁.pending.set]? = some s := hset ▸ hs
  have hs' : o.world.sets[o₁.pending.set]? = some st.set := by
    rw [hsets, ← hset, World.getElem?_setSet hs, if_pos rfl]
  have hset' : o.world.setOf? o₁.activation.handle = some o₁.pending.set := by
    rw [World.setOf?_setHandle hx { x with retries := x.retries + st.retries }
      (by rw [hworld]; rfl) rfl, hfollows.set]
  have hrunning : o.world.running =
      { o₁.activation with frame } :: os.map Errand.activation := by
    have hold := h.running
    rw [hrun, List.map_cons] at hold
    rw [hworld, (List.cons.inj hold).2]
  have hmarks := fun {p m b} => h.marks_of_snoc (p := p) (m := m) (b := b) hlast hs₀ hs'
  have hstays : ∀ b, o₁.activation.frame.Chases s b → b ∈ st.set.linked →
      frame.Chases st.set b := by
    intro b hchases hin
    rcases hmove.chases hsound hfits hd hchases with hout | ⟨f', hf', hchases'⟩
    · exact absurd hin hout
    · rw [hnext] at hf'
      cases hf'
      exact hchases'
  have hgoes := fun victim => h.goes_of_victim hw hlast hp hset hs hsets hrunning hanswer hstays
    victim
  cases hmove.marking hsound hfits with
  | idle hback hdone _ =>
    refine ⟨_, hgoes o₁.victim ⟨hset', ?_, fun m b hv => (hfollows.marks m b hv).snoc _,
      fun m b hv => ?_, fun m b hm => ?_⟩ (fun b hb => .inl (hback b hb)) fun _ _ hv => hv⟩
    · rw [hfollows.done, hdone frame hnext]
    · rcases hfollows.fate m b hv with hcleared | hchases
      · exact .inl (hcleared.snoc _)
      · obtain ⟨-, t, ht, hold⟩ := id hchases
        rw [hs₀] at ht
        cases ht
        exact hchases.fate (e := ⟨.proceed, o⟩) hlast hw hp hs'
          (Nat.le_of_lt (hfollows.marks m b hv).lt) (hstays b hold)
    · rcases hmarks hm with hm | ⟨-, hunmarked, hmarked⟩
      · exact hfollows.only m b hm
      · exact absurd (hback b hmarked) hunmarked
  | @mark k b htask htakes hback hlinked hnext' =>
    rw [hnext] at hnext'
    cases hnext'
    have hnone : o₁.victim = none := by
      rw [← Option.isNone_iff_eq_none, ← Option.isSome_eq_false_iff, hfollows.done, htask]
      rfl
    have hm := h.marks_last hlast hs₀ hs' (hcall k htask) htakes
    obtain ⟨n, hn, -⟩ := htakes.bears
    obtain ⟨n', hn', -⟩ := htakes.marked
    have hlasts : w₀.Lasts es o₁.pending.set b es.length es.length :=
      .single (World.setAt_eq_some hlast hs₀) hn
    have hchases : w₀.Chases (es ++ [⟨.proceed, o⟩]) o.world o₁.pending.set ⟨.unlink k, .start⟩ b
        es.length := by
      rw [World.Chases, List.length_append, List.length_singleton]
      exact ⟨hlasts.extend hs' hn', st.set, hs',
        htakes.chases (hmove.sound_keeps hsound hfits hd).2.respects hlinked⟩
    refine ⟨_, hgoes (some (es.length, b)) ⟨hset', rfl, ?_, ?_, fun l c hc => ?_⟩
      (fun c hc => ?_) fun l c hv => ?_⟩
    · rintro l c ⟨rfl, rfl⟩
      exact hm
    · rintro l c ⟨rfl, rfl⟩
      exact .inr hchases
    · rcases hmarks hc with hc | ⟨rfl, hunmarked, hmarked⟩
      · have hv := hfollows.only l c hc
        rw [hnone] at hv
        cases hv
      · rw [(hback c hmarked).resolve_right hunmarked]
    · rcases hback c hc with rfl | hc
      · exact .inr ⟨rfl, hm, hchases⟩
      · exact .inl hc
    · rw [hnone] at hv
      cases hv
  | remove _ _ _ _ hnext' =>
    rw [hnext] at hnext'
    cases hnext'

/-- If the running operation ends, only what it has marked and what became of it is left to show. -/
theorem ends_of_removed (h : Errands w₀ es w (o₁ :: os)) (hw : w.Sound)
    (hlast : w₀.worldAt es es.length = some w) (hp : Passage w .proceed o) {reply : Reply κ ν}
    (hset : x.set = o₁.pending.set) (hs : w.sets[x.set]? = some s)
    (hsets : o.world.sets = (w.setSet x.set s').sets)
    (hrunning : o.world.running = os.map Errand.activation)
    (hanswer : o.answer = some (.reply reply))
    (hleaves : ∀ b, o₁.activation.frame.Chases s b → b ∉ s'.linked)
    (hback : ∀ b, s'.Marked b → s.Marked b ∨
      w₀.Marks (es ++ [⟨.proceed, o⟩]) o₁.pending b es.length ∧ b ∉ s'.linked)
    (hsettled : Span.Settled w₀ (es ++ [⟨.proceed, o⟩]) ⟨o₁.pending, reply, es.length⟩) :
    Errands w₀ (es ++ [⟨.proceed, o⟩]) o.world os := by
  have hnote := journal_ends h.head hanswer
  refine h.advance hw hp hnote.1.symm hrunning.symm (h.follows_rest hw hlast hp)
    (fun j u u' b hu hu' hb => ?_) (fun o₂ ho₂ m b u hv hchases hu hin => ?_) fun y hy => ?_
  · obtain ⟨rfl, rfl, rfl⟩ | rfl := World.setSet_cases hs hu (hsets ▸ hu')
    · rcases hback b hb with hb | ⟨hm, hout⟩
      · exact .inl hb
      · exact .inr ⟨o₁.pending, hset.symm, hm, fun hin => absurd hin hout⟩
    · exact .inl hb
  · rcases List.mem_cons.1 ho₂ with rfl | ho₂
    · obtain ⟨-, t, ht, hchases⟩ := hchases
      change o.world.sets[_]? = some u at hu
      rw [hsets, ← hset, World.getElem?_setSet hs, if_pos rfl] at hu
      rw [← hset, hs] at ht
      cases hu
      cases ht
      exact absurd hin (hleaves b hchases)
    · exact ⟨o₂, ho₂, rfl, hv, h.kept_rest hw hp ho₂ hchases hu hin⟩
  · rw [hnote.2] at hy
    rcases List.mem_append.1 hy with hy | hy
    · exact .inl hy
    · rw [List.mem_singleton.1 hy]
      exact .inr hsettled

/-- The running operation ends. If it has removed a node, the node has gone to limbo. -/
theorem ends (h : Errands w₀ es w (o₁ :: os)) (hw : w.Sound)
    (hlast : w₀.worldAt es es.length = some w) {reply : Reply κ ν} {sch : Scheme Address}
    (ha : o₁.activation = a) (hrun : w.running = a :: rest) (hx : w.handles[a.handle]? = some x)
    (hs : w.sets[x.set]? = some s) (hcall : ∀ k, a.frame.task = .remove k →
      o₁.pending.call = .remove k)
    (hmove : Move s ⟨x.record, a.lane⟩ a.frame st) (hnext : st.next = .ends reply)
    (hsets : o.world.sets = (w.setSet x.set { st.set with scheme := sch }).sets)
    (hrunning : o.world.running = rest) (hanswer : o.answer = some (.reply reply))
    (hp : Passage w .proceed o) :
    Errands w₀ (es ++ [⟨.proceed, o⟩]) o.world os := by
  subst ha
  have hfollows := h.follows o₁ (by simp)
  have hset : x.set = o₁.pending.set := by simpa [World.setOf?, hx] using hfollows.set
  obtain ⟨-, hfits, hd, hsound⟩ := hw.top hrun hx hs
  have hs₀ : w.sets[o₁.pending.set]? = some s := hset ▸ hs
  have hs' : o.world.sets[o₁.pending.set]? = some { st.set with scheme := sch } := by
    rw [hsets, ← hset, World.getElem?_setSet hs, if_pos rfl]
  have hrest : o.world.running = os.map Errand.activation := by
    have hold := h.running
    rw [hrun, List.map_cons] at hold
    rw [hrunning, (List.cons.inj hold).2]
  have hmarks := fun {p m b} => h.marks_of_snoc (p := p) (m := m) (b := b) hlast hs₀ hs'
  have hleaves : ∀ b, o₁.activation.frame.Chases s b → b ∉ st.set.linked := by
    intro b hchases
    rcases hmove.chases hsound hfits hd hchases with hout | ⟨f', hf', -⟩
    · exact hout
    · rw [hnext] at hf'
      cases hf'
  have hends := h.ends_of_removed hw hlast hp hset hs hsets hrest hanswer hleaves
  cases hmove.marking hsound hfits with
  | idle hback _ hreply =>
    have hremoved : ∀ b m, w₀.Marks (es ++ [⟨.proceed, o⟩]) o₁.pending b m →
        reply = .removed := by
      intro b m hm
      rcases hmarks hm with hm | ⟨-, hunmarked, hmarked⟩
      · refine (hreply _ hnext).2 ?_
        rw [← hfollows.done, hfollows.only m b hm]
        rfl
      · exact absurd (hback b hmarked) hunmarked
    refine hends (fun b hb => .inl (hback b hb)) ⟨?_, hremoved⟩
    rintro rfl
    have hdone := (hreply _ hnext).1 rfl
    rw [← hfollows.done] at hdone
    obtain ⟨⟨m, b⟩, hv⟩ := Option.isSome_iff_exists.1 hdone
    have hm := hfollows.marks m b hv
    refine Span.removed_last (hm.snoc _) ?_ fun c l hc => ?_
    · rcases hfollows.fate m b hv with hcleared | ⟨hlasts, t, ht, hchases⟩
      · exact hcleared.snoc _
      · rw [hs₀] at ht
        cases ht
        exact .last (e := ⟨.proceed, o⟩) hlast hw hp hs₀ hs' hlasts (Nat.le_of_lt hm.lt)
          hchases.linked (hleaves b hchases)
    · rcases hmarks hc with hc | ⟨-, hunmarked, hmarked⟩
      · have hv' := hfollows.only l c hc
        rw [hv] at hv'
        cases hv'
        exact ⟨rfl, rfl⟩
      · exact absurd (hback c hmarked) hunmarked
  | mark _ _ _ _ hnext' =>
    rw [hnext] at hnext'
    cases hnext'
  | @remove k b htask htakes hback hout hnext' =>
    have htakes' : s.Takes { st.set with scheme := sch } k b :=
      ⟨htakes.linked, htakes.unmarked, htakes.bears, htakes.marked⟩
    have hm := h.marks_last hlast hs₀ hs' (hcall k htask) htakes'
    obtain ⟨n, hn, -⟩ := htakes.bears
    have hlasts : w₀.Lasts es o₁.pending.set b es.length es.length :=
      .single (World.setAt_eq_some hlast hs₀) hn
    have hreply : reply = .removed := by
      rw [hnext] at hnext'
      cases hnext'
      rfl
    refine hends (fun c hc => ?_)
      ⟨fun _ => Span.removed_last hm ?_ fun c l hc => ?_, fun _ _ _ => hreply⟩
    · rcases hback c hc with rfl | hc
      · exact .inr ⟨hm, hout⟩
      · exact .inl hc
    · exact .last (e := ⟨.proceed, o⟩) hlast hw hp hs₀ hs' hlasts (Nat.le_refl _) htakes.linked hout
    · rcases hmarks hc with hc | ⟨rfl, hunmarked, hmarked⟩
      · -- it has marked nothing before, since it did not only clear up
        have hdone := hfollows.done
        rw [hfollows.only l c hc, htask] at hdone
        cases hdone
      · exact ⟨(hback c hmarked).resolve_right hunmarked, rfl⟩

end

end Errands

/-- The running operation is the first one in the journal, and its task comes from its call. -/
theorem Run.serves (h : Run w₀ es w) (h₀ : w₀.Sound) (hidle : w₀.running = [])
    {a : Activation κ} {rest : List (Activation κ)} (hrun : w.running = a :: rest) :
    ∃ p x s, (journal es).pending.head? = some p ∧ w.handles[a.handle]? = some x ∧
      x.set = p.set ∧ w.sets[p.set]? = some s ∧ a.frame.task.Serves s p.call := by
  obtain ⟨os, ds, hbooks⟩ := h.books h₀ hidle
  obtain ⟨o, os, rfl, rfl, -⟩ := List.map_eq_cons_iff.1 (hbooks.running.trans hrun)
  obtain ⟨x, s, hx, hset, hs, -, hserves⟩ := (hbooks.follows o (by simp)).informed
  refine ⟨o.pending, x, s, ?_, hx, hset, hset ▸ hs, hserves⟩
  rw [← hbooks.pending, List.map_cons, List.head?_cons]

/-- Every run that starts with no marked node and no operation in progress accounts for all
marks. -/
theorem Run.errands (h : Run w₀ es w) (h₀ : w₀.Sound) (hidle : w₀.running = [])
    (hunmarked : ∀ (i : Nat) s a, w₀.sets[i]? = some s → ¬ s.Marked a) :
    ∃ os, Errands w₀ es w os := by
  induction h with
  | nil =>
    exact ⟨[], rfl, hidle.symm, by simp, fun i s a hs ha => absurd ha (hunmarked i s a hs),
      fun i s a hs _ ha => absurd ha (hunmarked i s a hs), by simp [journal]⟩
  | @snoc es w a o h hstep ih =>
    obtain ⟨os, herrands⟩ := ih
    have hlast := h.worldAt_last
    have hw := h.sound h₀ hlast
    have hp := (World.step_settles hw _).of_ok hstep
    have htop : ∀ {b : Activation κ} {rest : List (Activation κ)}, w.running = b :: rest →
        ∃ o₁ os', os = o₁ :: os' ∧ o₁.activation = b ∧
          ∀ k, b.frame.task = .remove k → o₁.pending.call = .remove k := by
      intro b rest hrun
      obtain ⟨o₁, os', rfl, ho₁, -⟩ := List.map_eq_cons_iff.1 (herrands.running.trans hrun)
      refine ⟨o₁, os', rfl, ho₁, fun k hk => ?_⟩
      obtain ⟨p, x, s, hhead, -, -, -, hserves⟩ := h.serves h₀ hidle hrun
      rw [herrands.head, List.head?_cons] at hhead
      cases hhead
      rw [hk] at hserves
      cases hcall : o₁.pending.call <;> rw [hcall] at hserves <;> cases hserves
      rfl
    have hp' := hp
    cases hp with
    | misuse _ _ _ ha => exact ⟨os, herrands.quiet hw hlast hp' rfl ha rfl⟩
    | sweep _ _ _ ha => exact ⟨os, herrands.quiet hw hlast hp' rfl ha rfl⟩
    | register | release | resume => exact ⟨os, herrands.quiet hw hlast hp' rfl (by simp) rfl⟩
    | begin h' i lane call offer hx hidle' hset hs hopens hpin =>
      exact ⟨_, herrands.begin hw hlast hx hset hopens rfl rfl hp'⟩
    | goes hrun hx hs hmove hnext =>
      obtain ⟨o₁, os', rfl, ho₁, hcall⟩ := htop hrun
      exact herrands.goes hw hlast ho₁ hrun hx hs hcall hmove hnext rfl rfl hp'
    | ends hrun hx hs hmove hnext hunpin =>
      obtain ⟨o₁, os', rfl, ho₁, hcall⟩ := htop hrun
      exact ⟨os', herrands.ends hw hlast ho₁ hrun hx hs hcall hmove hnext rfl rfl rfl hp'⟩

end MarkedChain
