import MarkedChain.Proofs.Runs

/-!
# Every node is in one place

A node is private to an insertion in progress, on the chain, or in limbo, until it is freed. The
counts of nodes add up accordingly. A node enters limbo in the step in which it leaves the chain,
and this is a step of the operation that stands at it.
-/

namespace MarkedChain

variable {κ ν : Type}

namespace World

/-- The operations in progress on a set that have made a node and not yet linked it. -/
def inserting (w : World κ ν) (i : Nat) : List (Activation κ) :=
  w.running.filter fun a => decide (w.setOf? a.handle = some i) && a.frame.task.node?.isSome

/-- Each of these operations has one private node. -/
theorem length_fresh (w : World κ ν) (i : Nat) : (w.fresh i).length = (w.inserting i).length := by
  rw [fresh, inserting]
  induction w.running with
  | nil => rfl
  | cons a rest ih =>
    rw [List.flatMap_cons, List.length_append, ih, List.filter_cons]
    by_cases hset : w.setOf? a.handle = some i
    · cases hnode : a.frame.task.node? with
      | none => simp [hset, Frame.own, hnode]
      | some b => simp [hset, Frame.own, hnode, Nat.add_comm]
    · simp [hset]

end World

namespace SharedSet

/-- The live nodes of a set are private, on the chain or in limbo, each of them in one place and
once. All nodes ever made are accounted for. -/
structure Accounted (s : SharedSet κ ν) (own : List Address) : Prop where
  nodup : (s.linked ++ (s.retired ++ own)).Nodup
  live : ∀ a, (∃ n, s.memory.node? a = some n) ↔ a ∈ own ∨ a ∈ s.linked ∨ a ∈ s.retired
  pending : s.pending = s.retired.length
  balance : s.memory.allocated = s.memory.freed + s.pending + s.linked.length + own.length

theorem Sound.accounted [Ord κ] {s : SharedSet κ ν} {own : List Address} (hs : s.Sound own) :
    s.Accounted own := by
  have hpending : s.pending = s.retired.length := by
    rw [pending, hs.counted.pending, retired, List.length_map]
  refine ⟨hs.nodup, ?_, hpending, ?_⟩
  · intro a
    rw [← Option.isSome_iff_exists, hs.live a]
    simp only [List.mem_append]
    constructor
    · rintro (h | h | h)
      · exact .inr (.inl h)
      · exact .inr (.inr h)
      · exact .inl h
    · rintro (h | h | h)
      · exact .inr (.inr h)
      · exact .inl h
      · exact .inr (.inl h)
  · rw [hpending, hs.balance]
    omega

end SharedSet

variable [Ord κ] [Std.TransOrd κ]

/-- In every state of a run each node ever made is private to an insertion in progress, on the
chain, in limbo or freed, and the counts of the set say how many there are of each. A step by which
a node leaves the chain is one of the operation that stands at the node, and it takes the node to
limbo, where it stays until it is freed. No other step takes a node to limbo. -/
theorem Run.one_place {kind : Scheme.Kind} {ts : List Tuning} {es : List (Event κ ν)}
    {w : World κ ν} (h : Run (.ofTunings kind ts) es w) (i : Nat) :
    (∀ m u s, (World.ofTunings kind ts).worldAt es m = some u → u.sets[i]? = some s →
      s.Accounted (u.fresh i) ∧ (u.fresh i).length = (u.inserting i).length) ∧
    (∀ m u s t e a, (World.ofTunings kind ts).worldAt es m = some u → u.sets[i]? = some s →
      es[m]? = some e → e.outcome.world.sets[i]? = some t →
        (a ∈ t.retired → a ∉ s.retired → a ∈ s.linked ∧ a ∉ t.linked) ∧
        (a ∈ s.linked → a ∉ t.linked →
          ((∃ n, t.memory.node? a = some n) → a ∈ t.retired) ∧ e.action = .proceed ∧
          ∃ b rest pred, u.running = b :: rest ∧ u.setOf? b.handle = some i ∧
            b.frame.point.window? = some (pred, a) ∧
            s.link? pred = some (.unmarked (some a)))) ∧
    ∀ a j k s t, (World.ofTunings kind ts).Lasts es i a j k → j ≤ k →
      (World.ofTunings kind ts).setAt es i j = some s → a ∈ s.retired →
      (World.ofTunings kind ts).setAt es i k = some t → a ∈ t.retired := by
  have h₀ := World.sound_ofTunings (κ := κ) (ν := ν) kind ts
  refine ⟨fun m u s hu hs => ⟨((h.sound h₀ hu).sets i s hs).accounted, u.length_fresh i⟩,
    fun m u s t e a hu hs he ht => ?_, fun a j k s t hlasts hjk hs ha ht =>
      h.retired_lasts h₀ hlasts hjk hs ht ha⟩
  have hset : (World.ofTunings kind ts).setAt es i m = some s := by rw [World.setAt, hu]; exact hs
  have hm := (List.getElem?_eq_some_iff.1 he).1
  obtain ⟨u', e', t', hu', he', hok, -, ht', hevolves⟩ := h.evolves h₀ hset hm
  obtain ⟨v, hv, -, hnext⟩ := h.step_at he
  rw [hu] at hu'
  cases hu'
  rw [he] at he'
  cases he'
  rw [World.setAt, hnext, Option.bind_some, ht] at ht'
  cases ht'
  refine ⟨fun ha hnew => (hevolves.entered a ha).resolve_left hnew, fun ha hout => ⟨?_, ?_⟩⟩
  · exact fun hlive =>
      (hevolves.linked a ha (Option.isSome_iff_exists.2 hlive)).resolve_left hout
  · obtain ⟨pred, hwindow, hl⟩ := (hevolves.left a ha hout).window
    obtain ⟨hproceed, b, rest, hrun, hset, hpoint⟩ := World.window?_eq_some hwindow
    exact ⟨hproceed, b, rest, pred, hrun, hset, hpoint, hl⟩

open Overtaking in
/-- The step that removes the first node takes it from the chain to limbo. -/
theorem one_place_overtaking :
    ∃ u s t e, origin.worldAt events 17 = some u ∧ u.sets[0]? = some s ∧ events[17]? = some e ∧
      e.outcome.world.sets[0]? = some t ∧ s.Accounted (u.fresh 0) ∧ 0 ∈ s.linked ∧
      0 ∈ t.retired ∧ e.action = .proceed := by
  obtain ⟨hstate, hstep, -⟩ := run.one_place 0
  have he : events[17]? = some (events.get ⟨17, by decide⟩) := by simp
  obtain ⟨u, hu, hok, hnext⟩ := run.step_at he
  have hs := setAt_eq (m := 17) (by decide)
  have ht := setAt_eq (m := 18) (by decide)
  rw [World.setAt, hu, Option.bind_some] at hs
  rw [World.setAt, hnext, Option.bind_some] at ht
  have hlinked : 0 ∈ (set 17).linked := by decide
  have hout : 0 ∉ (set 18).linked := by decide
  obtain ⟨-, hleave⟩ := hstep 17 u _ _ _ 0 hu hs he ht
  obtain ⟨hretired, hproceed, -⟩ := hleave hlinked hout
  exact ⟨u, _, _, _, hu, hs, he, ht, (hstate 17 u _ hu hs).1, hlinked,
    hretired ⟨⟨1, 10, ⟨some 1, true⟩⟩, rfl⟩, hproceed⟩

end MarkedChain
