import MarkedChain.Proofs.Errands
import MarkedChain.Proofs.Placement

/-!
# Every removal unlinks its node before it ends

A marked node that is still on the chain is one of a removal in progress, and a removal that has
replied has seen its node go to limbo, once (`Run.removals_finish`). So a set on which no operation
is in progress has no marked node on its chain.
-/

namespace MarkedChain

variable {κ ν : Type} [Ord κ]

/-- The beginning of a run is a run. -/
theorem Run.take {w₀ w : World κ ν} {es : List (Event κ ν)} (h : Run w₀ es w) {m : Nat}
    {u : World κ ν} (hu : w₀.worldAt es m = some u) : Run w₀ (es.take m) u := by
  induction h with
  | nil =>
    obtain rfl : m = 0 := Nat.le_zero.1 (World.lt_of_worldAt hu)
    cases hu
    exact .nil
  | @snoc es w a o h hstep ih =>
    rcases Nat.lt_or_ge es.length m with hm | hm
    · have hle := World.lt_of_worldAt hu
      rw [List.length_append, List.length_singleton] at hle
      obtain rfl : m = es.length + 1 := Nat.le_antisymm hle hm
      rw [World.worldAt_length] at hu
      cases hu
      rw [List.take_of_length_le (by simp)]
      exact h.snoc hstep
    · rw [List.take_append_of_le_length hm]
      rw [World.worldAt_append hm] at hu
      exact ih hu

namespace World

variable {w₀ : World κ ν} {es : List (Event κ ν)} {i k m : Nat} {a : Address}

omit [Ord κ] in
theorem setAt_take (h : m ≤ k) (hk : k ≤ es.length) :
    w₀.setAt (es.take k) i m = w₀.setAt es i m := by
  conv_rhs => rw [← List.take_append_drop k es]
  rw [setAt_append (by rw [List.length_take]; omega)]

omit [Ord κ] in
theorem lasts_of_take {j l : Nat} (h : w₀.Lasts (es.take k) i a j l) (hl : l ≤ k)
    (hk : k ≤ es.length) : w₀.Lasts es i a j l := by
  intro m hjm hml
  obtain ⟨s, n, hs, hn⟩ := h m hjm hml
  exact ⟨s, n, by rw [← setAt_take (Nat.le_trans hml hl) hk, hs], hn⟩

/-- What was marked in the beginning of a run was marked in the run. -/
theorem Marks.of_take {p : Pending κ ν} (h : w₀.Marks (es.take k) p a m) (hk : k ≤ es.length) :
    w₀.Marks es p a m := by
  have hlt := h.lt
  rw [List.length_take, Nat.min_eq_left hk] at hlt
  obtain ⟨key, s, t, hcall, hs, ht, htakes⟩ := h.takes
  refine ⟨?_, ?_, key, s, t, hcall, ?_, ?_, htakes⟩
  · have hrunning := h.running
    rwa [List.take_take, Nat.min_eq_left (Nat.le_of_lt hlt)] at hrunning
  · obtain ⟨o, ho⟩ := h.event
    rw [List.getElem?_take, if_pos hlt] at ho
    exact ⟨o, ho⟩
  · rw [← setAt_take (Nat.le_of_lt hlt) hk, hs]
  · rw [← setAt_take hlt hk, ht]

omit [Ord κ] in
/-- No node of an empty set is marked. -/
theorem not_marked_ofTunings (kind : Scheme.Kind) (ts : List Tuning) (i : Nat)
    (s : SharedSet κ ν) (a : Address) (hs : (ofTunings kind ts).sets[i]? = some s) :
    ¬ s.Marked a := by
  rintro ⟨n, hn, -⟩
  obtain ⟨t, rfl⟩ := eq_ofTuning hs
  simp [SharedSet.ofTuning, Memory.node?] at hn

end World

/-- If no node of the chain is marked, the contents have an entry for each of them. -/
theorem SharedSet.Sound.length_contents {s : SharedSet κ ν} {own : List Address} (hs : s.Sound own)
    (h : ∀ a ∈ s.linked, ¬ s.Marked a) : s.contents.length = s.linked.length := by
  rw [contents_eq, List.filterMap_length_eq_length]
  intro a ha
  obtain ⟨n, hn⟩ := hs.live_of_linked ha
  rw [pair?_eq hn]
  split
  · next hm => exact absurd ⟨n, hn, hm⟩ (h a ha)
  · rfl

variable [Std.TransOrd κ]

/-- While a node lasts it goes to limbo at most once, and then it is not on the chain. -/
theorem Run.retires_once {w₀ w : World κ ν} {es : List (Event κ ν)} (h : Run w₀ es w)
    (h₀ : w₀.Sound) {i j l m : Nat} {a : Address} {t : SharedSet κ ν} (hmj : m ≤ j)
    (hretires : w₀.Retires es i a j) (hjl : j < l) (hlasts : w₀.Lasts es i a m l)
    (ht : w₀.setAt es i l = some t) : a ∈ t.retired ∧ a ∉ t.linked ∧ ¬ w₀.Retires es i a l := by
  obtain ⟨-, s, -, hs, -, -, -, hs_retired⟩ := hretires
  have hretired := h.retired_lasts h₀ (fun k hk => hlasts k (by omega)) hjl hs ht hs_retired
  obtain ⟨v, -, -, -, hsound⟩ := h.sound_setAt h₀ ht
  refine ⟨hretired, fun hlinked => hsound.not_retired_of_linked hlinked hretired, ?_⟩
  rintro ⟨u, -, hu, -, -, hout, -⟩
  rw [ht] at hu
  cases hu
  exact hout hretired

/-- In every state of a run a marked node on the chain was marked by a removal that is still in
progress. A removal that has replied that it removed something marked one node, and before it
replied this node went from the chain to limbo, once, and was not on the chain from then on. While
no operation is in progress no node of a chain is marked, and the nodes ever made are those that
were freed, those that wait in limbo, and one for each entry of the set. -/
theorem Run.removals_finish {kind : Scheme.Kind} {ts : List Tuning} {es : List (Event κ ν)}
    {w : World κ ν} (h : Run (.ofTunings kind ts) es w) :
    (∀ (i k : Nat) (u : World κ ν) (s : SharedSet κ ν) (a : Address),
      (World.ofTunings kind ts).worldAt es k = some u → u.sets[i]? = some s →
      a ∈ s.linked → s.Marked a → ∃ p ∈ (journal (es.take k)).pending, ∃ m < k, p.set = i ∧
        (World.ofTunings kind ts).Marks es p a m ∧
        (World.ofTunings kind ts).Lasts es i a m k) ∧
    (∀ x ∈ (journal es).spans, x.reply = .removed →
      ∃ a m j, (World.ofTunings kind ts).Marks es x.toPending a m ∧ m ≤ j ∧ j ≤ x.ended ∧
        (World.ofTunings kind ts).Lasts es x.set a m (j + 1) ∧
        (World.ofTunings kind ts).Retires es x.set a j ∧
        (∀ b l, (World.ofTunings kind ts).Marks es x.toPending b l → b = a ∧ l = m) ∧
        (∀ l, m ≤ l → (World.ofTunings kind ts).Lasts es x.set a m l →
          (World.ofTunings kind ts).Retires es x.set a l → l = j) ∧
        ∀ l t, j < l → (World.ofTunings kind ts).Lasts es x.set a m l →
          (World.ofTunings kind ts).setAt es x.set l = some t → a ∉ t.linked ∧ a ∈ t.retired) ∧
    ∀ (i k : Nat) (u : World κ ν) (s : SharedSet κ ν),
      (World.ofTunings kind ts).worldAt es k = some u → u.running = [] → u.sets[i]? = some s →
        (∀ a ∈ s.linked, ¬ s.Marked a) ∧
          s.memory.allocated = s.memory.freed + s.pending + s.contents.length := by
  have h₀ := World.sound_ofTunings (κ := κ) (ν := ν) kind ts
  have hempty := World.not_marked_ofTunings (κ := κ) (ν := ν) kind ts
  have hstate : ∀ (i k : Nat) (u : World κ ν) (s : SharedSet κ ν) (a : Address),
      (World.ofTunings kind ts).worldAt es k = some u → u.sets[i]? = some s → a ∈ s.linked →
      s.Marked a → ∃ o : Errand κ ν,
        o.activation ∈ u.running ∧ o.pending ∈ (journal (es.take k)).pending ∧ ∃ m < k,
          o.pending.set = i ∧ (World.ofTunings kind ts).Marks es o.pending a m ∧
          (World.ofTunings kind ts).Lasts es i a m k := by
    intro i k u s a hu hs ha hm
    have hk := World.lt_of_worldAt hu
    obtain ⟨os, herrands⟩ := (h.take hu).errands h₀ rfl hempty
    obtain ⟨o, ho, hset, m, hv, hlasts, -⟩ := herrands.linked i s a hs ha hm
    have hmarks := (herrands.follows o ho).marks m a hv
    have hlt := hmarks.lt
    rw [List.length_take, Nat.min_eq_left hk] at hlasts hlt
    exact ⟨o, herrands.running ▸ List.mem_map_of_mem ho, herrands.pending ▸ List.mem_map_of_mem ho,
      m, hlt, hset, hmarks.of_take hk, World.lasts_of_take hlasts (Nat.le_refl _) hk⟩
  refine ⟨fun i k u s a hu hs ha hm => ?_, fun x hx hreply => ?_, fun i k u s hu hidle hs => ?_⟩
  · obtain ⟨o, -, hpending, hmarked⟩ := hstate i k u s a hu hs ha hm
    exact ⟨o.pending, hpending, hmarked⟩
  · obtain ⟨os, herrands⟩ := h.errands h₀ rfl hempty
    obtain ⟨a, m, hmarks, honly, j, hmj, hj, hlasts, hretires⟩ :=
      (herrands.spans x hx).removed hreply
    refine ⟨a, m, j, hmarks, hmj, hj, hlasts, hretires, honly, fun l hml hl hl' => ?_,
      fun l t hjl hl ht => ?_⟩
    · rcases Nat.lt_trichotomy l j with hlj | rfl | hjl
      · obtain ⟨s, -, hs, -⟩ := id hretires
        exact absurd hretires (h.retires_once h₀ hml hl' hlj
          (fun k hk hkj => hlasts k hk (Nat.le_succ_of_le hkj)) hs).2.2
      · rfl
      · obtain ⟨s, -, hs, -⟩ := id hl'
        exact absurd hl' (h.retires_once h₀ hmj hretires hjl hl hs).2.2
    · obtain ⟨hretired, hout, -⟩ := h.retires_once h₀ hmj hretires hjl hl ht
      exact ⟨hout, hretired⟩
  · have hnone : ∀ a ∈ s.linked, ¬ s.Marked a := by
      intro a ha hm
      obtain ⟨o, ho, -⟩ := hstate i k u s a hu hs ha hm
      rw [hidle] at ho
      cases ho
    have hsound := (h.sound h₀ hu).sets i s hs
    have hown : u.fresh i = [] := by rw [World.fresh, hidle]; rfl
    refine ⟨hnone, ?_⟩
    rw [hsound.length_contents hnone, hsound.accounted.balance, hown]
    rfl

/-! ## A removal that has to come back -/

/-- A removal stands at its node when another node is linked in before it. The removal marks its
node, finds that the link before it has changed, and walks again. -/
def comingBack : List (Action Int Nat) :=
  [.register 0, .register 0,
    .invoke 0 0 0 (.insert 2 20) none, .proceed, .proceed,
    .invoke 0 0 0 (.remove 2) none, .proceed, .proceed, .proceed,
    .invoke 1 0 0 (.insert 1 10) none, .proceed, .proceed, .proceed, .proceed,
    .proceed, .proceed, .proceed, .proceed, .proceed, .proceed]

namespace ComingBack

/-- The one set at the start, under hazard slots. -/
def origin : World Int Nat := .ofTunings .hazards [{}]

/-- What the actions came to. -/
def events : List (Event Int Nat) := (origin.play comingBack).1

/-- The world after so many actions. -/
def world (m : Nat) : World Int Nat := (origin.worldAt events m).getD origin

/-- The set after so many actions. -/
def set (m : Nat) : SharedSet Int Nat := ((world m).sets[0]?).getD (.ofTuning .hazards {})

theorem run : Run origin events (origin.play comingBack).2 := origin.play_run comingBack

theorem worldAt_eq {m : Nat} (h : (origin.worldAt events m).isSome = true) :
    origin.worldAt events m = some (world m) :=
  eq_some_getD h

end ComingBack

open ComingBack in
/-- While the removal walks again, its node is marked and on the chain. When the removal has ended,
the node has gone to limbo, and the counts of the set agree with its contents. -/
theorem removals_finish_comingBack :
    (∃ p ∈ (journal (events.take 16)).pending, ∃ m < 16, origin.Marks events p 0 m) ∧
      (∃ x a m j, x ∈ (journal events).spans ∧ x.call = .remove 2 ∧
        origin.Marks events x.toPending a m ∧ m ≤ j ∧ j ≤ x.ended ∧
        origin.Retires events x.set a j) ∧
      (set 20).memory.allocated =
        (set 20).memory.freed + (set 20).pending + (set 20).contents.length := by
  obtain ⟨hstate, hspan, hrest⟩ := run.removals_finish
  refine ⟨?_, ?_, ?_⟩
  · have hmarked : (set 16).Marked 0 := ⟨⟨2, 20, ⟨none, true⟩⟩, by rfl, rfl⟩
    obtain ⟨p, hp, m, hm, -, hmarks, -⟩ := hstate 0 16 _ (set 16) 0
      (worldAt_eq (m := 16) (by decide)) (by rfl) (by decide) hmarked
    exact ⟨p, hp, m, hm, hmarks⟩
  · have hx : (⟨⟨0, .remove 2, 5⟩, .removed, 19⟩ : Span Int Nat) ∈ (journal events).spans := by
      have hspans : (journal events).spans[2]? = some ⟨⟨0, .remove 2, 5⟩, .removed, 19⟩ := by rfl
      exact List.mem_of_getElem? hspans
    obtain ⟨a, m, j, hmarks, hmj, hj, -, hretires, -⟩ := hspan _ hx rfl
    exact ⟨_, a, m, j, hx, rfl, hmarks, hmj, hj, hretires⟩
  · exact (hrest 0 20 _ (set 20) (worldAt_eq (m := 20) (by decide)) (by rfl) (by rfl)).2

end MarkedChain
