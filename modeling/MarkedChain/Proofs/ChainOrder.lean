import MarkedChain.Proofs.Runs

/-!
# The chain in every state of a run

Whatever operations are in progress, the links lead from the head in strictly ascending order to
the end, and every node that an insertion has linked in is on this way as long as it is not marked.
A marked link does not change any more, and a node that has left the chain does not come back.
-/

namespace MarkedChain

namespace SharedSet

variable {κ ν : Type}

/-- The links lead from the head through the nodes of the chain, marked or not, to the end. Their
keys are strictly ascending, and the head link is not marked. -/
structure InOrder [Ord κ] (s : SharedSet κ ν) : Prop where
  path : s.memory.Path s.head.target s.linked none
  ascending : s.linked.Pairwise s.Below
  head : s.head.marked = false

end SharedSet

variable {κ ν : Type} [Ord κ] [Std.TransOrd κ]

/-- In every state of a run the chain of each set is in order, and a live node that is neither
marked nor private to an insertion in progress is on it. As long as a node lasts, it does not leave
the chain before it is marked, its link stays what it is once it is marked, and once it has left the
chain it stays out. -/
theorem Run.chain_in_order {kind : Scheme.Kind} {ts : List Tuning} {es : List (Event κ ν)}
    {w : World κ ν} (h : Run (.ofTunings kind ts) es w) (i : Nat) :
    (∀ m u s, (World.ofTunings kind ts).worldAt es m = some u → u.sets[i]? = some s →
      s.InOrder ∧ ∀ a n, s.memory.node? a = some n → n.next.marked = false → a ∉ u.fresh i →
        a ∈ s.linked) ∧
    ∀ a j k s t n n', (World.ofTunings kind ts).Lasts es i a j k → j ≤ k →
      (World.ofTunings kind ts).setAt es i j = some s → s.memory.node? a = some n →
      (World.ofTunings kind ts).setAt es i k = some t → t.memory.node? a = some n' →
        (a ∈ s.linked → n'.next.marked = false → a ∈ t.linked) ∧
        (n.next.marked = true → n'.next = n.next) ∧
        ∀ l v, k ≤ l → (World.ofTunings kind ts).Lasts es i a k l →
          (World.ofTunings kind ts).setAt es i l = some v → a ∈ s.linked → a ∉ t.linked →
            a ∉ v.linked := by
  have h₀ := World.sound_ofTunings (κ := κ) (ν := ν) kind ts
  refine ⟨?_, fun a j k s t n n' hlasts hjk hs hn ht hn' => ⟨?_, ?_, ?_⟩⟩
  · intro m u s hu hs
    have hsound := (h.sound h₀ hu).sets i s hs
    exact ⟨⟨hsound.path, hsound.ascending, hsound.head⟩,
      fun a n hn hm hfresh => hsound.linked_of_unmarked hn hfresh hm⟩
  · intro ha hm
    obtain ⟨u, -, -, -, hsound⟩ := h.sound_setAt h₀ ht
    refine (h.linked_lasts h₀ hlasts hjk hs ht ha).resolve_right fun hret => ?_
    rw [hsound.frozen a hret n' hn'] at hm
    cases hm
  · exact (h.node_lasts h₀ hlasts hjk hs ht hn hn').2.2
  · intro l v hkl hlasts' hv ha hout
    obtain ⟨u, -, -, -, hsound⟩ := h.sound_setAt h₀ hv
    have hret := (h.linked_lasts h₀ hlasts hjk hs ht ha).resolve_left hout
    exact fun hl => hsound.not_retired_of_linked hl
      (h.retired_lasts h₀ hlasts' hkl ht hv hret)

open Overtaking in
/-- The first node is on the chain, leaves it in the middle of a search, and does not come back. -/
theorem chain_in_order_overtaking :
    ∃ s t v, origin.setAt events 0 10 = some s ∧ origin.setAt events 0 18 = some t ∧
      origin.setAt events 0 22 = some v ∧ t.InOrder ∧ 0 ∈ s.linked ∧ 0 ∉ t.linked ∧
      0 ∉ v.linked := by
  have hs := setAt_eq (m := 10) (by decide)
  have ht := setAt_eq (m := 18) (by decide)
  have hv := setAt_eq (m := 22) (by decide)
  have hlinked : 0 ∈ (set 10).linked := by decide
  have hout : 0 ∉ (set 18).linked := by decide
  obtain ⟨hstate, hlasting⟩ := run.chain_in_order 0
  obtain ⟨u, hu, hset⟩ := Option.bind_eq_some_iff.1 ht
  refine ⟨_, _, _, hs, ht, hv, (hstate 18 u _ hu hset).1, hlinked, hout, ?_⟩
  have hj : World.Lasts origin events 0 0 10 18 := World.lasts_of_isSome (by decide)
  have hk : World.Lasts origin events 0 0 18 22 := World.lasts_of_isSome (by decide)
  exact (hlasting 0 10 18 _ _ ⟨1, 10, .unmarked (some 1)⟩ ⟨1, 10, ⟨some 1, true⟩⟩ hj (by decide) hs
    rfl ht rfl).2.2 22 _ (by decide) hk hv hlinked hout

end MarkedChain
