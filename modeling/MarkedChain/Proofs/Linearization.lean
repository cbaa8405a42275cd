import MarkedChain.Proofs.Books

/-!
# Operations take place one at a time

Sorted by their moments, the deeds of a run are an order in which the operations on a set could have
been carried out one after the other on a ledger, with the same replies and the same contents in the
end (`Run.linearizable`). The moment of an operation lies between its beginning and its end, so the
order agrees with that of operations of which one ended before the other began.
-/

namespace MarkedChain

variable {κ ν : Type}

namespace Deed

/-- Twice the moment, and one more for an event: events come after the states before them. -/
def rank (d : Deed κ ν) : Nat := 2 * d.moment + d.acts.toNat

/-- The first state after the deed. -/
def next (d : Deed κ ν) : Nat := d.moment + d.acts.toNat

theorem next_le_of_rank {d d' : Deed κ ν} (hrank : d.rank ≤ d'.rank)
    (hapart : d.acts = true → d'.acts = true → d.moment ≠ d'.moment) : d.next ≤ d'.moment := by
  rw [rank, rank] at hrank
  rw [next]
  cases hacts : d.acts with
  | false =>
    have hle := Bool.toNat_le d'.acts
    rw [hacts, Bool.toNat_false] at hrank
    rw [Bool.toNat_false]
    omega
  | true =>
    rw [hacts, Bool.toNat_true] at hrank
    rw [Bool.toNat_true]
    cases hacts' : d'.acts with
    | false =>
      rw [hacts', Bool.toNat_false] at hrank
      omega
    | true =>
      have hne := hapart hacts hacts'
      rw [hacts', Bool.toNat_true] at hrank
      omega

end Deed

/-- Deeds of which no two act at once can be put in order. -/
theorem exists_order {ds : List (Deed κ ν)} (h : ((ds.filter Deed.acts).map Deed.moment).Nodup) :
    ∃ l : List (Deed κ ν), l.Perm ds ∧ l.Pairwise fun d d' => d.next ≤ d'.moment := by
  have hperm := List.mergeSort_perm ds fun d d' => decide (d.rank ≤ d'.rank)
  have hsorted : (ds.mergeSort fun d d' => decide (d.rank ≤ d'.rank)).Pairwise
      fun d d' => decide (d.rank ≤ d'.rank) = true := by
    refine List.pairwise_mergeSort (fun a b c hab hbc => ?_) (fun a b => ?_) ds
    · rw [decide_eq_true_eq] at hab hbc ⊢
      exact Nat.le_trans hab hbc
    · rw [Bool.or_eq_true, decide_eq_true_eq, decide_eq_true_eq]
      exact Nat.le_total _ _
  rw [← ((hperm.filter _).map _).nodup_iff, List.Nodup, List.pairwise_map,
    List.pairwise_filter] at h
  refine ⟨_, hperm, (hsorted.and h).imp fun ⟨hrank, hapart⟩ => ?_⟩
  exact Deed.next_le_of_rank (of_decide_eq_true hrank) hapart

/-- What nothing changes stays. -/
theorem eq_of_quiet {α : Type} {c : Nat → α} {m k : Nat} (hmk : m ≤ k)
    (hquiet : ∀ j, m ≤ j → j < k → c (j + 1) = c j) : c k = c m := by
  induction hmk with
  | refl => rfl
  | @step k hmk ih =>
    rw [hquiet k hmk (Nat.lt_succ_self k), ih fun j hmj hjk => hquiet j hmj (Nat.lt_succ_of_lt hjk)]

variable [Ord κ]

/-- Deeds in order explain how one state of a ledger becomes another, if each of them is right for
the ledger at its moment and nothing but a deed changes it. -/
theorem explains_of_order {c : Nat → List (κ × ν)} {n : Nat} {l : List (Deed κ ν)}
    (horder : l.Pairwise fun d d' => d.next ≤ d'.moment)
    (hserve : ∀ d ∈ l, d.next ≤ n ∧
      Ledger.serve (c d.moment) d.span.call = (c d.next, some d.span.reply))
    {m : Nat} (hm : m ≤ n) (hstart : ∀ d ∈ l, m ≤ d.moment)
    (hstill : ∀ j, m ≤ j → j < n → c (j + 1) = c j ∨ ∃ d ∈ l, d.acts = true ∧ d.moment = j) :
    Ledger.Explains (c m) (l.map fun d => (d.span.call, d.span.reply)) (c n) := by
  induction l generalizing m with
  | nil =>
    have hquiet : ∀ j, m ≤ j → j < n → c (j + 1) = c j := by
      intro j hmj hjn
      rcases hstill j hmj hjn with heq | ⟨d, hd, -⟩
      · exact heq
      · cases hd
    rw [eq_of_quiet hm hquiet]
    exact .nil _
  | cons d l ih =>
    obtain ⟨hfirst, horder⟩ := List.pairwise_cons.1 horder
    obtain ⟨hnext, hd⟩ := hserve d (by simp)
    have hle : d.moment ≤ d.next := Nat.le_add_right _ _
    -- nothing happens before the first deed
    have hquiet : ∀ j, m ≤ j → j < d.moment → c (j + 1) = c j := by
      intro j hmj hj
      rcases hstill j hmj (by omega) with heq | ⟨d', hd', -, rfl⟩
      · exact heq
      · rcases List.mem_cons.1 hd' with rfl | hd'
        · exact absurd hj (Nat.lt_irrefl _)
        · have hafter := hfirst d' hd'
          omega
    rw [eq_of_quiet (hstart d (by simp)) hquiet] at hd
    refine .cons hd (ih horder (fun d' hd' => hserve d' (by simp [hd'])) hnext hfirst
      fun j hj hjn => ?_)
    have hmj : m ≤ j := Nat.le_trans (hstart d (by simp)) (Nat.le_trans hle hj)
    rcases hstill j hmj hjn with heq | ⟨d', hd', hacts, rfl⟩
    · exact .inl heq
    · rcases List.mem_cons.1 hd' with rfl | hd'
      · rw [Deed.next, hacts, Bool.toNat_true] at hj
        omega
      · exact .inr ⟨d', hd', hacts, rfl⟩

/-! ## The order of the operations of a run -/

/-- The operations on a set that have ended with a reply about a key. -/
def answered (es : List (Event κ ν)) (i : Nat) : List (Span κ ν) :=
  (journal es).spans.filter fun x => decide (x.set = i) && x.call.key?.isSome

/-- An order in which operations could be carried out one after the other on an empty ledger, with
the same replies and with `l` in the end. No operation comes after one that began when it had
ended. -/
structure Linearizes (order ops : List (Span κ ν)) (l : List (κ × ν)) : Prop where
  perm : order.Perm ops
  realTime : order.Pairwise fun x y => ¬ y.ended < x.began
  explains : Ledger.Explains [] (order.map fun x => (x.call, x.reply)) l

/-- The deeds that concern one set account for its contents. -/
theorem Tally.linearizes {w₀ : World κ ν} {es : List (Event κ ν)} {ds : List (Deed κ ν)}
    (h : Tally w₀ es ds) {i : Nat} (hsets : ∀ m ≤ es.length, ∃ s, w₀.setAt es i m = some s)
    {s₀ s : SharedSet κ ν} (hs₀ : w₀.setAt es i 0 = some s₀) (hempty : s₀.contents = [])
    (hs : w₀.setAt es i es.length = some s) :
    ∃ order, Linearizes order ((ds.filter fun d => decide (d.span.set = i)).map Deed.span)
      s.contents := by
  generalize hE : (ds.filter fun d => decide (d.span.set = i)) = E
  have hmem : ∀ {d}, d ∈ E ↔ d ∈ ds ∧ d.span.set = i := by
    intro d
    rw [← hE, List.mem_filter, decide_eq_true_eq]
  have hdistinct : ((E.filter Deed.acts).map Deed.moment).Nodup := by
    rw [← hE]
    exact h.distinct.sublist ((List.filter_sublist.filter _).map _)
  obtain ⟨l, hperm, horder⟩ := exists_order hdistinct
  have hright : ∀ d ∈ l, d.Right w₀ es ∧ d.span.set = i := fun d hd =>
    ⟨h.right d (hmem.1 (hperm.mem_iff.1 hd)).1, (hmem.1 (hperm.mem_iff.1 hd)).2⟩
  refine ⟨l.map Deed.span, hperm.map _, ?_, ?_⟩
  · rw [List.pairwise_map]
    refine horder.imp_of_mem fun {d d'} hd hd' hnext => ?_
    have hafter := (hright d hd).1.after
    have hbefore := (hright d' hd').1.before
    rw [Deed.next] at hnext
    omega
  · -- the contents of the set in its states are the ledger at the moments
    let c : Nat → List (κ × ν) := fun m => ((w₀.setAt es i m).map SharedSet.contents).getD []
    have hc : ∀ {m t}, w₀.setAt es i m = some t → c m = t.contents := by
      intro m t ht
      simp [c, ht]
    have hexplains : Ledger.Explains (c 0) (l.map fun d => (d.span.call, d.span.reply))
        (c es.length) := by
      refine explains_of_order horder (fun d hd => ?_) (Nat.zero_le _) (fun _ _ => Nat.zero_le _)
        fun j _ hj => ?_
      · obtain ⟨⟨-, -, t, t', ht, ht', hserve⟩, hset⟩ := hright d hd
        rw [hset] at ht ht'
        refine ⟨World.le_of_setAt ht', ?_⟩
        rw [hc ht, Deed.next, hc ht']
        exact hserve
      · obtain ⟨t, ht⟩ := hsets j (Nat.le_of_lt hj)
        obtain ⟨t', ht'⟩ := hsets (j + 1) hj
        rw [hc ht, hc ht']
        rcases h.still i j t t' ht ht' with hsame | ⟨d, hd, hacts, hset, hmoment⟩
        · exact .inl hsame
        · exact .inr ⟨d, hperm.mem_iff.2 (hmem.2 ⟨hd, hset⟩), hacts, hmoment⟩
    rw [hc hs₀, hc hs, hempty] at hexplains
    rwa [List.map_map]

variable [Std.TransOrd κ]

/-- A set stays there in a run. -/
theorem Run.exists_setAt {w₀ w : World κ ν} {es : List (Event κ ν)} (h : Run w₀ es w)
    (h₀ : w₀.Sound) {i : Nat} {s₀ : SharedSet κ ν} (hs₀ : w₀.setAt es i 0 = some s₀) :
    ∀ m ≤ es.length, ∃ s, w₀.setAt es i m = some s := by
  intro m
  induction m with
  | zero => exact fun _ => ⟨s₀, hs₀⟩
  | succ m ih =>
    intro hm
    obtain ⟨s, hs⟩ := ih (Nat.le_of_succ_le hm)
    obtain ⟨-, -, s', -, -, -, -, hs', -⟩ := h.evolves h₀ hs hm
    exact ⟨s', hs'⟩

/-- The operations about keys on a set that have ended can be put in an order in which a ledger
would give all their replies and have the contents of the set in the end, and in which an operation
that ended before another one began comes before it. The order also has some removals that are still
in progress and have already removed their entry, and no other operations. -/
theorem Run.linearizable {kind : Scheme.Kind} {ts : List Tuning} {es : List (Event κ ν)}
    {w : World κ ν} (h : Run (.ofTunings kind ts) es w) {i : Nat} (hi : i < ts.length) :
    ∃ s order late, w.sets[i]? = some s ∧ Linearizes order (answered es i ++ late) s.contents ∧
      (w.running = [] → late = []) ∧ ∀ x ∈ late, ∃ p ∈ (journal es).pending, ∃ k m,
        x = ⟨p, .removed, m⟩ ∧ p.set = i ∧ p.call = .remove k ∧ m < es.length := by
  have h₀ := World.sound_ofTunings (κ := κ) (ν := ν) kind ts
  obtain ⟨os, ds, hbooks⟩ := h.books h₀ rfl
  have hs₀ : (World.ofTunings kind ts : World κ ν).setAt es i 0 =
      some (.ofTuning kind ts[i]) := by
    simp [World.setAt, World.worldAt, World.ofTunings, hi]
  have hsets := h.exists_setAt h₀ hs₀
  obtain ⟨s, hs⟩ := hsets es.length (Nat.le_refl _)
  obtain ⟨order, hlin⟩ := hbooks.tally.linearizes hsets hs₀ rfl hs
  refine ⟨s, order, ((os.filterMap Attended.deed?).filter fun d => decide (d.span.set = i)).map
    Deed.span, ?_, ?_, ?_, ?_⟩
  · rw [World.setAt, h.worldAt_last] at hs
    exact hs
  · have hanswered : (ds.filter fun d => decide (d.span.set = i)).map Deed.span =
        answered es i := by
      rw [answered, ← List.filter_filter, ← hbooks.spans, List.filter_map]
      rfl
    rwa [List.filter_append, List.map_append, hanswered] at hlin
  · intro hidle
    have hnone : os = [] := List.map_eq_nil_iff.1 (hbooks.running.trans hidle)
    rw [hnone]
    rfl
  · intro x hx
    obtain ⟨d, hd, rfl⟩ := List.mem_map.1 hx
    obtain ⟨hd, hset⟩ := List.mem_filter.1 hd
    obtain ⟨o, ho, hdeed⟩ := List.mem_filterMap.1 hd
    obtain ⟨m, k, rfl, hk⟩ := (hbooks.follows o ho).eq_of_deed? hdeed
    have hright := hbooks.tally.right _ (List.mem_append_right _ hd)
    exact ⟨o.pending, hbooks.pending ▸ List.mem_map_of_mem ho, k, m, rfl,
      of_decide_eq_true hset, hk, hright.lt rfl⟩

open Overtaking in
/-- A search for one key lasts while the other key is removed. -/
theorem linearizable_overtaking :
    (answered events 0).map (fun x => (x.call, x.reply)) =
        [(.insert 1 10, .inserted), (.insert 2 20, .inserted), (.remove 1, .removed),
          (.contains 2, .contained true)] ∧
      ∃ s order, (origin.play overtaking).2.sets[0]? = some s ∧
        Linearizes order (answered events 0) s.contents := by
  obtain ⟨s, order, late, hs, hlin, hlate, -⟩ := run.linearizable (i := 0) (by decide)
  rw [hlate (by decide), List.append_nil] at hlin
  exact ⟨by decide, s, order, hs, hlin⟩

end MarkedChain
