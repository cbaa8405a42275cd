import Mathlib.Data.List.Perm.Subperm
import MarkedChain.SharedSet
import MarkedChain.Proofs.Memory

/-!
# Paths along the links of a chain

`Memory.Path m x l z` says that the links lead from the reference `x` through exactly the nodes of
`l` to the reference `z`. A path from the head to the end is what `SharedSet.linked` lists
(`SharedSet.linked_eq`). A write of one link is described by `SharedSet.Relinks`, and
`SharedSet.exists_split` says what a path becomes when a link on it is written: the part before the
link stays, whatever follows the new reference comes after it.
-/

namespace MarkedChain

variable {κ ν : Type}

namespace Memory

variable {m m' : Memory κ ν}

/-- The links lead from `x` through the nodes of a list to `z`. -/
def Path (m : Memory κ ν) : Option Address → List Address → Option Address → Prop
  | x, [], z => x = z
  | x, a :: l, z => x = some a ∧ ∃ n, m.node? a = some n ∧ Path m n.next.target l z

@[simp] theorem path_nil {x z : Option Address} : m.Path x [] z ↔ x = z := Iff.rfl

theorem path_cons {x z : Option Address} {a : Address} {l : List Address} :
    m.Path x (a :: l) z ↔ x = some a ∧ ∃ n, m.node? a = some n ∧ m.Path n.next.target l z :=
  Iff.rfl

theorem path_append {x z : Option Address} {l l' : List Address} :
    m.Path x (l ++ l') z ↔ ∃ y, m.Path x l y ∧ m.Path y l' z := by
  induction l generalizing x with
  | nil => simp
  | cons a l ih =>
    simp only [List.cons_append, path_cons, ih]
    constructor
    · rintro ⟨hx, n, hn, y, hl, hl'⟩
      exact ⟨y, ⟨hx, n, hn, hl⟩, hl'⟩
    · rintro ⟨y, ⟨hx, n, hn, hl⟩, hl'⟩
      exact ⟨hx, n, hn, y, hl, hl'⟩

namespace Path

/-- A path depends on nothing but the references of the nodes on it. -/
theorem congr {x z : Option Address} {l : List Address} (h : m.Path x l z)
    (hm : ∀ a ∈ l, ∀ n, m.node? a = some n →
      ∃ n', m'.node? a = some n' ∧ n'.next.target = n.next.target) : m'.Path x l z := by
  induction l generalizing x with
  | nil => exact h
  | cons a l ih =>
    obtain ⟨hx, n, hn, hl⟩ := h
    obtain ⟨n', hn', ht⟩ := hm a (by simp) n hn
    exact ⟨hx, n', hn', ht ▸ ih hl fun b hb => hm b (by simp [hb])⟩

theorem congr_node? {x z : Option Address} {l : List Address} (h : m.Path x l z)
    (hm : ∀ a ∈ l, m'.node? a = m.node? a) : m'.Path x l z :=
  h.congr fun a ha n hn => ⟨n, (hm a ha).trans hn, rfl⟩

theorem live {x z : Option Address} {l : List Address} (h : m.Path x l z) :
    ∀ a ∈ l, ∃ n, m.node? a = some n := by
  induction l generalizing x with
  | nil => simp
  | cons a l ih =>
    obtain ⟨_, n, hn, hl⟩ := h
    intro b hb
    rcases List.mem_cons.1 hb with rfl | hb
    · exact ⟨n, hn⟩
    · exact ih hl b hb

/-- A path without repetition visits no more nodes than there are cells. -/
theorem length_le {x z : Option Address} {l : List Address} (h : m.Path x l z)
    (hnodup : l.Nodup) : l.length ≤ m.cells.size := by
  have hsub : l ⊆ List.range m.cells.size := by
    intro a ha
    obtain ⟨n, hn⟩ := h.live a ha
    exact List.mem_range.2 (lt_size_of_node? hn)
  simpa using (hnodup.subperm hsub).length_le

/-- A path to the end is found by following links, given enough steps. -/
theorem chain_eq {x : Option Address} {l : List Address} {k : Nat} (h : m.Path x l none)
    (hk : l.length ≤ k) : SharedSet.chain m k x = l := by
  induction l generalizing x k with
  | nil =>
    rw [path_nil] at h
    subst h
    cases k <;> rfl
  | cons a l ih =>
    obtain ⟨rfl, n, hn, hl⟩ := h
    cases k with
    | zero => simp at hk
    | succ k =>
      simp only [SharedSet.chain, hn]
      rw [ih hl (by simpa using hk)]

/-- A path to the end starts at its first node. -/
theorem head? {x : Option Address} {l : List Address} (h : m.Path x l none) : l.head? = x := by
  cases l with
  | nil => exact (path_nil.1 h).symm
  | cons a l => exact h.1.symm

/-- A path splits at each node on it. -/
theorem split {x z : Option Address} {l : List Address} (h : m.Path x l z) {a : Address}
    (ha : a ∈ l) : ∃ l₁ l₂ n, l = l₁ ++ a :: l₂ ∧ m.node? a = some n ∧ m.Path x l₁ (some a) ∧
      m.Path n.next.target l₂ z := by
  obtain ⟨l₁, l₂, rfl⟩ := List.append_of_mem ha
  obtain ⟨y, h₁, hy, n, hn, h₂⟩ := path_append.1 h
  exact ⟨l₁, l₂, n, rfl, hn, hy ▸ h₁, h₂⟩

end Path

end Memory

/-- A link without a mark is known by its target. -/
theorem Link.eq_unmarked {α : Type} {l : Link α} (h : l.marked = false) :
    l = .unmarked l.target := by
  obtain ⟨target, marked⟩ := l
  cases h
  rfl

namespace SharedSet

variable {s s' : SharedSet κ ν}

/-- The nodes of the chain are those on a path from the head to the end. -/
theorem linked_eq {l : List Address} (h : s.memory.Path s.head.target l none)
    (hnodup : l.Nodup) : s.linked = l :=
  h.chain_eq (h.length_le hnodup)

/-! ## Links by their places -/

/-- The link at a place, if the place still exists. -/
def link? (s : SharedSet κ ν) : Place → Option (Link Address)
  | .head => some s.head
  | .node a => (s.memory.node? a).map Node.next

theorem link_eq {pl : Place} {l : Link Address} (h : s.link? pl = some l) : s.link pl = .ok l := by
  cases pl with
  | head =>
    cases h
    rfl
  | node a =>
    obtain ⟨n, hn, rfl⟩ := Option.map_eq_some_iff.1 h
    simp only [link, Memory.read_eq_ok hn]
    rfl

/-- The link at a place was written, and nothing else changed. -/
structure Relinks (s s' : SharedSet κ ν) (pl : Place) (l : Link Address) : Prop where
  head : s'.head = if pl = .head then l else s.head
  node? : ∀ b, s'.memory.node? b =
    if pl = .node b then (s.memory.node? b).map fun n => { n with next := l } else s.memory.node? b
  scheme : s'.scheme = s.scheme
  tidy : s.memory.Tidy → s'.memory.Tidy
  allocated : s'.memory.allocated = s.memory.allocated
  freed : s'.memory.freed = s.memory.freed
  capacity : s'.memory.capacity = s.memory.capacity

/-- The link at a place that exists can be written. -/
theorem setLink_relinks {pl : Place} {l : Link Address} (h : s.link? pl = some l)
    (new : Link Address) : ∃ s', s.setLink new pl = .ok s' ∧ s.Relinks s' pl new := by
  cases pl with
  | head => exact ⟨_, rfl, by simp, fun b => by simp, rfl, id, rfl, rfl, rfl⟩
  | node a =>
    obtain ⟨n, hn, -⟩ := Option.map_eq_some_iff.1 h
    refine ⟨{ s with memory := s.memory.relink a n new }, ?_, ⟨by simp, ?_, rfl,
      fun ht => ht.relink hn new, rfl, rfl, rfl⟩⟩
    · simp only [setLink, Memory.setNext_eq hn]
      rfl
    · intro b
      rw [Memory.node?_relink hn]
      by_cases hb : b = a
      · subst hb; simp [hn]
      · simp [hb, Ne.symm hb]

/-- A conditional write of a link that exists: it was the expected one and is written, or it was
another one and nothing changes. -/
theorem exchange_yields {pl : Place} {l : Link Address} (h : s.link? pl = some l)
    (expected new : Link Address) :
    Yields (s.exchange pl expected new) fun p =>
      (l = expected ∧ p.1 = .written l ∧ s.Relinks p.2 pl new) ∨
        (l ≠ expected ∧ p.1 = .refused l ∧ p.2 = s) := by
  obtain ⟨s', hs', hrel⟩ := setLink_relinks h new
  rw [exchange]
  refine .ok_bind (link_eq h) ?_
  by_cases hl : l = expected
  · have hx : (Register.mk l).compareExchange expected new = (.written l, ⟨new⟩) := if_pos hl
    rw [hx]
    change Yields (s.setLink new pl >>= fun s' => pure (Exchange.written l, s')) _
    rw [hs']
    exact .ok (.inl ⟨hl, rfl, hrel⟩)
  · have hx : (Register.mk l).compareExchange expected new = (.refused l, ⟨l⟩) := if_neg hl
    rw [hx]
    exact .pure (.inr ⟨hl, rfl, rfl⟩)

/-- Whether a place is on the chain: the head always is. -/
def OnChain (s : SharedSet κ ν) : Place → Prop
  | .head => True
  | .node a => a ∈ s.linked

/-- The chain splits at a place on it, and a write there leaves the part before it and puts whatever
the new link leads to in the place of the part after it. -/
theorem exists_split (hpath : s.memory.Path s.head.target s.linked none)
    (hnodup : s.linked.Nodup) {pl : Place} (hpl : s.OnChain pl) :
    ∃ l before after, s.link? pl = some l ∧ s.linked = before ++ after ∧
      s.memory.Path l.target after none ∧ (pl = .head → before = []) ∧
      (∀ a, pl = .node a → ∃ pre, before = pre ++ [a]) ∧
      ∀ s' l' after', s.Relinks s' pl l' → s'.memory.Path l'.target after' none →
        s'.memory.Path s'.head.target (before ++ after') none := by
  cases pl with
  | head =>
    refine ⟨s.head, [], s.linked, rfl, rfl, hpath, fun _ => rfl, by simp, ?_⟩
    intro s' l' after' hrel hafter
    simpa [hrel.head] using hafter
  | node a =>
    obtain ⟨pre, after, n, hsplit, hn, hpre, hafter⟩ := hpath.split hpl
    refine ⟨n.next, pre ++ [a], after, by simp [link?, hn], by simp [hsplit], hafter, by simp,
      fun b hb => ?_, ?_⟩
    · cases hb
      exact ⟨pre, rfl⟩
    · intro s' l' after' hrel hafter'
      rw [hsplit, List.nodup_append] at hnodup
      rw [List.append_assoc, Memory.path_append]
      refine ⟨some a, ?_, rfl, { n with next := l' }, by simp [hrel.node?, hn], hafter'⟩
      rw [hrel.head, if_neg (by simp)]
      refine hpre.congr_node? fun b hb => ?_
      rw [hrel.node?, if_neg]
      intro hab
      cases hab
      exact hnodup.2.2 _ hb _ (by simp) rfl

end SharedSet

end MarkedChain
