import MarkedChain.Proofs.Path
import MarkedChain.Proofs.Scheme

/-!
# Every node in its place

The live nodes of a set are those on the chain, those that wait in limbo, and those that an
insertion in progress has made and not yet linked. `SharedSet.Sound` says that these places share no
node and hold all of them, that the chain is in strictly ascending order and leads to the end, and
that a node in limbo is marked, so that nothing can change its link any more. The private nodes are
a parameter, since the set itself does not know who made them.

What can happen to a set is put together from six changes: `Sound.touch` (records),
`Sound.shed` (freeing what no record covers), `Sound.unlink`, `Sound.link`, `Sound.mark`, and the
handling of private nodes (`Sound.birth`, `Sound.write`, `Sound.discard`). Each keeps the set sound.
-/

namespace MarkedChain

namespace SharedSet

variable {κ ν : Type}

/-- The nodes that wait in limbo. -/
def retired (s : SharedSet κ ν) : List Address := s.scheme.limbo.entries.map Retired.node

/-- The entry of a node in limbo, or the one that a node of the chain would get there now. -/
def Dated (s : SharedSet κ ν) (x : Retired Address) : Prop :=
  x ∈ s.scheme.limbo.entries ∨ x.node ∈ s.linked ∧ x.tag = s.scheme.stamp

/-- The record `r` keeps a node on the chain or in limbo from being freed, by one of its slots if it
has any. -/
def Held (s : SharedSet κ ν) (r : Nat) (slot : Slot) (a : Address) : Prop :=
  ∃ x, s.Dated x ∧ x.node = a ∧ s.scheme.Covers r slot x

/-- The key at one address is smaller than the key at another. -/
def Below [Ord κ] (s : SharedSet κ ν) (a b : Address) : Prop :=
  ∀ x y, s.memory.node? a = some x → s.memory.node? b = some y → compare x.key y.key = .lt

/-- The set is in order, and `own` are the nodes that insertions have made and not yet linked. -/
structure Sound [Ord κ] (s : SharedSet κ ν) (own : List Address) : Prop where
  head : s.head.marked = false
  path : s.memory.Path s.head.target s.linked none
  ascending : s.linked.Pairwise s.Below
  nodup : (s.linked ++ (s.retired ++ own)).Nodup
  live : ∀ a, (s.memory.node? a).isSome = true ↔ a ∈ s.linked ++ (s.retired ++ own)
  frozen : ∀ a ∈ s.retired, ∀ n, s.memory.node? a = some n → n.next.marked = true
  fresh : ∀ a ∈ own, ∀ n, s.memory.node? a = some n → n.next.marked = false
  stamped : ∀ x ∈ s.scheme.limbo.entries, x.tag ≤ s.scheme.stamp
  closed : s.scheme.validates = false → ∀ x ∈ s.scheme.limbo.entries, ∀ n b,
    s.memory.node? x.node = some n → n.next.target = some b →
      ∃ y, s.Dated y ∧ y.node = b ∧ x.tag ≤ y.tag
  counted : s.scheme.limbo.Counted
  balance : s.memory.allocated =
    s.memory.freed + (s.linked.length + (s.retired.length + own.length))
  tidy : s.memory.Tidy
  scheme : s.scheme.Sound

variable {s s' : SharedSet κ ν}

theorem Dated.of_linked {a : Address} (ha : a ∈ s.linked) : s.Dated ⟨a, s.scheme.stamp⟩ :=
  .inr ⟨ha, rfl⟩

theorem Dated.place {x : Retired Address} (hx : s.Dated x) :
    x.node ∈ s.linked ∨ x.node ∈ s.retired :=
  hx.elim (fun h => .inr (List.mem_map_of_mem h)) fun h => .inl h.1

/-- What a record holds it still holds when the node is moved to another place with a later tag. -/
theorem Held.later {r : Nat} {slot : Slot} {a : Address} (h : s.Held r slot a)
    (hdated : ∀ x, s.Dated x → s.scheme.Covers r slot x →
      ∃ y, s'.Dated y ∧ y.node = x.node ∧ x.tag ≤ y.tag)
    (hcovers : ∀ x, s.scheme.Covers r slot x → s'.scheme.Covers r slot x) :
    s'.Held r slot a := by
  obtain ⟨x, hx, rfl, hc⟩ := h
  obtain ⟨y, hy, hnode, htag⟩ := hdated x hx hc
  exact ⟨y, hy, hnode, (hcovers x hc).later hnode htag⟩

variable [Ord κ] {own : List Address}

namespace Sound

/-! ## What it says of single nodes -/

theorem nodup_linked (hs : s.Sound own) : s.linked.Nodup := (List.nodup_append.1 hs.nodup).1

theorem live_of_linked (hs : s.Sound own) {a : Address} (ha : a ∈ s.linked) :
    ∃ n, s.memory.node? a = some n :=
  Option.isSome_iff_exists.1 ((hs.live a).2 (List.mem_append_left _ ha))

theorem live_of_retired (hs : s.Sound own) {a : Address} (ha : a ∈ s.retired) :
    ∃ n, s.memory.node? a = some n :=
  Option.isSome_iff_exists.1 ((hs.live a).2 (by simp [ha]))

theorem live_of_own (hs : s.Sound own) {a : Address} (ha : a ∈ own) :
    ∃ n, s.memory.node? a = some n :=
  Option.isSome_iff_exists.1 ((hs.live a).2 (by simp [ha]))

theorem not_retired_of_linked (hs : s.Sound own) {a : Address} (ha : a ∈ s.linked) :
    a ∉ s.retired :=
  fun h => (List.nodup_append.1 hs.nodup).2.2 a ha a (by simp [h]) rfl

theorem not_own_of_linked (hs : s.Sound own) {a : Address} (ha : a ∈ s.linked) : a ∉ own :=
  fun h => (List.nodup_append.1 hs.nodup).2.2 a ha a (by simp [h]) rfl

theorem not_own_of_retired (hs : s.Sound own) {a : Address} (ha : a ∈ s.retired) : a ∉ own :=
  fun h => (List.nodup_append.1 (List.nodup_append.1 hs.nodup).2.1).2.2 a ha a h rfl

theorem place_of_live (hs : s.Sound own) {a : Address} {n : Node κ ν}
    (hn : s.memory.node? a = some n) : a ∈ s.linked ∨ a ∈ s.retired ∨ a ∈ own := by
  simpa using (hs.live a).1 (Option.isSome_iff_exists.2 ⟨n, hn⟩)

theorem live_of_dated (hs : s.Sound own) {x : Retired Address} (hx : s.Dated x) :
    ∃ n, s.memory.node? x.node = some n :=
  hx.place.elim hs.live_of_linked hs.live_of_retired

theorem live_of_held (hs : s.Sound own) {r : Nat} {slot : Slot} {a : Address}
    (ha : s.Held r slot a) : ∃ n, s.memory.node? a = some n := by
  obtain ⟨x, hx, rfl, -⟩ := ha
  exact hs.live_of_dated hx

/-- A node that is neither private nor marked is on the chain. -/
theorem linked_of_unmarked (hs : s.Sound own) {a : Address} {n : Node κ ν}
    (hn : s.memory.node? a = some n) (hown : a ∉ own) (hm : n.next.marked = false) :
    a ∈ s.linked := by
  rcases hs.place_of_live hn with h | h | h
  · exact h
  · rw [hs.frozen a h n hn] at hm
    cases hm
  · exact absurd h hown

theorem linked_of_held (hs : s.Sound own) {r : Nat} {slot : Slot} {a : Address} {n : Node κ ν}
    (ha : s.Held r slot a) (hn : s.memory.node? a = some n) (hm : n.next.marked = false) :
    a ∈ s.linked := by
  obtain ⟨x, hx, rfl, -⟩ := ha
  refine hs.linked_of_unmarked hn ?_ hm
  exact hx.place.elim hs.not_own_of_linked hs.not_own_of_retired

/-- A link that was found unmarked belongs to the chain, if its owner is held. -/
theorem onChain_of_unmarked (hs : s.Sound own) {r : Nat} {slot : Slot} {pl : Place}
    {l : Link Address} (hpl : ∀ a, pl = .node a → s.Held r slot a) (hl : s.link? pl = some l)
    (hm : l.marked = false) : s.OnChain pl := by
  cases pl with
  | head => trivial
  | node a =>
    obtain ⟨n, hn, rfl⟩ := Option.map_eq_some_iff.1 hl
    exact hs.linked_of_held (hpl a rfl) hn hm

/-- What a link of the chain refers to is on the chain. -/
theorem linked_of_link (hs : s.Sound own) {pl : Place} {l : Link Address} {b : Address}
    (hpl : s.OnChain pl) (hl : s.link? pl = some l) (hb : l.target = some b) :
    b ∈ s.linked := by
  obtain ⟨l', before, after, hl', hsplit, hafter, -⟩ :=
    exists_split hs.path hs.nodup_linked hpl
  rw [hl] at hl'
  cases hl'
  cases after with
  | nil => rw [Memory.path_nil, hb] at hafter; cases hafter
  | cons c after =>
    obtain ⟨hc, -⟩ := hafter
    rw [hb] at hc
    cases hc
    simp [hsplit]

/-- What a node of the chain refers to is on the chain. -/
theorem linked_of_next (hs : s.Sound own) {a b : Address} {n : Node κ ν} (ha : a ∈ s.linked)
    (hn : s.memory.node? a = some n) (hb : n.next.target = some b) : b ∈ s.linked := by
  have hpl : s.OnChain (.node a) := ha
  exact hs.linked_of_link hpl (by simp [link?, hn]) hb

theorem linked_of_head (hs : s.Sound own) {b : Address} (hb : s.head.target = some b) :
    b ∈ s.linked := by
  have hpl : s.OnChain .head := trivial
  exact hs.linked_of_link hpl rfl hb

/-- A node of the chain refers to the first of those behind it. -/
theorem head?_of_split (hs : s.Sound own) {before after : List Address} {a : Address} {n : Node κ ν}
    (hsplit : s.linked = before ++ a :: after) (hn : s.memory.node? a = some n) :
    after.head? = n.next.target := by
  have hpath := hs.path
  rw [hsplit, Memory.path_append] at hpath
  obtain ⟨y, -, -, n', hn', hafter⟩ := hpath
  rw [hn] at hn'
  cases hn'
  exact hafter.head?

/-- Under epochs, a record that holds a node holds what the node refers to, even if the node has
left the chain. -/
theorem held_next (hs : s.Sound own) {r : Nat} {slot : Slot} {a b : Address}
    {n : Node κ ν} (ha : s.Held r slot a) (hn : s.memory.node? a = some n)
    (hb : n.next.target = some b) (hv : s.scheme.validates = false) (slot' : Slot) :
    s.Held r slot' b := by
  obtain ⟨x, hx, rfl, hc⟩ := ha
  rcases hx with hx | ⟨hlinked, htag⟩
  · obtain ⟨y, hy, hyb, hxy⟩ := hs.closed hv x hx n b hn hb
    exact ⟨y, hy, hyb, hc.later_of_epochs hv hxy slot'⟩
  · exact ⟨_, .of_linked (hs.linked_of_next hlinked hn hb), rfl,
      hc.later_of_epochs hv (Nat.le_of_eq htag) slot'⟩

end Sound

end SharedSet

end MarkedChain
