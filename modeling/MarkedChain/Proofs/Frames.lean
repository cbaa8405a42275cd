import MarkedChain.Operation.Step
import MarkedChain.Proofs.Writes

/-!
# What an operation relies on

Between two steps an operation keeps references to a few nodes and has learned something of their
keys. `Frame.Fits` says what must be true of the set for the next step to go right: the nodes that
the frame refers to are held by the record of the operation, the owner of the link before them has a
smaller key than the one looked for, and the node of an insertion has the key that is inserted.
Whatever others do to the set, a frame goes on to fit (`Frame.Fits.respects`).
-/

namespace MarkedChain

variable {κ ν : Type}

namespace Task

/-- The key that a task looks for. -/
def key? : Task κ → Option κ
  | .insert _ k | .remove k | .unlink k | .contains k | .get k | .hold k => some k
  | .size _ | .isEmpty | .keys _ => none

/-- The node that an insertion has made and not yet linked. -/
def node? : Task κ → Option Address
  | .insert node _ => some node
  | _ => none

@[simp] theorem node?_restart (t : Task κ) : t.restart.node? = t.node? := by
  cases t <;> rfl

variable [Ord κ]

/-- A task that passes a node goes on with the same key and the same private node, and it helps as
it did before. -/
theorem pass?_eq_some {t t' : Task κ} {key : κ} {marked : Bool} (h : t.pass? key marked = some t') :
    t'.key? = t.key? ∧ t'.node? = t.node? ∧ t'.reads = t.reads ∧
      ∀ k, t.key? = some k → t' = t ∧ compare key k = .lt := by
  have hsearch : ∀ k, (if (compare key k).isLT then some t else none) = some t' →
      t' = t ∧ compare key k = .lt := by
    intro k hk
    split at hk
    · next hlt =>
      cases hk
      exact ⟨rfl, by simpa using hlt⟩
    · cases hk
  cases t with
  | insert _ k | remove k | unlink k | contains k | get k | hold k =>
    obtain ⟨rfl, hlt⟩ := hsearch k h
    refine ⟨rfl, rfl, rfl, fun k' hk' => ⟨rfl, ?_⟩⟩
    cases hk'
    exact hlt
  | size met | keys met =>
    cases h
    exact ⟨rfl, rfl, rfl, by simp [key?]⟩
  | isEmpty =>
    rw [pass?] at h
    split at h
    · cases h
      exact ⟨rfl, rfl, rfl, by simp [key?]⟩
    · cases h

/-- A search stops at a node whose key is not smaller than its own. -/
theorem pass?_eq_none {t : Task κ} {key : κ} {marked : Bool} (h : t.pass? key marked = none)
    {k : κ} (hk : t.key? = some k) : compare key k ≠ .lt := by
  intro hlt
  cases t with
  | insert _ k' | remove k' | unlink k' | contains k' | get k' | hold k' =>
    cases hk
    simp [pass?, hlt] at h
  | size _ | isEmpty | keys _ => cases hk

end Task

namespace SharedSet

variable [Ord κ] {s s' : SharedSet κ ν} {own : List Address}

/-- The owner of a link, if it is a node, is held and has a smaller key than the task looks for. -/
def Reaches (s : SharedSet κ ν) (r : Nat) (t : Task κ) (pred : Place) : Prop :=
  ∀ a, pred = .node a → s.Held r .pred a ∧ ∀ k, t.key? = some k → s.Under k a

theorem Reaches.head (s : SharedSet κ ν) (r : Nat) (t : Task κ) : s.Reaches r t .head := by
  simp [Reaches]

theorem Reaches.held {r : Nat} {t : Task κ} {pred : Place} (h : s.Reaches r t pred) (a : Address)
    (ha : pred = .node a) : s.Held r .pred a :=
  (h a ha).1

theorem Reaches.under {r : Nat} {t : Task κ} {pred : Place} (h : s.Reaches r t pred) {k : κ}
    (hk : t.key? = some k) (a : Address) (ha : pred = .node a) : s.Under k a :=
  (h a ha).2 k hk

/-- The place of a link that is held exists. -/
theorem Sound.link?_of_held (hs : s.Sound own) {r : Nat} {slot : Slot} {pl : Place}
    (hpl : ∀ a, pl = .node a → s.Held r slot a) : ∃ l, s.link? pl = some l := by
  cases pl with
  | head => exact ⟨_, rfl⟩
  | node a =>
    obtain ⟨n, hn⟩ := hs.live_of_held (hpl a rfl)
    exact ⟨n.next, by simp [link?, hn]⟩

/-- A key at an address stays what it is. -/
theorem Under.respects {who : Option Nat} {k : κ} {a : Address} (h : s.Under k a)
    (hr : s.Respects s' who) (hlive : ∃ n, s.memory.node? a = some n) : s'.Under k a := by
  obtain ⟨n, hn⟩ := hlive
  intro n' hn'
  rw [(hr.node a n n' hn hn').1]
  exact h n hn

theorem Reaches.respects {who : Option Nat} {r : Nat} {t : Task κ} {pred : Place}
    (h : s.Reaches r t pred) (hs : s.Sound own) (hr : s.Respects s' who)
    (hheld : ∀ a, s.Held r .pred a → s'.Held r .pred a) : s'.Reaches r t pred :=
  fun a ha => ⟨hheld a (h a ha).1,
    fun k hk => ((h a ha).2 k hk).respects hr (hs.live_of_held (h a ha).1)⟩

omit [Ord κ] in
theorem helps_congr (h : s'.scheme.validates = s.scheme.validates) (t : Task κ) :
    s'.helps t = s.helps t := by
  rw [helps, helps, h]

end SharedSet

/-! ## Frames -/

/-- The nodes that an operation has made and not yet linked. -/
def Frame.own (f : Frame κ) : List Address := f.task.node?.toList

section

variable [Ord κ] {s s' : SharedSet κ ν} {own : List Address}

/-- What an operation relies on where it stands in its walk. -/
def Point.Fits (s : SharedSet κ ν) (r : Nat) (t : Task κ) : Point → Prop
  | .start => True
  | .inspect pred curr => s.Reaches r t pred ∧ ∀ a, curr = some a → s.Held r .curr a
  | .encounter pred curr next =>
    s.Reaches r t pred ∧ s.Held r .curr curr ∧ (∀ a, next.target = some a → s.Held r .succ a) ∧
      (s.helps t = true → next.marked = false)
  | .judge pred curr next =>
    s.Reaches r t pred ∧ s.Held r .curr curr ∧ (s.helps t = true → next.marked = false) ∧
      ∀ k, t.key? = some k → ∀ n, s.memory.node? curr = some n → compare n.key k ≠ .lt

/-- What an operation relies on between two steps. -/
structure Frame.Fits (s : SharedSet κ ν) (r : Nat) (f : Frame κ) : Prop where
  task : ∀ a k, f.task = .insert a k → ∀ n, s.memory.node? a = some n → n.key = k
  point : f.point.Fits s r f.task

/-- What others do leaves an operation all that it relies on where it stands. -/
theorem Point.Fits.respects {who : Option Nat} {r : Nat} {t : Task κ} {p : Point}
    (h : p.Fits s r t) (hs : s.Sound own) (hr : s.Respects s' who) (hwho : who ≠ some r) :
    p.Fits s' r t := by
  have hheld : ∀ slot a, s.Held r slot a → s'.Held r slot a := hr.held r hwho
  have hreaches : ∀ pred, s.Reaches r t pred → s'.Reaches r t pred :=
    fun pred hp => hp.respects hs hr (hheld .pred)
  have hhelps := SharedSet.helps_congr hr.validates t
  cases p with
  | start => trivial
  | inspect pred curr => exact ⟨hreaches pred h.1, fun a ha => hheld .curr a (h.2 a ha)⟩
  | encounter pred curr next =>
    obtain ⟨hp, hc, hn, hm⟩ := h
    exact ⟨hreaches pred hp, hheld .curr curr hc, fun a ha => hheld .succ a (hn a ha), hhelps ▸ hm⟩
  | judge pred curr next =>
    obtain ⟨hp, hc, hm, hk⟩ := h
    refine ⟨hreaches pred hp, hheld .curr curr hc, hhelps ▸ hm, ?_⟩
    intro k hkey n' hn'
    obtain ⟨n, hn⟩ := hs.live_of_held hc
    rw [(hr.node curr n n' hn hn').1]
    exact hk k hkey n hn

/-- What others do leaves an operation all that it relies on, as long as its own node is there. -/
theorem Frame.Fits.respects {who : Option Nat} {r : Nat} {f : Frame κ} (h : f.Fits s r)
    (hs : s.Sound own) (hr : s.Respects s' who) (hwho : who ≠ some r)
    (hown : ∀ a ∈ f.own, ∃ n, s.memory.node? a = some n) : f.Fits s' r where
  task a k ht n' hn' := by
    obtain ⟨n, hn⟩ := hown a (by simp [Frame.own, ht, Task.node?])
    rw [(hr.node a n n' hn hn').1]
    exact h.task a k ht n hn
  point := h.point.respects hs hr hwho

end

end MarkedChain
