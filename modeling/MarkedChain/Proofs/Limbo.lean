import MarkedChain.Limbo

/-!
# What a sweep of the retired nodes keeps

A sweep hands out the nodes it may free in the order it meets them and turns the order of the
entries it keeps (`Limbo.sweep_nodes`, `Limbo.sweep_entries`). The count of the waiting nodes is
their number if it was so before (`Limbo.Counted`).
-/

namespace MarkedChain.Limbo

variable {α : Type}

theorem sift_eq (f : Retired α → Bool) (es kept : List (Retired α)) :
    sift f es kept =
      ((es.filter f).map Retired.node, (es.filter fun x => !f x).reverse ++ kept) := by
  induction es generalizing kept with
  | nil => rfl
  | cons e es ih =>
    rw [sift]
    split
    · next h => simp [ih, h]
    · next h => simp [ih, h]

theorem sweep_nodes (l : Limbo α) (f : Retired α → Bool) :
    (l.sweep f).1 = (l.entries.filter f).map Retired.node := by
  simp [sweep, sift_eq]

theorem sweep_entries (l : Limbo α) (f : Retired α → Bool) :
    (l.sweep f).2.entries = (l.entries.filter fun x => !f x).reverse := by
  simp [sweep, sift_eq]

/-- The number of waiting nodes is the number of entries. -/
def Counted (l : Limbo α) : Prop := l.count = l.entries.length

theorem Counted.push {l : Limbo α} (h : l.Counted) (node : α) (tag : Nat) :
    (l.push node tag).Counted := by
  unfold Counted at h ⊢
  simp [Limbo.push, h]

theorem Counted.sweep {l : Limbo α} (h : l.Counted) (f : Retired α → Bool) :
    (l.sweep f).2.Counted := by
  unfold Counted at h ⊢
  simp [Limbo.sweep, sift_eq, h]

theorem Counted.pending {l : Limbo α} (h : l.Counted) : l.pending = l.entries.length := by
  unfold Counted at h
  simp [Limbo.pending, h]

end MarkedChain.Limbo
