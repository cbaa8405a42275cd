import MarkedChain.Operation

/-!
# A set that serves one call at a time

A ledger lists keys with their values in ascending order of the keys. `Ledger.serve` carries out a
call on it all at once: the first writer of a key wins, and its key and value stay until the key is
removed. `Ledger.Explains` does so for one call after the other. The lemmas say what becomes of a
ledger that is split around a key.
-/

namespace MarkedChain

namespace Ledger

variable {κ ν : Type} [Ord κ]

/-- The entry of a key. -/
def find? (k : κ) (l : List (κ × ν)) : Option (κ × ν) := l.find? fun p => (compare p.1 k).isEq

/-- Puts an entry behind those with smaller keys. -/
def place (k : κ) (v : ν) : List (κ × ν) → List (κ × ν)
  | [] => [(k, v)]
  | p :: l => if (compare p.1 k).isLT then p :: place k v l else (k, v) :: p :: l

/-- Drops the entry of a key. -/
def erase (k : κ) (l : List (κ × ν)) : List (κ × ν) := l.filter fun p => !(compare p.1 k).isEq

/-- Carries out a call and says what is replied. How much can be freed is not for a ledger to
say. -/
def serve (l : List (κ × ν)) : Call κ ν → List (κ × ν) × Option (Reply κ ν)
  | .insert k v =>
    match find? k l with
    | none => (place k v l, some .inserted)
    | some _ => (l, some .alreadyPresent)
  | .remove k =>
    match find? k l with
    | none => (l, some .notFound)
    | some _ => (erase k l, some .removed)
  | .contains k => (l, some (.contained (find? k l).isSome))
  | .get k => (l, some (.got ((find? k l).map Prod.snd)))
  | .hold k => (l, some (.held (find? k l).isSome))
  | .size => (l, some (.counted l.length))
  | .isEmpty => (l, some (.wasEmpty l.isEmpty))
  | .keys => (l, some (.listed (l.map Prod.fst)))
  | .reclaim => (l, none)

/-- Calls that are carried out one after the other get these replies. -/
inductive Explains : List (κ × ν) → List (Call κ ν × Reply κ ν) → List (κ × ν) → Prop where
  | nil (l) : Explains l [] l
  | cons {l l' l'' call reply xs} (h : serve l call = (l', some reply))
    (hrest : Explains l' xs l'') : Explains l ((call, reply) :: xs) l''

/-- One more call at the end. -/
theorem Explains.snoc {l l' l'' : List (κ × ν)} {xs : List (Call κ ν × Reply κ ν)}
    {call : Call κ ν} {reply : Reply κ ν} (h : Explains l xs l')
    (hserve : serve l' call = (l'', some reply)) : Explains l (xs ++ [(call, reply)]) l'' := by
  induction h with
  | nil => exact .cons hserve (.nil _)
  | cons hfirst _ ih => exact .cons hfirst (ih hserve)

/-- The calls determine the replies. -/
theorem Explains.unique {l l' l'' : List (κ × ν)} {xs ys : List (Call κ ν × Reply κ ν)}
    (h : Explains l xs l') (h' : Explains l ys l'') (hcalls : xs.map Prod.fst = ys.map Prod.fst) :
    xs = ys ∧ l' = l'' := by
  induction h generalizing ys with
  | nil =>
    obtain rfl : ys = [] := by simpa using hcalls.symm
    cases h'
    exact ⟨rfl, rfl⟩
  | cons hserve _ ih =>
    cases h' with
    | nil => cases hcalls
    | cons hserve' hrest' =>
      obtain ⟨hcall, htail⟩ := List.cons.inj hcalls
      cases hcall
      rw [hserve] at hserve'
      cases hserve'
      obtain ⟨rfl, rfl⟩ := ih hrest' htail
      exact ⟨rfl, rfl⟩

theorem find?_eq_none {k : κ} {l : List (κ × ν)} :
    find? k l = none ↔ ∀ p ∈ l, compare p.1 k ≠ .eq := by
  simp [find?]

variable [Std.TransOrd κ]

/-- In ascending order a key has one entry. -/
theorem find?_eq_some {k : κ} {l : List (κ × ν)} (hl : l.Pairwise fun p q => compare p.1 q.1 = .lt)
    {p : κ × ν} (hp : p ∈ l) (hk : compare p.1 k = .eq) : find? k l = some p := by
  induction l with
  | nil => cases hp
  | cons q l ih =>
    obtain ⟨hq, hl⟩ := List.pairwise_cons.1 hl
    rw [find?, List.find?_cons]
    rcases List.mem_cons.1 hp with rfl | hp
    · rw [hk]
      rfl
    · have hlt : compare q.1 k = .lt := Std.TransCmp.lt_of_lt_of_eq (hq p hp) hk
      rw [hlt]
      exact ih hl hp

section

variable {k : κ} {before after : List (κ × ν)}

/-- A key that is greater than all before and smaller than all behind has no entry. -/
theorem find?_between (hlow : ∀ p ∈ before, compare p.1 k = .lt)
    (hhigh : ∀ p ∈ after, compare k p.1 = .lt) : find? k (before ++ after) = none := by
  refine find?_eq_none.2 fun p hp heq => ?_
  rcases List.mem_append.1 hp with hp | hp
  · rw [hlow p hp] at heq
    cases heq
  · have hlt := hhigh p hp
    rw [Std.OrientedCmp.eq_symm heq] at hlt
    cases hlt

theorem place_between (v : ν) (hlow : ∀ p ∈ before, compare p.1 k = .lt)
    (hhigh : ∀ p ∈ after, compare k p.1 = .lt) :
    place k v (before ++ after) = before ++ (k, v) :: after := by
  induction before with
  | nil =>
    cases after with
    | nil => rfl
    | cons p after =>
      have hgt : compare p.1 k = .gt := Std.OrientedCmp.gt_of_lt (hhigh p (by simp))
      simp [place, hgt]
  | cons p before ih =>
    have hlt := hlow p (by simp)
    simp [place, hlt, ih fun q hq => hlow q (by simp [hq])]

theorem erase_between {p : κ × ν} (hp : compare p.1 k = .eq)
    (hlow : ∀ p ∈ before, compare p.1 k = .lt) (hhigh : ∀ p ∈ after, compare k p.1 = .lt) :
    erase k (before ++ p :: after) = before ++ after := by
  have hkeep : ∀ {l : List (κ × ν)}, (∀ q ∈ l, compare q.1 k ≠ .eq) → erase k l = l := by
    intro l hl
    exact List.filter_eq_self.2 fun q hq => by simpa using hl q hq
  have hbefore : erase k before = before := by
    refine hkeep fun q hq heq => ?_
    rw [hlow q hq] at heq
    cases heq
  have hafter : erase k after = after := by
    refine hkeep fun q hq heq => ?_
    have hlt := hhigh q hq
    rw [Std.OrientedCmp.eq_symm heq] at hlt
    cases hlt
  rw [erase, List.filter_append, List.filter_cons, if_neg (by simp [hp])]
  change erase k before ++ erase k after = _
  rw [hbefore, hafter]

end

end Ledger

end MarkedChain
