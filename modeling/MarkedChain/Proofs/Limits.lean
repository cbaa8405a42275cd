import MarkedChain.Halt

/-!
# Computations that only a limit can stop

Two of the faults say that a threshold of the set was out of all proportion: a pool too large to be
reserved, and a scan threshold that does not fit a word. The others say that memory or a record was
not as it had to be. `Yields` states of a computation that it comes to a result with some property
and that nothing but such a limit can keep it from doing so, `Within` that no limit can, save the
scan threshold where that is allowed for. The lemmas here follow the way computations are put
together. A computation of which both are known comes to a result, or the scan threshold stops it
(`Yields.ok_or_beyond`, `Yields.exists_ok`).
-/

namespace MarkedChain

/-- The faults that come from a threshold and not from the state of the set. -/
def Fault.IsLimit : Fault → Prop
  | .poolTooLarge | .thresholdTooLarge => True
  | _ => False

/-- A computation comes to a result with a property, or a limit stops it. -/
def Yields {α : Type} (x : Except Fault α) (post : α → Prop) : Prop :=
  match x with
  | .ok a => post a
  | .error e => e.IsLimit

namespace Yields

variable {α β : Type} {x : Except Fault α} {post post' : α → Prop}

theorem ok {a : α} (h : post a) : Yields (.ok a) post := h

theorem pure {a : α} (h : post a) : Yields (Pure.pure a : Except Fault α) post := h

/-- What holds of the result may be weakened. -/
theorem mono (h : Yields x post) (hp : ∀ a, post a → post' a) : Yields x post' := by
  cases x with
  | ok a => exact hp a h
  | error e => exact h

/-- One computation after the other: the second may rely on the result of the first. -/
theorem bind {f : α → Except Fault β} {post : β → Prop} {mid : α → Prop}
    (h : Yields x mid) (hf : ∀ a, mid a → Yields (f a) post) : Yields (x >>= f) post := by
  cases x with
  | ok a => exact hf a h
  | error e => exact h

/-- After a computation whose result is known comes the other one. -/
theorem ok_bind {f : α → Except Fault β} {post : β → Prop} {a : α} (hx : x = .ok a)
    (hf : Yields (f a) post) : Yields (x >>= f) post := by
  subst hx
  exact hf

end Yields

/-- A computation comes to a result with a property, or something other than a limit stops it,
unless the scan threshold is `beyond` its limit: then that may stop it too. -/
def Within {α : Type} (beyond : Prop) (x : Except Fault α) (post : α → Prop) : Prop :=
  match x with
  | .ok a => post a
  | .error e => e.IsLimit → beyond ∧ e = .thresholdTooLarge

namespace Within

variable {α β : Type} {beyond : Prop} {x : Except Fault α}

theorem ok {a : α} {post : α → Prop} (h : post a) : Within beyond (.ok a) post := h

theorem pure {a : α} {post : α → Prop} (h : post a) :
    Within beyond (Pure.pure a : Except Fault α) post := h

theorem error {e : Fault} {post : α → Prop} (h : ¬ e.IsLimit) : Within beyond (.error e) post :=
  fun he => absurd he h

theorem bind {f : α → Except Fault β} {post : β → Prop} {mid : α → Prop}
    (h : Within beyond x mid) (hf : ∀ a, mid a → Within beyond (f a) post) :
    Within beyond (x >>= f) post := by
  cases x with
  | ok a => exact hf a h
  | error e => exact h

end Within

/-- What only a limit could stop comes to a result, or the scan threshold stops it. -/
theorem Yields.ok_or_beyond {α : Type} {beyond : Prop} {x : Except Fault α} {post post' : α → Prop}
    (h : Yields x post) (h' : Within beyond x post') :
    (∃ a, x = .ok a ∧ post a ∧ post' a) ∨ beyond ∧ x = .error .thresholdTooLarge := by
  cases x with
  | ok a => exact .inl ⟨a, rfl, h, h'⟩
  | error e =>
    obtain ⟨hbeyond, rfl⟩ := h' h
    exact .inr ⟨hbeyond, rfl⟩

/-- What only a limit could stop and no limit does comes to a result. -/
theorem Yields.exists_ok {α : Type} {x : Except Fault α} {post post' : α → Prop}
    (h : Yields x post) (h' : Within False x post') : ∃ a, x = .ok a ∧ post a ∧ post' a :=
  (h.ok_or_beyond h').resolve_right fun hbeyond => hbeyond.1

/-- A run of two computations that came to a result: both did. -/
theorem bind_eq_ok {ε α β : Type} {x : Except ε α} {f : α → Except ε β} {b : β} :
    x >>= f = .ok b ↔ ∃ a, x = .ok a ∧ f a = .ok b := by
  cases x with
  | ok a =>
    constructor
    · exact fun h => ⟨a, rfl, h⟩
    · rintro ⟨a', ha, hf⟩
      cases ha
      exact hf
  | error e =>
    constructor
    · intro h
      cases h
    · rintro ⟨a, ha, -⟩
      cases ha

/-- A part of a run that cannot be refused. -/
theorem Halt.lift_eq_ok {α : Type} {x : Except Fault α} {a : α} :
    Halt.lift x = .ok a ↔ x = .ok a := by
  cases x with
  | ok b => exact ⟨fun h => congrArg Except.ok (Except.ok.inj h), fun h => h ▸ rfl⟩
  | error e => exact ⟨nofun, nofun⟩

/-- After a computation with a known result, what comes out is what the second one comes to. -/
theorem bind_of_eq_ok {ε α β : Type} {x : Except ε α} {f : α → Except ε β} {a : α}
    (hx : x = .ok a) : x >>= f = f a := by
  subst hx
  rfl

/-- A run of two computations of which the first came to a known result. -/
theorem exists_ok_bind {ε α β : Type} {x : Except ε α} {f : α → Except ε β} {post : β → Prop}
    {a : α} (hx : x = .ok a) (h : ∃ b, f a = .ok b ∧ post b) : ∃ b, x >>= f = .ok b ∧ post b := by
  subst hx
  exact h

end MarkedChain
