import MarkedChain.Epochs.Packed
import MarkedChain.Proofs.Roster
import Mathlib.Data.Nat.Bitwise

/-!
# Packed pins say what was packed

The word of a packed pin gives back the epoch and the pin, as long as the epoch leaves the highest
bit free. So a packed record does what a record of `Pin` does (`PackedPin.unpack_enter`,
`PackedPin.unpack_exit`), and epochs on packed records do what `Epochs` does
(`PackedEpochs.unpack_advance`, `PackedEpochs.unpack_collect`, `PackedEpochs.unpack_reclaim`,
`PackedEpochs.unpack_retire`).
-/

namespace MarkedChain

/-! ## Words -/

namespace PackedPin

/-- An epoch below this bound leaves the highest bit of a word free. -/
def epochBound : Nat := 2 ^ 63

theorem pack_shiftRight {e : UInt64} (h : e.toNat < epochBound) :
    (e <<< 1 ||| pinBit) >>> 1 = e := by
  have hlow := Nat.shiftLeft_add_eq_or_of_lt (show 1 < 2 ^ 1 by decide) e.toNat
  have hfits : e.toNat <<< 1 < 2 ^ 64 := by
    rw [epochBound] at h
    rw [Nat.shiftLeft_eq]
    omega
  apply UInt64.toNat_inj.1
  rw [UInt64.toNat_shiftRight, UInt64.toNat_or, UInt64.toNat_shiftLeft, pinBit]
  simp only [UInt64.reduceToNat, Nat.reduceMod]
  rw [Nat.mod_eq_of_lt hfits, ← hlow, Nat.shiftLeft_eq, Nat.shiftRight_eq_div_pow]
  omega

theorem pack_and_pinBit (e : UInt64) : (e <<< 1 ||| pinBit) &&& pinBit ≠ 0 := by
  intro h
  have hbit := congrArg (fun w : UInt64 => w.toBitVec.getLsbD 0) h
  simp [pinBit] at hbit

theorem clear_and_pinBit (w : UInt64) : (w &&& ~~~pinBit) &&& pinBit = 0 := by
  simp [pinBit, UInt64.and_assoc]

theorem clear_shiftRight (w : UInt64) : (w &&& ~~~pinBit) >>> 1 = w >>> 1 := by
  have hmask : (~~~pinBit) >>> 1 = UInt64.ofNat (2 ^ 63 - 1) := by decide
  have hlt : (w >>> 1).toNat < 2 ^ 63 := by
    rw [UInt64.toNat_shiftRight, Nat.shiftRight_eq_div_pow]
    have := w.toNat_lt
    simp only [UInt64.reduceToNat, Nat.reduceMod]
    omega
  apply UInt64.toNat_inj.1
  rw [UInt64.shiftRight_and, hmask, UInt64.toNat_and]
  exact (Nat.and_two_pow_sub_one_eq_mod _ 63).trans (Nat.mod_eq_of_lt hlt)

/-! ## Records -/

variable {p q : PackedPin} {e : UInt64}

theorem depth_enter (p : PackedPin) (e : UInt64) : (p.enter e).depth = p.depth + 1 := by
  rw [enter]
  split
  · next hdepth => rw [hdepth]
  · rfl

theorem isPinned_enter (p : PackedPin) (e : UInt64) :
    (p.enter e).isPinned = if p.depth = 0 then true else p.isPinned := by
  rw [enter]
  split
  · exact bne_iff_ne.2 (pack_and_pinBit e)
  · rfl

/-- The first guard shows the epoch, and no further one changes what is shown. -/
theorem epoch_enter (h : e.toNat < epochBound) (p : PackedPin) :
    (p.enter e).epoch = if p.depth = 0 then e else p.epoch := by
  rw [enter]
  split
  · exact pack_shiftRight h
  · rfl

/-- A guard can be dropped if there is one. The last one unpins the record, which still shows its
epoch. -/
theorem exit_eq_ok (h : p.exit = .ok q) :
    p.depth = q.depth + 1 ∧ q.isPinned = (p.isPinned && p.depth != 1) ∧ q.epoch = p.epoch ∧
      q.sinceCollection = p.sinceCollection := by
  rw [exit] at h
  split at h
  · cases h
  · next hdepth =>
    cases h
    refine ⟨(Nat.succ_pred_eq_of_ne_zero hdepth).symm, ?_, ?_, rfl⟩
    · by_cases hlast : p.depth = 1
      · simp [isPinned, hlast, clear_and_pinBit]
      · simp [isPinned, hlast]
    · by_cases hlast : p.depth = 1
      · simp [epoch, hlast, clear_shiftRight]
      · simp [epoch, hlast]

theorem exists_exit (h : 0 < p.depth) : ∃ q, p.exit = .ok q := by
  rw [exit, if_neg (Nat.ne_of_gt h)]
  exact ⟨_, rfl⟩

theorem unpack_enter (h : e.toNat < epochBound) (p : PackedPin) :
    (p.enter e).unpack = p.unpack.enter e.toNat := by
  have hdepth : p.unpack.depth = p.depth := rfl
  have hsince : (p.enter e).sinceCollection = p.sinceCollection := by
    rw [enter]
    split <;> rfl
  rw [unpack, depth_enter, isPinned_enter, epoch_enter h, hsince, Pin.enter, hdepth]
  split
  · next hzero => rw [hzero]; rfl
  · rfl

theorem unpack_exit (h : p.exit = .ok q) : p.unpack.exit = .ok q.unpack := by
  obtain ⟨hdepth, hpinned, hepoch, hsince⟩ := exit_eq_ok h
  have hunpack : p.unpack.depth = q.depth + 1 := hdepth
  have hne : p.unpack.depth ≠ 0 := by omega
  have hpred : p.unpack.depth - 1 = q.depth := by omega
  rw [Pin.exit, if_neg hne, hpred, unpack, unpack, hpinned, hepoch, hsince]

theorem unpack_lags (p : PackedPin) (e : UInt64) : p.unpack.lags e.toNat = p.lags e := by
  have hsame : (p.epoch.toNat != e.toNat) = (p.epoch != e) := by
    rw [Bool.eq_iff_iff, bne_iff_ne, bne_iff_ne, ne_eq, ne_eq, UInt64.toNat_inj]
  exact congrArg (p.isPinned && ·) hsame

end PackedPin

/-! ## Rosters -/

namespace Roster

variable {ρ σ : Type} (r : Roster ρ) (f : ρ → σ)

theorem record?_map (i : Nat) : (r.map f).record? i = (r.record? i).map f := by
  simp [record?, map, Function.comp_def]

theorem any_map (p : σ → Bool) : (r.map f).any p = r.any fun x => p (f x) := by
  simp [any, map]

theorem map_update (i : Nat) {g : ρ → ρ} {g' : σ → σ} (h : ∀ x, f (g x) = g' (f x)) :
    (r.update i g).map f = (r.map f).update i g' := by
  have hseats : (r.seats.modify i fun seat => { seat with record := g seat.record }).map
      (fun seat => (⟨f seat.record, seat.taken⟩ : Seat σ)) =
      (r.seats.map fun seat => (⟨f seat.record, seat.taken⟩ : Seat σ)).modify i
        fun seat => { seat with record := g' seat.record } := by
    apply Array.ext_getElem?
    intro j
    simp only [Array.getElem?_map, Array.getElem?_modify]
    split
    · simp [h, Function.comp_def]
    · rfl
  simp only [update, map, hseats]

end Roster

/-! ## Epochs -/

namespace PackedEpochs

open PackedPin

variable {α : Type}

theorem unpack_any_lags (e : PackedEpochs α) :
    (e.unpack.roster.any fun p => p.lags e.unpack.epoch) =
      e.roster.any fun p => p.lags e.epoch := by
  rw [unpack, Roster.any_map]
  simp only [unpack_lags]

theorem unpack_advance {e : PackedEpochs α} (h : e.epoch.toNat < epochBound) :
    (e.advance.1, e.advance.2.unpack) = e.unpack.advance := by
  have hnext : (e.epoch + 1).toNat = e.epoch.toNat + 1 := by
    rw [epochBound] at h
    rw [UInt64.toNat_add]
    exact Nat.mod_eq_of_lt (by simp only [UInt64.reduceToNat]; omega)
  rw [Epochs.advance, advance, unpack_any_lags]
  split
  · rfl
  · simp only [unpack, hnext]

theorem unpack_collect (e : PackedEpochs α) :
    (e.collect.1, e.collect.2.unpack) = e.unpack.collect := rfl

theorem unpack_reclaim {e : PackedEpochs α} (h : e.epoch.toNat < epochBound) :
    (e.reclaim.1, e.reclaim.2.unpack) = e.unpack.reclaim := by
  rw [reclaim, Epochs.reclaim, ← unpack_advance h]
  exact unpack_collect _

theorem unpack_retire {e : PackedEpochs α} (h : e.epoch.toNat < epochBound) (r : Nat) (node : α) :
    ((e.retire r node).1, (e.retire r node).2.unpack) = e.unpack.retire r node := by
  have hsince : (e.unpack.roster.record? r).elim 0 Pin.sinceCollection =
      (e.roster.record? r).elim 0 PackedPin.sinceCollection := by
    rw [unpack, Roster.record?_map]
    cases e.roster.record? r <;> rfl
  have hpushed : ∀ n, ({ e with
      limbo := e.limbo.push node e.epoch.toNat
      roster := e.roster.update r fun p => { p with sinceCollection := n } } :
        PackedEpochs α).unpack = { e.unpack with
      limbo := e.unpack.limbo.push node e.unpack.epoch
      roster := e.unpack.roster.update r fun p => { p with sinceCollection := n } } := fun n =>
    congrArg (Epochs.mk e.epoch.toNat e.collectEvery · (e.limbo.push node e.epoch.toNat))
      (Roster.map_update _ _ _ fun _ => rfl)
  have hevery : e.unpack.collectEvery = e.collectEvery := rfl
  simp only [Epochs.retire, retire, hsince, hevery]
  split
  · rw [unpack_reclaim (by exact h)]
    exact congrArg Epochs.reclaim (hpushed 0)
  · exact congrArg (Prod.mk []) (hpushed _)

end PackedEpochs

end MarkedChain
