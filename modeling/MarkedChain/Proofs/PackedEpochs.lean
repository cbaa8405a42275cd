import MarkedChain.Proofs.Nesting
import MarkedChain.Proofs.Sweeps

/-!
# Epochs on packed records

As long as the global epoch is below the bound of packed epochs, whatever is done to epochs with
packed records, as a session does it (`Epochs.Session.step_of_perform`) or a retirement, is done to
what the records say (`PackedEpochs.Step.cases`). So the words protect what the epochs protect. A sweep takes out exactly what was retired at least two epochs ago
(`PackedEpochs.reclaim_parts`), and what is retired while a record is pinned waits as long as that
record stays pinned (`PackedEpochs.waits_while_pinned`).
-/

namespace MarkedChain

/-! ## One record -/

namespace Pin

/-- A record is left alone, or a guard is taken on it or dropped. -/
inductive Turns (epoch : Nat) (p : Pin) : Pin → Prop where
  | stays : Turns epoch p p
  | enters : Turns epoch p (p.enter epoch)
  | exits {q} (h : p.exit = .ok q) : Turns epoch p q

/-- A record that stays pinned shows the same epoch as before. -/
theorem Turns.keeps {epoch : Nat} {p q : Pin} (h : p.Turns epoch q)
    (hpinned : p.pinned = decide (p.depth ≠ 0))
    (hlag : p.pinned = true → p.epoch ≤ epoch ∧ epoch ≤ p.epoch + 1) :
    (q.pinned = decide (q.depth ≠ 0) ∧
      (q.pinned = true → q.epoch ≤ epoch ∧ epoch ≤ q.epoch + 1)) ∧
    (p.pinned = true → q.pinned = true → q.epoch = p.epoch) := by
  cases h with
  | stays => exact ⟨⟨hpinned, hlag⟩, fun _ _ => rfl⟩
  | enters =>
    rw [enter]
    split
    · next hdepth =>
      refine ⟨⟨rfl, fun _ => ⟨Nat.le_refl _, Nat.le_succ _⟩⟩, fun hp => ?_⟩
      rw [hpinned, hdepth] at hp
      cases hp
    · next hdepth =>
      refine ⟨⟨?_, hlag⟩, fun _ _ => rfl⟩
      simp [hpinned, hdepth]
  | exits hexit =>
    rw [exit] at hexit
    split at hexit
    · cases hexit
    · next hdepth =>
      cases hexit
      refine ⟨⟨?_, fun hq => hlag (Bool.and_elim_left hq)⟩, fun _ _ => rfl⟩
      rw [Bool.eq_iff_iff]
      simp [hpinned, hdepth]
      omega

end Pin

namespace Roster

variable {ρ : Type} {r r' : Roster ρ}

/-- Handing out a record makes a fresh one or leaves all as they are. -/
theorem record?_acquire {fresh : ρ} {i : Nat} (h : r.acquire fresh = .ok (i, r')) (j : Nat) :
    r'.record? j = r.record? j ∨ r.record? j = none ∧ r'.record? j = some fresh := by
  obtain ⟨hspares, -, hself, -⟩ := acquire_eq_ok h
  by_cases hj : j = i
  · subst hj
    cases hr : r.record? j with
    | none => exact .inr ⟨rfl, by rw [hself, hr]; rfl⟩
    | some x => exact .inl (by rw [hself, hr]; rfl)
  · exact .inl (hspares.record? j hj)

theorem record?_map_of_eq {σ : Type} {f : ρ → σ} {i : Nat} {x : ρ} (h : r.record? i = some x) :
    (r.map f).record? i = some (f x) := by
  rw [record?_map, h]
  rfl

end Roster

/-! ## All records -/

/-- Every record of a roster is a fresh one, or a guard at most was taken on it or dropped. -/
def Epochs.Turns {α : Type} (e : Epochs α) (roster : Roster Pin) : Prop :=
  ∀ r q, roster.record? r = some q →
    q = {} ∨ ∃ p, e.roster.record? r = some p ∧ p.Turns e.epoch q

namespace Scheme

variable {α : Type} {e : Epochs α} {roster : Roster Pin}

theorem Sound.of_turns (hs : (epochs e).Sound) (hturns : e.Turns roster) :
    (epochs { e with roster := roster }).Sound := by
  intro r q hq
  rcases hturns r q hq with rfl | ⟨p, hp, hturn⟩
  · exact ⟨rfl, nofun⟩
  · exact (hturn.keeps (hs r p hp).1 (hs r p hp).2).1

/-- What a record covers, it covers as long as it is pinned. -/
theorem Covers.of_turns {r : Nat} {slot : Slot} {x : Retired α} (hs : (epochs e).Sound)
    (h : (epochs e).Covers r slot x) (hturns : e.Turns roster)
    (hpinned : ∃ q, roster.record? r = some q ∧ q.pinned = true) :
    (epochs { e with roster := roster }).Covers r slot x := by
  obtain ⟨p, hp, hpin, htag⟩ := h
  obtain ⟨q, hq, hpin'⟩ := hpinned
  rcases hturns r q hq with rfl | ⟨p', hp', hturn⟩
  · cases hpin'
  · cases hp.symm.trans hp'
    have hepoch := (hturn.keeps (hs r p hp).1 (hs r p hp).2).2 hpin hpin'
    exact ⟨q, hq, hpin', hepoch ▸ htag⟩

end Scheme

namespace PackedEpochs

open PackedPin

variable {α : Type}

/-! ## What a sweep takes out -/

/-- A collection takes out what was retired at least two epochs ago. -/
theorem collect_parts (e : PackedEpochs α) :
    e.limbo.Parts (fun x => decide (x.tag + 2 ≤ e.epoch.toNat)) e.collect.1 e.collect.2.limbo :=
  e.limbo.sweep_parts e.isRipe

/-- A reclamation moves the global epoch on by one, unless a pinned record shows another epoch. Then
it takes out what was retired at least two epochs ago. -/
theorem reclaim_parts {e : PackedEpochs α} (h : e.epoch.toNat < epochBound) :
    e.reclaim.2.epoch.toNat = (e.epoch.toNat +
      if e.roster.any fun p => p.lags e.epoch then 0 else 1) ∧
    e.limbo.Parts (fun x => decide (x.tag + 2 ≤ e.reclaim.2.epoch.toNat)) e.reclaim.1
      e.reclaim.2.limbo := by
  have hepoch : e.advance.2.epoch.toNat = e.unpack.advance.2.epoch :=
    congrArg (fun x => x.2.epoch) (unpack_advance h)
  have hlimbo : e.advance.2.limbo = e.limbo := by
    rw [advance]
    split <;> rfl
  constructor
  · refine hepoch.trans ?_
    rw [Epochs.advance, unpack_any_lags]
    split <;> rfl
  · rw [← hlimbo]
    exact e.advance.2.collect_parts

/-! ## What a pinned record keeps -/

/-- A record is pinned. -/
def Pinned (e : PackedEpochs α) (r : Nat) : Prop :=
  ∃ p, e.roster.record? r = some p ∧ p.isPinned = true

/-- What the records say is in order. -/
def Sound (e : PackedEpochs α) : Prop := (Scheme.epochs e.unpack).Sound

/-- An entry waits, and a record keeps it from being taken out. -/
def Holds (e : PackedEpochs α) (r : Nat) (x : Retired α) : Prop :=
  x ∈ e.limbo.entries ∧ (Scheme.epochs e.unpack).Covers r .curr x

/-- What can be done to epochs with packed records, with the nodes that are taken out. -/
inductive Step (e : PackedEpochs α) : List α → PackedEpochs α → Prop where
  | register {r roster} (h : e.roster.acquire {} = .ok (r, roster)) :
    Step e [] { e with roster := roster }
  | release (r) : Step e [] { e with roster := e.roster.release r }
  | enter {r p} (hp : e.roster.record? r = some p) :
    Step e [] { e with roster := e.roster.update r fun _ => p.enter e.epoch }
  | exit {r p q} (hp : e.roster.record? r = some p) (hexit : p.exit = .ok q) :
    Step e [] { e with roster := e.roster.update r fun _ => q }
  | advance : Step e [] e.advance.2
  | collect : Step e e.collect.1 e.collect.2
  | reclaim : Step e e.reclaim.1 e.reclaim.2
  | retire (r node) : Step e (e.retire r node).1 (e.retire r node).2

/-- What is known of the words is known of what they say. -/
theorem turns_of_words {e : PackedEpochs α} {roster : Roster PackedPin}
    (h : ∀ r q, roster.record? r = some q → q = {} ∨
      ∃ p, e.roster.record? r = some p ∧ p.unpack.Turns e.epoch.toNat q.unpack) :
    e.unpack.Turns (roster.map PackedPin.unpack) := by
  intro r q hq
  rw [Roster.record?_map] at hq
  obtain ⟨q', hq', rfl⟩ := Option.map_eq_some_iff.1 hq
  rcases h r q' hq' with rfl | ⟨p, hp, hturn⟩
  · exact .inl rfl
  · exact .inr ⟨p.unpack, Roster.record?_map_of_eq hp, hturn⟩

/-- One record is replaced. -/
theorem turns_update {e : PackedEpochs α} {r : Nat} {p q : PackedPin}
    (hp : e.roster.record? r = some p) (hturn : p.unpack.Turns e.epoch.toNat q.unpack) :
    e.unpack.Turns ((e.roster.update r fun _ => q).map PackedPin.unpack) := by
  refine turns_of_words fun r' q' hq' => ?_
  rw [Roster.record?_update] at hq'
  split at hq'
  · next hr =>
    subst hr
    rw [hp] at hq'
    cases hq'
    exact .inr ⟨p, hp, hturn⟩
  · exact .inr ⟨q', hq', .stays⟩

variable [DecidableEq α] {e e' : PackedEpochs α} {nodes : List α}

/-- A step changes nothing but records, each of them by a guard at most, or it lets go of waiting
nodes that no record covers, after it may have put one more on top of them. -/
theorem Step.cases (h : e.Step nodes e') (hbound : e.epoch.toNat < epochBound) (hs : e.Sound) :
    (∃ roster, e' = { e with roster := roster } ∧
      e.unpack.Turns (roster.map PackedPin.unpack)) ∨
    (Scheme.epochs e.unpack).Sheds (.epochs e'.unpack) nodes ∨
    ∃ node, ((Scheme.epochs e.unpack).shelve node).Sheds (.epochs e'.unpack) nodes := by
  cases h with
  | register h =>
    refine .inl ⟨_, rfl, turns_of_words fun r q hq => ?_⟩
    rcases Roster.record?_acquire h r with hr | ⟨-, hr⟩
    · exact .inr ⟨q, hr ▸ hq, .stays⟩
    · rw [hr] at hq
      exact .inl (Option.some.inj hq).symm
  | release r =>
    refine .inl ⟨_, rfl, turns_of_words fun r' q hq => .inr ⟨q, ?_, .stays⟩⟩
    rwa [Roster.record?_release] at hq
  | enter hp =>
    refine .inl ⟨_, rfl, turns_update hp ?_⟩
    rw [unpack_enter hbound]
    exact .enters
  | exit hp hexit => exact .inl ⟨_, rfl, turns_update hp (.exits (unpack_exit hexit))⟩
  | advance =>
    have hsheds := Scheme.advance_sheds hs
    rw [← unpack_advance hbound] at hsheds
    exact .inr (.inl hsheds)
  | collect =>
    have hsheds := Scheme.collect_sheds hs
    rw [← unpack_collect] at hsheds
    exact .inr (.inl hsheds)
  | reclaim =>
    have hsheds := Scheme.reclaim_sheds hs
    rw [Scheme.reclaim, ← unpack_reclaim hbound] at hsheds
    exact .inr (.inl hsheds)
  | retire r node =>
    have hretire := (Scheme.retire_yields hs r node).1
    rw [← unpack_retire hbound] at hretire
    exact .inr (.inr ⟨node, hretire⟩)

/-- Every step leaves the records in order. -/
theorem Step.sound (h : e.Step nodes e') (hbound : e.epoch.toNat < epochBound) (hs : e.Sound) :
    e'.Sound := by
  rcases h.cases hbound hs with ⟨roster, rfl, hturns⟩ | hsheds | ⟨node, hsheds⟩
  · exact Scheme.Sound.of_turns hs hturns
  · exact hsheds.sound
  · exact hsheds.sound

omit [DecidableEq α] in
theorem Holds.of_sheds {s : Scheme α} (h : s.Sheds (.epochs e'.unpack) nodes) {r : Nat}
    {x : Retired α} (hx : x ∈ s.limbo.entries) (hcovers : s.Covers r .curr x) : e'.Holds r x := by
  obtain ⟨f, -, hkept, hfree, -⟩ := h.swept
  refine ⟨hkept.mem_iff.2 (List.mem_filter.2 ⟨hx, ?_⟩), h.covers r _ x hcovers⟩
  cases hf : f x with
  | false => rfl
  | true => exact absurd hcovers (hfree x hf r .curr)

/-- What a record keeps, it keeps in every step that leaves it pinned. -/
theorem Step.holds (h : e.Step nodes e') (hbound : e.epoch.toNat < epochBound) (hs : e.Sound)
    {r : Nat} {x : Retired α} (hpinned : e'.Pinned r) (hx : e.Holds r x) : e'.Holds r x := by
  rcases h.cases hbound hs with ⟨roster, rfl, hturns⟩ | hsheds | ⟨node, hsheds⟩
  · obtain ⟨q, hq, hpin⟩ := hpinned
    exact ⟨hx.1, hx.2.of_turns hs hturns ⟨q.unpack, Roster.record?_map_of_eq hq, hpin⟩⟩
  · exact .of_sheds hsheds hx.1 hx.2
  · refine .of_sheds hsheds ?_ ((Scheme.shelve_covers _ _ _ _ _).2 hx.2)
    rw [Scheme.shelve_entries]
    exact List.mem_cons_of_mem _ hx.1

/-! ## Steps one after the other -/

/-- Steps one after the other, none of them at the bound of the epochs. Each of them comes to a
state with a property. -/
inductive Steps (P : PackedEpochs α → Prop) (e₀ : PackedEpochs α) : PackedEpochs α → Prop where
  | nil : Steps P e₀ e₀
  | snoc {e e' : PackedEpochs α} {nodes : List α} (h : Steps P e₀ e)
    (hbound : e.epoch.toNat < epochBound) (hstep : e.Step nodes e') (hnext : P e') : Steps P e₀ e'

theorem Steps.sound {P : PackedEpochs α → Prop} (h : Steps P e e') (hs : e.Sound) : e'.Sound := by
  induction h with
  | nil => exact hs
  | snoc _ hbound hstep _ ih => exact hstep.sound hbound ih

omit [DecidableEq α] in
theorem sound_ofTuning (t : Tuning) : (ofTuning t : PackedEpochs α).Sound := by
  intro r p hp
  simp [unpack, ofTuning, Roster.record?, Roster.map] at hp

/-- What is retired while a record is pinned waits as long as the record stays pinned, whatever else
is done and however often nodes are collected. -/
theorem waits_while_pinned {t : Tuning} (h : Steps (fun _ => True) (ofTuning t) e)
    (hbound : e.epoch.toNat < epochBound) {r : Nat} (hpinned : e.Pinned r) (q : Nat) (node : α)
    (hstays : Steps (Pinned · r) (e.retire q node).2 e') :
    ⟨node, e.epoch.toNat⟩ ∈ e'.limbo.entries := by
  have hs := h.sound (sound_ofTuning t)
  have hretired : (e.retire q node).2.Holds r ⟨node, e.epoch.toNat⟩ := by
    obtain ⟨p, hp, hpin⟩ := hpinned
    have hrecord : e.unpack.roster.record? r = some p.unpack := Roster.record?_map_of_eq hp
    have hretire := (Scheme.retire_yields hs q node).1
    rw [← unpack_retire hbound] at hretire
    refine .of_sheds hretire ?_ ?_
    · rw [Scheme.shelve_entries]
      exact List.mem_cons_self
    · exact ⟨p.unpack, hrecord, hpin, ((hs r _ hrecord).2 hpin).1⟩
  have hholds : e'.Sound ∧ e'.Holds r ⟨node, e.epoch.toNat⟩ := by
    induction hstays with
    | nil => exact ⟨(Step.retire q node).sound hbound hs, hretired⟩
    | snoc _ hbound hstep hnext ih =>
      exact ⟨hstep.sound hbound ih.1, hstep.holds hbound ih.1 hnext ih.2⟩
  exact hholds.2.1

end PackedEpochs

/-- Whatever a session serves changes nothing of its epochs or is such a step. -/
theorem Epochs.Session.step_of_perform {s s' : Session} {q : Request} {response : Response}
    (h : s.perform q = .ok (response, s')) :
    s'.epochs = s.epochs ∨ ∃ nodes, s.epochs.Step nodes s'.epochs := by
  cases q with
  | pin holder name =>
    cases perform_serves h with
    | pin hname hp =>
      cases holder with
      | seated i => exact .inr ⟨[], .enter hp⟩
      | loose i => exact .inl rfl
    | sweep hq => cases hq
  | unpin name =>
    cases perform_serves h with
    | @unpin holder _ _ _ hname hp hexit =>
      cases holder with
      | seated i => exact .inr ⟨[], .exit hp hexit⟩
      | loose i => exact .inl rfl
    | sweep hq =>
      have hname : s.guards.lookup name = none := hq
      rw [perform, hname] at h
      cases h
  | advance =>
    cases h
    exact .inr ⟨[], .advance⟩
  | collect =>
    cases h
    exact .inr ⟨_, .collect⟩
  | reclaim =>
    cases h
    exact .inr ⟨_, .reclaim⟩
  | malformed => cases h

end MarkedChain
