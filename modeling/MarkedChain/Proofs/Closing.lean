import MarkedChain.Proofs.Contents
import MarkedChain.Proofs.Payloads
import MarkedChain.Proofs.Runs

/-!
# Ending everything

Where a node was ever made, pools can be reserved (`Run.poolsFit`), so nothing keeps a set from
being dropped. When no operation is in progress, ending all protection and giving back all handles
leaves every set its nodes (`World.Vacates`), and dropping a set frees all of them
(`Sound.teardown_eq_ok`). `World.Sound.close_eq_ok` puts the two together.
-/

namespace MarkedChain

variable {κ ν : Type}

/-! ## Pools -/

namespace SharedSet

variable {s s' : SharedSet κ ν}

/-- Pools can be reserved, or none was asked for yet. -/
def PoolsFit (s : SharedSet κ ν) : Prop := s.memory.poolFits = true ∨ s.memory.allocated = 0

/-- The capacity of the pools is as it was, and a node was made only if pools can be reserved. -/
def Allots (s s' : SharedSet κ ν) : Prop :=
  s'.memory.capacity = s.memory.capacity ∧
    (s'.memory.allocated = s.memory.allocated ∨ s.memory.poolFits = true)

theorem PoolsFit.allots (h : s.PoolsFit) (ha : s.Allots s') : s'.PoolsFit := by
  obtain ⟨hcapacity, hmade⟩ := ha
  rw [PoolsFit, Memory.poolFits_congr hcapacity]
  rcases hmade with hsame | hfits
  · rwa [hsame]
  · exact .inl hfits

theorem Relinks.allots {pl : Place} {l : Link Address} (h : s.Relinks s' pl l) : s.Allots s' :=
  ⟨h.capacity, .inl h.allocated⟩

theorem Clears.allots {curr : Address} {drops : List ν} (h : s.Clears s' curr drops) :
    s.Allots s' := by
  obtain ⟨t, sch, m, nodes, hu, -, hdrops, -, rfl⟩ := h
  exact ⟨hdrops.capacity.trans hu.capacity, .inl (hdrops.allocated.trans hu.memory.1)⟩

end SharedSet

section

variable [Ord κ] {s : SharedSet κ ν} {who : Actor} {f : Frame κ} {st : Stride κ ν}

/-- No move of an operation makes a node. -/
theorem Move.allots (h : Move s who f st) : s.Allots st.set := by
  cases h with
  | start | finish | look | stray | follow | pass | stop | beaten | tell => exact ⟨rfl, .inl rfl⟩
  | clear t pred hn hm hl hclears => exact hclears.allots
  | reject pred next hn heq hn₀ hdrops => exact ⟨hdrops.capacity, .inl hdrops.allocated⟩
  | insert hgap hprepare hl hwrite =>
    exact ⟨hwrite.capacity.trans hprepare.capacity,
      .inl (hwrite.allocated.trans hprepare.allocated)⟩
  | retry hgap hprepare hl hne => exact hprepare.allots
  | mark pred next hn heq hm hmark hl hne => exact hmark.allots
  | remove pred next hn heq hm hmark hl hclears =>
    obtain ⟨hcapacity, hmade⟩ := hclears.allots
    refine ⟨hcapacity.trans hmark.capacity, hmade.imp (·.trans hmark.allocated) fun hfits => ?_⟩
    rwa [Memory.poolFits_congr hmark.capacity] at hfits

theorem Passage.allots {w : World κ ν} {a : Action κ ν} {o : Outcome κ ν} (h : Passage w a o)
    {i : Nat} {s s' : SharedSet κ ν} (hs : w.sets[i]? = some s)
    (hs' : o.world.sets[i]? = some s') : s.Allots s' := by
  have hset : ∀ {j : Nat} {t t' : SharedSet κ ν}, w.sets[j]? = some t →
      o.world.sets = (w.setSet j t').sets → t.Allots t' → s.Allots s' := by
    intro j t t' ht hsets hallots
    obtain ⟨-, rfl, rfl⟩ | rfl := World.setSet_cases ht hs (hsets ▸ hs')
    · exact hallots
    · exact ⟨rfl, .inl rfl⟩
  cases h with
  | misuse =>
    rw [hs] at hs'
    cases hs'
    exact ⟨rfl, .inl rfl⟩
  | sweep _ _ _ _ ht _ hdrops => exact hset ht rfl ⟨hdrops.capacity, .inl hdrops.allocated⟩
  | register ht => exact hset ht rfl ⟨rfl, .inl rfl⟩
  | release _ _ ht => exact hset ht rfl ⟨rfl, .inl rfl⟩
  | resume _ _ ht => exact hset ht rfl ⟨rfl, .inl rfl⟩
  | begin _ _ _ _ _ _ _ _ ht hopens =>
    refine hset ht rfl ?_
    cases hopens with
    | insert hbirth => exact ⟨hbirth.capacity, .inr hbirth.fits⟩
    | plain => exact ⟨rfl, .inl rfl⟩
  | goes _ _ ht hmove => exact hset ht rfl hmove.allots
  | ends _ _ ht hmove => exact hset ht rfl hmove.allots

/-- In a run from empty sets pools can be reserved wherever a node was made. -/
theorem Run.poolsFit [Std.TransOrd κ] {kind : Scheme.Kind} {ts : List Tuning}
    {es : List (Event κ ν)} {w : World κ ν} (h : Run (.ofTunings kind ts) es w) {i : Nat}
    {s : SharedSet κ ν} (hs : w.sets[i]? = some s) : s.PoolsFit := by
  induction h generalizing s with
  | nil =>
    obtain ⟨t, rfl⟩ := World.eq_ofTuning hs
    exact .inr rfl
  | @snoc es w a o h hstep ih =>
    have hw := h.sound (World.sound_ofTunings kind ts) h.worldAt_last
    have hp := (World.step_settles hw _).of_ok hstep
    obtain ⟨t, ht⟩ := hp.exists_set hs
    exact (ih ht).allots (hp.allots ht hs)

end

/-! ## One set -/

section

variable [Ord κ] {s : SharedSet κ ν}

/-- The values that are dropped with a set: those on the chain, then those in limbo. -/
def SharedSet.dropped (s : SharedSet κ ν) : List ν := (s.linked ++ s.retired).filterMap s.value?

/-- Where there is a node, one was made before, so pools can be reserved. -/
theorem SharedSet.Sound.roomy {own : List Address} (hs : s.Sound own) (h : s.PoolsFit) :
    s.memory.Roomy := by
  intro a n hn
  refine h.resolve_right fun hnone => ?_
  have hbalance := hs.balance
  have hpos := List.length_pos_of_mem ((hs.live a).1 (by rw [hn]; rfl))
  rw [List.length_append, List.length_append] at hpos
  omega

end

/-! ## All sets -/

/-- Nothing has happened but to records and handles, and no operation is in progress. -/
structure World.Vacates [Ord κ] (w w' : World κ ν) : Prop where
  sound : w'.Sound
  idle : w'.running = []
  stored : w.stored.Perm w'.stored
  sets : ∀ (i : Nat) (s : SharedSet κ ν), w.sets[i]? = some s →
    ∃ sch, w'.sets[i]? = some { s with scheme := sch } ∧ sch.limbo = s.scheme.limbo
  size : w'.sets.size = w.sets.size

namespace World

variable [Ord κ] {w w' w'' : World κ ν}

theorem Vacates.refl (hw : w.Sound) (hidle : w.running = []) : w.Vacates w :=
  ⟨hw, hidle, .refl _, fun _ s hs => ⟨s.scheme, hs, rfl⟩, rfl⟩

theorem Vacates.trans (h : w.Vacates w') (h' : w'.Vacates w'') : w.Vacates w'' where
  sound := h'.sound
  idle := h'.idle
  stored := h.stored.trans h'.stored
  sets i s hs := by
    obtain ⟨sch, hs', hlimbo⟩ := h.sets i s hs
    obtain ⟨sch', hs'', hlimbo'⟩ := h'.sets i _ hs'
    exact ⟨sch', hs'', hlimbo'.trans hlimbo⟩
  size := h'.size.trans h.size

/-- The record of a handle changes, and then the handle. -/
theorem Vacates.touch {h r : Nat} {x x' : Handle} {s : SharedSet κ ν} {sch : Scheme Address}
    (hs : w.sets[x.set]? = some s) (htouches : s.scheme.Touches sch r) (hidle : w.running = [])
    (hsound : ((w.setSet x.set { s with scheme := sch }).setHandle h x').Sound) :
    w.Vacates ((w.setSet x.set { s with scheme := sch }).setHandle h x') where
  sound := hsound
  idle := hidle
  stored := stored_setSet hs [] [] (.refl _)
  sets i t ht := by
    change ∃ sch', (w.setSet _ _).sets[i]? = _ ∧ _
    rw [getElem?_setSet hs]
    split
    · next hi =>
      subst hi
      rw [hs] at ht
      cases ht
      exact ⟨sch, rfl, htouches.limbo⟩
    · exact ⟨t.scheme, ht, rfl⟩
  size := Array.size_setIfInBounds

end World

end MarkedChain
