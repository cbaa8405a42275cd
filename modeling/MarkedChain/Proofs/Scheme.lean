import MarkedChain.Scheme
import MarkedChain.Proofs.Limbo
import MarkedChain.Proofs.Limits
import MarkedChain.Proofs.Roster

/-!
# What the records of participants protect

Both schemes keep a retired node as long as some record covers its entry (`Scheme.Covers`): under
epochs a pinned record covers what was retired in its epoch or later, under hazard slots a record
covers the nodes that it publishes. `Scheme.stamp` is the tag that a node gets if it is retired now.

A scheme changes in two ways. `Scheme.Touches` says that it changed in one record only, which is all
that pinning, unpinning and publishing do. `Scheme.Sheds` says that it let go of some of the entries
that no record covers, and perhaps moved on to the next epoch; retiring a node puts its entry on top
(`Scheme.shelve`) and then sheds.
-/

namespace MarkedChain

namespace Scheme

variable {α : Type}

/-! ## The view -/

/-- The tag under which a node would be retired now. -/
def stamp : Scheme α → Nat
  | .epochs e => e.epoch
  | .hazards _ => 0

/-- How many guards there are on a record, if it exists. -/
def depth? : Scheme α → Nat → Option Nat
  | .epochs e, r => (e.roster.record? r).map Pin.depth
  | .hazards h, r => (h.roster.record? r).map fun q => if q.guarded then 1 else 0

/-- Whether somebody holds a record, if it exists. -/
def taken? : Scheme α → Nat → Option Bool
  | .epochs e, r => e.roster.taken? r
  | .hazards h, r => h.roster.taken? r

/-- A record keeps an entry from being swept out, by one of its slots if it has any. -/
def Covers (s : Scheme α) (r : Nat) (slot : Slot) (x : Retired α) : Prop :=
  match s with
  | .epochs e => ∃ p, e.roster.record? r = some p ∧ p.pinned = true ∧ p.epoch ≤ x.tag
  | .hazards h => ∃ q, h.roster.record? r = some q ∧ q.published slot = some x.node

/-- The records are in order. A pin is visible while there are guards and is at most one epoch
behind; slots without a guard are empty. -/
def Sound : Scheme α → Prop
  | .epochs e => ∀ r p, e.roster.record? r = some p → p.pinned = decide (p.depth ≠ 0) ∧
      (p.pinned = true → p.epoch ≤ e.epoch ∧ e.epoch ≤ p.epoch + 1)
  | .hazards h => ∀ r q, h.roster.record? r = some q → q.guarded = false →
      q.pred = none ∧ q.curr = none ∧ q.succ = none

/-- A later entry of the same node is covered as well. -/
theorem Covers.later {s : Scheme α} {r : Nat} {slot : Slot} {x y : Retired α}
    (h : s.Covers r slot x) (hnode : y.node = x.node) (htag : x.tag ≤ y.tag) :
    s.Covers r slot y := by
  cases s with
  | epochs e =>
    obtain ⟨p, hp, hpin, hx⟩ := h
    exact ⟨p, hp, hpin, Nat.le_trans hx htag⟩
  | hazards h => rwa [Covers, hnode]

/-- Where the scheme does not look at nodes, a later entry of any node is covered, by any slot. -/
theorem Covers.later_of_epochs {s : Scheme α} {r : Nat} {slot : Slot} {x y : Retired α}
    (h : s.Covers r slot x) (hv : s.validates = false) (htag : x.tag ≤ y.tag) (slot' : Slot) :
    s.Covers r slot' y := by
  cases s with
  | epochs e =>
    obtain ⟨p, hp, hpin, hx⟩ := h
    exact ⟨p, hp, hpin, Nat.le_trans hx htag⟩
  | hazards h => cases hv

/-! ## Changes in one record -/

/-- A scheme changed in the record `r` only. -/
structure Touches (s s' : Scheme α) (r : Nat) : Prop where
  validates : s'.validates = s.validates
  limbo : s'.limbo = s.limbo
  stamp : s'.stamp = s.stamp
  covers : ∀ r', r' ≠ r → ∀ slot x, s.Covers r' slot x → s'.Covers r' slot x
  depth? : ∀ r', r' ≠ r → s'.depth? r' = s.depth? r'
  taken? : ∀ r', r' ≠ r → s'.taken? r' = s.taken? r'

theorem Touches.refl (s : Scheme α) (r : Nat) : s.Touches s r :=
  ⟨rfl, rfl, rfl, fun _ _ _ _ h => h, fun _ _ => rfl, fun _ _ => rfl⟩

theorem Touches.of_epochs {e : Epochs α} {roster : Roster Pin} {r : Nat}
    (h : e.roster.Spares roster r) :
    (Scheme.epochs e).Touches (.epochs { e with roster := roster }) r where
  validates := rfl
  limbo := rfl
  stamp := rfl
  covers r' hr slot x hx := by
    obtain ⟨p, hp, hx⟩ := hx
    exact ⟨p, (h.record? r' hr).trans hp, hx⟩
  depth? r' hr := congrArg (Option.map Pin.depth) (h.record? r' hr)
  taken? := h.taken?

theorem Touches.of_hazards {h : Hazards α} {roster : Roster (Shield α)} {r : Nat}
    (hsp : h.roster.Spares roster r) :
    (Scheme.hazards h).Touches (.hazards { h with roster := roster }) r where
  validates := rfl
  limbo := rfl
  stamp := rfl
  covers r' hr slot x hx := by
    obtain ⟨q, hq, hx⟩ := hx
    exact ⟨q, (hsp.record? r' hr).trans hq, hx⟩
  depth? r' hr := congrArg (Option.map _) (hsp.record? r' hr)
  taken? := hsp.taken?

/-- After a change in one record it is enough to look at that one. -/
theorem Sound.of_epochs {e : Epochs α} (hs : (Scheme.epochs e).Sound) {roster : Roster Pin}
    {r : Nat} (h : e.roster.Spares roster r) {p : Pin} (hp : roster.record? r = some p)
    (hself : p.pinned = decide (p.depth ≠ 0) ∧
      (p.pinned = true → p.epoch ≤ e.epoch ∧ e.epoch ≤ p.epoch + 1)) :
    (Scheme.epochs { e with roster := roster }).Sound := by
  intro r' p' hp'
  by_cases hr : r' = r
  · subst hr
    cases hp.symm.trans hp'
    exact hself
  · exact hs r' p' ((h.record? r' hr).symm.trans hp')

theorem Sound.of_hazards {h : Hazards α} (hs : (Scheme.hazards h).Sound)
    {roster : Roster (Shield α)} {r : Nat} (hsp : h.roster.Spares roster r) {q : Shield α}
    (hq : roster.record? r = some q)
    (hself : q.guarded = false → q.pred = none ∧ q.curr = none ∧ q.succ = none) :
    (Scheme.hazards { h with roster := roster }).Sound := by
  intro r' q' hq'
  by_cases hr : r' = r
  · subst hr
    cases hq.symm.trans hq'
    exact hself
  · exact hs r' q' ((hsp.record? r' hr).symm.trans hq')

/-! ### Publishing -/

theorem publish_touches (s : Scheme α) (r : Nat) (slot : Slot) (x : Option α) :
    s.Touches (s.publish r slot x) r := by
  cases s with
  | epochs e => exact .refl _ _
  | hazards h => exact .of_hazards (h.roster.spares_update r _)

theorem transfer_touches (s : Scheme α) (r : Nat) (source target : Slot) :
    s.Touches (s.transfer r source target) r := by
  cases s with
  | epochs e => exact .refl _ _
  | hazards h => exact .of_hazards (h.roster.spares_update r _)

theorem published_publish (q : Shield α) (slot slot' : Slot) (x : Option α) :
    (q.publish slot x).published slot' = if slot' = slot then x else q.published slot' := by
  cases slot <;> cases slot' <;> rfl

theorem guarded_publish (q : Shield α) (slot : Slot) (x : Option α) :
    (q.publish slot x).guarded = q.guarded := by
  cases slot <;> rfl

/-- Changes of the slots alone leave the guards as they are. -/
theorem depth?_hazards_update (h : Hazards α) (r r' : Nat) {f : Shield α → Shield α}
    (hf : ∀ q, (f q).guarded = q.guarded) :
    (Scheme.hazards { h with roster := h.roster.update r f }).depth? r' =
      (Scheme.hazards h).depth? r' := by
  simp only [depth?, Roster.record?_update]
  split
  · simp only [Option.map_map]
    congr 1
    funext q
    simp [hf]
  · rfl

theorem publish_depth? (s : Scheme α) (r : Nat) (slot : Slot) (x : Option α) (r' : Nat) :
    (s.publish r slot x).depth? r' = s.depth? r' := by
  cases s with
  | epochs e => rfl
  | hazards h => exact depth?_hazards_update h r r' fun q => guarded_publish q slot x

theorem transfer_depth? (s : Scheme α) (r : Nat) (source target : Slot) (r' : Nat) :
    (s.transfer r source target).depth? r' = s.depth? r' := by
  cases s with
  | epochs e => rfl
  | hazards h => exact depth?_hazards_update h r r' fun q => guarded_publish q target _

/-- The slots of a guarded record may hold anything. -/
theorem Sound.hazards_update {h : Hazards α} (hs : (Scheme.hazards h).Sound) {r : Nat}
    (hr : (Scheme.hazards h).depth? r = some 1) {f : Shield α → Shield α}
    (hf : ∀ q, (f q).guarded = q.guarded) :
    (Scheme.hazards { h with roster := h.roster.update r f }).Sound := by
  obtain ⟨q, hq, hguard⟩ := Option.map_eq_some_iff.1 hr
  refine hs.of_hazards (h.roster.spares_update r f) (Roster.record?_update_self hq f) fun hg => ?_
  rw [hf] at hg
  simp [hg] at hguard

theorem Sound.publish {s : Scheme α} (hs : s.Sound) {r : Nat} (hr : s.depth? r = some 1)
    (slot : Slot) (x : Option α) : (s.publish r slot x).Sound := by
  cases s with
  | epochs e => exact hs
  | hazards h => exact hs.hazards_update hr fun q => guarded_publish q slot x

theorem Sound.transfer {s : Scheme α} (hs : s.Sound) {r : Nat} (hr : s.depth? r = some 1)
    (source target : Slot) : (s.transfer r source target).Sound := by
  cases s with
  | epochs e => exact hs
  | hazards h => exact hs.hazards_update hr fun q => guarded_publish q target _

/-- A record with a guard covers what it publishes, and under epochs whatever is retired from now
on. -/
theorem Sound.publish_covers {s : Scheme α} (hs : s.Sound) {r : Nat} (hr : s.depth? r = some 1)
    (slot : Slot) (a : α) : (s.publish r slot (some a)).Covers r slot ⟨a, s.stamp⟩ := by
  cases s with
  | epochs e =>
    obtain ⟨p, hp, hd⟩ := Option.map_eq_some_iff.1 hr
    have hpin : p.pinned = true := by simp [(hs r p hp).1, hd]
    exact ⟨p, hp, hpin, ((hs r p hp).2 hpin).1⟩
  | hazards h =>
    obtain ⟨q, hq, -⟩ := Option.map_eq_some_iff.1 hr
    exact ⟨_, Roster.record?_update_self hq _, by simp [published_publish]⟩

theorem publish_covers_of_ne {s : Scheme α} {r : Nat} {slot slot' : Slot} {x : Retired α}
    (hx : s.Covers r slot' x) (hne : slot' ≠ slot) (y : Option α) :
    (s.publish r slot y).Covers r slot' x := by
  cases s with
  | epochs e => exact hx
  | hazards h =>
    obtain ⟨q, hq, hx⟩ := hx
    exact ⟨_, Roster.record?_update_self hq _, by rw [published_publish, if_neg hne, hx]⟩

/-- What one slot covers, the other one covers too after a transfer. -/
theorem transfer_covers {s : Scheme α} {r : Nat} {source : Slot} {x : Retired α}
    (hx : s.Covers r source x) (target : Slot) :
    (s.transfer r source target).Covers r target x := by
  cases s with
  | epochs e => exact hx
  | hazards h =>
    obtain ⟨q, hq, hx⟩ := hx
    exact ⟨_, Roster.record?_update_self hq _, by simp [Shield.transfer, published_publish, hx]⟩

theorem transfer_covers_of_ne {s : Scheme α} {r : Nat} {slot source target : Slot}
    {x : Retired α} (hx : s.Covers r slot x) (hne : slot ≠ target) :
    (s.transfer r source target).Covers r slot x := by
  cases s with
  | epochs e => exact hx
  | hazards h =>
    obtain ⟨q, hq, hx⟩ := hx
    exact ⟨_, Roster.record?_update_self hq _, by
      rw [Shield.transfer, published_publish, if_neg hne, hx]⟩

/-- Where the scheme does not look at nodes, publishing one changes nothing. -/
theorem publish_of_epochs {s : Scheme α} (hv : s.validates = false) (r : Nat) (slot : Slot)
    (x : Option α) : s.publish r slot x = s := by
  cases s with
  | epochs e => rfl
  | hazards h => cases hv

theorem transfer_of_epochs {s : Scheme α} (hv : s.validates = false) (r : Nat)
    (source target : Slot) : s.transfer r source target = s := by
  cases s with
  | epochs e => rfl
  | hazards h => cases hv

theorem publish_taken? (s : Scheme α) (r : Nat) (slot : Slot) (x : Option α) (r' : Nat) :
    (s.publish r slot x).taken? r' = s.taken? r' := by
  cases s with
  | epochs e => rfl
  | hazards h => exact Roster.taken?_update _ _ _ _

theorem transfer_taken? (s : Scheme α) (r : Nat) (source target : Slot) (r' : Nat) :
    (s.transfer r source target).taken? r' = s.taken? r' := by
  cases s with
  | epochs e => rfl
  | hazards h => exact Roster.taken?_update _ _ _ _

/-! ### Pinning -/

/-- A record without a guard can be pinned. It shows the global epoch then. -/
theorem exists_pin {s : Scheme α} (hs : s.Sound) {r : Nat} (hr : s.depth? r = some 0) :
    ∃ s', s.pin r = .ok s' ∧ s.Touches s' r ∧ s'.Sound ∧ s'.depth? r = some 1 ∧
      s'.taken? r = s.taken? r := by
  cases s with
  | epochs e =>
    obtain ⟨p, hp, hd⟩ := Option.map_eq_some_iff.1 hr
    have hspares := e.roster.spares_update r fun p => p.enter e.epoch
    have hself := Roster.record?_update_self hp fun p => p.enter e.epoch
    refine ⟨_, rfl, .of_epochs hspares, hs.of_epochs hspares hself ?_, ?_,
      Roster.taken?_update _ _ _ _⟩
    · simp [Pin.enter, hd]
    · exact Option.map_eq_some_iff.2 ⟨_, hself, by simp [Pin.enter, hd]⟩
  | hazards h =>
    obtain ⟨q, hq, hg⟩ := Option.map_eq_some_iff.1 hr
    have hg : q.guarded = false := by
      cases hq : q.guarded with
      | false => rfl
      | true => simp [hq] at hg
    have hpin : h.pin r =
        .ok { h with roster := h.roster.update r fun _ => { q with guarded := true } } := by
      simp only [Hazards.pin, hq, Shield.enter, hg]
      rfl
    have hspares := h.roster.spares_update r fun _ => { q with guarded := true }
    have hself := Roster.record?_update_self hq fun _ => { q with guarded := true }
    simp only [Scheme.pin, hpin]
    refine ⟨_, rfl, .of_hazards hspares, hs.of_hazards hspares hself ?_, ?_,
      Roster.taken?_update _ _ _ _⟩
    · intro hguard
      cases hguard
    · exact Option.map_eq_some_iff.2 ⟨_, hself, rfl⟩

/-- A record with a guard can be unpinned. -/
theorem exists_unpin {s : Scheme α} (hs : s.Sound) {r : Nat} (hr : s.depth? r = some 1) :
    ∃ s', s.unpin r = .ok s' ∧ s.Touches s' r ∧ s'.Sound ∧ s'.depth? r = some 0 ∧
      s'.taken? r = s.taken? r := by
  cases s with
  | epochs e =>
    obtain ⟨p, hp, hd⟩ := Option.map_eq_some_iff.1 hr
    have hexit : p.exit = .ok { p with depth := 0, pinned := false } := by simp [Pin.exit, hd]
    have hunpin : e.unpin r = .ok { e with
        roster := e.roster.update r fun _ => { p with depth := 0, pinned := false } } := by
      simp only [Epochs.unpin, hp, hexit]
      rfl
    have hspares := e.roster.spares_update r fun _ => { p with depth := 0, pinned := false }
    have hself := Roster.record?_update_self hp fun _ => { p with depth := 0, pinned := false }
    simp only [Scheme.unpin, hunpin]
    refine ⟨_, rfl, .of_epochs hspares, hs.of_epochs hspares hself ?_, ?_,
      Roster.taken?_update _ _ _ _⟩
    · simp
    · exact Option.map_eq_some_iff.2 ⟨_, hself, rfl⟩
  | hazards h =>
    obtain ⟨q, hq, -⟩ := Option.map_eq_some_iff.1 hr
    have hspares := h.roster.spares_update r Shield.exit
    have hself := Roster.record?_update_self hq Shield.exit
    refine ⟨_, rfl, .of_hazards hspares, hs.of_hazards hspares hself ?_, ?_,
      Roster.taken?_update _ _ _ _⟩
    · exact fun _ => ⟨rfl, rfl, rfl⟩
    · exact Option.map_eq_some_iff.2 ⟨_, hself, rfl⟩

/-- What it comes to when a record is pinned. -/
theorem pin_cases {s s' : Scheme α} {r : Nat} (h : s.pin r = .ok s') :
    (∃ e, s = .epochs e ∧ s' = .epochs (e.pin r)) ∨
      ∃ (q : Hazards α) (shield : Shield α), s = .hazards q ∧
        s' = .hazards { q with roster := q.roster.update r fun _ => shield } := by
  cases s with
  | epochs e =>
    cases h
    exact .inl ⟨e, rfl, rfl⟩
  | hazards q =>
    obtain ⟨q', hq', h⟩ := bind_eq_ok.1 h
    cases h
    rw [Hazards.pin] at hq'
    split at hq'
    · cases hq'
    · obtain ⟨shield, -, hq'⟩ := bind_eq_ok.1 hq'
      cases hq'
      exact .inr ⟨q, shield, rfl, rfl⟩

/-- What it comes to when a record is unpinned. -/
theorem unpin_cases {s s' : Scheme α} {r : Nat} (h : s.unpin r = .ok s') :
    (∃ (e : Epochs α) (p p' : Pin), s = .epochs e ∧ e.roster.record? r = some p ∧
        p.exit = .ok p' ∧ s' = .epochs { e with roster := e.roster.update r fun _ => p' }) ∨
      ∃ q, s = .hazards q ∧ s' = .hazards (q.unpin r) := by
  cases s with
  | hazards q =>
    cases h
    exact .inr ⟨q, rfl, rfl⟩
  | epochs e =>
    obtain ⟨e', he', h⟩ := bind_eq_ok.1 h
    cases h
    rw [Epochs.unpin] at he'
    split at he'
    · cases he'
    · next p hp =>
      obtain ⟨p', hexit, he'⟩ := bind_eq_ok.1 he'
      cases he'
      exact .inl ⟨e, p, p', rfl, hp, hexit, rfl⟩

/-! ### Registering -/

theorem taken?_eq_none_iff {s : Scheme α} {r : Nat} : s.taken? r = none ↔ s.depth? r = none := by
  cases s <;> simp [taken?, depth?, Roster.taken?, Roster.record?]

/-- If nobody holds a record without knowing it, a record without holder has no guard. -/
theorem depth?_of_not_taken {s : Scheme α} {r : Nat}
    (hquiet : ∀ r, s.taken? r = some false → s.depth? r = some 0) (h : s.taken? r ≠ some true) :
    s.depth? r = none ∨ s.depth? r = some 0 := by
  cases ht : s.taken? r with
  | none => exact .inl (taken?_eq_none_iff.1 ht)
  | some b =>
    cases b with
    | false => exact .inr (hquiet r ht)
    | true => exact absurd ht h

/-- A record that is handed out had no holder and has no guard. -/
theorem register_eq_ok {s s' : Scheme α} {r : Nat} (hs : s.Sound)
    (hquiet : ∀ r, s.taken? r = some false → s.depth? r = some 0)
    (hreg : s.register = .ok (r, s')) :
    s.Touches s' r ∧ s'.Sound ∧ s'.depth? r = some 0 ∧ s.taken? r ≠ some true ∧
      s'.taken? r = some true := by
  cases s with
  | epochs e =>
    obtain ⟨⟨i, roster⟩, hacq, hi⟩ := bind_eq_ok.1 hreg
    cases hi
    obtain ⟨hspares, hfree, hself, htaken⟩ := Roster.acquire_eq_ok hacq
    have hold := depth?_of_not_taken hquiet hfree
    refine ⟨.of_epochs hspares, hs.of_epochs hspares hself ?_,
      Option.map_eq_some_iff.2 ⟨_, hself, ?_⟩, hfree, htaken⟩
    · cases hr : e.roster.record? r with
      | none => simp
      | some p => exact hs r p hr
    · cases hr : e.roster.record? r with
      | none => rfl
      | some p => simpa [depth?, hr] using hold
  | hazards h =>
    obtain ⟨⟨i, roster⟩, hacq, hi⟩ := bind_eq_ok.1 hreg
    cases hi
    obtain ⟨hspares, hfree, hself, htaken⟩ := Roster.acquire_eq_ok hacq
    have hold := depth?_of_not_taken hquiet hfree
    refine ⟨.of_hazards hspares, hs.of_hazards hspares hself ?_,
      Option.map_eq_some_iff.2 ⟨_, hself, ?_⟩, hfree, htaken⟩
    · cases hr : h.roster.record? r with
      | none => exact fun _ => ⟨rfl, rfl, rfl⟩
      | some q => exact hs r q hr
    · cases hr : h.roster.record? r with
      | none => rfl
      | some q => simpa [depth?, hr] using hold

/-- A record that is given back keeps no slots, and all others stay as they were. -/
theorem release_touches {s : Scheme α} (hs : s.Sound) (r : Nat) :
    s.Touches (s.release r) r ∧ (s.release r).Sound ∧ (s.release r).depth? r = s.depth? r ∧
      (s.release r).taken? r = (s.taken? r).map fun _ => false := by
  cases s with
  | epochs e =>
    have hdepth := congrArg (Option.map Pin.depth) (Roster.record?_release e.roster r r)
    have htaken := Roster.taken?_release e.roster r r
    rw [if_pos rfl] at htaken
    refine ⟨.of_epochs (e.roster.spares_release r), ?_, hdepth, htaken⟩
    intro r' p hp
    rw [Roster.record?_release] at hp
    exact hs r' p hp
  | hazards h =>
    have hspares := (h.roster.spares_update r Shield.clear).trans
      ((h.clear r).roster.spares_release r)
    have hdepth : ((h.clear r).roster.release r).record? r = (h.clear r).roster.record? r :=
      Roster.record?_release _ _ _
    have htaken := Roster.taken?_release (h.clear r).roster r r
    rw [if_pos rfl, Hazards.clear, Roster.taken?_update] at htaken
    refine ⟨.of_hazards hspares, ?_, ?_, htaken⟩
    · intro r' q hq hg
      rw [Roster.record?_release] at hq
      change (h.roster.update r _).record? r' = some q at hq
      rw [Roster.record?_update] at hq
      split at hq
      · obtain ⟨q₀, -, rfl⟩ := Option.map_eq_some_iff.1 hq
        exact ⟨rfl, rfl, rfl⟩
      · exact hs r' q hq hg
    · exact (congrArg (Option.map _) hdepth).trans (depth?_hazards_update h r r fun _ => rfl)

/-! ## Letting go of retired nodes -/

/-- The scheme after a node was put on top of the retired ones. -/
def shelve (s : Scheme α) (node : α) : Scheme α :=
  match s with
  | .epochs e => .epochs { e with limbo := e.limbo.push node e.epoch }
  | .hazards h => .hazards { h with limbo := h.limbo.push node 0 }

@[simp] theorem shelve_validates (s : Scheme α) (node : α) :
    (s.shelve node).validates = s.validates := by
  cases s <;> rfl

@[simp] theorem shelve_stamp (s : Scheme α) (node : α) : (s.shelve node).stamp = s.stamp := by
  cases s <;> rfl

@[simp] theorem shelve_entries (s : Scheme α) (node : α) :
    (s.shelve node).limbo.entries = ⟨node, s.stamp⟩ :: s.limbo.entries := by
  cases s <;> rfl

@[simp] theorem shelve_depth? (s : Scheme α) (node : α) (r : Nat) :
    (s.shelve node).depth? r = s.depth? r := by
  cases s <;> rfl

@[simp] theorem shelve_taken? (s : Scheme α) (node : α) (r : Nat) :
    (s.shelve node).taken? r = s.taken? r := by
  cases s <;> rfl

@[simp] theorem shelve_covers (s : Scheme α) (node : α) (r : Nat) (slot : Slot) (x : Retired α) :
    (s.shelve node).Covers r slot x ↔ s.Covers r slot x := by
  cases s <;> rfl

theorem Sound.shelve {s : Scheme α} (hs : s.Sound) (node : α) : (s.shelve node).Sound := by
  cases s <;> exact hs

theorem shelve_counted {s : Scheme α} (h : s.limbo.Counted) (node : α) :
    (s.shelve node).limbo.Counted := by
  cases s <;> exact h.push _ _

/-- A scheme handed out some of the nodes that no record covers and kept the other entries, the
later ones before the earlier ones if it goes by tags. It may have moved on to a later epoch. -/
structure Sheds (s s' : Scheme α) (nodes : List α) : Prop where
  validates : s'.validates = s.validates
  stamp_le : s.stamp ≤ s'.stamp
  covers : ∀ r slot x, s.Covers r slot x → s'.Covers r slot x
  depth? : ∀ r, s'.depth? r = s.depth? r
  taken? : ∀ r, s'.taken? r = s.taken? r
  sound : s'.Sound
  counted : s.limbo.Counted → s'.limbo.Counted
  swept : ∃ f : Retired α → Bool, nodes = (s.limbo.entries.filter f).map Retired.node ∧
    s'.limbo.entries.Perm (s.limbo.entries.filter fun x => !f x) ∧
    (∀ x, f x = true → ∀ r slot, ¬ s.Covers r slot x) ∧
    (s.validates = false → ∀ x y, x.tag ≤ y.tag → f y = true → f x = true)

/-- Whatever else happened to a scheme before it let go of nodes. -/
theorem Sheds.of_same_limbo {s t s' : Scheme α} {nodes : List α} (h : t.Sheds s' nodes)
    (hvalidates : t.validates = s.validates) (hlimbo : t.limbo = s.limbo)
    (hstamp : s.stamp ≤ t.stamp) (hcovers : ∀ r slot x, s.Covers r slot x → t.Covers r slot x)
    (hdepth : ∀ r, t.depth? r = s.depth? r) (htaken : ∀ r, t.taken? r = s.taken? r) :
    s.Sheds s' nodes where
  validates := h.validates.trans hvalidates
  stamp_le := Nat.le_trans hstamp h.stamp_le
  covers r slot x hx := h.covers r slot x (hcovers r slot x hx)
  depth? r := (h.depth? r).trans (hdepth r)
  taken? r := (h.taken? r).trans (htaken r)
  sound := h.sound
  counted := hlimbo ▸ h.counted
  swept := by
    obtain ⟨f, hnodes, hkept, hfree, hmono⟩ := h.swept
    rw [hlimbo] at hnodes hkept
    rw [hvalidates] at hmono
    exact ⟨f, hnodes, hkept, fun x hx r slot hc => hfree x hx r slot (hcovers r slot x hc), hmono⟩

/-- Nothing was let go. -/
theorem Sheds.refl {s : Scheme α} (hs : s.Sound) : s.Sheds s [] where
  validates := rfl
  stamp_le := Nat.le_refl _
  covers _ _ _ h := h
  depth? _ := rfl
  taken? _ := rfl
  sound := hs
  counted h := h
  swept := by
    refine ⟨fun _ => false, by simp, .of_eq ?_, by simp, by simp⟩
    exact (List.filter_eq_self.2 fun _ _ => rfl).symm

/-- What is old enough to be collected is covered by no pinned record. -/
theorem collect_sheds {e : Epochs α} (hs : (Scheme.epochs e).Sound) :
    (Scheme.epochs e).Sheds (.epochs e.collect.2) e.collect.1 where
  validates := rfl
  stamp_le := Nat.le_refl _
  covers _ _ _ h := h
  depth? _ := rfl
  taken? _ := rfl
  sound := hs
  counted h := h.sweep _
  swept := by
    refine ⟨e.isRipe, Limbo.sweep_nodes _ _, ?_, ?_, ?_⟩
    · exact (Limbo.sweep_entries e.limbo e.isRipe) ▸ List.reverse_perm _
    · rintro x hx r slot ⟨p, hp, hpin, htag⟩
      have hlag := ((hs r p hp).2 hpin).2
      simp only [Epochs.isRipe, decide_eq_true_eq] at hx
      omega
    · intro _ x y hxy hy
      simp only [Epochs.isRipe, decide_eq_true_eq] at hy ⊢
      omega

/-- The global epoch moves on only if all pinned records have seen it. -/
theorem Sound.advance {e : Epochs α} (hs : (Scheme.epochs e).Sound) :
    (Scheme.epochs e.advance.2).Sound := by
  unfold Epochs.advance
  split
  · exact hs
  · next hlag =>
    intro r p hp
    have hp' : p.lags e.epoch = false :=
      Roster.any_eq_false (p := fun p => p.lags e.epoch) (by simpa using hlag) hp
    refine ⟨(hs r p hp).1, ?_⟩
    intro hpin
    have hle := (hs r p hp).2 hpin
    simp only [Pin.lags, hpin, Bool.true_and, bne_eq_false_iff_eq] at hp'
    simp only
    omega

/-- Moving on to the next epoch changes no record and no entry. -/
theorem Sheds.of_advance {e : Epochs α} {s' : Scheme α} {nodes : List α}
    (h : (Scheme.epochs e.advance.2).Sheds s' nodes) : (Scheme.epochs e).Sheds s' nodes := by
  unfold Epochs.advance at h
  split at h
  · exact h
  · exact h.of_same_limbo rfl rfl (Nat.le_succ _) (fun _ _ _ hx => hx) (fun _ => rfl) fun _ => rfl

theorem advance_sheds {e : Epochs α} (hs : (Scheme.epochs e).Sound) :
    (Scheme.epochs e).Sheds (.epochs e.advance.2) [] :=
  .of_advance (.refl hs.advance)

/-- A scan frees only what no record publishes. -/
theorem scan_sheds [DecidableEq α] {h : Hazards α} (hs : (Scheme.hazards h).Sound) :
    (Scheme.hazards h).Sheds (.hazards h.scan.2) h.scan.1 where
  validates := rfl
  stamp_le := Nat.le_refl _
  covers _ _ _ h := h
  depth? _ := rfl
  taken? _ := rfl
  sound := hs
  counted h := h.sweep _
  swept := by
    refine ⟨fun x => !h.protects x.node, Limbo.sweep_nodes _ _, ?_, ?_, by simp [validates]⟩
    · exact (Limbo.sweep_entries h.limbo _) ▸ List.reverse_perm _
    · rintro x hx r slot ⟨q, hq, hslot⟩
      have hnone : h.roster.any (fun q => q.covers x.node) = false := by
        simpa [Hazards.protects] using hx
      have hcov : q.covers x.node = false := Roster.any_eq_false hnone hq
      cases slot <;> simp_all [Shield.covers, Shield.published]

theorem reclaim_sheds [DecidableEq α] {s : Scheme α} (hs : s.Sound) :
    s.Sheds s.reclaim.2 s.reclaim.1 := by
  cases s with
  | epochs e => exact .of_advance (collect_sheds hs.advance)
  | hazards h => exact scan_sheds hs

/-- The scheme with another count of retirements in a pin, which no one else looks at. -/
def recount (e : Epochs α) (r n : Nat) : Epochs α :=
  { e with roster := e.roster.update r fun p => { p with sinceCollection := n } }

theorem Sound.recount {e : Epochs α} (hs : (Scheme.epochs e).Sound) (r n : Nat) :
    (Scheme.epochs (Scheme.recount e r n)).Sound := by
  intro r' p hp
  simp only [Scheme.recount, Roster.record?_update] at hp
  split at hp
  · obtain ⟨p₀, hp₀, rfl⟩ := Option.map_eq_some_iff.1 hp
    exact hs r' p₀ hp₀
  · exact hs r' p hp

theorem Sheds.of_recount {e : Epochs α} {r n : Nat} {s' : Scheme α} {nodes : List α}
    (h : (Scheme.epochs (recount e r n)).Sheds s' nodes) : (Scheme.epochs e).Sheds s' nodes := by
  refine h.of_same_limbo rfl rfl (Nat.le_refl _) ?_ ?_ fun _ => Roster.taken?_update _ _ _ _
  · rintro r' slot x ⟨p, hp, hx⟩
    by_cases hr : r = r'
    · subst hr
      exact ⟨_, Roster.record?_update_self hp _, hx⟩
    · exact ⟨p, by rw [Scheme.recount, Roster.record?_update, if_neg hr, hp], hx⟩
  · intro r'
    simp only [Scheme.depth?, Scheme.recount, Roster.record?_update]
    split
    · rw [Option.map_map]
      rfl
    · rfl

/-! ## The global epoch -/

/-- All pinned records show the global epoch. -/
def Caught : Scheme α → Prop
  | .epochs e => ∀ r p, e.roster.record? r = some p → p.pinned = true → p.epoch = e.epoch
  | .hazards _ => True

/-- If all pinned records show the global epoch, it can move on. -/
theorem advance_of_caught {e : Epochs α} (h : (Scheme.epochs e).Caught) :
    e.advance = (true, { e with epoch := e.epoch + 1 }) := by
  refine if_neg fun hlag => ?_
  rw [Roster.any, Array.any_eq_true] at hlag
  obtain ⟨r, hr, hlags⟩ := hlag
  have hcaught := h r e.roster.seats[r].record
    (by rw [Roster.record?, Array.getElem?_eq_getElem hr]; rfl)
  rw [Pin.lags, Bool.and_eq_true, bne_iff_ne] at hlags
  exact hlags.2 (hcaught hlags.1)

/-- If all pinned records show the global epoch, a reclamation moves it on and keeps what was
retired in the epoch that has passed. -/
theorem reclaim_of_caught {e : Epochs α} (h : (Scheme.epochs e).Caught) :
    e.reclaim.2.epoch = e.epoch + 1 ∧ e.reclaim.2.roster = e.roster ∧
      e.reclaim.2.limbo.entries =
        (e.limbo.entries.filter fun x => decide (e.epoch ≤ x.tag)).reverse := by
  rw [Epochs.reclaim, advance_of_caught h]
  refine ⟨rfl, rfl, ?_⟩
  have hentries := Limbo.sweep_entries e.limbo (Epochs.isRipe { e with epoch := e.epoch + 1 })
  refine hentries.trans (congrArg List.reverse (List.filter_congr fun x _ => ?_))
  rw [Epochs.isRipe, ← decide_not, decide_eq_decide]
  dsimp only
  omega

/-- Whether the next retirement of a record comes with an attempt to move the global epoch on. -/
def due : Scheme α → Nat → Bool
  | .epochs e, r =>
    decide (e.collectEvery.toNat ≤ (e.roster.record? r).elim 0 Pin.sinceCollection + 1)
  | .hazards _, _ => false

/-- The global epoch stayed as it was, or an attempt to move it on was made, all pinned records had
caught up with it, and it moved on by one. -/
def Ticks (s s' : Scheme α) (tried : Bool) : Prop :=
  s'.stamp = s.stamp ∨ tried = true ∧ s.Caught ∧ s'.stamp = s.stamp + 1

theorem advance_ticks (e : Epochs α) : (Scheme.epochs e).Ticks (.epochs e.advance.2) true := by
  unfold Epochs.advance
  split
  · exact .inl rfl
  · next hlag =>
    refine .inr ⟨rfl, fun r p hp hpin => ?_, rfl⟩
    have hp' : p.lags e.epoch = false :=
      Roster.any_eq_false (p := fun p => p.lags e.epoch) (by simpa using hlag) hp
    simpa [Pin.lags, hpin] using hp'

theorem reclaim_ticks [DecidableEq α] (s : Scheme α) : s.Ticks s.reclaim.2 true := by
  cases s with
  | epochs e => exact advance_ticks e
  | hazards h => exact .inl rfl

/-- The number of retirements that a record counts does not matter for an attempt. -/
theorem Ticks.of_recount {e : Epochs α} {r n : Nat} {s' : Scheme α} {tried : Bool}
    (h : (Scheme.epochs (recount e r n)).Ticks s' tried) : (Scheme.epochs e).Ticks s' tried := by
  refine h.imp id fun ⟨htried, hcaught, hstamp⟩ => ⟨htried, fun r' p hp hpin => ?_, hstamp⟩
  by_cases hr : r = r'
  · subst hr
    exact hcaught r { p with sinceCollection := n } (Roster.record?_update_self hp _) hpin
  · exact hcaught r' p (by rw [Scheme.recount, Roster.record?_update, if_neg hr, hp]) hpin

/-- Retiring puts a node on top of the others and then perhaps lets go of some. -/
theorem retire_yields [DecidableEq α] {s : Scheme α} (hs : s.Sound) (r : Nat) (node : α) :
    Yields (s.retire r node) fun p =>
      (s.shelve node).Sheds p.2 p.1 ∧ s.Ticks p.2 (s.due r) := by
  have hpush := hs.shelve node
  cases s with
  | epochs e =>
    refine .ok ?_
    rw [Epochs.retire]
    split
    · next hdue =>
      refine ⟨.of_recount (reclaim_sheds (Sound.recount hpush r _)), ?_⟩
      rw [due, hdue]
      exact .of_recount (advance_ticks _)
    · exact ⟨.of_recount (.refl (Sound.recount hpush r _)), .inl rfl⟩
  | hazards h =>
    simp only [retire, Hazards.retire]
    split
    · exact trivial
    · refine .pure ?_
      split
      · exact ⟨scan_sheds hpush, .inl rfl⟩
      · exact ⟨.refl hpush, .inl rfl⟩

/-- Publishing has nothing to do with the global epoch. -/
theorem Ticks.of_publish {s s' : Scheme α} {r : Nat} {slot : Slot} {x : Option α} {tried : Bool}
    (h : (s.publish r slot x).Ticks s' tried) : s.Ticks s' tried := by
  cases s <;> exact h

@[simp] theorem due_publish (s : Scheme α) (r : Nat) (slot : Slot) (x : Option α) (r' : Nat) :
    (s.publish r slot x).due r' = s.due r' := by
  cases s <;> rfl

end Scheme

end MarkedChain
