import MarkedChain.Epochs.Session
import MarkedChain.Proofs.PackedPins
import MarkedChain.Proofs.Limits

/-!
# Nested pins

A record can be pinned by several guards at once, and they are dropped in any order. The record is
pinned as long as one of them is alive, and it shows the global epoch at which the first of them was
taken, also after the last one was dropped. Every request keeps this so
(`Epochs.Session.Serves.sound`, `Epochs.Session.Serves.shown`), since the first guard writes the
word of the record, the last one takes the pin out of it, and all others only count.
`Epochs.Session.Served.pins_nest` states it for every sequence of requests.
-/

namespace MarkedChain.Epochs

/-! ## Guards by name -/

/-- How many of the guards are on a record. -/
def guardsOn (gs : List (String × Holder)) (h : Holder) : Nat :=
  gs.countP fun g => decide (g.2 = h)

section

variable {gs : List (String × Holder)} {name : String} {h : Holder}

theorem guardsOn_pos_iff : 0 < guardsOn gs h ↔ ∃ name, (name, h) ∈ gs := by
  simp [guardsOn, List.countP_pos_iff]

theorem guardsOn_cons (h' : Holder) :
    guardsOn ((name, h) :: gs) h' = guardsOn gs h' + if h' = h then 1 else 0 := by
  simp [guardsOn, List.countP_cons, eq_comm]

/-- A name stands for one guard, which is the only one that goes when it is dropped. -/
theorem exists_drop_eq (hnodup : (gs.map Prod.fst).Nodup) (hname : gs.lookup name = some h) :
    ∃ l l', gs = l ++ (name, h) :: l' ∧ (gs.filter fun g => g.1 != name) = l ++ l' := by
  obtain ⟨l, l', rfl, hbefore⟩ := List.lookup_eq_some_iff.1 hname
  refine ⟨l, l', rfl, ?_⟩
  rw [List.map_append, List.map_cons, List.nodup_append, List.nodup_cons] at hnodup
  have hl : ∀ g ∈ l, (g.1 != name) = true := fun g hg => by
    have := hbefore g hg
    rw [bne_iff_ne] at this ⊢
    exact Ne.symm this
  have hl' : ∀ g ∈ l', (g.1 != name) = true := fun g hg => by
    refine bne_iff_ne.2 fun heq => hnodup.2.1.1 ?_
    exact List.mem_map.2 ⟨g, hg, heq⟩
  rw [List.filter_append, List.filter_cons_of_neg (by simp), List.filter_eq_self.2 hl,
    List.filter_eq_self.2 hl']

theorem guardsOn_drop (hnodup : (gs.map Prod.fst).Nodup) (hname : gs.lookup name = some h)
    (h' : Holder) : guardsOn gs h' =
      guardsOn (gs.filter fun g => g.1 != name) h' + if h' = h then 1 else 0 := by
  obtain ⟨l, l', hgs, hdrop⟩ := exists_drop_eq hnodup hname
  rw [hdrop, hgs, guardsOn, guardsOn, List.countP_append, List.countP_append, List.countP_cons]
  simp [eq_comm, Nat.add_assoc]

end

namespace Session

variable {s₀ s s' : Session} {q : Request} {r : Response} {h h' : Holder} {p : PackedPin}
  {name : String}

/-! ## What a request does -/

theorem pin?_setPin (hp : s.pin? h = some p) (p' : PackedPin) (h' : Holder) :
    (s.setPin p' h).pin? h' = if h' = h then some p' else s.pin? h' := by
  cases h with
  | seated i =>
    cases h' with
    | seated j =>
      have hp : s.epochs.roster.record? i = some p := hp
      have hupdate := s.epochs.roster.record?_update i j fun _ => p'
      by_cases hij : j = i
      · subst hij
        simpa [setPin, pin?, hp] using hupdate
      · simpa [setPin, pin?, hij, Ne.symm hij] using hupdate
    | loose j => simp [setPin, pin?]
  | loose i =>
    cases h' with
    | seated j => simp [setPin, pin?]
    | loose j =>
      have hlt := (List.getElem?_eq_some_iff.1 (show s.loose[i]? = some p from hp)).1
      by_cases hij : j = i
      · simp [setPin, pin?, hij, hlt]
      · simp [setPin, pin?, hij, Ne.symm hij]

theorem pin?_of_roster {e : PackedEpochs Address} (hroster : e.roster = s.epochs.roster)
    (h : Holder) : ({ s with epochs := e } : Session).pin? h = s.pin? h := by
  cases h with
  | seated i => exact congrArg (Roster.record? · i) hroster
  | loose i => rfl

theorem setPin_epoch (s : Session) (p : PackedPin) (h : Holder) :
    (s.setPin p h).epochs.epoch = s.epochs.epoch := by
  cases h <;> rfl

theorem setPin_limbo (s : Session) (p : PackedPin) (h : Holder) :
    (s.setPin p h).epochs.limbo = s.epochs.limbo := by
  cases h <;> rfl

/-- The record on which a request takes or drops a guard. -/
def target? (s : Session) : Request → Option Holder
  | .pin h _ => some h
  | .unpin name => s.guards.lookup name
  | _ => none

/-- What a request can do. -/
inductive Serves (s : Session) : Request → Session → Prop where
  /-- A guard was taken. -/
  | pin {h : Holder} {name : String} {p : PackedPin} (hname : s.guards.lookup name = none)
    (hp : s.pin? h = some p) : Serves s (.pin h name) { s.setPin (p.enter s.epochs.epoch) h with
      guards := (name, h) :: s.guards }
  /-- A guard was dropped. -/
  | unpin {h : Holder} {name : String} {p p' : PackedPin}
    (hname : s.guards.lookup name = some h) (hp : s.pin? h = some p) (hexit : p.exit = .ok p') :
    Serves s (.unpin name) { s.setPin p' h with
      guards := s.guards.filter fun g => g.1 != name }
  /-- The epoch moved on or retired nodes were freed. -/
  | sweep {q : Request} {e : PackedEpochs Address} (hq : s.target? q = none)
    (hroster : e.roster = s.epochs.roster) : Serves s q { s with epochs := e }

theorem advance_roster {α : Type} (e : PackedEpochs α) : e.advance.2.roster = e.roster := by
  rw [PackedEpochs.advance]
  split <;> rfl

theorem perform_serves (hserved : s.perform q = .ok (r, s')) : s.Serves q s' := by
  cases q with
  | pin h name =>
    rw [perform] at hserved
    split at hserved
    · cases hserved
    · cases hserved
    · next hname hp =>
      cases hserved
      exact .pin hname hp
  | unpin name =>
    rw [perform] at hserved
    split at hserved
    · cases hserved
    · next h hname =>
      split at hserved
      · cases hserved
      · next p hp =>
        obtain ⟨p', hexit, hserved⟩ := bind_eq_ok.1 hserved
        cases hserved
        exact .unpin hname hp (Halt.lift_eq_ok.1 hexit)
  | advance =>
    cases hserved
    exact .sweep rfl (advance_roster _)
  | collect =>
    cases hserved
    exact .sweep rfl rfl
  | reclaim =>
    cases hserved
    exact .sweep rfl (advance_roster _)
  | malformed => cases hserved

/-! ## One request -/

/-- The records show the guards that are alive. -/
structure Sound (s : Session) : Prop where
  names : (s.guards.map Prod.fst).Nodup
  records : ∀ g ∈ s.guards, ∃ p, s.pin? g.2 = some p
  depth : ∀ h p, s.pin? h = some p → p.depth = guardsOn s.guards h
  pinned : ∀ h p, s.pin? h = some p → p.isPinned = decide (0 < p.depth)

/-- The record of a request and the record of another one, after one of them was replaced. -/
theorem forall_setPin {P : Holder → PackedPin → Prop} (hp : s.pin? h = some p) (p' : PackedPin)
    (hself : P h p') (hother : ∀ h' p, h' ≠ h → s.pin? h' = some p → P h' p) :
    ∀ h' p, (s.setPin p' h).pin? h' = some p → P h' p := by
  intro h' p hp'
  rw [pin?_setPin hp] at hp'
  split at hp'
  · next hh =>
    cases hp'
    exact hh ▸ hself
  · next hh => exact hother h' p hh hp'

theorem exists_setPin (hp : s.pin? h = some p) (p' : PackedPin)
    (hrecord : ∃ p, s.pin? h' = some p) : ∃ p, (s.setPin p' h).pin? h' = some p := by
  rw [pin?_setPin hp]
  split
  · exact ⟨p', rfl⟩
  · exact hrecord

theorem Serves.sound (hserves : s.Serves q s') (hs : s.Sound) : s'.Sound := by
  cases hserves with
  | @pin h name p hname hp =>
    have hnew : name ∉ s.guards.map Prod.fst := by
      intro hmem
      obtain ⟨g, hg, rfl⟩ := List.mem_map.1 hmem
      simpa using List.lookup_eq_none_iff.1 hname g hg
    constructor
    · exact List.nodup_cons.2 ⟨hnew, hs.names⟩
    · intro g hg
      rcases List.mem_cons.1 hg with rfl | hg
      · exact exists_setPin hp _ ⟨p, hp⟩
      · exact exists_setPin hp _ (hs.records g hg)
    · refine forall_setPin hp _ ?_ fun h' p' hh hp' => ?_
      · rw [guardsOn_cons, if_pos rfl, PackedPin.depth_enter, hs.depth h p hp]
      · rw [guardsOn_cons, if_neg hh]
        exact hs.depth h' p' hp'
    · refine forall_setPin hp _ ?_ fun h' p' _ hp' => hs.pinned h' p' hp'
      rw [PackedPin.isPinned_enter, PackedPin.depth_enter]
      split
      · simp
      · next hdepth => simp [hs.pinned h p hp, Nat.pos_of_ne_zero hdepth]
  | @unpin h name p p' hname hp hexit =>
    obtain ⟨hdepth, hpinned, -⟩ := PackedPin.exit_eq_ok hexit
    have hdrop := guardsOn_drop hs.names hname
    constructor
    · exact hs.names.sublist (List.filter_sublist.map _)
    · exact fun g hg => exists_setPin hp _ (hs.records g (List.mem_filter.1 hg).1)
    · refine forall_setPin hp _ ?_ fun h' q hh hq => ?_
      · have hh := hdrop h
        rw [if_pos rfl, ← hs.depth h p hp, hdepth] at hh
        exact Nat.succ.inj hh
      · rw [hs.depth h' q hq, hdrop h', if_neg hh]
        rfl
    · refine forall_setPin hp _ ?_ fun h' q _ hq => hs.pinned h' q hq
      rw [hpinned, hs.pinned h p hp, Bool.eq_iff_iff]
      simp
      omega
  | sweep hq hroster =>
    have hpin := pin?_of_roster (s := s) hroster
    exact ⟨hs.names, fun g hg => (hpin g.2).symm ▸ hs.records g hg,
      fun h p hp => hs.depth h p (hpin h ▸ hp), fun h p hp => hs.pinned h p (hpin h ▸ hp)⟩

/-- A request leaves alone what it is not about. To take or drop a guard changes neither the limbo
nor the global epoch. -/
theorem Serves.spares (hserves : s.Serves q s') :
    (∀ h, s.target? q ≠ some h → s'.pin? h = s.pin? h) ∧
      (s.target? q ≠ none → s'.epochs.limbo = s.epochs.limbo ∧
        s'.epochs.epoch = s.epochs.epoch) := by
  cases hserves with
  | @pin h _ _ _ hp =>
    refine ⟨fun h' hh => ?_, fun _ => ⟨setPin_limbo _ _ _, setPin_epoch _ _ _⟩⟩
    have hne : h' ≠ h := fun heq => hh (congrArg some heq.symm)
    exact (pin?_setPin hp _ h').trans (if_neg hne)
  | @unpin h _ _ _ hname hp =>
    refine ⟨fun h' hh => ?_, fun _ => ⟨setPin_limbo _ _ _, setPin_epoch _ _ _⟩⟩
    have hne : h' ≠ h := fun heq => hh (hname.trans (congrArg some heq.symm))
    exact (pin?_setPin hp _ h').trans (if_neg hne)
  | sweep hq hroster => exact ⟨fun h _ => pin?_of_roster hroster h, fun htarget => absurd hq htarget⟩

/-- A guard that is alive can be dropped, so its record has one to be dropped. -/
theorem Sound.drops (hs : s.Sound) (hname : s.guards.lookup name = some h) :
    ∃ p s', s.pin? h = some p ∧ 0 < p.depth ∧ s.perform (.unpin name) = .ok (.done, s') := by
  obtain ⟨l, l', hgs, -⟩ := exists_drop_eq hs.names hname
  have hmem : (name, h) ∈ s.guards := by simp [hgs]
  obtain ⟨p, hp⟩ := hs.records _ hmem
  have hdepth : 0 < p.depth := hs.depth h p hp ▸ guardsOn_pos_iff.2 ⟨name, hmem⟩
  obtain ⟨p', hexit⟩ := PackedPin.exists_exit hdepth
  have hp : s.pin? h = some p := hp
  have hok : s.perform (.unpin name) = .ok (.done, { s.setPin p' h with
      guards := s.guards.filter fun g => g.1 != name }) := by
    simp only [perform, hname, hp]
    exact bind_eq_ok.2 ⟨p', Halt.lift_eq_ok.2 hexit, rfl⟩
  exact ⟨p, _, hp, hdepth, hok⟩

/-- No request is stopped. -/
theorem Sound.not_fault (hs : s.Sound) (q : Request) (f : Fault) :
    s.perform q ≠ .error (.fault f) := by
  intro hfault
  cases q with
  | pin h name =>
    rw [perform] at hfault
    split at hfault <;> cases hfault
  | unpin name =>
    cases hname : s.guards.lookup name with
    | none =>
      rw [perform, hname] at hfault
      cases hfault
    | some h =>
      obtain ⟨p, s', -, -, hok⟩ := hs.drops hname
      rw [hok] at hfault
      cases hfault
  | advance | collect | reclaim | malformed => cases hfault

/-! ## Requests one after the other -/

/-- Requests that were served one after the other, each with the session before it. -/
inductive Served (s₀ : Session) : List (Session × Request) → Session → Prop where
  | nil : Served s₀ [] s₀
  | snoc {es : List (Session × Request)} {s s' : Session} {q : Request} {r : Response}
    (hserved : Served s₀ es s) (hperform : s.perform q = .ok (r, s')) :
    Served s₀ (es ++ [(s, q)]) s'

/-- A guard was taken on a record that had none. -/
def Opens (h : Holder) (e : Session × Request) : Prop :=
  guardsOn e.1.guards h = 0 ∧ ∃ name, e.2 = .pin h name

/-- The global epoch at the most recent time when a guard was taken on a record that had none. If
there is no such time, it is what the record showed at the start. -/
inductive LastOpened (s₀ : Session) (es : List (Session × Request)) (h : Holder) : UInt64 → Prop
    where
  | opened {before after : List (Session × Request)} {e : Session × Request}
    (hes : es = before ++ e :: after) (hopens : Opens h e)
    (hlast : ∀ e' ∈ after, ¬ Opens h e') : LastOpened s₀ es h e.1.epochs.epoch
  | never {p : PackedPin} (hnever : ∀ e ∈ es, ¬ Opens h e) (hp : s₀.pin? h = some p) :
    LastOpened s₀ es h p.epoch

theorem LastOpened.snoc {es : List (Session × Request)} {e : Session × Request} {n : UInt64}
    (hlast : LastOpened s₀ es h n) (he : ¬ Opens h e) : LastOpened s₀ (es ++ [e]) h n := by
  have hafter : ∀ {l : List (Session × Request)}, (∀ e' ∈ l, ¬ Opens h e') →
      ∀ e' ∈ l ++ [e], ¬ Opens h e' := by
    intro l hl e' he'
    rcases List.mem_append.1 he' with he' | he'
    · exact hl e' he'
    · exact List.mem_singleton.1 he' ▸ he
  cases hlast with
  | @opened before after _ hes hopens hlast =>
    exact .opened (by rw [hes, List.append_assoc, List.cons_append]) hopens (hafter hlast)
  | never hnever hp => exact .never (hafter hnever) hp

/-- Nobody holds a guard, and no record is pinned. -/
structure AtRest (s : Session) : Prop where
  guards : s.guards = []
  unpinned : ∀ h p, s.pin? h = some p → p.isPinned = false ∧ p.depth = 0

theorem AtRest.sound (hs : s.AtRest) : s.Sound := by
  constructor
  · simp [hs.guards]
  · simp [hs.guards]
  · intro h p hp
    rw [(hs.unpinned h p hp).2, hs.guards]
    rfl
  · intro h p hp
    rw [(hs.unpinned h p hp).1, (hs.unpinned h p hp).2]
    rfl

variable {es : List (Session × Request)}

theorem Served.sound (hserved : Served s₀ es s) (h₀ : s₀.AtRest) : s.Sound := by
  induction hserved with
  | nil => exact h₀.sound
  | snoc _ hperform ih => exact (perform_serves hperform).sound ih

/-- A guard on a record that had none makes the record show the global epoch. Whatever else is
served leaves what a record shows. -/
theorem Serves.shown (hserves : s.Serves q s') (hs : s.Sound)
    (hnow : s.epochs.epoch.toNat < PackedPin.epochBound)
    (hshown : ∀ h p, s.pin? h = some p → LastOpened s₀ es h p.epoch) :
    ∀ h p, s'.pin? h = some p → LastOpened s₀ (es ++ [(s, q)]) h p.epoch := by
  have hkept : ∀ {h p}, (∀ name, q ≠ .pin h name) → s.pin? h = some p →
      LastOpened s₀ (es ++ [(s, q)]) h p.epoch := fun hq hp =>
    (hshown _ _ hp).snoc fun hopens => hopens.2.elim hq
  cases hserves with
  | @pin h name p hname hp =>
    refine forall_setPin hp _ ?_ fun h' p' hh hp' => hkept (fun _ heq => ?_) hp'
    · rw [PackedPin.epoch_enter hnow]
      split
      · next hdepth =>
        exact .opened (e := (s, .pin h name)) rfl
          ⟨(hs.depth h p hp).symm.trans hdepth, name, rfl⟩ (by simp)
      · next hdepth =>
        refine (hshown h p hp).snoc fun hopens => hdepth ?_
        exact (hs.depth h p hp).trans hopens.1
    · cases heq
      exact hh rfl
  | @unpin h name p p' hname hp hexit =>
    refine forall_setPin hp _ ?_ fun h' q _ hq => hkept nofun hq
    rw [(PackedPin.exit_eq_ok hexit).2.2.1]
    exact hkept nofun hp
  | sweep hq hroster =>
    intro h p hp
    rw [pin?_of_roster hroster] at hp
    refine hkept (fun name heq => ?_) hp
    rw [heq] at hq
    cases hq

/-- What a record shows. -/
theorem Served.shown (hserved : Served s₀ es s) (h₀ : s₀.AtRest)
    (hbound : ∀ e ∈ es, e.1.epochs.epoch.toNat < PackedPin.epochBound) :
    ∀ h p, s.pin? h = some p → LastOpened s₀ es h p.epoch := by
  induction hserved with
  | nil => exact fun h p hp => .never (by simp) hp
  | @snoc es s s' q r hserved hperform ih =>
    have hbefore : ∀ e ∈ es, e.1.epochs.epoch.toNat < PackedPin.epochBound := fun e he =>
      hbound e (List.mem_append_left _ he)
    have hnow := hbound (s, q) (List.mem_append_right _ (List.mem_singleton.2 rfl))
    exact (perform_serves hperform).shown (hserved.sound h₀) hnow (ih hbefore)

/-- After every sequence of requests, starting with a session at rest, a record is pinned if and
only if a guard of it is alive, it counts its guards, and it shows the global epoch at its most
recent pin without one. To take or drop a guard changes no other record, no tag and not the global
epoch. A guard that is alive can be dropped, as its record counts one, and nothing is stopped. -/
theorem Served.pins_nest (hserved : Served s₀ es s) (h₀ : s₀.AtRest)
    (hbound : ∀ e ∈ es, e.1.epochs.epoch.toNat < PackedPin.epochBound) :
    (∀ h p, s.pin? h = some p → (p.isPinned = true ↔ ∃ name, (name, h) ∈ s.guards) ∧
      p.depth = guardsOn s.guards h ∧ LastOpened s₀ es h p.epoch) ∧
    (∀ q r s', s.perform q = .ok (r, s') → (∀ h, s.target? q ≠ some h → s'.pin? h = s.pin? h) ∧
      (s.target? q ≠ none → s'.epochs.limbo = s.epochs.limbo ∧
        s'.epochs.epoch = s.epochs.epoch)) ∧
    (∀ name h, s.guards.lookup name = some h → ∃ p s', s.pin? h = some p ∧ 0 < p.depth ∧
      s.perform (.unpin name) = .ok (.done, s')) ∧
    ∀ q f, s.perform q ≠ .error (.fault f) := by
  have hs := hserved.sound h₀
  refine ⟨fun h p hp => ⟨?_, hs.depth h p hp, hserved.shown h₀ hbound h p hp⟩,
    fun q r s' hperform => (perform_serves hperform).spares, fun name h => hs.drops, hs.not_fault⟩
  rw [hs.pinned h p hp, decide_eq_true_iff, hs.depth h p hp, guardsOn_pos_iff]

/-! ## Guards that are dropped out of order -/

/-- A session with new records is at rest. -/
theorem atRest_start (t : Tuning) (seated loose : Nat) : (start t seated loose).AtRest := by
  refine ⟨rfl, fun h p hp => ?_⟩
  have hfresh : p = {} := by
    cases h with
    | seated i =>
      obtain ⟨seat, hseat, rfl⟩ := Option.map_eq_some_iff.1 hp
      simp only [start, Array.getElem?_replicate] at hseat
      split at hseat <;> cases hseat
      rfl
    | loose i =>
      have hp : (List.replicate loose ({} : PackedPin))[i]? = some p := hp
      rw [List.getElem?_replicate] at hp
      split at hp <;> cases hp
      rfl
  subst hfresh
  decide

/-- Serves requests in order and leaves out those that are refused. -/
def play (s : Session) : List Request → List (Session × Request) × Session
  | [] => ([], s)
  | q :: qs =>
    match s.perform q with
    | .ok (_, s') => ((s, q) :: (s'.play qs).1, (s'.play qs).2)
    | .error _ => s.play qs

theorem Served.play (hserved : Served s₀ es s) (qs : List Request) :
    Served s₀ (es ++ (s.play qs).1) (s.play qs).2 := by
  induction qs generalizing es s with
  | nil => simpa [Session.play] using hserved
  | cons q qs ih =>
    rw [Session.play]
    split
    · next r s' hperform => simpa using ih (hserved.snoc hperform)
    · exact ih hserved

/-- Of two records on the roster the first one is pinned twice, and the epoch moves on in between.
The first guard is dropped first. -/
def outOfOrder : List Request :=
  [.pin (.seated 0) "a", .advance, .pin (.seated 0) "b", .pin (.loose 0) "c", .unpin "a"]

/-- The session after that. -/
def crossed : Session := ((start {} 2 1).play outOfOrder).2

/-- The requests with the sessions before them. -/
def crossing : List (Session × Request) := ((start {} 2 1).play outOfOrder).1

/-- The first record is still pinned and shows the epoch at which it was pinned first, not the one
at which the remaining guard was taken. That guard can be dropped. -/
theorem Served.pins_nest_outOfOrder : ∃ p, crossed.pin? (.seated 0) = some p ∧
    p.isPinned = true ∧ p.depth = 1 ∧ crossed.epochs.epoch = 1 ∧ p.epoch = 0 ∧
    LastOpened (start {} 2 1) crossing (.seated 0) p.epoch ∧
    ∃ s', crossed.perform (.unpin "b") = .ok (.done, s') := by
  have hserved : Served (start {} 2 1) crossing crossed := Served.nil.play outOfOrder
  have hbound : ∀ e ∈ crossing, e.1.epochs.epoch.toNat < PackedPin.epochBound := by
    decide +kernel
  obtain ⟨hrecords, -, hdrops, -⟩ := hserved.pins_nest (atRest_start {} 2 1) hbound
  obtain ⟨p, s', hp, -, hdropped⟩ := hdrops "b" (.seated 0) (by decide +kernel)
  obtain ⟨hpinned, hdepth, hshown⟩ := hrecords _ p hp
  have hepoch : (crossed.pin? (.seated 0)).map PackedPin.epoch = some 0 := by decide +kernel
  rw [hp] at hepoch
  have hguards : guardsOn crossed.guards (.seated 0) = 1 := by decide +kernel
  exact ⟨p, hp, hpinned.2 ⟨"b", by decide +kernel⟩, hdepth.trans hguards, by decide +kernel,
    Option.some.inj hepoch, hshown, s', hdropped⟩

end Session

end MarkedChain.Epochs
