import MarkedChain.World
import MarkedChain.Proofs.Strides

/-!
# What one step of a world can do

`World.Sound` says that every set is in order and that handles, records and operations belong
together: a handle has its record for itself, the record shows whether an operation is going on, and
every operation in progress fits the set it works on. `Passage` lists what an action can come to,
one constructor for each kind of change. In a sound world every action makes one of these changes or
is refused, and nothing but a limit stops it with a fault (`World.step_settles`).
-/

namespace MarkedChain

/-! ## Steps that may be refused -/

/-- A part of a run comes to a result with a property, or it is refused, or a limit stops it. -/
def Settles {α : Type} (x : Except Halt α) (post : α → Prop) : Prop :=
  match x with
  | .ok a => post a
  | .error (.fault e) => e.IsLimit
  | .error (.refused _) => True
  | .error .outOfFuel => False

namespace Settles

variable {α β : Type} {x : Except Halt α} {post : α → Prop}

theorem ok {a : α} (h : post a) : Settles (.ok a) post := h

theorem pure {a : α} (h : post a) : Settles (Pure.pure a : Except Halt α) post := h

theorem refused (reason : Refusal) : Settles (.error (.refused reason)) post := trivial

theorem bind {f : α → Except Halt β} {post : β → Prop} {mid : α → Prop}
    (h : Settles x mid) (hf : ∀ a, mid a → Settles (f a) post) : Settles (x >>= f) post := by
  cases x with
  | ok a => exact hf a h
  | error e => cases e <;> exact h

/-- A computation that only a limit can stop, as a part of a run. -/
theorem lift {y : Except Fault α} (h : Yields y post) : Settles (Halt.lift y) post := by
  cases y <;> exact h

theorem of_ok {a : α} (h : Settles x post) (hx : x = .ok a) : post a := by
  subst hx
  exact h

theorem of_fault {e : Fault} (h : Settles x post) (hx : x = .error (.fault e)) : e.IsLimit := by
  subst hx
  exact h

end Settles

variable {κ ν : Type}

/-! ## Worlds in order -/

/-- How many guards an operation of a handle keeps on its record. -/
def Handle.depth (x : Handle) : Nat := if x.status = .idle then 0 else 1

namespace World

/-- The set that a handle belongs to. -/
def setOf? (w : World κ ν) (h : Nat) : Option Nat := (w.handles[h]?).map Handle.set

/-- The nodes that insertions in progress on a set have made and not yet linked. -/
def fresh (w : World κ ν) (i : Nat) : List Address :=
  w.running.flatMap fun a => if w.setOf? a.handle = some i then a.frame.own else []

/-- Sets, handles and operations are in order and belong together. -/
structure Sound [Ord κ] (w : World κ ν) : Prop where
  sets : ∀ (i : Nat) (s : SharedSet κ ν), w.sets[i]? = some s → s.Sound (w.fresh i)
  quiet : ∀ (i : Nat) (s : SharedSet κ ν), w.sets[i]? = some s → ∀ r,
    s.scheme.taken? r = some false → s.scheme.depth? r = some 0
  handles : ∀ (h : Nat) (x : Handle), w.handles[h]? = some x → x.status ≠ .released →
    ∃ s, w.sets[x.set]? = some s ∧ s.scheme.taken? x.record = some true ∧
      s.scheme.depth? x.record = some x.depth
  apart : ∀ (h h' : Nat) (x x' : Handle), w.handles[h]? = some x → w.handles[h']? = some x' →
    x.status ≠ .released → x'.status ≠ .released → x.set = x'.set → x.record = x'.record → h = h'
  running : ∀ a ∈ w.running, ∃ x s, w.handles[a.handle]? = some x ∧ x.status = .running ∧
    w.sets[x.set]? = some s ∧ a.frame.Fits s x.record
  nodup : (w.running.map Activation.handle).Nodup

theorem fresh_cons {w : World κ ν} {a : Activation κ} {rest : List (Activation κ)}
    (hrun : w.running = a :: rest) (i : Nat) :
    w.fresh i = (if w.setOf? a.handle = some i then a.frame.own else []) ++
      { w with running := rest }.fresh i := by
  rw [fresh, hrun, List.flatMap_cons]
  rfl

/-- The node of an operation in progress is a private one of its set. -/
theorem own_subset_fresh {w : World κ ν} {a : Activation κ} (ha : a ∈ w.running) {i : Nat}
    (hset : w.setOf? a.handle = some i) : a.frame.own ⊆ w.fresh i := by
  intro b hb
  refine List.mem_flatMap.2 ⟨a, ha, ?_⟩
  rwa [if_pos hset]

theorem getElem?_setSet {w : World κ ν} {i : Nat} {s : SharedSet κ ν} (hs : w.sets[i]? = some s)
    (s' : SharedSet κ ν) (j : Nat) :
    (w.setSet i s').sets[j]? = if j = i then some s' else w.sets[j]? := by
  have hlt := (Array.getElem?_eq_some_iff.1 hs).1
  simp only [setSet, Array.getElem?_setIfInBounds]
  by_cases hj : j = i
  · simp [hj, hlt]
  · simp [hj, Ne.symm hj]

/-- Where a set is replaced, a set before and after is that one or has stayed as it was. -/
theorem setSet_cases {w : World κ ν} {i j : Nat} {s s' t t' : SharedSet κ ν}
    (hs : w.sets[i]? = some s) (ht : w.sets[j]? = some t)
    (ht' : (w.setSet i s').sets[j]? = some t') : (i = j ∧ s = t ∧ s' = t') ∨ t' = t := by
  rw [getElem?_setSet hs] at ht'
  split at ht'
  · next hj =>
    subst hj
    exact .inl ⟨rfl, Option.some.inj (hs.symm.trans ht), Option.some.inj ht'⟩
  · exact .inr (Option.some.inj (ht'.symm.trans ht))

theorem getElem?_setHandle {w : World κ ν} {h : Nat} {x : Handle} (hx : w.handles[h]? = some x)
    (x' : Handle) (h' : Nat) :
    (w.setHandle h x').handles[h']? = if h' = h then some x' else w.handles[h']? := by
  have hlt := (Array.getElem?_eq_some_iff.1 hx).1
  simp only [setHandle, Array.getElem?_setIfInBounds]
  by_cases hh : h' = h
  · simp [hh, hlt]
  · simp [hh, Ne.symm hh]

end World

/-! ## What an action can come to -/

/-- A record was pinned or unpinned and has `d` guards now. -/
def Scheme.Repins {α : Type} (s s' : Scheme α) (r d : Nat) : Prop :=
  s.Touches s' r ∧ s'.Sound ∧ s'.depth? r = some d ∧ s'.taken? r = s.taken? r

/-- The task of a call that needs no node. -/
def Call.plain? : Call κ ν → Option (Task κ)
  | .remove key => some (.remove key)
  | .contains key => some (.contains key)
  | .get key => some (.get key)
  | .size => some (.size 0)
  | .isEmpty => some .isEmpty
  | .keys => some (.keys [])
  | .hold key => some (.hold key)
  | .insert .. | .reclaim => none

/-- A call becomes a task. An insertion makes its node. -/
inductive Opens (s : SharedSet κ ν) : Call κ ν → Task κ → SharedSet κ ν → Prop where
  | insert {key value m a} (hbirth : s.memory.Births m a ⟨key, value, .null⟩) :
    Opens s (.insert key value) (.insert a key) { s with memory := m }
  | plain {call task} (htask : call.plain? = some task) : Opens s call task s

/-- The values that are handed over with an action. -/
def Action.payload : Action κ ν → List ν
  | .invoke _ _ _ call _ => call.payload
  | _ => []

/-- Whether an action tries to move the epoch of a set on. Operations in progress do so too. -/
def Action.advances (i : Nat) : Action κ ν → Bool
  | .advance j => decide (j = i)
  | .invoke _ j _ .reclaim _ => decide (j = i)
  | _ => false

/-- What an action can come to. -/
inductive Passage [Ord κ] (w : World κ ν) : Action κ ν → Outcome κ ν → Prop where
  /-- The action was answered with a misuse, and what was handed over was dropped. -/
  | misuse (a reason drops) (ha : a ≠ .proceed) (hdrops : drops = a.payload) :
    Passage w a { world := w, drops, answer := some (.misuse reason) }
  /-- The epoch of a set moved on or retired nodes were freed. -/
  | sweep (a drops answer) {i s sch m nodes} (ha : a ≠ .proceed) (hs : w.sets[i]? = some s)
    (hsheds : s.scheme.Sheds sch nodes) (hdrops : s.memory.Drops m nodes)
    (hticks : s.scheme.Ticks sch (a.advances i)) (hpayload : a.payload = [])
    (hvalues : drops = nodes.filterMap fun b => (s.memory.node? b).map Node.value)
    (hserved : ∀ reason, answer ≠ .misuse reason) :
    Passage w a {
      world := w.setSet i { s with scheme := sch, memory := m }
      drops
      answer := some answer }
  /-- A handle was registered. -/
  | register {i s r sch} (hs : w.sets[i]? = some s) (hreg : s.scheme.register = .ok (r, sch)) :
    Passage w (.register i) {
      world := { w.setSet i { s with scheme := sch } with
        handles := w.handles.push { set := i, record := r } }
      answer := some (.registered w.handles.size) }
  /-- A handle was given back. -/
  | release {h x s} (hx : w.handles[h]? = some x) (hidle : x.status = .idle)
    (hs : w.sets[x.set]? = some s) :
    Passage w (.release h) {
      world := (w.setSet x.set { s with scheme := s.scheme.release x.record }).setHandle h
        { x with status := .released }
      answer := some .done }
  /-- An operation began. -/
  | begin (h i lane call offer) {x s t task sch} (hx : w.handles[h]? = some x)
    (hidle : x.status = .idle) (hset : x.set = i) (hs : w.sets[i]? = some s)
    (hopens : Opens s call task t) (hpin : t.scheme.Repins sch x.record 1) :
    Passage w (.invoke h i lane call offer) {
      world := { (w.setSet i { t with scheme := sch }).setHandle h
          { x with status := .running } with
        running := ⟨h, lane, ⟨task, .start⟩⟩ :: w.running } }
  /-- The running operation made a move and goes on. -/
  | goes {a rest x s st frame} (hrun : w.running = a :: rest)
    (hx : w.handles[a.handle]? = some x) (hs : w.sets[x.set]? = some s)
    (hmove : Move s ⟨x.record, a.lane⟩ a.frame st) (hnext : st.next = .goes frame) :
    Passage w .proceed {
      world := { (w.setSet x.set st.set).setHandle a.handle
          { x with retries := x.retries + st.retries } with
        running := { a with frame } :: rest }
      drops := st.drops }
  /-- The running operation made a move and ended. -/
  | ends {a rest x s st reply sch} (hrun : w.running = a :: rest)
    (hx : w.handles[a.handle]? = some x) (hs : w.sets[x.set]? = some s)
    (hmove : Move s ⟨x.record, a.lane⟩ a.frame st) (hnext : st.next = .ends reply)
    (hunpin : st.set.scheme.Repins sch x.record
      (Handle.depth { x with status := World.statusAfter reply }))
    (hkeep : World.statusAfter reply ≠ .idle → sch = st.set.scheme) :
    Passage w .proceed {
      world := ({ w with running := rest }.setSet x.set { st.set with scheme := sch }).setHandle
        a.handle { x with
          retries := x.retries + st.retries
          status := World.statusAfter reply }
      drops := st.drops
      answer := some (.reply reply) }
  /-- The protection that an operation had kept was ended. -/
  | resume {h x s sch} (hx : w.handles[h]? = some x) (hholding : x.status = .holding)
    (hs : w.sets[x.set]? = some s) (hunpin : s.scheme.Repins sch x.record 0) :
    Passage w (.resume h) {
      world := (w.setSet x.set { s with scheme := sch }).setHandle h { x with status := .idle }
      answer := some .done }

namespace World

variable [Ord κ] {w : World κ ν}

/-! ## Every action makes one of these changes -/

omit [Ord κ] in
theorem turn_settles (w : World κ ν) : Settles w.turn fun _ => True := by
  rw [turn]
  split
  · exact .ok trivial
  · exact .refused _

omit [Ord κ] in
theorem set_settles (w : World κ ν) (i : Nat) : Settles (w.set i) (w.sets[i]? = some ·) := by
  rw [set]
  split
  · next s hs => exact .ok hs
  · exact .refused _

omit [Ord κ] in
theorem handle_settles (w : World κ ν) (h : Nat) :
    Settles (w.handle h) fun x => w.handles[h]? = some x ∧ x.status ≠ .released := by
  rw [handle]
  split
  · next x hx =>
    split
    · exact .refused _
    · next hreleased => exact .ok ⟨hx, hreleased⟩
  · exact .refused _

omit [Ord κ] in
theorem set_eq_ok {i : Nat} {s : SharedSet κ ν} (hs : w.sets[i]? = some s) : w.set i = .ok s := by
  rw [set, hs]

omit [Ord κ] in
theorem handle_eq_ok {h : Nat} {x : Handle} (hx : w.handles[h]? = some x)
    (hlive : x.status ≠ .released) : w.handle h = .ok x := by
  rw [handle, hx]
  exact if_neg hlive

omit [Ord κ] in
theorem idleHandle_eq_ok {h : Nat} {x : Handle} (hx : w.handles[h]? = some x)
    (hidle : x.status = .idle) : w.idleHandle h = .ok x := by
  rw [idleHandle, handle_eq_ok hx (by rw [hidle]; decide)]
  exact if_pos hidle

omit [Ord κ] in
theorem idleHandle_settles (w : World κ ν) (h : Nat) :
    Settles (w.idleHandle h) fun x => w.handles[h]? = some x ∧ x.status = .idle := by
  rw [idleHandle]
  refine (w.handle_settles h).bind ?_
  rintro x ⟨hx, -⟩
  split
  · next hidle => exact .pure ⟨hx, hidle⟩
  · exact .refused _

/-- The record of a handle has as many guards as the handle has operations. -/
theorem Sound.depth? (hw : w.Sound) {h : Nat} {x : Handle} {s : SharedSet κ ν}
    (hx : w.handles[h]? = some x) (hstatus : x.status ≠ .released)
    (hs : w.sets[x.set]? = some s) :
    s.scheme.taken? x.record = some true ∧ s.scheme.depth? x.record = some x.depth := by
  obtain ⟨s', hs', htaken, hdepth⟩ := hw.handles h x hx hstatus
  rw [hs] at hs'
  cases hs'
  exact ⟨htaken, hdepth⟩

theorem freeNodes_settles (hw : w.Sound) {i : Nat} {s : SharedSet κ ν} {sch : Scheme Address}
    {nodes : List Address} (hs : w.sets[i]? = some s) (hsheds : s.scheme.Sheds sch nodes)
    (lane : Lane) (answer : Answer κ ν) {a : Action κ ν} (ha : a ≠ .proceed)
    (hticks : s.scheme.Ticks sch (a.advances i)) (hpayload : a.payload = [])
    (hserved : ∀ reason, answer ≠ .misuse reason) :
    Settles (w.freeNodes i lane { s with scheme := sch } nodes answer) (Passage w a) := by
  rw [freeNodes]
  refine (Settles.lift ((hw.sets i s hs).freeAll_yields hsheds lane)).bind ?_
  rintro _ ⟨m, hdrops, rfl⟩
  exact .pure (.sweep a _ _ ha hs hsheds hdrops hticks hpayload rfl hserved)

theorem register_settles (w : World κ ν) (i : Nat) :
    Settles (w.register i) (Passage w (.register i)) := by
  rw [register]
  refine (w.set_settles i).bind ?_
  intro s hs
  split
  · exact .pure (.misuse _ _ _ (by simp) rfl)
  · next r sch hreg => exact .pure (.register hs hreg)

theorem release_settles (w : World κ ν) (h : Nat) :
    Settles (w.release h) (Passage w (.release h)) := by
  rw [release]
  refine (w.idleHandle_settles h).bind ?_
  rintro x ⟨hx, hidle⟩
  refine (w.set_settles x.set).bind ?_
  intro s hs
  exact .pure (.release hx hidle hs)

/-- A call becomes a task, or it asks for reclamation and needs none. -/
theorem task_yields {s : SharedSet κ ν} {own : List Address} (hs : s.Sound own) (lane : Lane)
    (offer : Option Address) (call : Call κ ν) :
    Yields (World.task s lane offer call) fun p =>
      (∃ task, p.1 = some task ∧ Opens s call task p.2) ∨
        call = .reclaim ∧ p.1 = none ∧ p.2 = s := by
  cases call with
  | insert key value =>
    refine (Memory.allocate_yields hs.tidy lane offer key value).bind ?_
    rintro ⟨a, m⟩ hbirth
    exact .pure (.inl ⟨_, rfl, .insert hbirth⟩)
  | reclaim => exact .ok (.inr ⟨rfl, rfl, rfl⟩)
  | remove _ | contains _ | get _ | size | isEmpty | keys | hold _ =>
    exact .ok (.inl ⟨_, rfl, .plain rfl⟩)

theorem invoke_settles (hw : w.Sound) (h i : Nat) (lane : Lane) (call : Call κ ν)
    (offer : Option Address) :
    Settles (w.invoke h i lane call offer) (Passage w (.invoke h i lane call offer)) := by
  rw [invoke]
  refine (w.set_settles i).bind ?_
  intro s hs
  refine (w.idleHandle_settles h).bind ?_
  rintro x ⟨hx, hidle⟩
  split
  · next hset =>
    refine (Settles.lift (task_yields (hw.sets i s hs) lane offer call)).bind ?_
    rintro ⟨task?, t⟩ (⟨task, rfl, hopens⟩ | ⟨rfl, rfl, rfl⟩)
    · have hd := (hw.depth? hx (by rw [hidle]; decide) (hset ▸ hs)).2
      rw [Handle.depth, if_pos hidle] at hd
      have hscheme : t.scheme = s.scheme := by cases hopens <;> rfl
      rw [← hscheme] at hd
      have hsound : t.scheme.Sound := hscheme ▸ (hw.sets i s hs).scheme
      obtain ⟨sch, hsch, hpin⟩ := Scheme.exists_pin hsound hd
      dsimp only
      rw [hsch]
      exact .pure (.begin h i lane call offer hx hidle hset hs hopens hpin)
    · refine freeNodes_settles hw hs (Scheme.reclaim_sheds (hw.sets i _ hs).scheme) lane _
        (by simp) ?_ rfl nofun
      rw [Action.advances, decide_eq_true rfl]
      exact Scheme.reclaim_ticks _
  · exact .pure (.misuse _ _ _ (by simp) rfl)

/-- An operation in progress fits its set, and its record has one guard. -/
theorem Sound.fits (hw : w.Sound) {a : Activation κ} (ha : a ∈ w.running) {x : Handle}
    {s : SharedSet κ ν} (hx : w.handles[a.handle]? = some x) (hs : w.sets[x.set]? = some s) :
    x.status = .running ∧ a.frame.Fits s x.record ∧ s.scheme.depth? x.record = some 1 := by
  obtain ⟨y, t, hy, hstatus, ht, hfits⟩ := hw.running a ha
  rw [hx] at hy
  cases hy
  rw [hs] at ht
  cases ht
  obtain ⟨-, hdepth⟩ := hw.depth? hx (by rw [hstatus]; decide) hs
  rw [Handle.depth, if_neg (by rw [hstatus]; decide)] at hdepth
  exact ⟨hstatus, hfits, hdepth⟩

/-- No operation is in progress on a handle that is idle or holds a result. -/
theorem Sound.handle_ne (hw : w.Sound) {h : Nat} {x : Handle} (hx : w.handles[h]? = some x)
    (hidle : x.status ≠ .running) {a : Activation κ} (ha : a ∈ w.running) : a.handle ≠ h := by
  rintro rfl
  obtain ⟨y, -, hy, hstatus, -⟩ := hw.running a ha
  rw [hx] at hy
  cases hy
  exact hidle hstatus

/-- The node of the running operation is the first of the private ones. -/
theorem Sound.top (hw : w.Sound) {a : Activation κ} {rest : List (Activation κ)}
    (hrun : w.running = a :: rest) {x : Handle} {s : SharedSet κ ν}
    (hx : w.handles[a.handle]? = some x) (hs : w.sets[x.set]? = some s) :
    x.status = .running ∧ a.frame.Fits s x.record ∧ s.scheme.depth? x.record = some 1 ∧
      s.Sound (a.frame.own ++ { w with running := rest }.fresh x.set) := by
  obtain ⟨hstatus, hfits, hdepth⟩ := hw.fits (by simp [hrun]) hx hs
  have hsound := hw.sets x.set s hs
  rw [fresh_cons hrun, if_pos (by simp [setOf?, hx])] at hsound
  exact ⟨hstatus, hfits, hdepth, hsound⟩

theorem proceed_settles [Std.TransOrd κ] (hw : w.Sound) :
    Settles w.proceed (Passage w .proceed) := by
  rw [proceed]
  split
  · exact .refused _
  · next a rest hrun =>
    obtain ⟨x, s, hx, -, hs, -⟩ := hw.running a (by simp [hrun])
    obtain ⟨hstatus, hfits, hd, hsound⟩ := hw.top hrun hx hs
    refine (w.handle_settles a.handle).bind ?_
    rintro x' ⟨hx', -⟩
    rw [hx] at hx'
    cases hx'
    refine (w.set_settles x.set).bind ?_
    intro s' hs'
    rw [hs] at hs'
    cases hs'
    have hstep : Yields (a.frame.step s ⟨x.record, a.lane⟩) (Move s ⟨x.record, a.lane⟩ a.frame) :=
      Frame.step_yields hsound hfits hd (List.subset_append_left _ _)
    refine (Settles.lift hstep).bind ?_
    intro st hmove
    dsimp only
    split
    · next frame hnext => exact .pure (.goes hrun hx hs hmove hnext)
    · next reply hnext =>
      obtain ⟨hs', hkeeps⟩ := hmove.sound_keeps hsound hfits hd
      have hd' := hkeeps.depth?.trans hd
      have hends : ∀ {sch}, st.set.scheme.Repins sch x.record
          (Handle.depth { x with status := statusAfter reply }) →
          (statusAfter reply ≠ .idle → sch = st.set.scheme) → Passage w .proceed _ :=
        fun hunpin hkeep => .ends hrun hx hs hmove hnext hunpin hkeep
      cases hafter : statusAfter reply with
      | idle =>
        rw [finish, hafter]
        rw [hafter] at hends
        obtain ⟨sch, hsch, hunpin⟩ := Scheme.exists_unpin hs'.scheme hd'
        dsimp only
        rw [hsch]
        exact .pure (hends hunpin fun h => absurd rfl h)
      | _ =>
        rw [finish, hafter]
        rw [hafter] at hends
        exact .pure (hends ⟨.refl _ _, hs'.scheme, hd', rfl⟩ fun _ => rfl)

theorem resume_settles (hw : w.Sound) (h : Nat) :
    Settles (w.resume h) (Passage w (.resume h)) := by
  rw [resume]
  refine (w.handle_settles h).bind ?_
  rintro x ⟨hx, hreleased⟩
  split
  · next hholding =>
    refine (w.set_settles x.set).bind ?_
    intro s hs
    have hd := (hw.depth? hx hreleased hs).2
    rw [Handle.depth, if_neg (by rw [hholding]; decide)] at hd
    obtain ⟨sch, hsch, hunpin⟩ := Scheme.exists_unpin (hw.sets x.set s hs).scheme hd
    rw [hsch]
    exact .pure (.resume hx hholding hs hunpin)
  · exact .refused _

theorem advance_settles (hw : w.Sound) (i : Nat) :
    Settles (w.advance i) (Passage w (.advance i)) := by
  rw [advance]
  refine (w.set_settles i).bind ?_
  intro s hs
  have hsound := hw.sets i s hs
  split
  · next e he =>
    have hsheds : s.scheme.Sheds (.epochs e.advance.2) [] := by
      rw [he]
      exact Scheme.advance_sheds (he ▸ hsound.scheme)
    have hticks : s.scheme.Ticks (.epochs e.advance.2)
        ((Action.advance i : Action κ ν).advances i) := by
      rw [he, Action.advances, decide_eq_true rfl]
      exact Scheme.advance_ticks e
    exact .pure (.sweep _ [] _ (by simp) hs hsheds (.nil hsound.tidy) hticks rfl rfl
      nofun)
  · exact .refused _

theorem collect_settles (hw : w.Sound) (i : Nat) (lane : Lane) :
    Settles (w.collect i lane) (Passage w (.collect i lane)) := by
  rw [collect]
  refine (w.set_settles i).bind ?_
  intro s hs
  split
  · next e he =>
    have hsheds : s.scheme.Sheds (.epochs e.collect.2) e.collect.1 := by
      rw [he]
      exact Scheme.collect_sheds (he ▸ (hw.sets i s hs).scheme)
    exact freeNodes_settles hw hs hsheds lane _ (by simp) (.inl (by rw [he]; rfl)) rfl
      nofun
  · exact .refused _

theorem scan_settles (hw : w.Sound) (i : Nat) (lane : Lane) :
    Settles (w.scan i lane) (Passage w (.scan i lane)) := by
  rw [scan]
  refine (w.set_settles i).bind ?_
  intro s hs
  split
  · exact .refused _
  · next h hh =>
    have hsheds : s.scheme.Sheds (.hazards h.scan.2) h.scan.1 := by
      rw [hh]
      exact Scheme.scan_sheds (hh ▸ (hw.sets i s hs).scheme)
    exact freeNodes_settles hw hs hsheds lane _ (by simp) (.inl (by rw [hh]; rfl)) rfl
      nofun

/-- In a sound world every action makes one of its changes, unless it is refused or a limit stops
it. -/
theorem step_settles [Std.TransOrd κ] (hw : w.Sound) (a : Action κ ν) :
    Settles (w.step a) (Passage w a) := by
  have hturn : ∀ {x : Except Halt (Outcome κ ν)}, Settles x (Passage w a) →
      Settles (do w.turn; x) (Passage w a) :=
    fun hx => w.turn_settles.bind fun _ _ => hx
  cases a with
  | proceed => exact proceed_settles hw
  | register i => exact hturn (w.register_settles i)
  | release h => exact hturn (w.release_settles h)
  | invoke h i lane call offer => exact hturn (invoke_settles hw h i lane call offer)
  | resume h => exact hturn (resume_settles hw h)
  | advance i => exact hturn (advance_settles hw i)
  | collect i lane => exact hturn (collect_settles hw i lane)
  | scan i lane => exact hturn (scan_settles hw i lane)

end World

end MarkedChain
