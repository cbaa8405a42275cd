import MarkedChain.Proofs.Journal

/-!
# Every reply was right at some moment

`Books` ties the journal of a run to the worlds in it: every operation in progress knows of all
states since it began, every operation that has ended with a reply about a key has a deed, and the
deeds account for all that has happened to the contents of the sets. A removal that has marked its
node and is still in progress has its deed already. `Run.books` is the induction over the run, with
one lemma for each kind of event.
-/

namespace MarkedChain

variable {κ ν : Type}

/-- An operation in progress, in the journal and in the world, with the event by which it has acted
on the contents if it only clears up. -/
structure Attended (κ ν : Type) where
  pending : Pending κ ν
  activation : Activation κ
  mark : Option Nat := none

/-- The deed of a removal that only clears up. -/
def Attended.deed? (o : Attended κ ν) : Option (Deed κ ν) :=
  o.mark.map fun m => ⟨⟨o.pending, .removed, m⟩, m, true⟩

variable [Ord κ]

/-- What the operation knows and what it has done. -/
structure Attended.Follows (w₀ : World κ ν) (es : List (Event κ ν)) (w : World κ ν)
    (o : Attended κ ν) : Prop where
  informed : ∃ x s, w.handles[o.activation.handle]? = some x ∧ x.set = o.pending.set ∧
    w.sets[x.set]? = some s ∧
    o.activation.frame.Informed (w₀.SeenSince es o.pending.set o.pending.began) s x.record ∧
    o.activation.frame.task.Serves s o.pending.call
  mark : o.mark.isSome = o.activation.frame.task.done

/-- Operations in progress and deeds that belong to a run. -/
structure Books (w₀ : World κ ν) (es : List (Event κ ν)) (w : World κ ν)
    (os : List (Attended κ ν)) (ds : List (Deed κ ν)) : Prop where
  pending : os.map Attended.pending = (journal es).pending
  running : os.map Attended.activation = w.running
  follows : ∀ o ∈ os, o.Follows w₀ es w
  spans : ds.map Deed.span = (journal es).spans.filter fun x => x.call.key?.isSome
  tally : Tally w₀ es (ds ++ os.filterMap Attended.deed?)

variable [Std.TransOrd κ] {w₀ w : World κ ν} {es : List (Event κ ν)} {e : Event κ ν}
  {os : List (Attended κ ν)} {ds : List (Deed κ ν)} {o : Attended κ ν}

omit [Std.TransOrd κ] in
/-- An operation in progress began before the end. -/
theorem Attended.Follows.began_lt (h : o.Follows w₀ es w) : o.pending.began < es.length := by
  obtain ⟨x, s, -, -, -, hinf, -⟩ := h.informed
  obtain ⟨m, hlt, hle, -⟩ := hinf.now
  exact Nat.lt_of_lt_of_le hlt hle

omit [Std.TransOrd κ] in
/-- An operation has a deed if it only clears up. -/
theorem Attended.Follows.isSome_deed? (h : o.Follows w₀ es w) :
    o.deed?.isSome = o.activation.frame.task.done := by
  rw [Attended.deed?, Option.isSome_map, h.mark]

omit [Std.TransOrd κ] in
theorem Attended.Follows.deed?_eq_none (h : o.Follows w₀ es w)
    (hopen : o.activation.frame.task.done = false) : o.deed? = none := by
  rw [← Option.isNone_iff_eq_none, ← Option.isSome_eq_false_iff, h.isSome_deed?, hopen]

omit [Std.TransOrd κ] in
/-- What only clears up is a removal. -/
theorem Attended.Follows.eq_of_deed? (h : o.Follows w₀ es w) {d : Deed κ ν}
    (hd : o.deed? = some d) :
    ∃ m k, d = ⟨⟨o.pending, .removed, m⟩, m, true⟩ ∧ o.pending.call = .remove k := by
  have hdone : o.activation.frame.task.done = true := by rw [← h.isSome_deed?, hd]; rfl
  obtain ⟨m, -, rfl⟩ := Option.map_eq_some_iff.1 hd
  obtain ⟨x, s, -, -, -, -, hserves⟩ := h.informed
  obtain ⟨k, hk⟩ := hserves.of_done hdone
  exact ⟨m, k, rfl, hk⟩

/-- An operation that makes no step itself is followed through the step of another one. -/
theorem Attended.Follows.others (h : o.Follows w₀ es w) (hw : w.Sound)
    (hp : Passage w e.action e.outcome) (hold : o.activation ∈ w.running)
    (hnew : o.activation ∈ e.outcome.world.running)
    (hother : e.action = .proceed → ∃ c rest, w.running = c :: rest ∧ o.activation ∈ rest) :
    o.Follows w₀ (es ++ [e]) e.outcome.world := by
  have hbegan := h.began_lt
  obtain ⟨⟨x, s, hx, hset, hs, hinf, hserves⟩, hmark⟩ := h
  have hw' := hp.sound hw
  obtain ⟨hstatus, hfits, hd⟩ := hw.fits hold hx hs
  obtain ⟨hkeep, s', who, hs', hwho, hresp⟩ := hp.bystander hw hold hother hx hs
  obtain ⟨s'', hs'', hevolves⟩ := hp.evolves hw hs
  rw [hs'] at hs''
  cases hs''
  have hsound := hw.sets _ _ hs
  have hsound' := hw'.sets _ _ hs'
  refine ⟨⟨x, s', hkeep, hset, hs', ?_, hserves.step fun a n ha hn => ?_⟩, hmark⟩
  · rw [World.seenSince_snoc (Nat.le_of_lt hbegan) (hset ▸ hs')]
    exact hinf.others hfits hsound hsound' hevolves hresp hwho hd
  · have hown := World.own_subset_fresh hnew (by rw [World.setOf?, hkeep, Option.map_some])
    have hmem : a ∈ o.activation.frame.own := by simp [Frame.own, ha]
    obtain ⟨n', hn'⟩ := hsound'.live_of_own (hown hmem)
    exact ⟨n', hn', (hresp.node a n n' hn hn').2.1⟩

namespace Books

/-- An action that moves no operation on adds nothing to the books. -/
theorem quiet (h : Books w₀ es w os ds) (hw : w.Sound) (hlast : w₀.worldAt es es.length = some w)
    (hp : Passage w e.action e.outcome) (hrun : e.outcome.world.running = w.running)
    (hproceed : e.action ≠ .proceed) {x : Answer κ ν} (hanswer : e.outcome.answer = some x) :
    Books w₀ (es ++ [e]) e.outcome.world os ds := by
  have hnote := journal_answered es hanswer hproceed
  refine ⟨hnote.1 ▸ h.pending, hrun ▸ h.running, ?_, hnote.2 ▸ h.spans, ?_⟩
  · intro o ho
    have hold : o.activation ∈ w.running := h.running ▸ List.mem_map_of_mem ho
    exact (h.follows o ho).others hw hp hold (hrun ▸ hold) fun ha => absurd ha hproceed
  · refine h.tally.idle fun i s s' hs hs' => ?_
    rw [World.setAt, hlast] at hs
    exact hp.contents hw hproceed hs hs'

omit [Ord κ] [Std.TransOrd κ] in
theorem serves_of_opens {s t : SharedSet κ ν} {call : Call κ ν} {task : Task κ}
    (h : Opens s call task t) : task.Serves t call := by
  cases h with
  | insert hbirth => exact ⟨rfl, _, (hbirth.node? _).trans (if_pos rfl), rfl⟩
  | plain htask => cases call <;> cases htask <;> first | exact rfl | trivial

/-- An operation that begins has seen one state. -/
theorem begin (hbooks : Books w₀ es w os ds) (hw : w.Sound)
    (hlast : w₀.worldAt es es.length = some w) {h i : Nat} {lane : Lane} {call : Call κ ν}
    {offer : Option Address} {x : Handle} {s t : SharedSet κ ν} {task : Task κ}
    {sch : Scheme Address} {o : Outcome κ ν} (hx : w.handles[h]? = some x)
    (hset : x.set = i) (hs : w.sets[i]? = some s)
    (hopens : Opens s call task t) (hpin : t.scheme.Repins sch x.record 1)
    (hworld : o.world = { (w.setSet i { t with scheme := sch }).setHandle h
      { x with status := .running } with running := ⟨h, lane, ⟨task, .start⟩⟩ :: w.running })
    (hanswer : o.answer = none) (hp : Passage w (.invoke h i lane call offer) o) :
    Books w₀ (es ++ [⟨.invoke h i lane call offer, o⟩]) o.world
      (⟨⟨i, call, es.length⟩, ⟨h, lane, ⟨task, .start⟩⟩, none⟩ :: os) ds := by
  have hw' := hp.sound hw
  have hnote := journal_begins es h i lane call offer hanswer
  have hrunning : o.world.running = ⟨h, lane, ⟨task, .start⟩⟩ :: w.running := by rw [hworld]
  refine ⟨?_, ?_, ?_, hnote.2 ▸ hbooks.spans, ?_⟩
  · rw [hnote.1, List.map_cons, hbooks.pending]
  · rw [hrunning, List.map_cons, hbooks.running]
  · intro o' ho'
    rcases List.mem_cons.1 ho' with rfl | ho'
    · subst hset
      have hs' : o.world.sets[x.set]? = some { t with scheme := sch } := by
        rw [hworld]
        exact (World.getElem?_setSet hs _ _).trans (if_pos rfl)
      have hx' : o.world.handles[h]? = some { x with status := .running } := by
        rw [hworld]
        exact (World.getElem?_setHandle hx _ _).trans (if_pos rfl)
      have hsound' := hw'.sets _ _ hs'
      have hseen : w₀.SeenSince (es ++ [⟨.invoke h x.set lane call offer, o⟩]) x.set es.length =
          (· = { t with scheme := sch }) := by
        rw [World.seenSince_snoc (Nat.le_refl _) hs']
        funext u
        simp [World.seenSince_last]
      refine ⟨⟨_, _, hx', rfl, hs', ?_, ?_⟩, ?_⟩
      · rw [hseen]
        refine ⟨rfl, ?_, fun hv => hsound'.remembers hv hpin.2.2.1, fun _ _ => trivial⟩
        rintro u rfl
        exact ⟨_, hsound'⟩
      · exact (serves_of_opens hopens).step fun a n _ hn => ⟨n, hn, rfl⟩
      · cases hopens with
        | insert => rfl
        | plain htask => cases call <;> cases htask <;> rfl
    · have hold : o'.activation ∈ w.running := hbooks.running ▸ List.mem_map_of_mem ho'
      refine (hbooks.follows o' ho').others hw hp hold ?_ (by simp)
      rw [hrunning]
      exact List.mem_cons_of_mem _ hold
  · refine hbooks.tally.idle fun j u u' hu hu' => ?_
    rw [World.setAt, hlast] at hu
    exact hp.contents hw (by simp) hu hu'

/-! ## Steps of the running operation -/

section

variable {o₁ : Attended κ ν} {o : Outcome κ ν} {a : Activation κ} {rest : List (Activation κ)}
  {x : Handle} {s s' : SharedSet κ ν} {st : Stride κ ν}

/-- The operations below the running one are followed through its step. -/
theorem follows_rest (h : Books w₀ es w (o₁ :: os) ds) (hw : w.Sound) (hp : Passage w .proceed o)
    (hnew : ∀ o₂ ∈ os, o₂.activation ∈ o.world.running) :
    ∀ o₂ ∈ os, o₂.Follows w₀ (es ++ [⟨.proceed, o⟩]) o.world := by
  intro o₂ ho₂
  have hrun := h.running
  rw [List.map_cons] at hrun
  have hmem : o₂.activation ∈ os.map Attended.activation := List.mem_map_of_mem ho₂
  refine (h.follows o₂ (by simp [ho₂])).others hw hp ?_ (hnew o₂ ho₂) fun _ =>
    ⟨_, _, hrun.symm, hmem⟩
  rw [← hrun]
  exact List.mem_cons_of_mem _ hmem

omit [Std.TransOrd κ] in
/-- A step of the running operation and the deed it has done, if any, go into the tally. -/
theorem tally_snoc {ds' : List (Deed κ ν)} (h : Tally w₀ es (ds ++ ds'))
    (hlast : w₀.worldAt es es.length = some w) (hs : w.sets[x.set]? = some s)
    (hsets : o.world.sets = (w.setSet x.set s').sets) (new : Option (Deed κ ν))
    (hright : ∀ d, new = some d → d.Right w₀ (es ++ [⟨.proceed, o⟩]))
    (hmoment : ∀ d, new = some d → d.acts = true → d.moment = es.length)
    (hsame : s'.contents = s.contents ∨ ∃ d, new = some d ∧ d.acts = true ∧ d.span.set = x.set) :
    Tally w₀ (es ++ [⟨.proceed, o⟩]) (ds ++ (new.toList ++ ds')) := by
  refine h.snoc new hright hmoment fun j u u' hu hu' => ?_
  rw [World.setAt, hlast] at hu
  change o.world.sets[j]? = some u' at hu'
  rw [hsets] at hu'
  by_cases hj : x.set = j
  · subst hj
    rcases hsame with hsame | hdeed
    · exact .inl (Passage.contents_setSet hs hu hu' fun _ => hsame)
    · exact .inr hdeed
  · exact .inl (Passage.contents_setSet hs hu hu' fun h => absurd h hj)

omit [Std.TransOrd κ] in
/-- A step of the running operation that leaves the contents alone. -/
theorem tally_idle (h : Tally w₀ es ds) (hlast : w₀.worldAt es es.length = some w)
    (hs : w.sets[x.set]? = some s) (hsets : o.world.sets = (w.setSet x.set s').sets)
    (hsame : s'.contents = s.contents) : Tally w₀ (es ++ [⟨.proceed, o⟩]) ds := by
  refine h.idle fun j u u' hu hu' => ?_
  rw [World.setAt, hlast] at hu
  change o.world.sets[j]? = some u' at hu'
  rw [hsets] at hu'
  exact Passage.contents_setSet hs hu hu' fun _ => hsame

omit [Std.TransOrd κ] in
/-- A deed of the running operation with this event. -/
theorem right_of_serve (h : o₁.Follows w₀ es w) (hlast : w₀.worldAt es es.length = some w)
    (hs : w.sets[o₁.pending.set]? = some s) (hs' : o.world.sets[o₁.pending.set]? = some s')
    {reply : Reply κ ν}
    (hserve : Ledger.serve s.contents o₁.pending.call = (s'.contents, some reply)) :
    Deed.Right w₀ (es ++ [⟨.proceed, o⟩]) ⟨⟨o₁.pending, reply, es.length⟩, es.length, true⟩ := by
  refine ⟨h.began_lt, Nat.le_refl _, s, s', World.setAt_mono ?_ _, ?_, hserve⟩
  · rw [World.setAt, hlast]
    exact hs
  · exact (World.setAt_snoc w₀ es _ _).trans hs'

omit [Std.TransOrd κ] in
/-- A step by which the running operation acts on the contents. -/
theorem tally_act {ds' : List (Deed κ ν)} (h : Tally w₀ es (ds ++ ds'))
    (hfollows : o₁.Follows w₀ es w) (hlast : w₀.worldAt es es.length = some w)
    (hset : x.set = o₁.pending.set) (hs : w.sets[x.set]? = some s)
    (hsets : o.world.sets = (w.setSet x.set s').sets) {reply : Reply κ ν}
    (hserve : Ledger.serve s.contents o₁.pending.call = (s'.contents, some reply)) :
    Tally w₀ (es ++ [⟨.proceed, o⟩])
      (ds ++ ([⟨⟨o₁.pending, reply, es.length⟩, es.length, true⟩] ++ ds')) := by
  have hs' : o.world.sets[x.set]? = some s' := by rw [hsets, World.getElem?_setSet hs, if_pos rfl]
  refine tally_snoc h hlast hs hsets (some _) ?_ ?_ (.inr ⟨_, rfl, rfl, hset.symm⟩)
  · intro d hd
    cases hd
    exact right_of_serve hfollows hlast (hset ▸ hs) (hset ▸ hs') hserve
  · rintro d hd -
    cases hd
    rfl

/-- What the running operation knows, as its step needs it. -/
theorem effect (h : o₁.Follows w₀ es w) (hw : w.Sound) (ha : o₁.activation = a)
    (hrun : w.running = a :: rest) (hx : w.handles[a.handle]? = some x)
    (hs : w.sets[x.set]? = some s) (hmove : Move s ⟨x.record, a.lane⟩ a.frame st) :
    x.set = o₁.pending.set ∧ st.set.Sound (st.next.own ++ { w with running := rest }.fresh x.set) ∧
      (∀ f, st.next = .goes f → f.Informed (fun t => w₀.SeenSince es x.set o₁.pending.began t ∨
        t = st.set) st.set x.record ∧ f.task.Serves st.set o₁.pending.call) ∧
      Effect (w₀.SeenSince es x.set o₁.pending.began) s o₁.pending.call a.frame.task st := by
  subst ha
  obtain ⟨⟨y, u, hy, hset, hu, hinf, hserves⟩, -⟩ := h
  rw [hx] at hy
  cases hy
  rw [hs] at hu
  cases hu
  obtain ⟨-, hfits, hd, hsound⟩ := hw.top hrun hx hs
  rw [← hset] at hinf
  exact ⟨hset, (hmove.sound_keeps hsound hfits hd).1, fun f hf =>
    ⟨hmove.informed hsound hfits hd hinf hf, hmove.serves hsound hfits hd hserves hf⟩,
    hmove.effect hsound hfits hd hinf hserves⟩

/-- If the running operation goes on, only the tally is left to show. -/
theorem goes_of_tally (h : Books w₀ es w (o₁ :: os) ds) (hw : w.Sound) (o₂ : Attended κ ν)
    (hpending : o₂.pending = o₁.pending)
    (hrunning : o.world.running = o₂.activation :: os.map Attended.activation)
    (hanswer : o.answer = none) (hp : Passage w .proceed o)
    (hfollows : o₂.Follows w₀ (es ++ [⟨.proceed, o⟩]) o.world)
    (htally : Tally w₀ (es ++ [⟨.proceed, o⟩]) (ds ++ (o₂ :: os).filterMap Attended.deed?)) :
    Books w₀ (es ++ [⟨.proceed, o⟩]) o.world (o₂ :: os) ds := by
  have hnote := journal_goes es hanswer
  refine ⟨?_, hrunning.symm, ?_, hnote.2 ▸ h.spans, htally⟩
  · rw [hnote.1, ← h.pending, List.map_cons, List.map_cons, hpending]
  · intro o₃ ho₃
    rcases List.mem_cons.1 ho₃ with rfl | ho₃
    · exact hfollows
    · refine h.follows_rest hw hp (fun o₄ ho₄ => ?_) o₃ ho₃
      rw [hrunning]
      exact List.mem_cons_of_mem _ (List.mem_map_of_mem ho₄)

/-- The running operation goes on. It may have done what it was asked for. -/
theorem goes (h : Books w₀ es w (o₁ :: os) ds) (hw : w.Sound)
    (hlast : w₀.worldAt es es.length = some w) {frame : Frame κ} (ha : o₁.activation = a)
    (hrun : w.running = a :: rest) (hx : w.handles[a.handle]? = some x)
    (hs : w.sets[x.set]? = some s) (hmove : Move s ⟨x.record, a.lane⟩ a.frame st)
    (hnext : st.next = .goes frame)
    (hworld : o.world = { (w.setSet x.set st.set).setHandle a.handle
      { x with retries := x.retries + st.retries } with running := { a with frame } :: rest })
    (hanswer : o.answer = none) (hp : Passage w .proceed o) :
    ∃ os', Books w₀ (es ++ [⟨.proceed, o⟩]) o.world os' ds := by
  have hfollows := h.follows o₁ (by simp)
  obtain ⟨hset, -, hinf, heffect⟩ := effect hfollows hw ha hrun hx hs hmove
  obtain ⟨hinf, hserves⟩ := hinf frame hnext
  have hsets : o.world.sets = (w.setSet x.set st.set).sets := by rw [hworld]; rfl
  have hs' : o.world.sets[x.set]? = some st.set := by
    rw [hsets, World.getElem?_setSet hs, if_pos rfl]
  have hx' : o.world.handles[a.handle]? =
      some { x with retries := x.retries + st.retries } := by
    rw [hworld]
    exact (World.getElem?_setHandle hx _ _).trans (if_pos rfl)
  have hrunning : o.world.running = { a with frame } :: os.map Attended.activation := by
    have hold := h.running
    rw [hrun, List.map_cons, ha] at hold
    rw [hworld, (List.cons.inj hold).2]
  have hnew : ∀ mark : Option Nat, mark.isSome = frame.task.done →
      Attended.Follows w₀ (es ++ [⟨.proceed, o⟩]) o.world
        ⟨o₁.pending, { a with frame }, mark⟩ := by
    intro mark hmark
    refine ⟨⟨_, _, hx', hset, hs', ?_, hserves⟩, hmark⟩
    rw [World.seenSince_snoc (Nat.le_of_lt hfollows.began_lt) (hset ▸ hs'), ← hset]
    exact hinf
  have htally := h.tally
  cases heffect with
  | silent hnext' hdone hsame =>
    rw [hnext] at hnext'
    cases hnext'
    have hmark : o₁.mark.isSome = frame.task.done := by rw [hfollows.mark, ha, hdone]
    refine ⟨_, h.goes_of_tally hw ⟨o₁.pending, { a with frame }, o₁.mark⟩ rfl hrunning hanswer hp
      (hnew o₁.mark hmark) ?_⟩
    exact tally_idle htally hlast hs hsets hsame
  | early hnext' hopen hdone hserve =>
    rw [hnext] at hnext'
    cases hnext'
    rw [List.filterMap_cons_none (hfollows.deed?_eq_none (ha ▸ hopen))] at htally
    refine ⟨_, h.goes_of_tally hw ⟨o₁.pending, { a with frame }, some es.length⟩ rfl hrunning
      hanswer hp (hnew _ hdone.symm) ?_⟩
    exact tally_act htally hfollows hlast hset hs hsets hserve
  | late hnext' | acts hnext' | tells hnext' =>
    rw [hnext] at hnext'
    cases hnext'

/-- If the running operation ends, only the tally with its deed is left to show. -/
theorem ends_of_tally (h : Books w₀ es w (o₁ :: os) ds) (hw : w.Sound) {reply : Reply κ ν}
    (hrunning : o.world.running = os.map Attended.activation)
    (hanswer : o.answer = some (.reply reply)) (hp : Passage w .proceed o)
    (new : List (Deed κ ν)) (hspans : new.map Deed.span =
      [(⟨o₁.pending, reply, es.length⟩ : Span κ ν)].filter fun x => x.call.key?.isSome)
    (htally : Tally w₀ (es ++ [⟨.proceed, o⟩]) (ds ++ (new ++ os.filterMap Attended.deed?))) :
    Books w₀ (es ++ [⟨.proceed, o⟩]) o.world os (ds ++ new) := by
  have hpending := h.pending
  rw [List.map_cons] at hpending
  have hnote := journal_ends hpending.symm hanswer
  refine ⟨hnote.1.symm, hrunning.symm, h.follows_rest hw hp fun o₂ ho₂ => ?_, ?_, ?_⟩
  · rw [hrunning]
    exact List.mem_map_of_mem ho₂
  · rw [hnote.2, List.map_append, List.filter_append, h.spans, hspans]
  · rwa [List.append_assoc]

/-- The running operation ends. If it was asked about a key, there is a deed for it now. -/
theorem ends (h : Books w₀ es w (o₁ :: os) ds) (hw : w.Sound)
    (hlast : w₀.worldAt es es.length = some w) {reply : Reply κ ν} {sch : Scheme Address}
    (ha : o₁.activation = a) (hrun : w.running = a :: rest) (hx : w.handles[a.handle]? = some x)
    (hs : w.sets[x.set]? = some s) (hmove : Move s ⟨x.record, a.lane⟩ a.frame st)
    (hnext : st.next = .ends reply)
    (hsets : o.world.sets = (w.setSet x.set { st.set with scheme := sch }).sets)
    (hrunning : o.world.running = rest) (hanswer : o.answer = some (.reply reply))
    (hp : Passage w .proceed o) :
    ∃ ds', Books w₀ (es ++ [⟨.proceed, o⟩]) o.world os ds' := by
  have hfollows := h.follows o₁ (by simp)
  obtain ⟨hset, -, -, heffect⟩ := effect hfollows hw ha hrun hx hs hmove
  have hrunning : o.world.running = os.map Attended.activation := by
    have hold := h.running
    rw [hrun, List.map_cons, ha] at hold
    rw [hrunning, (List.cons.inj hold).2]
  have htally := h.tally
  have hkeyed : o₁.pending.call.key?.isSome = true →
      [(⟨o₁.pending, reply, es.length⟩ : Span κ ν)] =
        [⟨o₁.pending, reply, es.length⟩].filter (fun x => x.call.key?.isSome) :=
    fun hkey => by simp [hkey]
  cases heffect with
  | silent hnext' | early hnext' =>
    rw [hnext] at hnext'
    cases hnext'
  | late hnext' hdone hsame =>
    rw [hnext] at hnext'
    cases hnext'
    obtain ⟨d, hdeed⟩ := Option.isSome_iff_exists.1 (hfollows.isSome_deed?.trans (ha ▸ hdone))
    obtain ⟨m, k, rfl, hcall⟩ := hfollows.eq_of_deed? hdeed
    rw [List.filterMap_cons_some hdeed] at htally
    have hlt : m < es.length :=
      (htally.right ⟨⟨o₁.pending, .removed, m⟩, m, true⟩ (by simp)).lt rfl
    have hclose := Tally.close (tally_idle htally hlast hs hsets hsame) (Nat.le_of_lt hlt)
    have hkey : o₁.pending.call.key?.isSome = true := by rw [hcall]; rfl
    exact ⟨_, h.ends_of_tally hw hrunning hanswer hp
      [⟨⟨o₁.pending, .removed, es.length⟩, m, true⟩] (hkeyed hkey) hclose⟩
  | acts hnext' hopen hkey hserve =>
    rw [hnext] at hnext'
    cases hnext'
    rw [List.filterMap_cons_none (hfollows.deed?_eq_none (ha ▸ hopen))] at htally
    have hserve : Ledger.serve s.contents o₁.pending.call =
      (({ st.set with scheme := sch } : SharedSet κ ν).contents, some reply) := hserve
    have hact := tally_act htally hfollows hlast hset hs hsets hserve
    exact ⟨_, h.ends_of_tally hw hrunning hanswer hp
      [⟨⟨o₁.pending, reply, es.length⟩, es.length, true⟩] (hkeyed hkey) hact⟩
  | tells hnext' hopen hsame hserve =>
    rw [hnext] at hnext'
    cases hnext'
    rw [List.filterMap_cons_none (hfollows.deed?_eq_none (ha ▸ hopen))] at htally
    cases hkey : o₁.pending.call.key? with
    | none =>
      refine ⟨_, h.ends_of_tally hw hrunning hanswer hp [] (by simp [hkey]) ?_⟩
      exact tally_idle htally hlast hs hsets hsame
    | some k =>
      obtain ⟨u, ⟨m, hafter, hbefore, hu⟩, hserve⟩ := hserve k hkey
      refine ⟨_, h.ends_of_tally hw hrunning hanswer hp
        [⟨⟨o₁.pending, reply, es.length⟩, m, false⟩] (hkeyed (by simp [hkey])) ?_⟩
      refine tally_snoc htally hlast hs hsets (some _) ?_ ?_ (.inl hsame)
      · intro d hd
        cases hd
        rw [hset] at hu
        exact ⟨hafter, hbefore, u, u, World.setAt_mono hu _, World.setAt_mono hu _, hserve⟩
      · intro d hd hacts
        cases hd
        cases hacts

end

/-- The books go on with every action. -/
theorem step (h : Books w₀ es w os ds) (hw : w.Sound) (hlast : w₀.worldAt es es.length = some w)
    {a : Action κ ν} {o : Outcome κ ν} (hp : Passage w a o) :
    ∃ os' ds', Books w₀ (es ++ [⟨a, o⟩]) o.world os' ds' := by
  have hp' := hp
  have htop : ∀ {b : Activation κ} {rest : List (Activation κ)}, w.running = b :: rest →
      ∃ o₁ os', os = o₁ :: os' ∧ o₁.activation = b := by
    intro b rest hrun
    obtain ⟨o₁, os', rfl, ho₁, -⟩ := List.map_eq_cons_iff.1 (h.running.trans hrun)
    exact ⟨o₁, os', rfl, ho₁⟩
  cases hp with
  | misuse _ _ _ ha => exact ⟨os, ds, h.quiet hw hlast hp' rfl ha rfl⟩
  | sweep _ _ _ ha => exact ⟨os, ds, h.quiet hw hlast hp' rfl ha rfl⟩
  | register | release | resume => exact ⟨os, ds, h.quiet hw hlast hp' rfl (by simp) rfl⟩
  | begin h' i lane call offer hx hidle hset hs hopens hpin =>
    exact ⟨_, ds, h.begin hw hlast hx hset hs hopens hpin rfl rfl hp'⟩
  | goes hrun hx hs hmove hnext =>
    obtain ⟨o₁, os', rfl, ho₁⟩ := htop hrun
    obtain ⟨os'', hbooks⟩ := h.goes hw hlast ho₁ hrun hx hs hmove hnext rfl rfl hp'
    exact ⟨os'', ds, hbooks⟩
  | ends hrun hx hs hmove hnext hunpin =>
    obtain ⟨o₁, os', rfl, ho₁⟩ := htop hrun
    obtain ⟨ds', hbooks⟩ := h.ends hw hlast ho₁ hrun hx hs hmove hnext rfl rfl rfl hp'
    exact ⟨os', ds', hbooks⟩

end Books

/-- Every run that starts with no operation in progress has its books. -/
theorem Run.books (h : Run w₀ es w) (h₀ : w₀.Sound) (hidle : w₀.running = []) :
    ∃ os ds, Books w₀ es w os ds := by
  induction h with
  | nil =>
    exact ⟨[], [], rfl, hidle.symm, fun o ho => absurd ho List.not_mem_nil, rfl, .nil w₀⟩
  | snoc h hstep ih =>
    obtain ⟨os, ds, hbooks⟩ := ih
    have hw := h.sound h₀ h.worldAt_last
    exact hbooks.step hw h.worldAt_last ((World.step_settles hw _).of_ok hstep)

end MarkedChain
