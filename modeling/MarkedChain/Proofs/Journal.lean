import Mathlib.Data.List.Induction
import MarkedChain.Proofs.Effects
import MarkedChain.Proofs.Runs

/-!
# The journal of a run

`journal` reads off a run which operations have ended, when they began and ended and what they
replied, and which are still in progress. An event is known by its number, and so is the state of a
set before it.

A `Deed` is a moment at which the reply of an operation was right. `Tally` says of some deeds that
they account for all changes of contents in a run, and `Tally.snoc` what one more event adds.
-/

namespace MarkedChain

variable {κ ν : Type}

/-! ## What is written down -/

/-- An operation that began with an event. -/
structure Pending (κ ν : Type) where
  set : Nat
  call : Call κ ν
  began : Nat

/-- An operation that ended with an event. -/
structure Span (κ ν : Type) extends Pending κ ν where
  reply : Reply κ ν
  ended : Nat

/-- The number of events so far, the operations in progress, the running one first, and those that
have ended in order. -/
structure Journal (κ ν : Type) where
  clock : Nat := 0
  pending : List (Pending κ ν) := []
  spans : List (Span κ ν) := []

/-- Writes down an event. An operation begins if its call is not answered at once, and it is the
running operation that a reply belongs to. -/
def Journal.note (j : Journal κ ν) (e : Event κ ν) : Journal κ ν :=
  match e.action, e.outcome.answer, j.pending with
  | .invoke _ set _ call _, none, _ =>
    { j with clock := j.clock + 1, pending := ⟨set, call, j.clock⟩ :: j.pending }
  | .proceed, some (.reply reply), p :: rest =>
    { clock := j.clock + 1, pending := rest, spans := j.spans ++ [⟨p, reply, j.clock⟩] }
  | _, _, _ => { j with clock := j.clock + 1 }

/-- The journal of a run. -/
def journal (es : List (Event κ ν)) : Journal κ ν := es.foldl Journal.note {}

theorem journal_snoc (es : List (Event κ ν)) (e : Event κ ν) :
    journal (es ++ [e]) = (journal es).note e := by
  simp [journal]

@[simp] theorem Journal.clock_note (j : Journal κ ν) (e : Event κ ν) :
    (j.note e).clock = j.clock + 1 := by
  rw [note]
  split <;> rfl

@[simp] theorem clock_journal (es : List (Event κ ν)) : (journal es).clock = es.length := by
  have hfold : ∀ j : Journal κ ν, (es.foldl Journal.note j).clock = j.clock + es.length := by
    induction es with
    | nil => exact fun j => rfl
    | cons e es ih =>
      intro j
      rw [List.foldl_cons, ih, Journal.clock_note, List.length_cons]
      omega
  simpa [journal] using hfold {}

section

variable (es : List (Event κ ν)) {o : Outcome κ ν}

/-- An action that is answered at once, unless it moves an operation on. -/
theorem journal_answered {e : Event κ ν} {x : Answer κ ν} (hanswer : e.outcome.answer = some x)
    (hproceed : e.action ≠ .proceed) :
    (journal (es ++ [e])).pending = (journal es).pending ∧
      (journal (es ++ [e])).spans = (journal es).spans := by
  rw [journal_snoc, Journal.note]
  split
  · next _ h => cases hanswer.symm.trans h
  · next h _ _ => exact absurd h hproceed
  · exact ⟨rfl, rfl⟩

/-- An operation begins. -/
theorem journal_begins (h i : Nat) (lane : Lane) (call : Call κ ν) (offer : Option Address)
    (hanswer : o.answer = none) :
    (journal (es ++ [⟨.invoke h i lane call offer, o⟩])).pending =
        ⟨i, call, es.length⟩ :: (journal es).pending ∧
      (journal (es ++ [⟨.invoke h i lane call offer, o⟩])).spans = (journal es).spans := by
  rw [journal_snoc, Journal.note, hanswer, clock_journal]
  exact ⟨rfl, rfl⟩

/-- The running operation goes on. -/
theorem journal_goes (hanswer : o.answer = none) :
    (journal (es ++ [⟨.proceed, o⟩])).pending = (journal es).pending ∧
      (journal (es ++ [⟨.proceed, o⟩])).spans = (journal es).spans := by
  rw [journal_snoc, Journal.note, hanswer]
  exact ⟨rfl, rfl⟩

variable {es}

/-- The running operation ends. -/
theorem journal_ends {p : Pending κ ν} {ps : List (Pending κ ν)} {reply : Reply κ ν}
    (hpending : (journal es).pending = p :: ps) (hanswer : o.answer = some (.reply reply)) :
    (journal (es ++ [⟨.proceed, o⟩])).pending = ps ∧
      (journal (es ++ [⟨.proceed, o⟩])).spans =
        (journal es).spans ++ [⟨p, reply, es.length⟩] := by
  rw [journal_snoc, Journal.note, hanswer, hpending, clock_journal]
  exact ⟨rfl, rfl⟩

/-- What has ended was the running operation, and a step of it was answered with its reply. -/
theorem journal_span {x : Span κ ν} (hx : x ∈ (journal es).spans) : ∃ ps o,
    es[x.ended]? = some ⟨.proceed, o⟩ ∧ o.answer = some (.reply x.reply) ∧
      (journal (es.take x.ended)).pending = x.toPending :: ps := by
  induction es using List.reverseRecOn with
  | nil => cases hx
  | append_singleton es e ih =>
    have hold : x ∈ (journal es).spans → ∃ ps o, (es ++ [e])[x.ended]? = some ⟨.proceed, o⟩ ∧
        o.answer = some (.reply x.reply) ∧
          (journal ((es ++ [e]).take x.ended)).pending = x.toPending :: ps := by
      intro hx
      obtain ⟨ps, o, he, hanswer, hpending⟩ := ih hx
      have hlt := (List.getElem?_eq_some_iff.1 he).1
      rw [List.getElem?_append_left hlt, List.take_append_of_le_length (Nat.le_of_lt hlt)]
      exact ⟨ps, o, he, hanswer, hpending⟩
    rw [journal_snoc, Journal.note] at hx
    split at hx
    · exact hold hx
    · next reply p rest haction hanswer hpending =>
      rcases List.mem_append.1 hx with hx | hx
      · exact hold hx
      · obtain rfl := List.mem_singleton.1 hx
        obtain ⟨a, o⟩ := e
        cases haction
        rw [clock_journal, List.take_left]
        exact ⟨rest, o, by simp, hanswer, hpending⟩
    · exact hold hx

end

/-! ## The states of a set -/

namespace World

/-- The states that a set has gone through since an event. -/
def SeenSince (w₀ : World κ ν) (es : List (Event κ ν)) (i b : Nat) (t : SharedSet κ ν) : Prop :=
  ∃ m, b < m ∧ m ≤ es.length ∧ w₀.setAt es i m = some t

variable {w₀ : World κ ν} {es : List (Event κ ν)} {e : Event κ ν} {i m : Nat}

theorem setAt_snoc (w₀ : World κ ν) (es : List (Event κ ν)) (e : Event κ ν) (i : Nat) :
    w₀.setAt (es ++ [e]) i (es.length + 1) = e.outcome.world.sets[i]? := by
  rw [setAt, worldAt_length]
  rfl

theorem le_of_setAt {s : SharedSet κ ν} (h : w₀.setAt es i m = some s) : m ≤ es.length := by
  obtain ⟨u, hu, -⟩ := Option.bind_eq_some_iff.1 h
  exact lt_of_worldAt hu

theorem setAt_mono {s : SharedSet κ ν} (h : w₀.setAt es i m = some s) (e : Event κ ν) :
    w₀.setAt (es ++ [e]) i m = some s := by
  rw [setAt_append (le_of_setAt h), h]

theorem seenSince_snoc {b : Nat} {s' : SharedSet κ ν} (hb : b ≤ es.length)
    (hs' : e.outcome.world.sets[i]? = some s') :
    w₀.SeenSince (es ++ [e]) i b = fun t => w₀.SeenSince es i b t ∨ t = s' := by
  funext t
  refine propext ⟨?_, ?_⟩
  · rintro ⟨m, hbm, hm, ht⟩
    rw [List.length_append, List.length_singleton] at hm
    rcases Nat.lt_or_ge es.length m with hlast | hlast
    · obtain rfl : m = es.length + 1 := by omega
      rw [setAt_snoc, hs'] at ht
      exact .inr (Option.some.inj ht).symm
    · rw [setAt_append hlast] at ht
      exact .inl ⟨m, hbm, hlast, ht⟩
  · rintro (⟨m, hbm, hm, ht⟩ | rfl)
    · exact ⟨m, hbm, by simp; omega, setAt_mono ht e⟩
    · exact ⟨es.length + 1, by omega, by simp, by rw [setAt_snoc, hs']⟩

/-- Nothing has been seen of a set since the last event. -/
theorem seenSince_last (t : SharedSet κ ν) : ¬ w₀.SeenSince es i es.length t := by
  rintro ⟨m, hlt, hle, -⟩
  omega

end World

/-! ## Deeds -/

/-- A moment at which the reply of an operation was right: an event by which it acted on the
contents of its set, or the state before an event, in which it left them alone. -/
structure Deed (κ ν : Type) where
  span : Span κ ν
  moment : Nat
  acts : Bool

section

variable [Ord κ]

/-- The moment lies within the operation, and the reply is what the ledger would say. -/
structure Deed.Right (w₀ : World κ ν) (es : List (Event κ ν)) (d : Deed κ ν) : Prop where
  after : d.span.began < d.moment
  before : d.moment ≤ d.span.ended
  serve : ∃ s s', w₀.setAt es d.span.set d.moment = some s ∧
    w₀.setAt es d.span.set (d.moment + d.acts.toNat) = some s' ∧
    Ledger.serve s.contents d.span.call = (s'.contents, some d.span.reply)

/-- Deeds that account for all that has happened to the contents of sets. No two acted at once. -/
structure Tally (w₀ : World κ ν) (es : List (Event κ ν)) (ds : List (Deed κ ν)) : Prop where
  right : ∀ d ∈ ds, d.Right w₀ es
  distinct : ((ds.filter Deed.acts).map Deed.moment).Nodup
  still : ∀ i m s s', w₀.setAt es i m = some s → w₀.setAt es i (m + 1) = some s' →
    s'.contents = s.contents ∨ ∃ d ∈ ds, d.acts = true ∧ d.span.set = i ∧ d.moment = m

variable {w₀ : World κ ν} {es : List (Event κ ν)} {e : Event κ ν} {ds ds' : List (Deed κ ν)}
  {d : Deed κ ν}

theorem Deed.Right.snoc (h : d.Right w₀ es) (e : Event κ ν) : d.Right w₀ (es ++ [e]) := by
  obtain ⟨hafter, hbefore, s, s', hs, hs', hserve⟩ := h
  exact ⟨hafter, hbefore, s, s', World.setAt_mono hs e, World.setAt_mono hs' e, hserve⟩

/-- A deed that acted came before the end. -/
theorem Deed.Right.lt (h : d.Right w₀ es) (hacts : d.acts = true) : d.moment < es.length := by
  obtain ⟨-, -, s, s', -, hs', -⟩ := h
  rw [hacts] at hs'
  exact World.le_of_setAt hs'

theorem Tally.nil (w₀ : World κ ν) : Tally w₀ [] [] where
  right _ hd := absurd hd List.not_mem_nil
  distinct := .nil
  still _ m _ _ _ hs' := absurd (World.le_of_setAt hs') (Nat.not_succ_le_zero m)

/-- An event adds a deed, or none, and changes the contents of no set but by that deed. -/
theorem Tally.snoc (h : Tally w₀ es (ds ++ ds')) (new : Option (Deed κ ν))
    (hright : ∀ d, new = some d → d.Right w₀ (es ++ [e]))
    (hmoment : ∀ d, new = some d → d.acts = true → d.moment = es.length)
    (hlast : ∀ i s s', w₀.setAt es i es.length = some s → e.outcome.world.sets[i]? = some s' →
      s'.contents = s.contents ∨ ∃ d, new = some d ∧ d.acts = true ∧ d.span.set = i) :
    Tally w₀ (es ++ [e]) (ds ++ (new.toList ++ ds')) := by
  have hmem : ∀ d, d ∈ ds ++ (new.toList ++ ds') ↔ d ∈ ds ++ ds' ∨ new = some d := by
    intro d
    simp only [List.mem_append, Option.mem_toList]
    exact ⟨fun h => by tauto, fun h => by tauto⟩
  have hlt : ∀ d ∈ ds ++ ds', d.acts = true → d.moment < es.length :=
    fun d hd hacts => (h.right d hd).lt hacts
  refine ⟨?_, ?_, ?_⟩
  · intro d hd
    rcases (hmem d).1 hd with hd | hd
    · exact (h.right d hd).snoc e
    · exact hright d hd
  · have hold := h.distinct
    cases new with
    | none => simpa using hold
    | some d =>
      have hperm : (ds ++ ((some d).toList ++ ds')).Perm (d :: (ds ++ ds')) := List.perm_middle
      refine ((hperm.filter _).map _).nodup_iff.2 ?_
      rw [List.filter_cons]
      split
      · next hacts =>
        refine List.nodup_cons.2 ⟨?_, hold⟩
        intro hd
        obtain ⟨d', hd', hmoment'⟩ := List.mem_map.1 hd
        obtain ⟨hd', hacts'⟩ := List.mem_filter.1 hd'
        have hlt' := hlt d' hd' hacts'
        rw [hmoment', hmoment d rfl hacts] at hlt'
        exact Nat.lt_irrefl _ hlt'
      · exact hold
  · intro i m s s' hs hs'
    rcases Nat.lt_or_ge m es.length with hm | hm
    · rw [World.setAt_append (Nat.le_of_lt hm)] at hs
      rw [World.setAt_append hm] at hs'
      rcases h.still i m s s' hs hs' with hsame | ⟨d, hd, hdeed⟩
      · exact .inl hsame
      · exact .inr ⟨d, (hmem d).2 (.inl hd), hdeed⟩
    · have hle := World.le_of_setAt hs'
      rw [List.length_append, List.length_singleton] at hle
      obtain rfl : m = es.length := by omega
      rw [World.setAt_append (Nat.le_refl _)] at hs
      rw [World.setAt_snoc] at hs'
      rcases hlast i s s' hs hs' with hsame | ⟨d, hd, hacts, hset⟩
      · exact .inl hsame
      · exact .inr ⟨d, (hmem d).2 (.inr hd), hacts, hset, hmoment d hd hacts⟩

/-- An event that changes no contents. -/
theorem Tally.idle (h : Tally w₀ es ds)
    (hlast : ∀ i s s', w₀.setAt es i es.length = some s → e.outcome.world.sets[i]? = some s' →
      s'.contents = s.contents) : Tally w₀ (es ++ [e]) ds := by
  have h : Tally w₀ es ([] ++ ds) := h
  exact h.snoc none (by simp) (by simp) fun i s s' hs hs' => .inl (hlast i s s' hs hs')

/-- A deed stays right if its operation ends later. -/
theorem Tally.close (h : Tally w₀ es (ds ++ d :: ds')) {n : Nat} (hn : d.moment ≤ n) :
    Tally w₀ es (ds ++ { d with span := { d.span with ended := n } } :: ds') := by
  refine ⟨?_, ?_, ?_⟩
  · intro d' hd'
    simp only [List.mem_append, List.mem_cons] at hd'
    rcases hd' with hd' | rfl | hd'
    · exact h.right d' (by simp [hd'])
    · obtain ⟨hafter, -, hserve⟩ := h.right d (by simp)
      exact ⟨hafter, hn, hserve⟩
    · exact h.right d' (by simp [hd'])
  · have hold := h.distinct
    rw [List.filter_append, List.filter_cons, List.map_append] at hold ⊢
    cases hacts : d.acts <;> rwa [hacts] at hold
  · intro i m s s' hs hs'
    rcases h.still i m s s' hs hs' with hsame | ⟨d', hd', hdeed⟩
    · exact .inl hsame
    · simp only [List.mem_append, List.mem_cons] at hd'
      rcases hd' with hd' | rfl | hd'
      · exact .inr ⟨d', by simp [hd'], hdeed⟩
      · exact .inr ⟨{ d' with span := { d'.span with ended := n } }, by simp, hdeed⟩
      · exact .inr ⟨d', by simp [hd'], hdeed⟩

end

end MarkedChain
