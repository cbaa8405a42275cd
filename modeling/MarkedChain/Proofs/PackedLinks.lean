import MarkedChain.Link.Packed
import MarkedChain.Proofs.Limits
import Mathlib.Data.Nat.Bitwise

/-!
# Packed links hold an address and a mark

A word is put together from its address and its mark (`PackedLink.pack_pair`), so two words are
equal if and only if both of these are (`PackedLink.pair_injective`). A register compares whole
words, which decides both parts at once: read in a way that tells different contents apart, a
register serves every request as a register of what is read (`Register.history_map`). So a register
of packed links is one of links such as the chain has (`PackedLink.history_link`), and what it
answers and holds is what a plain variable with an address and a mark answers and holds
(`PackedLink.serve`, `PackedLink.serves_pairs`).
-/

namespace MarkedChain

/-! ## Registers whose contents are read -/

/-- What a conditional write came to, with the value read that it found. -/
def Exchange.map {α β : Type} (f : α → β) : Exchange α → Exchange β
  | .written previous => .written (f previous)
  | .refused seen => .refused (f seen)

namespace Register

variable {α β : Type}

/-- A request with all its values read. -/
def Request.map (f : α → β) : Request α → Request β
  | .load => .load
  | .store new => .store (f new)
  | .compareExchange expected new => .compareExchange (f expected) (f new)

/-- The values in a request. -/
def Request.values : Request α → List α
  | .load => []
  | .store new => [new]
  | .compareExchange expected new => [expected, new]

/-- A response with its value read. -/
def Response.map (f : α → β) : Response α → Response β
  | .loaded value => .loaded (f value)
  | .stored => .stored
  | .exchanged result => .exchanged (result.map f)

/-- Responses and the contents after each of them, all of them read. -/
def readAll (f : α → β) (h : List (Response α × α)) : List (Response β × β) :=
  h.map fun x => (x.1.map f, f x.2)

variable [DecidableEq α] [DecidableEq β] {f : α → β}

theorem compareExchange_map (hf : Function.Injective f) (r : Register α) (expected new : α) :
    (Register.mk (f r.contents)).compareExchange (f expected) (f new) =
      ((r.compareExchange expected new).1.map f,
        ⟨f (r.compareExchange expected new).2.contents⟩) := by
  by_cases h : r.contents = expected
  · rw [compareExchange, compareExchange, if_pos (congrArg f h), if_pos h]
    rfl
  · rw [compareExchange, compareExchange, if_neg (hf.ne h), if_neg h]
    rfl

theorem perform_map (hf : Function.Injective f) (r : Register α) (q : Request α) :
    (Register.mk (f r.contents)).perform (q.map f) =
      ((r.perform q).1.map f, ⟨f (r.perform q).2.contents⟩) := by
  cases q with
  | load | store => rfl
  | compareExchange expected new =>
    rw [Request.map, perform, compareExchange_map hf]
    rfl

/-- If different contents are told apart when they are read, a register serves requests as a
register of what is read. -/
theorem history_map (hf : Function.Injective f) (r : Register α) (qs : List (Request α)) :
    readAll f (r.history qs) =
      (Register.mk (f r.contents)).history (qs.map (Request.map f)) := by
  induction qs generalizing r with
  | nil => rfl
  | cons q qs ih =>
    rw [List.map_cons, history, history, perform_map hf, ← ih]
    rfl

end Register

namespace PackedLink

/-! ## The two parts of a word -/

/-- The address and the mark. -/
def pair (p : PackedLink) : UInt64 × Bool := (p.address, p.marked)

theorem toNat_and_markBit (w : UInt64) : (w &&& markBit).toNat = w.toNat % 2 := by
  rw [UInt64.toNat_and]
  exact Nat.and_one_is_mod w.toNat

theorem and_markBit_eq_zero {w : UInt64} : w &&& markBit = 0 ↔ w.toNat % 2 = 0 := by
  rw [← UInt64.toNat_inj, toNat_and_markBit]
  rfl

theorem and_markBit_of_ne {w : UInt64} (h : w &&& markBit ≠ 0) : w &&& markBit = markBit := by
  rw [ne_eq, and_markBit_eq_zero] at h
  rw [← UInt64.toNat_inj, toNat_and_markBit]
  exact Nat.mod_two_ne_zero.1 h

theorem and_not_or_and (v w : UInt64) : v &&& ~~~w ||| v &&& w = v := by
  apply UInt64.toBitVec_inj.1
  ext i hi
  simp [← Bool.and_or_distrib_left]

theorem or_and_not (v w : UInt64) : (v ||| w) &&& ~~~w = v &&& ~~~w := by
  apply UInt64.toBitVec_inj.1
  ext i hi
  simp [Bool.and_or_distrib_right]

theorem or_and_self (v w : UInt64) : (v ||| w) &&& w = w := by
  apply UInt64.toBitVec_inj.1
  ext i hi
  simp +contextual

theorem clear_and (w : UInt64) : (w &&& ~~~markBit) &&& markBit = 0 := by
  simp [markBit, UInt64.and_assoc]

variable {p q : PackedLink}

/-- An odd address cannot be packed. -/
theorem pack_of_odd {a : UInt64} (h : a.toNat % 2 = 1) (m : Bool) :
    pack a m = .error .misaligned :=
  if_neg (and_markBit_eq_zero.not.2 (by rw [h]; decide))

/-- What was packed is read back. -/
theorem exists_pack {a : UInt64} (h : a.toNat % 2 = 0) (m : Bool) :
    ∃ p, pack a m = .ok p ∧ p.pair = (a, m) := by
  have hlow : a &&& markBit = 0 := and_markBit_eq_zero.2 h
  have haddress : a &&& ~~~markBit = a := by
    have hsplit := and_not_or_and a markBit
    rwa [hlow, UInt64.or_zero] at hsplit
  refine ⟨_, if_pos hlow, ?_⟩
  cases m with
  | false => simp [pair, address, marked, haddress, hlow]
  | true =>
    simp only [pair, address, marked, if_true, or_and_not, haddress, or_and_self]
    rfl

/-- A word is what its address and its mark are packed to. -/
theorem pack_pair (p : PackedLink) : pack p.address p.marked = .ok p := by
  have hsplit := and_not_or_and p.word markBit
  refine (if_pos (clear_and p.word)).trans (congrArg Except.ok ?_)
  by_cases h : p.word &&& markBit = 0
  · rw [h, UInt64.or_zero] at hsplit
    simp [marked, address, h, hsplit]
  · rw [and_markBit_of_ne h] at hsplit
    simp [marked, address, h, hsplit]

/-- Words that agree in address and mark are equal. -/
theorem pair_injective : Function.Injective pair := by
  intro p q h
  have hp := pack_pair p
  rw [show p.address = q.address from congrArg Prod.fst h,
    show p.marked = q.marked from congrArg Prod.snd h, pack_pair q] at hp
  exact (Except.ok.inj hp).symm

theorem address_even (p : PackedLink) : p.address.toNat % 2 = 0 :=
  and_markBit_eq_zero.1 (clear_and p.word)

/-- However often the mark is changed, the address stays. -/
theorem exists_remarked (p : PackedLink) (ms : List Bool) :
    ∃ ps, p.remarked ms = .ok ps ∧ ps.map pair = (p.marked :: ms).map fun m => (p.address, m) := by
  induction ms generalizing p with
  | nil => exact ⟨[p], rfl, rfl⟩
  | cons m ms ih =>
    obtain ⟨q, hq, hpair⟩ := exists_pack p.address_even m
    obtain ⟨qs, hqs, hpairs⟩ := ih q
    obtain ⟨haddress, hmarked⟩ := Prod.mk.inj hpair
    refine ⟨p :: qs, bind_eq_ok.2 ⟨q, hq, bind_eq_ok.2 ⟨qs, hqs, rfl⟩⟩, ?_⟩
    rw [List.map_cons, hpairs, haddress, hmarked]
    rfl

/-! ## A plain variable -/

open Register

/-- What a variable with an address and a mark answers to a request, and what it holds then. -/
def serve (x : UInt64 × Bool) :
    Request (UInt64 × Bool) → Response (UInt64 × Bool) × (UInt64 × Bool)
  | .load => (.loaded x, x)
  | .store new => (.stored, new)
  | .compareExchange expected new =>
    if x.1 = expected.1 ∧ x.2 = expected.2 then (.exchanged (.written x), new)
    else (.exchanged (.refused x), x)

/-- The answers to requests in order, each with what the variable holds after it. -/
def serveAll (x : UInt64 × Bool) :
    List (Request (UInt64 × Bool)) → List (Response (UInt64 × Bool) × (UInt64 × Bool))
  | [] => []
  | q :: qs => serve x q :: serveAll (serve x q).2 qs

theorem perform_eq_serve (x : UInt64 × Bool) (q : Request (UInt64 × Bool)) :
    (Register.mk x).perform q = ((serve x q).1, ⟨(serve x q).2⟩) := by
  cases q with
  | load | store => rfl
  | compareExchange expected new =>
    rw [perform, compareExchange, serve]
    by_cases h : x = expected
    · rw [if_pos h, if_pos (Prod.ext_iff.1 h)]
    · rw [if_neg h, if_neg (mt Prod.ext_iff.2 h)]

/-- A register of pairs is a variable that holds one. -/
theorem history_eq_serveAll (x : UInt64 × Bool) (qs : List (Request (UInt64 × Bool))) :
    (Register.mk x).history qs = serveAll x qs := by
  induction qs generalizing x with
  | nil => rfl
  | cons q qs ih => rw [history, perform_eq_serve, ih, serveAll]

/-! ## Registers of words -/

/-- The request of a pair becomes one of a word, if the addresses in it are even. -/
theorem exists_packRequest {q : Request (UInt64 × Bool)}
    (h : ∀ x ∈ q.values, x.1.toNat % 2 = 0) :
    ∃ r, packRequest (q.map some) = .ok r ∧ r.map pair = q := by
  have hpack : ∀ x ∈ q.values, ∃ p, packPair (some x) = .ok p ∧ p.pair = x := by
    intro x hx
    obtain ⟨p, hp, hpair⟩ := exists_pack (h x hx) x.2
    exact ⟨p, bind_eq_ok.2 ⟨x, rfl, Halt.lift_eq_ok.2 hp⟩, hpair⟩
  cases q with
  | load => exact ⟨.load, rfl, rfl⟩
  | store new =>
    obtain ⟨n, hn, rfl⟩ := hpack new (by simp [Request.values])
    exact ⟨.store n, bind_eq_ok.2 ⟨n, hn, rfl⟩, rfl⟩
  | compareExchange expected new =>
    obtain ⟨e, he, rfl⟩ := hpack expected (by simp [Request.values])
    obtain ⟨n, hn, rfl⟩ := hpack new (by simp [Request.values])
    exact ⟨.compareExchange e n, bind_eq_ok.2 ⟨e, he, bind_eq_ok.2 ⟨n, hn, rfl⟩⟩, rfl⟩

/-- A session on a register of words, started with any word, is one on a variable. -/
theorem exists_session (start : PackedLink) {qs : List (Request (UInt64 × Bool))}
    (h : ∀ q ∈ qs, ∀ x ∈ q.values, x.1.toNat % 2 = 0) :
    ∃ hist, session start (qs.map fun q => some (q.map some)) = .ok hist ∧
      readAll pair hist = serveAll start.pair qs := by
  have hpacked : ∃ rs, (qs.map fun q => some (q.map some)).mapM
      (fun q => do packRequest (← Halt.demand q)) = .ok rs ∧ rs.map (Request.map pair) = qs := by
    induction qs with
    | nil => exact ⟨[], rfl, rfl⟩
    | cons q qs ih =>
      obtain ⟨r, hr, hq⟩ := exists_packRequest (h q List.mem_cons_self)
      obtain ⟨rs, hrs, hqs⟩ := ih fun q hq => h q (List.mem_cons_of_mem _ hq)
      refine ⟨r :: rs, ?_, by rw [List.map_cons, hq, hqs]⟩
      rw [List.map_cons, List.mapM_cons]
      exact bind_eq_ok.2 ⟨r, hr, bind_eq_ok.2 ⟨rs, hrs, rfl⟩⟩
  obtain ⟨rs, hrs, hqs⟩ := hpacked
  refine ⟨_, bind_eq_ok.2 ⟨rs, hrs, rfl⟩, ?_⟩
  rw [history_map pair_injective, hqs, history_eq_serveAll]

/-- Words that stand for the same link are equal. -/
theorem link_injective : Function.Injective link := by
  intro p q h
  obtain ⟨htarget, hmarked⟩ := Link.mk.inj h
  refine pair_injective (Prod.ext ?_ hmarked)
  by_cases hp : p.address = 0 <;> by_cases hq : q.address = 0 <;>
    simp_all [isNull, pair]

/-- A register of words serves requests as a register of links does. -/
theorem history_link (r : Register PackedLink) (qs : List (Request PackedLink)) :
    readAll link (r.history qs) =
      (Register.mk r.contents.link).history (qs.map (Request.map link)) :=
  history_map link_injective r qs

/-- An address can be packed with a mark if and only if it is even, and both are read back. Words
are equal if and only if they agree in both. However often the mark of a link is changed, each time
with the address as it was, the link has the mark given last. A conditional write goes by both parts
of a word: it hands out the contents before it, and changes them only if both are the expected ones.
A register of words, read as links such as the chain has, is one of links. And every sequence of
requests with even addresses to a register of words, whatever pair it starts with, is answered as by
a plain variable with a pair, which holds the same after each of them. -/
theorem serves_pairs :
    (∀ a m, (pack a m = .error .misaligned ↔ a.toNat % 2 = 1) ∧
      (a.toNat % 2 = 0 → ∃ p, pack a m = .ok p ∧ p.address = a ∧ p.marked = m)) ∧
    (∀ p q : PackedLink, p.word = q.word ↔ p.address = q.address ∧ p.marked = q.marked) ∧
    (∀ (p : PackedLink) ms, ∃ ps, p.remarked ms = .ok ps ∧
      ps.map pair = (p.marked :: ms).map fun m => (p.address, m)) ∧
    (∀ (r : Register PackedLink) expected new, r.compareExchange expected new =
      if r.contents.address = expected.address ∧ r.contents.marked = expected.marked then
        (.written r.contents, ⟨new⟩) else (.refused r.contents, r)) ∧
    (∀ (r : Register PackedLink) (qs : List (Request PackedLink)), readAll link (r.history qs) =
      (Register.mk r.contents.link).history (qs.map (Request.map link))) ∧
    ∀ (x : UInt64 × Bool) (qs : List (Request (UInt64 × Bool))), x.1.toNat % 2 = 0 →
      (∀ q ∈ qs, ∀ y ∈ q.values, y.1.toNat % 2 = 0) →
      ∃ p hist, pack x.1 x.2 = .ok p ∧
        session p (qs.map fun q => some (q.map some)) = .ok hist ∧
        readAll pair hist = serveAll x qs := by
  have hparts : ∀ p q : PackedLink, p = q ↔ p.address = q.address ∧ p.marked = q.marked :=
    fun p q => pair_injective.eq_iff.symm.trans Prod.mk_inj
  refine ⟨fun a m => ⟨⟨fun herror => ?_, fun hodd => pack_of_odd hodd m⟩, fun heven => ?_⟩,
    fun p q => ?_, exists_remarked, fun r expected new => ?_, history_link,
    fun x qs hx hqs => ?_⟩
  · by_contra hodd
    obtain ⟨p, hp, -⟩ := exists_pack (Nat.mod_two_ne_one.1 hodd) m
    rw [herror] at hp
    cases hp
  · obtain ⟨p, hp, hpair⟩ := exists_pack heven m
    exact ⟨p, hp, Prod.mk.inj hpair⟩
  · rw [← hparts]
    exact ⟨congrArg PackedLink.mk, congrArg PackedLink.word⟩
  · rw [Register.compareExchange]
    exact if_congr (hparts _ _) rfl rfl
  · obtain ⟨p, hp, hpair⟩ := exists_pack hx x.2
    obtain ⟨hist, hsession, hread⟩ := exists_session p hqs
    exact ⟨p, hist, hp, hsession, by rw [hread, hpair]⟩

namespace Topmost

/-- The highest even address is written in the place of the marked link to nothing. A first attempt
does not expect the mark. Then another link is stored. -/
def requests : List (Request (UInt64 × Bool)) :=
  [.compareExchange (0, false) (0xFFFFFFFFFFFFFFFE, false),
    .compareExchange (0, true) (0xFFFFFFFFFFFFFFFE, false), .load, .store (4, true), .load]

theorem even_requests : ∀ q ∈ requests, ∀ y ∈ q.values, y.1.toNat % 2 = 0 := by
  simp only [requests, Request.values, List.forall_mem_cons, List.not_mem_nil, false_implies,
    implies_true, and_true]
  decide

end Topmost

open Topmost in
/-- The first attempt is refused, though the address is the expected one. What was stored is held,
and loaded after that. -/
theorem serves_pairs_topmost :
    ∃ p hist, pack 0 true = .ok p ∧
      session p (requests.map fun q => some (q.map some)) = .ok hist ∧
      readAll pair hist = [(.exchanged (.refused (0, true)), (0, true)),
        (.exchanged (.written (0, true)), (0xFFFFFFFFFFFFFFFE, false)),
        (.loaded (0xFFFFFFFFFFFFFFFE, false), (0xFFFFFFFFFFFFFFFE, false)),
        (.stored, (4, true)), (.loaded (4, true), (4, true))] :=
  serves_pairs.2.2.2.2.2 (0, true) requests (by decide) even_requests

end PackedLink

end MarkedChain
