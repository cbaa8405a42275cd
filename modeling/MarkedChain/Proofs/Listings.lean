import MarkedChain.Proofs.Lifetime
import MarkedChain.Proofs.Walks

/-!
# Listing the keys while others are at work

A walk that lists keys comes to greater and greater ones (`Point.Rises`), and of each key that it
has not yet passed it knows what a search for that key would know (`Point.Informed`). So nothing
that was there all the time can slip past it (`Point.Listing`): whatever others do while the walk
pauses, the keys that are listed in the end are in ascending order, each of them was in the set at
some moment, and none is missing that was in the set at all moments (`Run.keys_listed`).
-/

namespace MarkedChain

variable {κ ν : Type}

namespace Point

/-- The node that owns the link before a walk. -/
def owner? : Point → Option Address
  | .start => none
  | .inspect pred _ | .encounter pred _ _ | .judge pred _ _ => pred.node?

variable [Ord κ] {s s' : SharedSet κ ν} {own : List Address}

/-- A walk has the key `k` still before it. -/
def Before (s : SharedSet κ ν) (k : κ) (p : Point) : Prop := ∀ a, p.owner? = some a → s.Under k a

/-- The links that were read at a point lead to greater keys. -/
def Rises (s : SharedSet κ ν) : Point → Prop
  | .start => True
  | .inspect pred x => ∀ a b, pred.node? = some a → x = some b → s.Below a b
  | .encounter pred curr next | .judge pred curr next =>
    (∀ a, pred.node? = some a → s.Below a curr) ∧ ∀ b, next.target = some b → s.Below curr b

end Point

theorem Place.node?_eq_some {pl : Place} {a : Address} : pl.node? = some a ↔ pl = .node a := by
  cases pl <;> simp [Place.node?]

section

variable [Ord κ] {s s' : SharedSet κ ν} {own own' : List Address} {r : Nat} {t : Task κ} {p : Point}

/-- The owner of the link before a walk is held. -/
theorem Point.Fits.owner (h : p.Fits s r t) {a : Address} (ha : p.owner? = some a) :
    s.Held r .pred a := by
  cases p with
  | start => cases ha
  | inspect | encounter | judge => exact (h.1 a (Place.node?_eq_some.1 ha)).1

/-- Two nodes that are there before and after a change are in order as they were. -/
theorem SharedSet.Below.step {a b : Address} (h : s.Below a b)
    (ha : ∃ n, s.memory.node? a = some n) (hb : ∃ n, s.memory.node? b = some n)
    (hagrees : ∀ c, s.Agrees s' c) : s'.Below a b := by
  obtain ⟨n, hn⟩ := ha
  obtain ⟨m, hm⟩ := hb
  intro n' m' hn' hm'
  rw [(hagrees a n n' hn hn').1, (hagrees b m m' hm hm').1]
  exact h n m hn hm

/-- Links that were read go on to lead to greater keys. -/
theorem Point.Rises.step (h : p.Rises s) (hf : p.Fits s r t) (hs : s.Sound own)
    (hnext : ∀ pred curr next, p ≠ .judge pred curr next) (hagrees : ∀ c, s.Agrees s' c) :
    p.Rises s' := by
  have howner : ∀ a, p.owner? = some a → ∃ n, s.memory.node? a = some n :=
    fun a ha => hs.live_of_held (hf.owner ha)
  cases p with
  | start => trivial
  | inspect pred x =>
    exact fun a b ha hb => (h a b ha hb).step (howner a ha) (hs.live_of_held (hf.2 b hb)) hagrees
  | encounter pred curr next =>
    have hcurr := hs.live_of_held hf.2.1
    exact ⟨fun a ha => (h.1 a ha).step (howner a ha) hcurr hagrees,
      fun b hb => (h.2 b hb).step hcurr (hs.live_of_held (hf.2.2.1 b hb)) hagrees⟩
  | judge pred curr next => exact absurd rfl (hnext pred curr next)

/-- What is before a walk stays before it. -/
theorem Point.before_iff {p' : Point} {r' : Nat} {t' : Task κ} (howner : p'.owner? = p.owner?)
    (hf : p.Fits s r t) (hs : s.Sound own) (hf' : p'.Fits s' r' t') (hs' : s'.Sound own')
    (hagrees : ∀ c, s.Agrees s' c) (k : κ) : p'.Before s' k ↔ p.Before s k := by
  constructor
  · intro h a ha n hn
    obtain ⟨n', hn'⟩ := hs'.live_of_held (hf'.owner (howner.trans ha))
    rw [← (hagrees a n n' hn hn').1]
    exact h a (howner.trans ha) n' hn'
  · intro h a ha n' hn'
    obtain ⟨n, hn⟩ := hs.live_of_held (hf.owner (howner.symm.trans ha))
    rw [(hagrees a n n' hn hn').1]
    exact h a (howner.symm.trans ha) n hn

end

/-! ## What is known while keys are listed -/

section

variable [Ord κ] (seen : SharedSet κ ν → Prop)

/-- What a walk that lists keys knows, with the keys met so far, the last one first. -/
structure Point.Listing (s : SharedSet κ ν) (met : List κ) (p : Point) : Prop where
  descending : met.Pairwise fun k k' => compare k' k = .lt
  member : ∀ k ∈ met, ∃ t v, seen t ∧ (k, v) ∈ t.contents
  behind : ∀ k ∈ met, ∀ k', p.Before s k' → compare k k' = .lt
  complete : ∀ q, (∀ t, seen t → q ∈ t.contents) → q.1 ∈ met ∨ p.Before s q.1
  informed : ∀ k, p.Before s k → p.Informed seen s k
  rises : p.Rises s
  walks : ∀ pred curr next, p ≠ .judge pred curr next

/-- What an operation that lists keys knows. -/
def Frame.Listing (s : SharedSet κ ν) (f : Frame κ) : Prop :=
  ∀ met, f.task = .keys met → f.point.Listing seen s met

end

variable [Ord κ] {s s' : SharedSet κ ν} {seen seen' : SharedSet κ ν → Prop} {own : List Address}
  {met : List κ} {p p' : Point} {who : Actor} {f f' : Frame κ} {st : Stride κ ν} {k : κ}

/-- A step that comes to no further node leaves the keys met so far. -/
theorem Point.Listing.carry (h : p.Listing seen s met)
    (hbefore : ∀ k, p'.Before s' k ↔ p.Before s k) (hmono : ∀ t, seen t → seen' t)
    (hinformed : ∀ k, p'.Before s' k → p'.Informed seen' s' k) (hrises : p'.Rises s')
    (hwalks : ∀ pred curr next, p' ≠ .judge pred curr next) : p'.Listing seen' s' met where
  descending := h.descending
  member k hk := by
    obtain ⟨t, v, ht, hv⟩ := h.member k hk
    exact ⟨t, v, hmono t ht, hv⟩
  behind k hk k' hk' := h.behind k hk k' ((hbefore k').1 hk')
  complete q hq := (h.complete q fun t ht => hq t (hmono t ht)).imp_right (hbefore q.1).2
  informed := hinformed
  rises := hrises
  walks := hwalks

/-- What a walk that lists keys relies on is what a search relies on for a key that it has still
before it. -/
theorem Point.Fits.search {r : Nat} (h : p.Fits s r (.keys met)) (hbefore : p.Before s k)
    (hwalks : ∀ pred curr next, p ≠ .judge pred curr next) : p.Fits s r (.contains k) := by
  have hreaches : ∀ {pred : Place}, s.Reaches r (.keys met) pred →
      (∀ a, pred.node? = some a → s.Under k a) → s.Reaches r (.contains k) pred := by
    intro pred hreaches hlow a ha
    refine ⟨(hreaches a ha).1, fun k' hk' => ?_⟩
    cases hk'
    exact hlow a (Place.node?_eq_some.2 ha)
  cases p with
  | start => trivial
  | inspect pred x => exact ⟨hreaches h.1 hbefore, h.2⟩
  | encounter pred curr next => exact ⟨hreaches h.1 hbefore, h.2⟩
  | judge pred curr next => exact absurd rfl (hwalks pred curr next)

/-- A step of a walk that lists keys is one of a search for a key that it has still before it. -/
theorem Move.search (h : Move s who ⟨.keys met, p⟩ st) (hnext : st.next = .goes f')
    (hpass : ∀ pred curr next n, p = .encounter pred curr next → s.memory.node? curr = some n →
      compare n.key k = .lt) :
    ∃ st', Move s who ⟨.contains k, p⟩ st' ∧ st'.set = st.set ∧
      st'.next = .goes ⟨.contains k, f'.point⟩ := by
  cases h with
  | start => cases hnext; exact ⟨_, .start _, rfl, rfl⟩
  | look t pred hn hhelps => cases hnext; exact ⟨_, .look _ pred hn hhelps, rfl, rfl⟩
  | stray t pred hn hl hne hhelps =>
    cases hnext
    exact ⟨_, .stray _ pred hn hl hne hhelps, rfl, rfl⟩
  | follow t pred hn hm hl hne hlm hhelps =>
    cases hnext
    exact ⟨_, .follow _ pred hn hm hl hne hlm hhelps, rfl, rfl⟩
  | clear t pred hn hm hl hclears hticks hhelps =>
    cases hnext
    exact ⟨_, .clear _ pred hn hm hl hclears hticks hhelps, rfl, rfl⟩
  | pass pred next hn _ =>
    cases hnext
    refine ⟨_, .pass pred next hn (?_ : (Task.contains k).pass? _ _ = some (.contains k)), rfl, rfl⟩
    simp [Task.pass?, hpass pred _ next _ rfl hn]
  | stop pred next hn hstops => cases hstops
  | finish | tell => cases hnext

variable [Std.TransOrd κ]

/-- A step of a walk that lists keys keeps what is known of the keys that are still before it. -/
theorem Move.informed_before (h : Move s who ⟨.keys met, p⟩ st) (hs : s.Sound own)
    (hf : p.Fits s who.record (.keys met)) (hd : s.scheme.depth? who.record = some 1)
    (hinf : Frame.Informed seen s who.record ⟨.keys met, p⟩) (hlists : p.Listing seen s met)
    (hbefore : p.Before s k) (hnext : st.next = .goes f')
    (hpass : ∀ pred curr next n, p = .encounter pred curr next → s.memory.node? curr = some n →
      compare n.key k = .lt) :
    f'.point.Informed (fun t => seen t ∨ t = st.set) st.set k := by
  obtain ⟨st', hmove, hset, hnext'⟩ := h.search hnext hpass
  have hfits : Frame.Fits s who.record ⟨.contains k, p⟩ :=
    ⟨by simp, hf.search hbefore hlists.walks⟩
  have hsearch : Frame.Informed seen s who.record ⟨.contains k, p⟩ := by
    refine ⟨hinf.now, hinf.sound, hinf.remembers, fun k' hk' => ?_⟩
    cases hk'
    exact hlists.informed k hbefore
  have hsound : s.Sound ((⟨.contains k, p⟩ : Frame κ).own ++ own) := hs
  rw [← hset]
  exact hmove.informed_point hsound hfits hd hsearch hnext' rfl

/-- The links that a walk which lists keys goes on from lead to greater keys. -/
theorem Move.rises (h : Move s who ⟨.keys met, p⟩ st) (hs : s.Sound own)
    (hf : p.Fits s who.record (.keys met)) (hd : s.scheme.depth? who.record = some 1)
    (horderly : s.Orderly) (hrises : p.Rises s) (hnext : st.next = .goes f') :
    f'.point.Rises st.set := by
  have hfits : Frame.Fits s who.record ⟨.keys met, p⟩ := ⟨by simp, hf⟩
  have hsound : s.Sound ((⟨.keys met, p⟩ : Frame κ).own ++ own) := hs
  have hs' := (h.sound_keeps hsound hfits hd).1
  have hf' := (h.fits hsound hfits hd hnext).point
  have hlink : ∀ {pred : Place} {x : Option Address}, f'.point = .inspect pred x →
      st.set.link? pred = some (.unmarked x) → f'.point.Rises st.set := by
    intro pred x hpoint hl
    rw [hpoint] at hf' ⊢
    have hon := hs'.onChain_of_unmarked hf'.1.held hl rfl
    intro a b ha hb
    cases Place.node?_eq_some.1 ha
    obtain ⟨n, hn, hnext⟩ := Option.map_eq_some_iff.1 hl
    exact hs'.below_next hon hn (by rw [hnext]; exact hb)
  cases h with
  | start => cases hnext; rintro a b ⟨⟩
  | @look t pred curr n hn hhelps =>
    cases hnext
    obtain ⟨x, hx, hnode, -⟩ := hf.2 curr rfl
    refine ⟨fun a ha => hrises a curr ha rfl, fun b hb => ?_⟩
    exact hs.below_read horderly (hnode ▸ hx.place) hn hb
      fun hv => (hhelps (by simp [SharedSet.helps, hv])).1
  | follow t pred hn hm hl hne hlm =>
    cases hnext
    exact hlink rfl (hl.trans (congrArg some (Link.eq_unmarked hlm)))
  | @clear t pred curr n s' drops hn hm hl hclears =>
    cases hnext
    have hon := hs.onChain_of_unmarked hf.1.held hl rfl
    exact hlink rfl (hclears.link? (hs.publish hd .succ n.next.target) hon hl hn hm)
  | pass pred next hn _ =>
    cases hnext
    intro a b ha hb
    cases ha
    exact hrises.2 b hb
  | stray => cases hnext; trivial
  | stop pred next hn hstops => cases hstops
  | finish | tell => cases hnext

/-- The key of a node that is met is put on the list, unless the node is marked. -/
theorem Point.Listing.pass {pred : Place} {curr : Address} {next : Link Address} {n : Node κ ν}
    (h : (Point.encounter pred curr next).Listing seen s met)
    (hsound : ∀ t, seen t → ∃ own, t.Sound own) (hn : s.memory.node? curr = some n)
    (hn' : s'.memory.node? curr = some n) (hmono : ∀ t, seen t → seen' t)
    (hinformed : ∀ k, compare n.key k = .lt →
      (Point.inspect (.node curr) next.target).Informed seen' s' k)
    (hrises : (Point.inspect (.node curr) next.target).Rises s') :
    (Point.inspect (.node curr) next.target).Listing seen' s'
      (if next.marked then met else n.key :: met) := by
  have hbefore : ∀ k, (Point.inspect (.node curr) next.target).Before s' k ↔
      compare n.key k = .lt := by
    intro k
    constructor
    · exact fun h => h curr rfl n hn'
    · intro h a ha m hm
      cases ha
      cases hn'.symm.trans hm
      exact h
  -- the walk had the key of the node before it
  have hahead : (Point.encounter pred curr next).Before s n.key := by
    intro a ha m hm
    exact h.rises.1 a ha m n hm hn
  have hnew : next.marked = false → ∃ t, seen t ∧ (n.key, n.value) ∈ t.contents := by
    intro hm
    obtain ⟨t, ht, hfind⟩ := (h.informed n.key hahead).found n hn
    have hfound := hfind n.key (by simp)
    rw [hm] at hfound
    exact ⟨t, ht, List.mem_of_find?_eq_some hfound⟩
  have hmem : ∀ k, k ∈ (if next.marked then met else n.key :: met) →
      k ∈ met ∨ k = n.key ∧ next.marked = false := by
    intro k hk
    split at hk
    · exact .inl hk
    · next hm => exact (List.mem_cons.1 hk).symm.imp_right fun h => ⟨h, by simpa using hm⟩
  have hold : ∀ k ∈ met, k ∈ (if next.marked then met else n.key :: met) := by
    intro k hk
    split
    · exact hk
    · exact List.mem_cons_of_mem _ hk
  refine ⟨?_, ?_, ?_, ?_, fun k hk => hinformed k ((hbefore k).1 hk), hrises, by simp⟩
  · split
    · exact h.descending
    · exact List.pairwise_cons.2 ⟨fun k hk => h.behind k hk n.key hahead, h.descending⟩
  · intro k hk
    rcases hmem k hk with hk | ⟨rfl, hm⟩
    · obtain ⟨t, v, ht, hv⟩ := h.member k hk
      exact ⟨t, v, hmono t ht, hv⟩
    · obtain ⟨t, ht, hv⟩ := hnew hm
      exact ⟨t, n.value, hmono t ht, hv⟩
  · intro k hk k' hk'
    have hlt := (hbefore k').1 hk'
    rcases hmem k hk with hk | ⟨rfl, -⟩
    · exact Std.TransCmp.lt_trans (h.behind k hk n.key hahead) hlt
    · exact hlt
  · intro q hq
    rcases h.complete q fun t ht => hq t (hmono t ht) with hin | hin
    · exact .inl (hold q.1 hin)
    · by_cases hlt : compare n.key q.1 = .lt
      · exact .inr ((hbefore q.1).2 hlt)
      · -- what was there all the time is what the search for its key finds at the node
        obtain ⟨t, ht, hfind⟩ := (h.informed q.1 hin).found_at hsound hn hlt
        obtain ⟨own', hst⟩ := hsound t ht
        rw [Ledger.find?_eq_some hst.ascending_contents (hq t (hmono t ht)) (by simp)] at hfind
        split at hfind
        · next hfound =>
          cases hfind
          refine .inl ?_
          rw [if_neg (by simp_all)]
          exact List.mem_cons_self
        · cases hfind

/-- A step that goes on with a walk that lists keys keeps what it knows. -/
theorem Move.listing (h : Move s who ⟨.keys met, p⟩ st) (hs : s.Sound own)
    (hf : p.Fits s who.record (.keys met)) (hd : s.scheme.depth? who.record = some 1)
    (hinf : Frame.Informed seen s who.record ⟨.keys met, p⟩) (horderly : s.Orderly)
    (hlists : p.Listing seen s met) (hnext : st.next = .goes f') (hgoes : f'.point ≠ .start) :
    ∃ met', f'.task = .keys met' ∧ f'.point.Listing (fun t => seen t ∨ t = st.set) st.set met' := by
  have hfits : Frame.Fits s who.record ⟨.keys met, p⟩ := ⟨by simp, hf⟩
  have hsound : s.Sound ((⟨.keys met, p⟩ : Frame κ).own ++ own) := hs
  have hs' := (h.sound_keeps hsound hfits hd).1
  have hf' := (h.fits hsound hfits hd hnext).point
  have hagrees := (h.evolves hsound hfits hd).agrees
  have hrises := h.rises hs hf hd horderly hlists.rises hnext
  have hsame : f'.point.owner? = p.owner? → (∀ pred curr next, f'.point ≠ .judge pred curr next) →
      (∀ pred curr next, p ≠ .encounter pred curr next) →
      f'.point.Listing (fun t => seen t ∨ t = st.set) st.set met := by
    intro howner hwalks hp
    have hbefore := Point.before_iff howner hf hs hf' hs' hagrees
    refine hlists.carry hbefore (fun _ => .inl) (fun k hk => ?_) hrises hwalks
    exact h.informed_before hs hf hd hinf hlists ((hbefore k).1 hk) hnext
      fun pred curr next n hp' => absurd hp' (hp pred curr next)
  have hmove := h
  cases h with
  | start | look | follow | clear => cases hnext; exact ⟨met, rfl, hsame rfl (by simp) (by simp)⟩
  | @pass _ t' pred curr n next hn hpass =>
    cases hpass
    cases hnext
    refine ⟨_, rfl, hlists.pass hinf.sound hn hn (fun _ => .inl) (fun k hk => ?_) hrises⟩
    refine hmove.informed_before hs hf hd hinf hlists ?_ rfl ?_
    · intro a ha m hm
      exact Std.TransCmp.lt_trans (hlists.rises.1 a ha m n hm hn) hk
    · rintro pred' curr' next' n' ⟨⟩ hn'
      cases hn.symm.trans hn'
      exact hk
  | stray => cases hnext; exact absurd rfl hgoes
  | stop pred next hn hstops => cases hstops
  | finish | tell => cases hnext

omit [Std.TransOrd κ] in
/-- Only a walk that lists keys goes on to list keys. -/
theorem Move.keys_of_goes (h : Move s who f st) (hnext : st.next = .goes f')
    (htask : f'.task = .keys met) : ∃ met', f.task = .keys met' := by
  cases h with
  | start | look | follow | clear => cases hnext; exact ⟨met, htask⟩
  | stray t =>
    cases hnext
    cases t <;> cases htask
    exact ⟨_, rfl⟩
  | @pass t t' pred curr n next hn hpass =>
    cases hnext
    cases t with
    | keys met' => exact ⟨met', rfl⟩
    | _ => simp_all [Task.pass?]
  | @stop t => cases t <;> cases hnext <;> cases htask
  | retry | beaten | mark => cases hnext; cases htask
  | finish | reject | insert | remove | tell => cases hnext

/-- An operation that lists keys knows what it has to. -/
theorem Frame.knowledge_listing :
    Knowledge fun seen (s : SharedSet κ ν) (f : Frame κ) => f.Listing seen s where
  start s t ht met htask := by
    cases htask
    cases ht
    exact ⟨.nil, by simp, by simp, fun _ _ => .inr (by rintro a ⟨⟩), fun _ _ => trivial, trivial,
      by simp⟩
  others hknows hinf hf hs hs' hevolves hrespects hwho := by
    intro met htask
    have hlists := hknows met htask
    have hf' := hf.point.respects hs hrespects hwho
    have hbefore := Point.before_iff rfl hf.point hs hf' hs' hevolves.agrees
    refine hlists.carry hbefore (fun _ => .inl) (fun k hk => ?_)
      (hlists.rises.step hf.point hs hlists.walks hevolves.agrees) hlists.walks
    exact (hlists.informed k ((hbefore k).1 hk)).step hf.point hs hevolves.agrees fun _ => .inl
  goes := by
    intro seen s f f' own who st hknows hinf hs hf hd horderly hmove hnext hgoes met' htask'
    obtain ⟨met, htask⟩ := hmove.keys_of_goes hnext htask'
    obtain ⟨t, p⟩ := f
    cases htask
    obtain ⟨met₁, htask₁, hlists⟩ :=
      hmove.listing hs hf.point hd hinf horderly (hknows met rfl) hnext hgoes
    cases htask'.symm.trans htask₁
    exact hlists

/-! ## What is listed in the end -/

/-- The keys are listed when the walk has come to the end of the chain. -/
theorem Point.Listing.exhausted {pred : Place} (h : (Point.inspect pred none).Listing seen s met)
    (hsound : ∀ t, seen t → ∃ own, t.Sound own) {q : κ × ν} (hq : ∀ t, seen t → q ∈ t.contents) :
    q.1 ∈ met := by
  rcases h.complete q hq with hin | hin
  · exact hin
  · obtain ⟨t, ht, hleads⟩ := h.informed q.1 hin
    obtain ⟨own, hst⟩ := hsound t ht
    exact absurd (by simp) (Ledger.find?_eq_none.1 (hleads.find?_eq_none hst (by simp)) q (hq t ht))

omit [Std.TransOrd κ] in
/-- A walk that lists keys ends at the end of the chain. -/
theorem Move.listed (h : Move s who ⟨.keys met, p⟩ st) (hlists : p.Listing seen s met)
    {reply : Reply κ ν} (hnext : st.next = .ends reply) :
    ∃ pred, p = .inspect pred none ∧ reply = .listed met.reverse := by
  cases h with
  | start | look | stray | follow | clear | pass => cases hnext
  | finish t pred => cases hnext; exact ⟨pred, rfl, rfl⟩
  | stop pred next hn hstops => cases hstops
  | tell pred next => exact absurd rfl (hlists.walks pred _ next)

variable {kind : Scheme.Kind} {ts : List Tuning} {es : List (Event κ ν)} {w : World κ ν}

/-- Whatever is carried out while an operation lists the keys of a set, the keys that it replies are
in ascending order. Each of them was, with some value, in the set in a state between the beginning
and the end of the operation, and the key of each entry that was in the set in all states in between
is there. -/
theorem Run.keys_listed (h : Run (.ofTunings kind ts) es w) {x : Span κ ν}
    (hx : x ∈ (journal es).spans) (hcall : x.call = .keys) :
    ∃ ks, x.reply = .listed ks ∧ ks.Pairwise (fun k k' => compare k k' = .lt) ∧
      (∀ k ∈ ks, ∃ m t v, x.began < m ∧ m ≤ x.ended ∧
        (World.ofTunings kind ts).setAt es x.set m = some t ∧ (k, v) ∈ t.contents) ∧
      ∀ q, (∀ m t, x.began < m → m ≤ x.ended →
        (World.ofTunings kind ts).setAt es x.set m = some t → q ∈ t.contents) → q.1 ∈ ks := by
  obtain ⟨f, s, who, st, b, hbegan, hinf, hknows, hserves, hmove, hnext⟩ :=
    h.walks_span Frame.knowledge_listing hx
  rw [hcall] at hserves
  obtain ⟨met, htask⟩ : ∃ met, f.task = .keys met := by
    cases htask : f.task <;> rw [htask] at hserves <;> first | exact hserves.elim | exact ⟨_, rfl⟩
  have hlists := hknows met htask
  obtain ⟨task, p⟩ := f
  cases htask
  obtain ⟨pred, rfl, hreply⟩ := hmove.listed hlists hnext
  refine ⟨met.reverse, hreply, ?_, fun k hk => ?_, fun q hq => ?_⟩
  · exact List.pairwise_reverse.2 hlists.descending
  · obtain ⟨t, v, ⟨m, hbm, hm, ht⟩, hv⟩ := hlists.member k (List.mem_reverse.1 hk)
    exact ⟨m, t, v, Nat.lt_of_le_of_lt hbegan hbm, hm, ht, hv⟩
  · refine List.mem_reverse.2 (hlists.exhausted hinf.sound ?_)
    rintro t ⟨m, hbm, hm, ht⟩
    exact hq m t (Nat.lt_of_le_of_lt hbegan hbm) hm ht

/-- Three nodes are linked in. A walk that lists keys has met the first one and stands at the second
one when both are removed. -/
def recounting : List (Action Int Nat) :=
  [.register 0, .register 0,
    .invoke 0 0 0 (.insert 1 10) none, .proceed, .proceed,
    .invoke 0 0 0 (.insert 2 20) none, .proceed, .proceed, .proceed, .proceed,
    .invoke 0 0 0 (.insert 3 30) none, .proceed, .proceed, .proceed, .proceed, .proceed, .proceed,
    .invoke 1 0 0 .keys none, .proceed, .proceed, .proceed, .proceed,
    .invoke 0 0 0 (.remove 1) none, .proceed, .proceed, .proceed, .proceed,
    .invoke 0 0 0 (.remove 2) none, .proceed, .proceed, .proceed, .proceed,
    .proceed, .proceed, .proceed, .proceed, .proceed, .proceed]

namespace Recounting

/-- The one set at the start, under hazard slots. -/
def origin : World Int Nat := .ofTunings .hazards [{}]

/-- What the actions came to. -/
def events : List (Event Int Nat) := (origin.play recounting).1

theorem run : Run origin events (origin.play recounting).2 := origin.play_run recounting

end Recounting

open Recounting in
/-- The walk starts again and forgets the keys that it has met. In the end it lists the third one,
which was there at some moment, and not the first one, which was not there at all moments. -/
theorem keys_listed_recounting :
    (⟨⟨0, .keys, 17⟩, .listed [3], 37⟩ : Span Int Nat) ∈ (journal events).spans ∧
      (∃ m t v, 17 < m ∧ m ≤ 37 ∧ origin.setAt events 0 m = some t ∧ (3, v) ∈ t.contents) ∧
      ¬ ∀ m t, 17 < m → m ≤ 37 → origin.setAt events 0 m = some t → (1, 10) ∈ t.contents := by
  have hx : (⟨⟨0, .keys, 17⟩, .listed [3], 37⟩ : Span Int Nat) ∈ (journal events).spans := by
    have hspans : (journal events).spans[5]? = some ⟨⟨0, .keys, 17⟩, .listed [3], 37⟩ := by rfl
    exact List.mem_of_getElem? hspans
  obtain ⟨ks, hreply, -, hmember, hcomplete⟩ := run.keys_listed hx rfl
  cases hreply
  refine ⟨hx, hmember 3 (by simp), fun hall => ?_⟩
  have hlisted := hcomplete (1, 10) hall
  simp at hlisted

end MarkedChain
