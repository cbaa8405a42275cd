import MarkedChain.Proofs.Walks

/-!
# The window that a search returns

A search for a key returns the place of a link and what it leads to, or nothing if it came to the
end (`Frame.Returns`). The two links that speak for this were read at different moments, and nodes
may have left the chain since. Yet there was a moment during the walk at which both links were on
the chain as they were read, and the key belongs between them (`SharedSet.Window`,
`Run.window_of_search`). What the walk has to know for this is that each link it has followed was on
the chain in a state that it has seen (`SharedSet.Joined`, `Point.Surveyed`).
-/

namespace MarkedChain

variable {κ ν : Type}

namespace SharedSet

/-! ## Nodes that were seen earlier -/

/-- If there is a node at the address in both states, it is the same one and marked if it was. -/
structure Stays (t s : SharedSet κ ν) (a : Address) : Prop where
  agrees : t.Agrees s a
  marked : ∀ n, s.memory.node? a = some n → t.Marked a → n.next.marked = true

variable {s s' t : SharedSet κ ν} {a : Address}

theorem Stays.refl (s : SharedSet κ ν) (a : Address) : s.Stays s a where
  agrees := .refl s a
  marked := by
    rintro n hn ⟨m, hm, hmarked⟩
    cases hn.symm.trans hm
    exact hmarked

/-- What is still there stays through one more step. -/
theorem Stays.step {window : Option (Place × Address)} (h : t.Stays s a)
    (hlive : ∃ n, s.memory.node? a = some n) (hevolves : s.Evolves s' window) :
    t.Stays s' a where
  agrees := h.agrees.trans (hevolves.agrees a) hlive
  marked := by
    intro n' hn' hmarked
    obtain ⟨n, hn⟩ := hlive
    have hm := h.marked n hn hmarked
    rw [(hevolves.node a n n' hn hn').2.2 hm]
    exact hm

/-- In the state `t` an unmarked link of the chain led from `pred` to `x`, and the nodes on both
sides are still the same. -/
structure Joined (t s : SharedSet κ ν) (pred : Place) (x : Option Address) : Prop where
  on : t.OnChain pred
  link : t.link? pred = some (.unmarked x)
  owner : ∀ a, pred = .node a → t.Stays s a
  target : ∀ a, x = some a → t.Stays s a

variable {pred : Place} {x : Option Address}

theorem Joined.refl (hon : s.OnChain pred) (hlink : s.link? pred = some (.unmarked x)) :
    s.Joined s pred x where
  on := hon
  link := hlink
  owner a _ := .refl s a
  target a _ := .refl s a

/-- Two nodes that were joined stay so in memory as long as both are there. -/
theorem Joined.step {window : Option (Place × Address)} (h : t.Joined s pred x)
    (howner : ∀ a, pred = .node a → ∃ n, s.memory.node? a = some n)
    (htarget : ∀ a, x = some a → ∃ n, s.memory.node? a = some n) (hevolves : s.Evolves s' window) :
    t.Joined s' pred x where
  on := h.on
  link := h.link
  owner a ha := (h.owner a ha).step (howner a ha) hevolves
  target a ha := (h.target a ha).step (htarget a ha) hevolves

variable [Ord κ] {own : List Address} {k : κ}

/-! ## Windows -/

/-- The link at `pred` is the head link or belongs to a node of the chain that is not marked and has
a smaller key than `k`. It is unmarked and leads to `curr`, and that is nothing or a node of the
chain that is not marked and has no smaller key. -/
structure Window (s : SharedSet κ ν) (k : κ) (pred : Place) (curr : Option Address) : Prop where
  owner : ∀ a, pred = .node a → a ∈ s.linked ∧
    ∃ n, s.memory.node? a = some n ∧ n.next.marked = false ∧ compare n.key k = .lt
  link : s.link? pred = some (.unmarked curr)
  target : ∀ a, curr = some a → a ∈ s.linked ∧
    ∃ n, s.memory.node? a = some n ∧ n.next.marked = false ∧ compare n.key k ≠ .lt

variable [Std.TransOrd κ]

/-- Whether a key is in the set shows at the node to which its window leads. -/
theorem Window.mem_iff {curr : Option Address} (h : s.Window k pred curr) (hs : s.Sound own) :
    (∃ p ∈ s.contents, compare p.1 k = .eq) ↔
      ∃ a n, curr = some a ∧ s.memory.node? a = some n ∧ compare n.key k = .eq := by
  have hon : s.OnChain pred := by
    cases pred with
    | head => trivial
    | node a => exact (h.owner a rfl).1
  have hlow : ∀ a, pred = .node a → s.Under k a := by
    intro a ha n hn
    obtain ⟨-, n', hn', -, hlt⟩ := h.owner a ha
    cases hn.symm.trans hn'
    exact hlt
  have hleads : s.Leads k curr := hs.leads_of_link hon h.link hlow
  constructor
  · rintro ⟨p, hp, heq⟩
    by_contra hnone
    refine Ledger.find?_eq_none.1 (hleads.find?_eq_none hs ?_) p hp heq
    intro a ha n hn
    obtain ⟨-, n', hn', -, hge⟩ := h.target a ha
    cases hn.symm.trans hn'
    cases hcmp : compare n.key k with
    | lt => exact absurd hcmp hge
    | eq => exact absurd ⟨a, n, ha, hn, hcmp⟩ hnone
    | gt => exact Std.OrientedCmp.lt_of_gt hcmp
  · rintro ⟨a, n, ha, hn, heq⟩
    obtain ⟨hlinked, n', hn', hm, -⟩ := h.target a ha
    cases hn.symm.trans hn'
    exact ⟨(n.key, n.value), mem_contents.2 ⟨a, n, hlinked, hn, hm, rfl⟩, heq⟩

omit [Std.TransOrd κ] in
/-- Around the key that a walk looks for, two nodes were joined that are a window if the first was
not marked and the second one neither, and has no smaller key. -/
theorem Joined.window {r : Nat} {task : Task κ} (h : t.Joined s pred x) (ht : t.Sound own)
    (hreaches : s.Reaches r task pred)
    (hlive : ∀ a, pred = .node a → ∃ n, s.memory.node? a = some n)
    (hk : task.key? = some k) (hcurr : ∀ a, x = some a → ¬ t.Marked a ∧
      ∃ n, s.memory.node? a = some n ∧ compare n.key k ≠ .lt) : t.Window k pred x where
  owner := by
    rintro a rfl
    obtain ⟨n, hn, hnext⟩ := Option.map_eq_some_iff.1 h.link
    obtain ⟨n', hn'⟩ := hlive a rfl
    refine ⟨h.on, n, hn, by rw [hnext]; rfl, ?_⟩
    rw [← ((h.owner a rfl).agrees n n' hn hn').1]
    exact hreaches.under hk a rfl n' hn'
  link := h.link
  target := by
    rintro a rfl
    obtain ⟨hunmarked, n', hn', hge⟩ := hcurr a rfl
    have hlinked := ht.linked_of_link h.on h.link rfl
    obtain ⟨n, hn⟩ := ht.live_of_linked hlinked
    refine ⟨hlinked, n, hn, ?_, ?_⟩
    · by_contra hm
      exact hunmarked ⟨n, hn, by simpa using hm⟩
    · rwa [← ((h.target a rfl).agrees n n' hn hn').1]

end SharedSet

/-! ## What a walk knows of the links it has followed -/

section

variable (seen : SharedSet κ ν → Prop)

/-- Every link that was followed to the point at which a walk stands was an unmarked link of the
chain in a state that was seen, and the node that was met was not marked then. -/
def Point.Surveyed (s : SharedSet κ ν) : Point → Prop
  | .start | .judge .. => True
  | .inspect pred x => ∃ t, seen t ∧ t.Joined s pred x
  | .encounter pred curr next =>
    (∃ t, seen t ∧ t.Joined s pred (some curr) ∧ ¬ t.Marked curr) ∧
      ∃ t, seen t ∧ t.Joined s (.node curr) next.target

/-- A walk that helps has followed links of the chain only. -/
def Frame.Surveyed (s : SharedSet κ ν) (f : Frame κ) : Prop :=
  s.helps f.task = true → f.point.Surveyed seen s

end

variable [Ord κ] {s s' : SharedSet κ ν} {seen seen' : SharedSet κ ν → Prop} {own : List Address}
  {who : Actor} {f f' : Frame κ} {st : Stride κ ν}

/-- Links that were followed have been so, whoever makes a step, as long as the nodes are held. -/
theorem Point.Surveyed.step {r : Nat} {t : Task κ} {p : Point} {window : Option (Place × Address)}
    (h : p.Surveyed seen s) (hf : p.Fits s r t) (hs : s.Sound own) (hevolves : s.Evolves s' window)
    (hmono : ∀ t, seen t → seen' t) : p.Surveyed seen' s' := by
  cases p with
  | start | judge => trivial
  | inspect pred x =>
    obtain ⟨t, ht, hjoined⟩ := h
    obtain ⟨hreaches, hcurr⟩ := hf
    exact ⟨t, hmono t ht, hjoined.step (fun a ha => hs.live_of_held (hreaches.held a ha))
      (fun a ha => hs.live_of_held (hcurr a ha)) hevolves⟩
  | encounter pred curr next =>
    obtain ⟨⟨t, ht, hjoined, hunmarked⟩, t', ht', hjoined'⟩ := h
    obtain ⟨hreaches, hcurr, hnext, -⟩ := hf
    have hlive : ∀ a, some curr = some a → ∃ n, s.memory.node? a = some n := by
      rintro a ⟨⟩
      exact hs.live_of_held hcurr
    refine ⟨⟨t, hmono t ht, hjoined.step (fun a ha => hs.live_of_held (hreaches.held a ha)) hlive
      hevolves, hunmarked⟩, t', hmono t' ht', hjoined'.step ?_
      (fun a ha => hs.live_of_held (hnext a ha)) hevolves⟩
    intro a ha
    cases ha
    exact hlive curr rfl

variable [Std.TransOrd κ]

/-- With its next step the walk of a frame ends, at the end of the chain or at the first node that
the task does not pass. It returns the place of the link to it. -/
inductive Frame.Returns (s : SharedSet κ ν) : Frame κ → Place → Option Address → Prop where
  | atEnd (t pred) : Returns s ⟨t, .inspect pred none⟩ pred none
  | atNode {t} (pred) {curr} (next) {n} (hn : s.memory.node? curr = some n)
    (hstops : t.pass? n.key next.marked = none) :
    Returns s ⟨t, .encounter pred curr next⟩ pred (some curr)

omit [Std.TransOrd κ] in
/-- What is returned is what the operation goes on with. -/
theorem Frame.Returns.step {pred : Place} {curr : Option Address} (h : f.Returns s pred curr)
    (who : Actor) : (curr = none ∧ f.step s who = Step.atEnd s f.task pred) ∨
      ∃ c next, curr = some c ∧ f.step s who = .ok (Step.atNode s f.task pred c next) := by
  cases h with
  | atEnd => exact .inl ⟨rfl, rfl⟩
  | atNode pred next hn hstops =>
    refine .inr ⟨_, next, rfl, ?_⟩
    simp only [Frame.step, Step.encounter, Memory.read, hn, bind, Except.bind, hstops]
    rfl

omit [Std.TransOrd κ] in
/-- The links that a walk has followed were a window in a state that was seen. -/
theorem Frame.Surveyed.window {r : Nat} {k : κ} {pred : Place} {curr : Option Address}
    (h : f.Surveyed seen s) (hsound : ∀ t, seen t → ∃ own, t.Sound own) (hs : s.Sound own)
    (hf : f.Fits s r) (hk : f.task.key? = some k) (hhelps : s.helps f.task = true)
    (hreturns : f.Returns s pred curr) : ∃ t, seen t ∧ t.Window k pred curr := by
  have hpoint := hf.point
  cases hreturns with
  | atEnd t pred =>
    obtain ⟨u, hu, hjoined⟩ := h hhelps
    obtain ⟨own', hsu⟩ := hsound u hu
    exact ⟨u, hu, hjoined.window hsu hpoint.1
      (fun a ha => hs.live_of_held (hpoint.1.held a ha)) hk (by simp)⟩
  | @atNode t pred curr next n hn hstops =>
    obtain ⟨⟨u, hu, hjoined, hunmarked⟩, -⟩ := h hhelps
    obtain ⟨own', hsu⟩ := hsound u hu
    refine ⟨u, hu, hjoined.window hsu hpoint.1
      (fun a ha => hs.live_of_held (hpoint.1.held a ha)) hk fun a ha => ?_⟩
    cases ha
    exact ⟨hunmarked, n, hn, Task.pass?_eq_none hstops hk⟩

/-- Two nodes are linked in. A search for the second one keeps its protection, and when it stands at
that node, both are removed, the second one first. -/
def outrun : List (Action Int Nat) :=
  [.register 0, .register 0,
    .invoke 0 0 0 (.insert 1 10) none, .proceed, .proceed,
    .invoke 0 0 0 (.insert 2 20) none, .proceed, .proceed, .proceed, .proceed,
    .invoke 1 0 0 (.hold 2) none, .proceed, .proceed, .proceed, .proceed,
    .invoke 0 0 0 (.remove 2) none, .proceed, .proceed, .proceed, .proceed, .proceed, .proceed,
    .invoke 0 0 0 (.remove 1) none, .proceed, .proceed, .proceed, .proceed]

namespace Outrun

/-- The one set at the start, under epochs. -/
def origin : World Int Nat := .ofTunings .epochs [{}]

/-- What the actions came to. -/
def events : List (Event Int Nat) := (origin.play outrun).1

/-- The world in the end. -/
def world : World Int Nat := (origin.play outrun).2

/-- The set in the end. -/
def set : SharedSet Int Nat := (world.sets[0]?).getD (.ofTuning .epochs {})

theorem run : Run origin events world := origin.play_run outrun

theorem set_eq : world.sets[0]? = some set :=
  eq_some_getD (by decide)

end Outrun

end MarkedChain
