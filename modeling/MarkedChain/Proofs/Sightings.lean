import MarkedChain.Proofs.Contents

/-!
# What an operation has seen

An operation meets nodes long after it has read the links to them, and under epochs it may walk
through nodes that have left the chain. What it learns is still true of some moment since it began.
`seen` are the states of the set since then. `Point.Informed` says for each point of a walk what the
operation knows of one of them: that the search for its key leads to the node at which it stands
(`SharedSet.Leads`), and what was found under the key of that node. Under epochs this rests on
`SharedSet.Remembers`: no node that was on the chain since the operation began has been freed.
-/

namespace MarkedChain

variable {κ ν : Type}

namespace SharedSet

/-- If there is a node at the address in both states, it has the same key and value. -/
def Agrees (t s : SharedSet κ ν) (a : Address) : Prop :=
  ∀ n n', t.memory.node? a = some n → s.memory.node? a = some n' →
    n'.key = n.key ∧ n'.value = n.value

variable {s s' t : SharedSet κ ν}

theorem Agrees.refl (s : SharedSet κ ν) (a : Address) : s.Agrees s a := by
  intro n n' hn hn'
  rw [hn] at hn'
  cases hn'
  exact ⟨rfl, rfl⟩

theorem Agrees.trans {a : Address} (h : t.Agrees s a) (h' : s.Agrees s' a)
    (hlive : ∃ n, s.memory.node? a = some n) : t.Agrees s' a := by
  obtain ⟨n₁, hn₁⟩ := hlive
  intro n n' hn hn'
  obtain ⟨hkey, hvalue⟩ := h n n₁ hn hn₁
  obtain ⟨hkey', hvalue'⟩ := h' n₁ n' hn₁ hn'
  exact ⟨hkey'.trans hkey, hvalue'.trans hvalue⟩

theorem Evolves.agrees {window : Option (Place × Address)} (h : s.Evolves s' window)
    (a : Address) : s.Agrees s' a := fun n n' hn hn' =>
  ⟨(h.node a n n' hn hn').1, (h.node a n n' hn hn').2.1⟩

/-! ## Where the search for a key leads -/

variable [Ord κ] {own own' : List Address}

/-- On the chain, `x` comes next after nodes with smaller keys than `k`. -/
def Leads (s : SharedSet κ ν) (k : κ) (x : Option Address) : Prop :=
  ∃ before after, s.linked = before ++ after ∧ after.head? = x ∧ ∀ a ∈ before, s.Under k a

theorem Sound.leads_head (hs : s.Sound own) (k : κ) : s.Leads k s.head.target :=
  ⟨[], s.linked, rfl, hs.path.head?, by simp⟩

theorem Leads.mem {k : κ} {a : Address} (h : s.Leads k (some a)) : a ∈ s.linked := by
  obtain ⟨before, after, hsplit, hhead, -⟩ := h
  rw [hsplit]
  exact List.mem_append_right _ (List.mem_of_head? hhead)

variable [Std.TransOrd κ]

/-- Behind a node with a smaller key comes the one that it refers to. -/
theorem Sound.leads_of_link (hs : s.Sound own) {pl : Place} (hpl : s.OnChain pl)
    {l : Link Address} (hl : s.link? pl = some l) {k : κ}
    (hlow : ∀ a, pl = .node a → s.Under k a) : s.Leads k l.target := by
  obtain ⟨l', before, after, hl', hsplit, hafter, hhead, hlast, -⟩ :=
    exists_split hs.path hs.nodup_linked hpl
  rw [hl] at hl'
  cases hl'
  refine ⟨before, after, hsplit, hafter.head?, ?_⟩
  intro a ha
  cases pl with
  | head =>
    rw [hhead rfl] at ha
    cases ha
  | node b =>
    obtain ⟨pre, rfl⟩ := hlast b rfl
    have hasc := hs.ascending
    rw [hsplit, List.pairwise_append, List.pairwise_append] at hasc
    rcases List.mem_append.1 ha with ha | ha
    · have hb : b ∈ s.linked := by simp [hsplit]
      exact .of_below (hasc.1.2.2 a ha b (by simp)) (hs.live_of_linked hb) (hlow b rfl)
    · exact List.mem_singleton.1 ha ▸ hlow b rfl

/-- Nothing is found under a key whose search leads to a greater key or to the end. -/
theorem Leads.find?_eq_none {k : κ} {x : Option Address} (h : s.Leads k x) (hs : s.Sound own)
    (hover : ∀ a, x = some a → s.Over k a) : Ledger.find? k s.contents = none := by
  obtain ⟨before, after, hsplit, rfl, hlow⟩ := h
  have hasc := hs.ascending
  rw [hsplit, List.pairwise_append] at hasc
  have hhigh : ∀ b ∈ after, s.Over k b := by
    cases after with
    | nil => simp
    | cons a after =>
      intro b hb
      rcases List.mem_cons.1 hb with rfl | hb
      · exact hover b rfl
      · have ha : a ∈ s.linked := by simp [hsplit]
        have hab := (List.pairwise_cons.1 hasc.2.1).1 b hb
        exact .of_below hab (hs.live_of_linked ha) (hover a rfl)
  rw [contents_eq, hsplit, List.filterMap_append]
  exact Ledger.find?_between (Under.lt_of_mem hlow) (Over.lt_of_mem hhigh)

omit [Std.TransOrd κ] in
/-- When a marked node is taken out, the search leads to the node behind it. -/
theorem Clears.leads {curr : Address} {drops : List ν} (h : s.Clears s' curr drops)
    (hs : s.Sound own) {n : Node κ ν} (hn : s.memory.node? curr = some n)
    (hm : n.next.marked = true) {k : κ} (hleads : s.Leads k (some curr)) :
    s'.Leads k n.next.target := by
  obtain ⟨before, after, hsplit, hhead, hlow⟩ := hleads
  obtain ⟨after, rfl⟩ : ∃ l, after = curr :: l := by
    cases after with
    | nil => cases hhead
    | cons a l =>
      cases hhead
      exact ⟨l, rfl⟩
  refine ⟨before, after, h.linked_of_split hs hn hm hsplit, hs.head?_of_split hsplit hn, ?_⟩
  intro a ha n' hn'
  obtain ⟨n₀, hn₀⟩ := hs.live_of_linked (a := a) (by simp [hsplit, ha])
  rw [((h.respects hs hn hm).node a n₀ n' hn₀ hn').1]
  exact hlow a ha n₀ hn₀

/-! ## What is still known of nodes that have left the chain -/

section

variable (seen : SharedSet κ ν → Prop)

/-- What the node at `a` refers to now is what it referred to when it was last seen on the chain,
and since then there was a moment at which its key had no entry. -/
structure Gone (s : SharedSet κ ν) (a : Address) : Prop where
  last : ∃ t, seen t ∧ a ∈ t.linked ∧ t.Agrees s a ∧ ∀ n n', t.memory.node? a = some n →
    s.memory.node? a = some n' → n'.next.target = n.next.target
  missing : ∀ n, s.memory.node? a = some n → ∃ t, seen t ∧
    ∀ k, compare n.key k = .eq → Ledger.find? k t.contents = none

/-- A record holds all nodes that were seen on the chain, as they were. -/
structure Remembers (s : SharedSet κ ν) (r : Nat) : Prop where
  held : ∀ t, seen t → ∀ a ∈ t.linked, ∀ slot, s.Held r slot a
  agrees : ∀ t, seen t → ∀ a ∈ t.linked, t.Agrees s a
  place : ∀ t, seen t → ∀ a ∈ t.linked, a ∈ s.linked ∨ s.Gone seen a

/-- What an operation that looks for `k` has seen of the node at which it stands and of its link. -/
structure Sighted (s : SharedSet κ ν) (k : κ) (curr : Address) (next : Link Address) : Prop where
  reached : ∃ t, seen t ∧ t.Leads k (some curr) ∧ t.Agrees s curr
  last : ∃ t, seen t ∧ curr ∈ t.linked ∧ t.Agrees s curr ∧
    ∃ n, t.memory.node? curr = some n ∧ n.next.target = next.target
  found : ∀ n, s.memory.node? curr = some n → ∃ t, seen t ∧ ∀ k, compare n.key k = .eq →
    Ledger.find? k t.contents = if next.marked then none else some (n.key, n.value)

end

variable {seen seen' : SharedSet κ ν → Prop}

omit [Std.TransOrd κ] in
/-- Under epochs a pinned record holds all nodes of the chain. -/
theorem Sound.held_of_epochs (hs : s.Sound own) (hv : s.scheme.validates = false) {r : Nat}
    (hd : s.scheme.depth? r = some 1) {a : Address} (ha : a ∈ s.linked) (slot : Slot) :
    s.Held r slot a := by
  have hheld : (s.publish ⟨r, 0⟩ slot (some a)).Held r slot a := hs.publish_held hd ha slot
  rwa [SharedSet.publish, Scheme.publish_of_epochs hv] at hheld

omit [Std.TransOrd κ] in
/-- When an operation begins, it has seen one state. -/
theorem Sound.remembers (hs : s.Sound own) (hv : s.scheme.validates = false) {r : Nat}
    (hd : s.scheme.depth? r = some 1) : s.Remembers (· = s) r where
  held := by
    rintro t rfl a ha slot
    exact hs.held_of_epochs hv hd ha slot
  agrees := by
    rintro t rfl a -
    exact .refl _ _
  place := by
    rintro t rfl a ha
    exact .inl ha

omit [Std.TransOrd κ] in
/-- A node that has left the chain is marked and does not change any more. -/
theorem Gone.step {window : Option (Place × Address)} {a : Address} {n : Node κ ν}
    (h : s.Gone seen a) (hn : s.memory.node? a = some n) (hm : n.next.marked = true)
    (hevolves : s.Evolves s' window) (hmono : ∀ t, seen t → seen' t) : s'.Gone seen' a := by
  obtain ⟨⟨t, ht, hlinked, hagrees, htarget⟩, hmissing⟩ := h
  refine ⟨⟨t, hmono t ht, hlinked, hagrees.trans (hevolves.agrees a) ⟨n, hn⟩, ?_⟩, ?_⟩
  · intro n₀ n' hn₀ hn'
    rw [(hevolves.node a n n' hn hn').2.2 hm]
    exact htarget n₀ n hn₀ hn
  · intro n' hn'
    obtain ⟨u, hu, hfind⟩ := hmissing n hn
    refine ⟨u, hmono u hu, fun k hk => hfind k ?_⟩
    rwa [(hevolves.node a n n' hn hn').1] at hk

/-- What a record remembers it goes on to remember, whoever makes a step. -/
theorem Remembers.step {r : Nat} {window : Option (Place × Address)} (h : s.Remembers seen r)
    (hs : s.Sound own) (hs' : s'.Sound own') (hseen : seen s) (hevolves : s.Evolves s' window)
    (hheld : ∀ slot a, s.Held r slot a → s'.Held r slot a) (hv : s'.scheme.validates = false)
    (hd : s'.scheme.depth? r = some 1) :
    s'.Remembers (fun t => seen t ∨ t = s') r := by
  have hlive : ∀ t, seen t → ∀ a ∈ t.linked, ∃ n, s.memory.node? a = some n :=
    fun t ht a ha => hs.live_of_held (h.held t ht a ha .curr)
  refine ⟨?_, ?_, ?_⟩
  · intro t ht a ha slot
    rcases ht with ht | rfl
    · exact hheld slot a (h.held t ht a ha slot)
    · exact hs'.held_of_epochs hv hd ha slot
  · intro t ht a ha
    rcases ht with ht | rfl
    · exact (h.agrees t ht a ha).trans (hevolves.agrees a) (hlive t ht a ha)
    · exact .refl _ _
  · intro t ht a ha
    rcases ht with ht | rfl
    · obtain ⟨n, hn⟩ := hlive t ht a ha
      by_cases hlinked : a ∈ s.linked
      · by_cases hout : a ∈ s'.linked
        · exact .inl hout
        · have hleaves := hevolves.left a hlinked hout
          refine .inr ⟨⟨s, .inl hseen, hlinked, hevolves.agrees a, hleaves.target⟩, ?_⟩
          intro n' hn'
          refine ⟨s', .inr rfl, ?_⟩
          intro k hk
          rw [(hevolves.node a n n' hn hn').1] at hk
          exact hs.find?_of_left hlinked hn hout hleaves.linked
            (fun b x y hx hy => (hevolves.node b x y hx hy).1) hk
      · have hm : n.next.marked = true := by
          by_contra hm
          exact hlinked (hs.linked_of_held (h.held t ht a ha .curr) hn (by simpa using hm))
        have hgone := (h.place t ht a ha).resolve_left hlinked
        exact .inr (hgone.step hn hm hevolves fun _ => .inl)
    · exact .inl ha

/-! ## What is known where an operation stands -/

omit [Std.TransOrd κ] in
/-- What has been seen of a node stays true as long as the node is there. -/
theorem Sighted.step {k : κ} {curr : Address} {next : Link Address}
    (h : s.Sighted seen k curr next) (hlive : ∃ n, s.memory.node? curr = some n)
    (hagrees : s.Agrees s' curr) (hmono : ∀ t, seen t → seen' t) :
    s'.Sighted seen' k curr next := by
  obtain ⟨⟨t, ht, hleads, hreached⟩, ⟨u, hu, hlinked, hlast, hnext⟩, hfound⟩ := h
  refine ⟨⟨t, hmono t ht, hleads, hreached.trans hagrees hlive⟩,
    ⟨u, hmono u hu, hlinked, hlast.trans hagrees hlive, hnext⟩, fun n' hn' => ?_⟩
  obtain ⟨n, hn⟩ := hlive
  obtain ⟨v, hv, hfind⟩ := hfound n hn
  obtain ⟨hkey, hvalue⟩ := hagrees n n' hn hn'
  rw [hkey, hvalue]
  exact ⟨v, hmono v hv, hfind⟩

/-- Reading the link of a node of the chain that the search leads to. -/
theorem Sound.sighted (hs : s.Sound own) (hseen : seen s) {k : κ} {curr : Address} {n : Node κ ν}
    (hreached : ∃ t, seen t ∧ t.Leads k (some curr) ∧ t.Agrees s curr) (hcurr : curr ∈ s.linked)
    (hn : s.memory.node? curr = some n) : s.Sighted seen k curr n.next where
  reached := hreached
  last := ⟨s, hseen, hcurr, .refl _ _, n, hn, rfl⟩
  found n' hn' := by
    rw [hn] at hn'
    cases hn'
    refine ⟨s, hseen, ?_⟩
    intro k' hk'
    split
    · next hm => exact hs.find?_of_marked hcurr hn hm hk'
    · next hm => exact hs.find?_of_unmarked hcurr hn (by simpa using hm) hk'

omit [Std.TransOrd κ] in
/-- Reading the link of a node that has left the chain. -/
theorem Gone.sighted {k : κ} {curr : Address} {n : Node κ ν} (h : s.Gone seen curr)
    (hreached : ∃ t, seen t ∧ t.Leads k (some curr) ∧ t.Agrees s curr)
    (hsound : ∀ t, seen t → ∃ own, t.Sound own) (hn : s.memory.node? curr = some n)
    (hm : n.next.marked = true) : s.Sighted seen k curr n.next where
  reached := hreached
  last := by
    obtain ⟨t, ht, hlinked, hagrees, htarget⟩ := h.last
    obtain ⟨own, hst⟩ := hsound t ht
    obtain ⟨n₀, hn₀⟩ := hst.live_of_linked hlinked
    exact ⟨t, ht, hlinked, hagrees, n₀, hn₀, (htarget n₀ n hn₀ hn).symm⟩
  found n' hn' := by
    obtain ⟨t, ht, hfind⟩ := h.missing n' hn'
    exact ⟨t, ht, by simpa [hm] using hfind⟩

/-- A search for a key that is not smaller than that of the node at which it stands finds there what
some state had under the key. -/
theorem Sighted.found_at {k : κ} {curr : Address} {next : Link Address} {n : Node κ ν}
    (h : s.Sighted seen k curr next) (hsound : ∀ t, seen t → ∃ own, t.Sound own)
    (hn : s.memory.node? curr = some n) (hk : compare n.key k ≠ .lt) :
    ∃ t, seen t ∧ Ledger.find? k t.contents =
      if (compare n.key k).isEq && !next.marked then some (n.key, n.value) else none := by
  cases hcmp : compare n.key k with
  | lt => exact absurd hcmp hk
  | eq =>
    obtain ⟨t, ht, hfind⟩ := h.found n hn
    refine ⟨t, ht, (hfind k hcmp).trans ?_⟩
    cases next.marked <;> rfl
  | gt =>
    obtain ⟨t, ht, hleads, hagrees⟩ := h.reached
    obtain ⟨own, hst⟩ := hsound t ht
    refine ⟨t, ht, hleads.find?_eq_none hst ?_⟩
    intro a ha n₀ hn₀
    cases ha
    rw [← (hagrees n₀ n hn₀ hn).1]
    exact Std.OrientedCmp.lt_of_gt hcmp

end SharedSet

end MarkedChain
