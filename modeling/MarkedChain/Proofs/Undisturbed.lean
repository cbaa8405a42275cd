import MarkedChain.Proofs.Effects
import MarkedChain.Proofs.Pursuit

/-!
# A walk that nobody disturbs

An operation that runs while all others wait sees the chain as it is. `SharedSet.Stands` says where
its walk stands: behind the nodes that it has passed and before the others, at a link that has not
changed since it was read, with a tally of the entries that it has passed. Nothing that would make
it start again can happen then, so every step brings it nearer to the end (`Move.nearer`), and when
it ends, it replies what a ledger with the contents of the set would (`Move.served`).
-/

namespace MarkedChain

variable {κ ν : Type}

/-! ## Where a walk stands -/

/-- The task has gathered what it has to from the entries that it has passed, and it has nothing to
clear up. -/
def Task.Tallies (l : List (κ × ν)) : Task κ → Prop
  | .size met => met = l.length
  | .keys met => met = (l.map Prod.fst).reverse
  | .isEmpty => l = []
  | .unlink _ => False
  | .insert .. | .remove _ | .contains _ | .get _ | .hold _ => True

/-- The place of the link that leads on from some nodes. -/
def Place.behind (before : List Address) : Place := before.getLast?.elim .head .node

namespace SharedSet

/-- A walk stands behind some nodes of the chain and before the others. -/
structure Stands (s : SharedSet κ ν) (t : Task κ) (pred : Place) (before after : List Address) :
    Prop where
  split : s.linked = before ++ after
  place : pred = .behind before
  unmarked : s.helps t = true → ∀ a, pred = .node a → ¬ s.Marked a
  tally : t.Tallies (before.filterMap s.pair?)

/-- A walk stands before a node and knows its link. -/
structure Meets (s : SharedSet κ ν) (t : Task κ) (pred : Place) (curr : Address)
    (next : Link Address) (after : List Address) : Prop where
  link : s.link? (.node curr) = some next
  next : after.head? = some curr
  stands : ∃ before, s.Stands t pred before after

end SharedSet

/-- A call may have to retire a node of a set: a marked one that is still on the chain, unless it
only reclaims, or the one that it removes. -/
def SharedSet.MayRetire [Ord κ] (s : SharedSet κ ν) (call : Call κ ν) : Prop :=
  (call ≠ .reclaim ∧ ∃ a ∈ s.linked, s.Marked a) ∨
    ∃ k, call = .remove k ∧ (Ledger.find? k s.contents).isSome = true

/-- What an operation knows of the chain is what the chain is like, and `after` are the nodes that
it has still before it. -/
def Point.Current (s : SharedSet κ ν) (t : Task κ) (after : List Address) : Point → Prop
  | .start => after = s.linked ∧ t.Tallies ([] : List (κ × ν))
  | .inspect pred curr => after.head? = curr ∧ ∃ before, s.Stands t pred before after
  | .encounter pred curr next => s.Meets t pred curr next after
  | .judge pred curr next => t.key?.isSome = true ∧ s.Meets t pred curr next after

/-- A bound on the number of steps that are left, if there are `n` nodes before the walk. To pass a
node takes two steps. -/
def Point.distance (n : Nat) : Point → Nat
  | .start => 3 * n + 3
  | .inspect .. => 3 * n + 2
  | .encounter .. => 3 * n + 1
  | .judge .. => 3 * n

variable [Ord κ] {s s' : SharedSet κ ν} {own : List Address}

namespace Task

variable {t t' : Task κ} {l : List (κ × ν)}

omit [Ord κ] in
theorem Tallies.not_done (h : t.Tallies l) : t.done = false := by
  cases t with
  | unlink => exact h.elim
  | _ => rfl

omit [Ord κ] in
/-- A task that looks for a key gathers nothing. -/
theorem Tallies.of_key? {l' : List (κ × ν)} (h : t.Tallies l) (hk : t.key?.isSome = true) :
    t.Tallies l' := by
  cases t with
  | unlink => exact h.elim
  | size | isEmpty | keys => cases hk
  | insert | remove | contains | get | hold => trivial

/-- What a task gathers from a node that it passes. -/
theorem Tallies.pass {key : κ} {value : ν} {marked : Bool} (h : t.Tallies l)
    (hpass : t.pass? key marked = some t') :
    t'.Tallies (l ++ (if marked then none else some (key, value)).toList) := by
  cases hk : t.key? with
  | some k =>
    obtain ⟨rfl, -⟩ := (pass?_eq_some hpass).2.2.2 k hk
    exact h.of_key? (by rw [hk]; rfl)
  | none =>
    cases t with
    | size met | keys met =>
      cases hpass
      cases h
      cases marked <;> simp [Tallies]
    | isEmpty =>
      cases marked with
      | true =>
        cases hpass
        simpa [Tallies] using h
      | false => cases hpass
    | _ => cases hk

/-- At the end of the chain a task that looks for no key has gathered its reply. -/
theorem Tallies.closing {s : SharedSet κ ν} {call : Call κ ν} (h : t.Tallies l)
    (hserves : t.Serves s call) (hk : t.key? = none) :
    Ledger.serve l call = (l, some (Step.closing t)) := by
  cases t with
  | size met | isEmpty | keys met =>
    cases call <;> first | exact hserves.elim | skip
    rw [Tallies] at h
    simp [Ledger.serve, Step.closing, h]
  | _ => cases hk

end Task

namespace SharedSet

variable {t t' : Task κ} {pred : Place} {before after : List Address} {curr : Address}
  {next : Link Address}

/-- The link at which a walk stands leads to the next node, and a task that helps finds it
unmarked. -/
theorem Stands.link (h : s.Stands t pred before after) (hs : s.Sound own) :
    s.OnChain pred ∧ ∃ l, s.link? pred = some l ∧ l.target = after.head? ∧
      (s.helps t = true → l = .unmarked after.head?) := by
  obtain ⟨hsplit, rfl, hunmarked, -⟩ := h
  rcases List.eq_nil_or_concat before with rfl | ⟨init, a, rfl⟩
  · have htarget : s.head.target = after.head? := by
      have hhead := hs.path.head?
      rw [hsplit, List.nil_append] at hhead
      exact hhead.symm
    refine ⟨trivial, s.head, rfl, htarget, fun _ => ?_⟩
    rw [← htarget]
    exact Link.eq_unmarked hs.head
  · have hsplit' : s.linked = init ++ a :: after := by simpa using hsplit
    have hpl : Place.behind (init ++ [a]) = .node a := by simp [Place.behind]
    have ha : a ∈ s.linked := by simp [hsplit']
    obtain ⟨n, hn⟩ := hs.live_of_linked ha
    have htarget := hs.head?_of_split hsplit' hn
    rw [List.concat_eq_append, hpl] at hunmarked
    rw [List.concat_eq_append, hpl, htarget]
    refine ⟨ha, n.next, by simp [link?, hn], rfl, fun hh => Link.eq_unmarked ?_⟩
    by_contra hm
    exact hunmarked hh a rfl ⟨n, hn, by simpa using hm⟩

omit [Ord κ] in
theorem Stands.mem_linked (h : s.Stands t pred before after) {a : Address}
    (ha : after.head? = some a) : a ∈ s.linked := by
  rw [h.split]
  exact List.mem_append_right _ (List.mem_of_head? ha)

/-- The place at which a walk stands is not one of the nodes before it. -/
theorem Stands.pred_ne (h : s.Stands t pred before after) (hs : s.Sound own) {a : Address}
    (ha : a ∈ after) : pred ≠ .node a := by
  obtain ⟨hsplit, rfl, -, -⟩ := h
  intro hpl
  have hlast : before.getLast? = some a := by
    cases hlast : before.getLast? with
    | none =>
      rw [Place.behind, hlast] at hpl
      cases hpl
    | some b =>
      rw [Place.behind, hlast] at hpl
      cases hpl
      rfl
  have hnodup := hs.nodup_linked
  rw [hsplit, List.nodup_append] at hnodup
  exact hnodup.2.2 a (List.mem_of_getLast? hlast) a ha rfl

/-- Where the walk stands there is the next node of the search for a key. -/
theorem Stands.leads [Std.TransOrd κ] (h : s.Stands t pred before after) (hs : s.Sound own)
    {r : Nat} (hreaches : s.Reaches r t pred) {k : κ} (hk : t.key? = some k) :
    s.Leads k after.head? := by
  obtain ⟨hon, l, hl, htarget, -⟩ := h.link hs
  exact htarget ▸ hs.leads_of_link hon hl (hreaches.under hk)

omit [Ord κ] in
/-- Records have nothing to do with where a walk stands. -/
theorem Stands.scheme (h : s.Stands t pred before after) {sch : Scheme Address}
    (hv : sch.validates = s.scheme.validates) :
    ({ s with scheme := sch } : SharedSet κ ν).Stands t pred before after where
  split := h.split
  place := h.place
  unmarked hh := h.unmarked (by rwa [helps_congr (s := s) hv] at hh)
  tally := h.tally

omit [Ord κ] in
theorem Meets.scheme (h : s.Meets t pred curr next after) {sch : Scheme Address}
    (hv : sch.validates = s.scheme.validates) :
    ({ s with scheme := sch } : SharedSet κ ν).Meets t pred curr next after where
  link := h.link
  next := h.next
  stands := h.stands.imp fun _ hstands => hstands.scheme hv

omit [Ord κ] in
/-- A walk that stands before a node knows that node. -/
theorem Meets.exists_node (h : s.Meets t pred curr next after) :
    ∃ n rest, s.memory.node? curr = some n ∧ n.next = next ∧ after = curr :: rest := by
  obtain ⟨n, hn, hnext⟩ := Option.map_eq_some_iff.1 h.link
  cases after with
  | nil => cases h.next
  | cons a rest =>
    cases h.next
    exact ⟨n, rest, hn, hnext, rfl⟩

/-- A walk passes a node. -/
theorem Stands.pass {n : Node κ ν} (hn : s.memory.node? curr = some n)
    (h : s.Stands t pred before (curr :: after))
    (hpass : t.pass? n.key n.next.marked = some t')
    (hunmarked : s.helps t = true → n.next.marked = false) :
    s.Stands t' (.node curr) (before ++ [curr]) after where
  split := by simpa using h.split
  place := by simp [Place.behind]
  unmarked hh := by
    rintro a ha ⟨n', hn', hm⟩
    cases ha
    rw [hn] at hn'
    cases hn'
    have hreads := (Task.pass?_eq_some hpass).2.2.1
    rw [hunmarked (by rwa [helps, hreads] at hh)] at hm
    cases hm
  tally := by
    have hentry : [curr].filterMap s.pair? =
        (if n.next.marked then none else some (n.key, n.value)).toList := by
      rw [← pair?_eq hn, List.filterMap_cons]
      cases s.pair? curr <;> rfl
    rw [List.filterMap_append, hentry]
    exact h.tally.pass hpass

/-- A walk has a marked node taken out of its way. -/
theorem Stands.clear {n : Node κ ν} {drops : List ν} (hs : s.Sound own)
    (hn : s.memory.node? curr = some n) (hm : n.next.marked = true)
    (h : s.Stands t pred before (curr :: after)) (hclears : s.Clears s' curr drops) :
    s'.Stands t pred before after := by
  have hlinked := hclears.linked_of_split hs hn hm h.split
  refine ⟨hlinked, h.place, fun hh a ha hmarked => ?_, ?_⟩
  · have hv := (hclears.respects hs hn hm).validates
    rw [helps_congr hv] at hh
    exact h.unmarked hh a ha (hclears.marked_back hmarked)
  · have hentry : ∀ a ∈ before, s'.pair? a = s.pair? a :=
      fun a ha => hclears.pair? hs hn hm (by simp [hlinked, ha])
    rw [List.filterMap_congr hentry]
    exact h.tally

end SharedSet

/-! ## What an undisturbed operation knows -/

variable [Std.TransOrd κ] {t : Task κ} {who : Actor} {f f' : Frame κ} {st : Stride κ ν}
  {after : List Address} {call : Call κ ν}

/-- All that an undisturbed operation knows is true of the present state. -/
theorem Point.Current.informed {r : Nat} (h : f.point.Current s f.task after) (hs : s.Sound own)
    (hf : f.Fits s r) (hd : s.scheme.depth? r = some 1) : f.Informed (· = s) s r where
  now := rfl
  sound := by
    rintro _ rfl
    exact ⟨own, hs⟩
  remembers hv := hs.remembers hv hd
  point k hk := by
    have hmeets : ∀ {pred curr next}, s.Reaches r f.task pred →
        s.Meets f.task pred curr next after → s.Sighted (· = s) k curr next := by
      intro pred curr next hreaches hmeets
      obtain ⟨n, rest, hn, rfl, rfl⟩ := hmeets.exists_node
      obtain ⟨before, hstands⟩ := hmeets.stands
      have hleads : s.Leads k (some curr) := hstands.leads hs hreaches hk
      refine hs.sighted ?_ ?_ hleads.mem hn
      · rfl
      · exact ⟨s, rfl, hleads, .refl _ _⟩
    have hpoint := hf.point
    cases hp : f.point with
    | start => trivial
    | inspect pred curr =>
      rw [hp] at h hpoint
      obtain ⟨rfl, before, hstands⟩ := h
      exact ⟨s, rfl, hstands.leads hs hpoint.1 hk⟩
    | encounter pred curr next =>
      rw [hp] at h hpoint
      exact hmeets hpoint.1 h
    | judge pred curr next =>
      rw [hp] at h hpoint
      exact hmeets hpoint.1 h.2

omit [Ord κ] [Std.TransOrd κ] in
theorem Point.Current.not_done (h : f.point.Current s f.task after) : f.task.done = false := by
  have hmeets : ∀ {pred curr next}, s.Meets f.task pred curr next after → f.task.done = false :=
    fun hmeets => hmeets.stands.elim fun _ hstands => hstands.tally.not_done
  cases hp : f.point with
  | start =>
    rw [hp] at h
    exact h.2.not_done
  | inspect pred curr =>
    rw [hp] at h
    exact h.2.elim fun _ hstands => hstands.tally.not_done
  | encounter pred curr next =>
    rw [hp] at h
    exact hmeets h
  | judge pred curr next =>
    rw [hp] at h
    exact hmeets h.2

namespace Move

omit [Std.TransOrd κ] in
/-- An insertion finds the link as it was read, so it need not walk again. -/
theorem not_retry {fresh : Address} {key : κ} {p : Point} {pred : Place} {x : Option Address}
    {s₁ : SharedSet κ ν} {l : Link Address} (hs : s.Sound (fresh :: own))
    (h : p.Current s (.insert fresh key) after) (hgap : Gap s key p pred x)
    (hprepare : s.Relinks s₁ (.node fresh) (.unmarked x)) (hl : s₁.link? pred = some l) :
    l = .unmarked x := by
  have hstands : after.head? = x ∧ ∃ before, s.Stands (.insert fresh key) pred before after := by
    cases hgap with
    | atEnd => exact h
    | atNode => exact ⟨h.2.next, h.2.stands⟩
  obtain ⟨rfl, before, hstands⟩ := hstands
  obtain ⟨hon, l', hl', -, hunmarked⟩ := hstands.link hs
  have hne : pred ≠ .node fresh := by
    rintro rfl
    exact hs.not_own_of_linked hon List.mem_cons_self
  rw [hprepare.link?_of_ne hne, hl'] at hl
  cases hl
  exact hunmarked (by simp [SharedSet.helps, Task.reads])

omit [Std.TransOrd κ] in
/-- An undisturbed operation that goes on has come nearer to its end and has left the contents as
they are. -/
theorem nearer (h : Move s who f st) (hs : s.Sound (f.own ++ own)) (hf : f.Fits s who.record)
    (hd : s.scheme.depth? who.record = some 1) (hcurrent : f.point.Current s f.task after)
    (hnext : st.next = .goes f') :
    ∃ after', f'.point.Current st.set f'.task after' ∧
      f'.point.distance after'.length < f.point.distance after.length ∧
      st.set.contents = s.contents := by
  have hpublish : ∀ slot x, (s.scheme.publish who.record slot x).validates = s.scheme.validates :=
    fun slot x => (Scheme.publish_touches _ _ _ _).validates
  cases h with
  | start t =>
    cases hnext
    obtain ⟨rfl, htally⟩ := hcurrent
    refine ⟨s.linked, ⟨hs.path.head?, [], ?_⟩, Nat.lt_succ_self _, rfl⟩
    have hstands : s.Stands t .head [] s.linked := ⟨rfl, rfl, by simp, htally⟩
    exact hstands.scheme (hpublish _ _)
  | @look t pred curr n hn =>
    cases hnext
    obtain ⟨hcurr, hstands⟩ := hcurrent
    have hmeets : s.Meets t pred curr n.next after :=
      ⟨by simp [SharedSet.link?, hn], hcurr, hstands⟩
    exact ⟨after, hmeets.scheme (hpublish _ _), Nat.lt_succ_self _, rfl⟩
  | stray t pred hn hl hne hhelps | follow t pred hn hm hl hne hlm hhelps =>
    obtain ⟨hcurr, before, hstands⟩ := hcurrent
    obtain ⟨-, l', hl', -, hunmarked⟩ := hstands.link hs
    rw [hl] at hl'
    cases hl'
    exact absurd (hcurr ▸ hunmarked hhelps) hne
  | @clear t pred curr n s' drops hn hm hl hclears =>
    cases hnext
    obtain ⟨hcurr, before, hstands⟩ := hcurrent
    obtain ⟨rest, rfl⟩ : ∃ rest, after = curr :: rest := by
      cases after with
      | nil => cases hcurr
      | cons a rest =>
        cases hcurr
        exact ⟨rest, rfl⟩
    have hs₁ := hs.publish hd .succ n.next.target
    have hstands₁ := hstands.scheme (hpublish .succ n.next.target)
    have hhead : rest.head? = n.next.target := hs.head?_of_split hstands.split hn
    refine ⟨rest, ⟨hhead, before, ?_⟩, ?_, hclears.contents hs₁ hn hm⟩
    · exact (hstands₁.clear hs₁ hn hm hclears).scheme (Scheme.transfer_touches _ _ _ _).validates
    · simp only [Point.distance, List.length_cons]
      omega
  | @pass t t' pred curr n next hn hpass =>
    cases hnext
    obtain ⟨-, -, -, hm⟩ := hf.point
    obtain ⟨n', rest, hn', rfl, rfl⟩ := SharedSet.Meets.exists_node hcurrent
    rw [hn] at hn'
    cases hn'
    obtain ⟨before, hstands⟩ := hcurrent.stands
    refine ⟨rest, ⟨hs.head?_of_split hstands.split hn, before ++ [curr], ?_⟩, ?_, rfl⟩
    · refine (hstands.pass hn hpass hm).scheme ?_
      exact (Scheme.transfer_touches _ _ _ _).validates.trans
        (Scheme.transfer_touches _ _ _ _).validates
    · simp only [Point.distance, List.length_cons]
      omega
  | @stop t pred curr n next hn hpass =>
    cases t with
    | insert | remove | contains | get | hold =>
      cases hnext
      exact ⟨after, ⟨rfl, hcurrent⟩, Nat.lt_succ_self _, rfl⟩
    | unlink | size | isEmpty | keys => cases hnext
  | retry hgap hprepare hl hne => exact absurd (not_retry hs hcurrent hgap hprepare hl) hne
  | beaten pred next hn heq hm =>
    obtain ⟨-, -, hunmarked, -⟩ := hf.point
    obtain ⟨n', rest, hn', rfl, -⟩ := hcurrent.2.exists_node
    rw [hn] at hn'
    cases hn'
    rw [hunmarked (by simp [SharedSet.helps, Task.reads])] at hm
    cases hm
  | mark pred next hn heq hm hmark hl hne =>
    obtain ⟨n', rest, -, -, rfl⟩ := hcurrent.2.exists_node
    obtain ⟨before, hstands⟩ := hcurrent.2.stands
    obtain ⟨-, l', hl', -, hunmarked⟩ := hstands.link hs
    rw [hmark.link?_of_ne (hstands.pred_ne hs List.mem_cons_self), hl'] at hl
    cases hl
    exact absurd (hunmarked (by simp [SharedSet.helps, Task.reads])) hne
  | finish | reject | insert | remove | tell => cases hnext

/-- An undisturbed operation that goes on leaves no more to be retired than it has found. -/
theorem mayRetire_back (h : Move s who f st) (hs : s.Sound (f.own ++ own))
    (hf : f.Fits s who.record) (hd : s.scheme.depth? who.record = some 1)
    (hcurrent : f.point.Current s f.task after) (hnext : st.next = .goes f')
    (hr : st.set.MayRetire call) : s.MayRetire call := by
  obtain ⟨after', hcurrent', -, hsame⟩ := h.nearer hs hf hd hcurrent hnext
  rcases hr with ⟨hcall, a, ha, hm⟩ | hkey
  · cases h.marking hs hf with
    | idle hback =>
      obtain ⟨hs', -⟩ := h.sound_keeps hs hf hd
      have hm' := hback a hm
      exact .inl ⟨hcall, a, (h.evolves hs hf hd).linked_back hs hs' hm' ha, hm'⟩
    | mark _ _ _ _ hnext' =>
      -- the walk that clears up after it would not be one of an undisturbed operation
      rw [hnext] at hnext'
      cases hnext'
      exact hcurrent'.2.elim
    | remove _ _ _ _ hnext' =>
      rw [hnext] at hnext'
      cases hnext'
  · rw [hsame] at hkey
    exact .inr hkey

/-- An undisturbed operation that ends has done to the contents what its call asks for, and it
replies what a ledger would. -/
theorem served (h : Move s who f st) (hs : s.Sound (f.own ++ own)) (hf : f.Fits s who.record)
    (hd : s.scheme.depth? who.record = some 1) (hcurrent : f.point.Current s f.task after)
    (hserves : f.task.Serves s call) {reply : Reply κ ν} (hnext : st.next = .ends reply) :
    Ledger.serve s.contents call = (st.set.contents, some reply) := by
  have hkey := hserves.key?
  cases hk : call.key? with
  | some k =>
    have hdone := hcurrent.not_done
    cases h.effect hs hf hd (hcurrent.informed hs hf hd) hserves with
    | silent hnext' | early hnext' =>
      rw [hnext] at hnext'
      cases hnext'
    | late _ hdone' =>
      rw [hdone] at hdone'
      cases hdone'
    | acts hnext' _ _ hserve =>
      rw [hnext] at hnext'
      cases hnext'
      exact hserve
    | tells hnext' _ hsame hserve =>
      rw [hnext] at hnext'
      cases hnext'
      obtain ⟨u, rfl, hright⟩ := hserve k hk
      rw [hsame]
      exact hright
  | none =>
    rw [hk] at hkey
    cases h with
    | finish t pred =>
      cases hnext
      obtain ⟨hnone, before, hsplit, -, -, htally⟩ := hcurrent
      obtain rfl := List.head?_eq_none_iff.1 hnone
      rw [List.append_nil] at hsplit
      rw [← hsplit, ← SharedSet.contents_eq] at htally
      exact htally.closing hserves hkey
    | @stop t pred curr n next hn hpass =>
      cases t with
      | isEmpty =>
        cases hnext
        cases call <;> first | exact hserves.elim | skip
        obtain ⟨n', rest, hn', rfl, rfl⟩ := SharedSet.Meets.exists_node hcurrent
        rw [hn] at hn'
        cases hn'
        obtain ⟨before, hstands⟩ := hcurrent.stands
        have hm : n.next.marked = false := by
          cases hm : n.next.marked with
          | false => rfl
          | true => simp [Task.pass?, hm] at hpass
        have hmem : (n.key, n.value) ∈ s.contents :=
          SharedSet.mem_contents.2 ⟨curr, n, by simp [hstands.split], hn, hm, rfl⟩
        have hne : s.contents.isEmpty = false := by
          rw [List.isEmpty_eq_false_iff]
          exact List.ne_nil_of_mem hmem
        rw [Ledger.serve, hne]
        rfl
      | size | keys => cases hpass
      | _ => cases hkey
    | tell =>
      have hsome := hcurrent.1
      dsimp only at hkey hsome
      rw [hkey] at hsome
      cases hsome
    | reject | insert | remove => cases hkey
    | start | look | stray | follow | clear | pass | retry | beaten | mark => cases hnext

end Move

end MarkedChain
