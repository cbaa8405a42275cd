import MarkedChain.Proofs.Findings

/-!
# A removal goes after the node that it has marked

A step that marks a node is one of a removal, and the removal unlinks the node with the same step or
walks again to unlink it (`Marking`, `Move.marking`). In such a walk the removal is after its node:
every node that it comes to is the marked one or has a smaller key (`Point.Pursues`). So the walk
cannot stop before it has come to the node, and it does not come to the node without unlinking it.
`Move.chases` puts this together: as long as a marked node is on the chain, the removal that has
marked it goes on and is after it.
-/

namespace MarkedChain

variable {κ ν : Type}

namespace SharedSet

/-- The node at an address is marked. -/
def Marked (s : SharedSet κ ν) (a : Address) : Prop :=
  ∃ n, s.memory.node? a = some n ∧ n.next.marked = true

variable {s s' : SharedSet κ ν}

/-- Writing an unmarked link marks no node. -/
theorem Relinks.marked_back {pl : Place} {l : Link Address} (h : s.Relinks s' pl l)
    (hl : l.marked = false) {a : Address} (ha : s'.Marked a) : s.Marked a := by
  obtain ⟨n', hn', hm⟩ := ha
  obtain ⟨n, hn, -⟩ := h.same_back hn'
  refine ⟨n, hn, ?_⟩
  by_cases hpl : pl = .node a
  · subst hpl
    rw [h.node?_self hn] at hn'
    cases hn'
    rw [hl] at hm
    cases hm
  · rwa [(h.same hn hn').2.2 hpl] at hm

theorem Clears.marked_back {curr : Address} {drops : List ν} (h : s.Clears s' curr drops)
    {a : Address} (ha : s'.Marked a) : s.Marked a := by
  obtain ⟨n', hn', hm⟩ := ha
  obtain ⟨n, hn⟩ :=
    Option.isSome_iff_exists.1 (h.unborn.live (Option.isSome_iff_exists.2 ⟨n', hn'⟩))
  exact ⟨n, hn, by rw [← h.mark hn hn', hm]⟩

theorem marked_drops {m : Memory κ ν} {sch : Scheme Address} {nodes : List Address}
    (h : s.memory.Drops m nodes) {a : Address}
    (ha : ({ s with scheme := sch, memory := m } : SharedSet κ ν).Marked a) : s.Marked a := by
  obtain ⟨n, hn, hm⟩ := ha
  rw [show m.node? a = _ from h.node? a] at hn
  split at hn
  · cases hn
  · exact ⟨n, hn, hm⟩

variable [Ord κ] {own own' : List Address}

/-- A node of the chain that was marked before was on the chain before. -/
theorem Evolves.linked_back {window : Option (Place × Address)} (h : s.Evolves s' window)
    (hs : s.Sound own) (hs' : s'.Sound own') {a : Address} (hmarked : s.Marked a)
    (ha : a ∈ s'.linked) : a ∈ s.linked := by
  obtain ⟨n, hn, hm⟩ := hmarked
  rcases hs.place_of_live hn with hlinked | hretired | hown
  · exact hlinked
  · exact absurd (h.retired a hretired (Option.isSome_iff_exists.2 (hs'.live_of_linked ha)))
      (hs'.not_retired_of_linked ha)
  · rw [hs.fresh a hown n hn] at hm
    cases hm

/-- A node that is taken out of the chain is not freed with the same step, if a record holds it. -/
theorem Clears.live_of_linked {curr : Address} {drops : List ν} (h : s.Clears s' curr drops)
    (hs : s.Sound own) {n : Node κ ν} (hn : s.memory.node? curr = some n)
    (hm : n.next.marked = true) {r : Nat} {slot : Slot} (hheld : s.Held r slot curr) {a : Address}
    (ha : a ∈ s.linked) : ∃ n', s'.memory.node? a = some n' := by
  have hs' := h.sound hs hn hm
  obtain ⟨before, rest, hsplit, hlinked⟩ := h.linked hs hn hm
  by_cases hac : a = curr
  · subst hac
    exact hs'.live_of_held ((h.respects hs hn hm).held r (by simp) slot a hheld)
  · refine hs'.live_of_linked ?_
    rw [hsplit] at ha
    rw [hlinked]
    simp only [List.mem_append, List.mem_cons] at ha ⊢
    exact ha.imp id fun h => h.resolve_left hac

/-- The node that is taken out is not on the chain afterwards. -/
theorem Clears.not_linked {curr : Address} {drops : List ν} (h : s.Clears s' curr drops)
    (hs : s.Sound own) {n : Node κ ν} (hn : s.memory.node? curr = some n)
    (hm : n.next.marked = true) : curr ∉ s'.linked := by
  obtain ⟨before, rest, hsplit, hlinked⟩ := h.linked hs hn hm
  have hnodup := hs.nodup_linked
  rw [hsplit, List.nodup_append] at hnodup
  rw [hlinked, List.mem_append]
  rintro (hmem | hmem)
  · exact hnodup.2.2 curr hmem curr (by simp) rfl
  · exact (List.nodup_cons.1 hnodup.2.1).1 hmem

end SharedSet

/-! ## Who marks a node -/

variable [Ord κ] {s s' : SharedSet κ ν} {who : Actor} {f : Frame κ} {st : Stride κ ν}
  {own : List Address} {k : κ} {a : Address}

namespace SharedSet

/-- There is a node with the key at an address. -/
def Bears (s : SharedSet κ ν) (k : κ) (a : Address) : Prop :=
  ∃ n, s.memory.node? a = some n ∧ compare n.key k = .eq

/-- A node of the chain with the key was marked. -/
structure Takes (s s' : SharedSet κ ν) (k : κ) (a : Address) : Prop where
  linked : a ∈ s.linked
  unmarked : ¬ s.Marked a
  bears : s.Bears k a
  marked : s'.Marked a

theorem Bears.respects {window : Option Nat} (h : s.Bears k a) (hr : s.Respects s' window)
    (hlive : ∃ n, s'.memory.node? a = some n) : s'.Bears k a := by
  obtain ⟨n, hn, hk⟩ := h
  obtain ⟨n', hn'⟩ := hlive
  exact ⟨n', hn', by rw [(hr.node a n n' hn hn').1, hk]⟩

end SharedSet

/-- What a step of an operation means for the marks of a set. -/
inductive Marking (s : SharedSet κ ν) (t : Task κ) (st : Stride κ ν) : Prop where
  /-- No node is marked. The operation clears up if it did before, and if it ends, it replies that
  it has removed something if and only if it did. -/
  | idle (hback : ∀ b, st.set.Marked b → s.Marked b)
    (hdone : ∀ f, st.next = .goes f → f.task.done = t.done)
    (hreply : ∀ reply, st.next = .ends reply → (reply = .removed ↔ t.done = true))
  /-- A removal marks a node, leaves it on the chain, and starts again to clear it away. -/
  | mark {k : κ} {a : Address} (htask : t = .remove k) (htakes : s.Takes st.set k a)
    (hback : ∀ b, st.set.Marked b → b = a ∨ s.Marked b) (hlinked : a ∈ st.set.linked)
    (hnext : st.next = .goes ⟨.unlink k, .start⟩)
  /-- A removal marks a node and takes it out of the chain. -/
  | remove {k : κ} {a : Address} (htask : t = .remove k) (htakes : s.Takes st.set k a)
    (hback : ∀ b, st.set.Marked b → b = a ∨ s.Marked b) (hout : a ∉ st.set.linked)
    (hnext : st.next = .ends .removed)

omit [Ord κ] in
/-- A write that marks one link marks one node. -/
theorem SharedSet.marked_relinks {s₁ : SharedSet κ ν} {curr : Address} {l : Link Address}
    (h : s.Relinks s₁ (.node curr) l) {b : Address} (hb : s₁.Marked b) : b = curr ∨ s.Marked b := by
  obtain ⟨n', hn', hm⟩ := hb
  obtain ⟨n, hn, -⟩ := h.same_back hn'
  by_cases hbc : b = curr
  · exact .inl hbc
  · rw [(h.same hn hn').2.2 fun hpl => hbc (by cases hpl; rfl)] at hm
    exact .inr ⟨n, hn, hm⟩

/-- Only a removal marks a node, namely the one at which it stands. -/
theorem Move.marking [Std.TransOrd κ] (h : Move s who f st) (hs : s.Sound (f.own ++ own))
    (hf : f.Fits s who.record) : Marking s f.task st := by
  have hunmarked : ∀ {curr : Address} {n : Node κ ν}, s.memory.node? curr = some n →
      n.next.marked = false → ¬ s.Marked curr := by
    rintro curr n hn hm ⟨n', hn', hm'⟩
    rw [hn] at hn'
    cases hn'
    rw [hm] at hm'
    cases hm'
  cases h with
  | start | look | follow =>
    exact .idle (fun _ h => h) (fun f hf => by cases hf; rfl) (by simp [Step.start])
  | stray t =>
    refine .idle (fun _ h => h) (fun f hf => ?_) (by simp [Step.again])
    cases hf
    exact t.done_restart
  | beaten => exact .idle (fun _ h => h) (fun f hf => by cases hf; rfl) (by simp [Step.again])
  | finish t pred ht =>
    refine .idle (fun _ h => h) (by simp) fun reply hreply => ?_
    cases hreply
    cases t <;> simp [Step.closing, Task.done] at ht ⊢
  | clear t pred hn hm hl hclears =>
    exact .idle (fun b hb => hclears.marked_back hb) (fun f hf => by cases hf; rfl) (by simp)
  | @pass t t' pred curr n next hn hpass =>
    refine .idle (fun _ h => h) (fun f hf => ?_) (by simp)
    cases hf
    cases t <;> simp only [Task.pass?] at hpass <;> first
      | (cases hpass; rfl)
      | (split at hpass <;> cases hpass; rfl)
  | @stop t pred curr n next hn hpass =>
    cases t with
    | unlink k =>
      refine .idle (fun _ h => h) (by simp [Step.atNode]) fun reply hreply => ?_
      cases hreply
      exact ⟨fun _ => rfl, fun _ => rfl⟩
    | insert | remove | contains | get | hold =>
      exact .idle (fun _ h => h) (fun f hf => by cases hf; rfl) (by simp [Step.atNode])
    | size | isEmpty | keys =>
      refine .idle (fun _ h => h) (by simp [Step.atNode]) fun reply hreply => ?_
      cases hreply
      simp [Step.closing, Task.done]
  | reject pred next hn heq hn₀ hdrops =>
    refine .idle (fun _ hb => SharedSet.marked_drops hdrops hb) (by simp) fun reply hreply => ?_
    cases hreply
    simp [Task.done]
  | insert hgap hprepare hl hwrite =>
    refine .idle (fun _ hb => hprepare.marked_back rfl (hwrite.marked_back rfl hb)) (by simp)
      fun reply hreply => ?_
    cases hreply
    simp [Task.done]
  | retry hgap hprepare hl hne =>
    refine .idle (fun _ hb => hprepare.marked_back rfl hb) (fun f hf => ?_) (by simp [Step.again])
    cases hf
    rfl
  | @tell t pred curr n next hn ht hne =>
    refine .idle (fun _ h => h) (by simp) fun reply hreply => ?_
    cases hreply
    cases t <;> simp [verdict, Step.closing, Task.done] at ht ⊢
  | mark pred next hn heq hm hmark hl hne =>
    obtain ⟨hlinked, hchain, -⟩ := hs.mark hf.point.2.1 hn hm hmark
    have hmarked := hmark.node?_self hn
    exact .mark rfl ⟨hlinked, hunmarked hn hm, ⟨_, hn, heq⟩, _, hmarked, rfl⟩
      (fun b hb => SharedSet.marked_relinks hmark hb) (hchain ▸ hlinked) rfl
  | @remove key pred curr n next s₁ s₂ drops hn heq hm hmark hl hclears =>
    obtain ⟨hlinked, hchain, hs₁, hresp⟩ := hs.mark hf.point.2.1 hn hm hmark
    have hn₁ := hmark.node?_self hn
    have hheld := hresp.held who.record (by simp) _ _ hf.point.2.1
    obtain ⟨n₂, hn₂⟩ := hclears.live_of_linked hs₁ hn₁ rfl hheld (hchain ▸ hlinked)
    refine .remove rfl ⟨hlinked, hunmarked hn hm, ⟨_, hn, heq⟩, n₂, hn₂, ?_⟩ (fun b hb => ?_)
      (hclears.not_linked hs₁ hn₁ rfl) rfl
    · rw [hclears.mark hn₁ hn₂]
      rfl
    · exact SharedSet.marked_relinks hmark (hclears.marked_back hb)

/-- No step frees a node of the chain: the one that leaves it is still there. -/
theorem Move.live_of_linked [Std.TransOrd κ] (h : Move s who f st) (hs : s.Sound (f.own ++ own))
    (hf : f.Fits s who.record) (hd : s.scheme.depth? who.record = some 1) (ha : a ∈ s.linked) :
    ∃ n, st.set.memory.node? a = some n := by
  have hlive := hs.live_of_linked ha
  cases h with
  | start | finish | look | stray | follow | pass | stop | beaten | tell => exact hlive
  | @clear t pred curr n s' drops hn hm hl hclears =>
    have hheld : (s.publish who .succ n.next.target).Held who.record .curr curr :=
      SharedSet.publish_held_of_ne (hf.point.2 curr rfl) (by decide) _
    exact hclears.live_of_linked (hs.publish hd _ _) hn hm hheld ha
  | reject pred next hn heq hn₀ hdrops =>
    obtain ⟨hlinked, hs', -⟩ := hs.discard hdrops
    exact hs'.live_of_linked (hlinked ▸ ha)
  | insert hgap hprepare hl hwrite =>
    rwa [← Option.isSome_iff_exists, hwrite.isSome_node?, hprepare.isSome_node?,
      Option.isSome_iff_exists]
  | retry hgap hprepare hl hne =>
    exact Option.isSome_iff_exists.1
      ((hprepare.isSome_node? a).trans (Option.isSome_iff_exists.2 hlive))
  | mark pred next hn heq hm hmark hl hne =>
    exact Option.isSome_iff_exists.1
      ((hmark.isSome_node? a).trans (Option.isSome_iff_exists.2 hlive))
  | remove pred next hn heq hm hmark hl hclears =>
    obtain ⟨-, hchain, hs₁, hresp⟩ := hs.mark hf.point.2.1 hn hm hmark
    have hheld := hresp.held who.record (by simp) _ _ hf.point.2.1
    exact hclears.live_of_linked hs₁ (hmark.node?_self hn) rfl hheld (hchain ▸ ha)

/-! ## The walk of a removal that clears up -/

/-- The walk has not passed the node at `a`, which has the key `k`: where it stands or goes next is
that node or one with a smaller key. -/
def Point.Pursues (s : SharedSet κ ν) (k : κ) (a : Address) : Point → Prop
  | .start => True
  | .inspect _ curr => ∃ c, curr = some c ∧ (c = a ∨ s.Under k c)
  | .encounter _ curr next => s.Under k curr ∧ ∃ c, next.target = some c ∧ (c = a ∨ s.Under k c)
  | .judge .. => False

/-- The operation has marked the node, a node of the chain, and is after it to clear it away. -/
structure Frame.Chases (s : SharedSet κ ν) (f : Frame κ) (a : Address) : Prop where
  linked : a ∈ s.linked
  marked : s.Marked a
  walk : ∃ k, f.task = .unlink k ∧ s.Bears k a ∧ f.point.Pursues s k a

/-- The search for the key of a node of the chain leads to the node or to a smaller key. -/
theorem SharedSet.Leads.pursues [Std.TransOrd κ] {x : Option Address} (h : s.Leads k x)
    (hs : s.Sound own) (ha : a ∈ s.linked) (hbears : s.Bears k a) (pred : Place) :
    (Point.inspect pred x).Pursues s k a := by
  obtain ⟨before, after, hsplit, rfl, hlow⟩ := h
  obtain ⟨n, hn, hk⟩ := hbears
  have hafter : a ∈ after := by
    rw [hsplit] at ha
    refine (List.mem_append.1 ha).resolve_left fun hb => ?_
    rw [hlow a hb n hn] at hk
    cases hk
  have hasc := hs.ascending
  rw [hsplit, List.pairwise_append] at hasc
  cases after with
  | nil => cases hafter
  | cons c after =>
    refine ⟨c, rfl, ?_⟩
    rcases List.mem_cons.1 hafter with rfl | hafter
    · exact .inl rfl
    · refine .inr fun n' hn' => ?_
      exact Std.TransCmp.lt_of_lt_of_eq ((List.pairwise_cons.1 hasc.2.1).1 a hafter n' n hn' hn) hk

/-- A removal that has left its node on the chain starts again and is after it. -/
theorem SharedSet.Takes.chases (h : s.Takes s' k a) {who : Option Nat} (hr : s.Respects s' who)
    (hlinked : a ∈ s'.linked) : Frame.Chases s' ⟨.unlink k, .start⟩ a := by
  obtain ⟨n, hn, hm⟩ := h.marked
  exact ⟨hlinked, ⟨n, hn, hm⟩, k, rfl, h.bears.respects hr ⟨n, hn⟩, trivial⟩

/-- What others do leaves a removal after its node, as long as the node is on the chain. -/
theorem Frame.Chases.others (h : f.Chases s a) (hs : s.Sound own) {r : Nat} {who : Option Nat}
    (hf : f.Fits s r) (hr : s.Respects s' who) {own' : List Address} (hs' : s'.Sound own')
    (hlinked : a ∈ s'.linked) : f.Chases s' a := by
  obtain ⟨-, ⟨n, hn, hm⟩, k, htask, hbears, hpursues⟩ := h
  obtain ⟨n', hn'⟩ := hs'.live_of_linked hlinked
  refine ⟨hlinked, ⟨n', hn', ?_⟩, k, htask, hbears.respects hr ⟨n', hn'⟩, ?_⟩
  · rw [(hr.node a n n' hn hn').2.2 hm, hm]
  have hunder : ∀ {c}, (c = a ∨ s.Under k c) → (∃ n, s.memory.node? c = some n) →
      c = a ∨ s'.Under k c := fun hc hlive => hc.imp id fun h => h.respects hr hlive
  have hpoint := hf.point
  obtain ⟨t, p⟩ := f
  cases p with
  | start => trivial
  | inspect pred curr =>
    obtain ⟨c, rfl, hc⟩ := hpursues
    exact ⟨c, rfl, hunder hc (hs.live_of_held (hpoint.2 c rfl))⟩
  | encounter pred curr next =>
    obtain ⟨hcurr, c, hnext, hc⟩ := hpursues
    exact ⟨hcurr.respects hr (hs.live_of_held hpoint.2.1), c, hnext,
      hunder hc (hs.live_of_held (hpoint.2.2.1 c hnext))⟩
  | judge => exact hpursues

/-- A removal that clears up takes its node out of the chain, or it goes on and is after it. -/
theorem Move.chases [Std.TransOrd κ] (h : Move s who f st) (hs : s.Sound (f.own ++ own))
    (hf : f.Fits s who.record) (hd : s.scheme.depth? who.record = some 1) (hc : f.Chases s a) :
    a ∉ st.set.linked ∨ ∃ f', st.next = .goes f' ∧ f'.Chases st.set a := by
  obtain ⟨hlinked, hmarked, k, htask, hbears, hpursues⟩ := hc
  have hpoint := hf.point
  have hgoes : ∀ {f' : Frame κ}, st.set.linked = s.linked → st.set.memory = s.memory →
      f'.task = .unlink k → f'.point.Pursues st.set k a → f'.Chases st.set a := by
    intro f' hchain hmemory ht hp
    exact ⟨hchain ▸ hlinked, by rwa [SharedSet.Marked, hmemory], k, ht,
      by rwa [SharedSet.Bears, hmemory], hp⟩
  cases h with
  | start t =>
    exact .inr ⟨_, rfl, hgoes rfl rfl htask ((hs.leads_head k).pursues hs hlinked hbears .head)⟩
  | finish =>
    obtain ⟨c, hnone, -⟩ := hpursues
    cases hnone
  | @look t pred curr n hn hhelps =>
    obtain ⟨c, hcurr, hc⟩ := hpursues
    cases hcurr
    have hm := (hhelps (by rw [show t = _ from htask]; simp [SharedSet.helps, Task.reads])).1
    have hlow : s.Under k curr := by
      refine hc.resolve_left ?_
      rintro rfl
      obtain ⟨n', hn', hm'⟩ := hmarked
      rw [hn] at hn'
      cases hn'
      rw [hm] at hm'
      cases hm'
    have hcurr : s.OnChain (.node curr) := hs.linked_of_held (hpoint.2 curr rfl) hn hm
    have hleads : s.Leads k n.next.target := by
      refine hs.leads_of_link hcurr (by simp [SharedSet.link?, hn]) fun b hb => ?_
      cases hb
      exact hlow
    exact .inr ⟨_, rfl, hgoes rfl rfl htask ⟨hlow, hleads.pursues hs hlinked hbears pred⟩⟩
  | stray t =>
    refine .inr ⟨_, rfl, hgoes rfl rfl ?_ trivial⟩
    rw [show t = _ from htask]
    rfl
  | @follow t pred curr n l hn hm hl hne hlm =>
    have hleads := hs.leads_of_link (hs.onChain_of_unmarked hpoint.1.held hl hlm) hl
      (hpoint.1.under (by rw [show t = _ from htask]; rfl))
    exact .inr ⟨_, rfl, hgoes rfl rfl htask (hleads.pursues hs hlinked hbears pred)⟩
  | @clear t pred curr n s' drops hn hm hl hclears =>
    have hs₁ := hs.publish hd .succ n.next.target
    by_cases hac : a = curr
    · subst hac
      exact .inl (hclears.not_linked hs₁ hn hm)
    · have hleads := hs.leads_of_link (hs.onChain_of_unmarked hpoint.1.held hl rfl) hl
        (hpoint.1.under (by rw [show t = _ from htask]; rfl))
      have hleads' := hclears.leads hs₁ hn hm (k := k) hleads
      have hs' := hclears.sound hs₁ hn hm
      have hresp := hclears.respects hs₁ hn hm
      have hin : a ∈ s'.linked := by
        obtain ⟨before, rest, hsplit, hrest⟩ := hclears.linked hs₁ hn hm
        have ha : a ∈ (s.publish who .succ n.next.target).linked := hlinked
        rw [hsplit] at ha
        rw [hrest]
        simp only [List.mem_append, List.mem_cons] at ha ⊢
        exact ha.imp id fun h => h.resolve_left hac
      obtain ⟨n₀, hn₀, hm₀⟩ := hmarked
      obtain ⟨n', hn'⟩ := hs'.live_of_linked hin
      have hbears₁ : (s.publish who .succ n.next.target).Bears k a := hbears
      have hbears' := hbears₁.respects hresp ⟨n', hn'⟩
      refine .inr ⟨_, rfl, hin, ⟨n', hn', ?_⟩, k, htask, hbears',
        hleads'.pursues hs' hin hbears' pred⟩
      rw [(hresp.node a n₀ n' hn₀ hn').2.2 hm₀, hm₀]
  | @pass t t' pred curr n next hn hpass =>
    obtain ⟨hlow, c, hnext, hc⟩ := hpursues
    obtain ⟨-, -, -, hsame⟩ := Task.pass?_eq_some hpass
    have ht' : t' = .unlink k := by
      rw [(hsame k (by rw [show t = _ from htask]; rfl)).1]
      exact htask
    exact .inr ⟨_, rfl, hgoes rfl rfl ht' ⟨c, hnext, hc⟩⟩
  | @stop t pred curr n next hn hpass =>
    have hkey : t.key? = some k := by rw [show t = _ from htask]; rfl
    exact absurd (hpursues.1 n hn) (Task.pass?_eq_none hpass hkey)
  | tell => exact hpursues.elim
  | reject | insert | retry | beaten | mark | remove => cases htask

/-! ## What an action means for the chain and for marks -/

namespace Passage

variable {w : World κ ν} {a : Action κ ν} {o : Outcome κ ν}

/-- No set is made or given up. -/
theorem exists_set (h : Passage w a o) {j : Nat} {t : SharedSet κ ν}
    (ht : o.world.sets[j]? = some t) : ∃ s, w.sets[j]? = some s := by
  have hsize : o.world.sets.size = w.sets.size := by
    cases h <;> simp [World.setSet, World.setHandle]
  have hj := (Array.getElem?_eq_some_iff.1 ht).1
  exact ⟨_, Array.getElem?_eq_getElem (hsize ▸ hj)⟩

/-- No action frees a node of a chain. -/
theorem live_of_linked [Std.TransOrd κ] (h : Passage w a o) (hw : w.Sound) {j : Nat}
    {t t' : SharedSet κ ν} (ht : w.sets[j]? = some t) (ht' : o.world.sets[j]? = some t')
    {b : Address} (hb : b ∈ t.linked) : ∃ n, t'.memory.node? b = some n := by
  have hset : ∀ {i : Nat} {s s' : SharedSet κ ν}, w.sets[i]? = some s →
      (w.setSet i s').sets[j]? = some t' →
      (b ∈ s.linked → ∃ n, s'.memory.node? b = some n) → ∃ n, t'.memory.node? b = some n := by
    intro i s s' hs ht' hlive
    obtain ⟨rfl, rfl, rfl⟩ | rfl := World.setSet_cases hs ht ht'
    · exact hlive hb
    · exact (hw.sets j _ ht).live_of_linked hb
  cases h with
  | misuse =>
    rw [ht] at ht'
    cases ht'
    exact (hw.sets j t ht).live_of_linked hb
  | sweep _ _ _ _ hs hsheds hdrops =>
    have hsound := hw.sets _ _ hs
    have hsw := hsound.swept hsheds hdrops
    refine hset hs ht' fun hb => ?_
    rw [hsw.node? b fun hn => hsound.not_retired_of_linked hb (hsw.subset hn)]
    exact hsound.live_of_linked hb
  | register hs | release _ _ hs | resume _ _ hs =>
    exact hset hs ht' (hw.sets _ _ hs).live_of_linked
  | begin h i lane call offer hx hidle hset' hs hopens hpin =>
    obtain ⟨hsound, -, -, hlinked, -⟩ := hopens.sound (hw.sets _ _ hs)
    exact hset hs ht' fun hb => hsound.live_of_linked (hlinked ▸ hb)
  | goes hrun hx hs hmove hnext | ends hrun hx hs hmove hnext hunpin =>
    obtain ⟨-, hfits, hd, hsound⟩ := hw.top hrun hx hs
    exact hset hs ht' (hmove.live_of_linked hsound hfits hd)

/-- Only a step of an operation marks a node. -/
theorem marked_back (h : Passage w a o) (ha : a ≠ .proceed) {j : Nat} {t t' : SharedSet κ ν}
    (ht : w.sets[j]? = some t) (ht' : o.world.sets[j]? = some t') {b : Address}
    (hb : t'.Marked b) : t.Marked b := by
  have hset : ∀ {i : Nat} {s s' : SharedSet κ ν}, w.sets[i]? = some s →
      (w.setSet i s').sets[j]? = some t' → (s'.Marked b → s.Marked b) → t.Marked b := by
    intro i s s' hs ht' hback
    obtain ⟨rfl, rfl, rfl⟩ | rfl := World.setSet_cases hs ht ht'
    · exact hback hb
    · exact hb
  cases h with
  | misuse =>
    rw [ht] at ht'
    cases ht'
    exact hb
  | sweep _ _ _ _ hs hsheds hdrops => exact hset hs ht' fun hb => SharedSet.marked_drops hdrops hb
  | register hs | release _ _ hs | resume _ _ hs => exact hset hs ht' fun hb => hb
  | begin h i lane call offer hx hidle hset' hs hopens hpin =>
    refine hset hs ht' fun hb => ?_
    obtain ⟨n, hn, hm⟩ := hb
    cases hopens with
    | plain => exact ⟨n, hn, hm⟩
    | @insert key value m c hbirth =>
      rw [show m.node? b = _ from hbirth.node? b] at hn
      split at hn
      · cases hn
        cases hm
      · exact ⟨n, hn, hm⟩
  | goes | ends => exact absurd rfl ha

end Passage

end MarkedChain
