import MarkedChain.Proofs.Moves

/-!
# What one step of an operation leaves behind

Whichever move an operation makes, the set stays sound (`Move.sound`), the others find all that they
rely on (`Move.keeps`), and the frame that the operation goes on with fits again (`Move.fits`).
-/

namespace MarkedChain

variable {κ ν : Type}

namespace SharedSet

/-- What a step of the holder of a record leaves to all others, and to itself where a record covers
whatever there is. -/
structure Keeps (s s' : SharedSet κ ν) (r : Nat) : Prop where
  respects : s.Respects s' (some r)
  unborn : s.Unborn s'
  depth? : s'.scheme.depth? r = s.scheme.depth? r
  taken? : s'.scheme.taken? r = s.scheme.taken? r
  kept : s.scheme.validates = false → ∀ slot a, s.Held r slot a → s'.Held r slot a

namespace Keeps

variable {s s' s'' : SharedSet κ ν} {r : Nat}

theorem refl (s : SharedSet κ ν) (r : Nat) : s.Keeps s r :=
  ⟨.refl s _, fun _ h => h, rfl, rfl, fun _ _ _ h => h⟩

theorem trans (h : s.Keeps s' r) (h' : s'.Keeps s'' r) : s.Keeps s'' r where
  respects := h.respects.trans h'.respects h'.unborn
  unborn := h.unborn.trans h'.unborn
  depth? := h'.depth?.trans h.depth?
  taken? := h'.taken?.trans h.taken?
  kept hv slot a ha := h'.kept (h.respects.validates.trans hv) slot a (h.kept hv slot a ha)

/-- Where a record covers whatever there is, a step leaves to each record what it holds. -/
theorem held (h : s.Keeps s' r) (hv : s.scheme.validates = false) {r' : Nat} {slot : Slot}
    {a : Address} (ha : s.Held r' slot a) : s'.Held r' slot a := by
  by_cases hr : r = r'
  · subst hr
    exact h.kept hv slot a ha
  · exact h.respects.held r' (fun h => hr (Option.some.inj h)) slot a ha

/-- What nobody in particular did, the holder of a record may have done. -/
theorem of_none (h : s.Respects s' none) (hu : s.Unborn s') : s.Keeps s' r where
  respects := h.of_none _
  unborn := hu
  depth? := h.depth? r (by simp)
  taken? := h.taken? r (by simp)
  kept _ := h.held r (by simp)

theorem publish (s : SharedSet κ ν) (who : Actor) (slot : Slot) (x : Option Address) :
    s.Keeps (s.publish who slot x) who.record where
  respects := respects_touch (Scheme.publish_touches _ _ _ _)
  unborn _ h := h
  depth? := Scheme.publish_depth? _ _ _ _ _
  taken? := Scheme.publish_taken? _ _ _ _ _
  kept hv slot' a ha := by
    rw [SharedSet.publish, Scheme.publish_of_epochs hv]
    exact ha

theorem transfer (s : SharedSet κ ν) (who : Actor) (source target : Slot) :
    s.Keeps (s.transfer who source target) who.record where
  respects := respects_touch (Scheme.transfer_touches _ _ _ _)
  unborn _ h := h
  depth? := Scheme.transfer_depth? _ _ _ _ _
  taken? := Scheme.transfer_taken? _ _ _ _ _
  kept hv slot' a ha := by
    rw [SharedSet.transfer, Scheme.transfer_of_epochs hv]
    exact ha

end Keeps

variable {s : SharedSet κ ν} {who : Actor}

/-! ## What a record holds after publishing -/

theorem publish_held_of_ne {slot slot' : Slot} {a : Address} (ha : s.Held who.record slot' a)
    (hne : slot' ≠ slot) (x : Option Address) : (s.publish who slot x).Held who.record slot' a := by
  obtain ⟨y, hy, hya, hc⟩ := ha
  exact ⟨y, dated_touch (Scheme.publish_touches _ _ _ _) hy, hya,
    Scheme.publish_covers_of_ne hc hne x⟩

theorem transfer_held {source : Slot} {a : Address} (ha : s.Held who.record source a)
    (target : Slot) : (s.transfer who source target).Held who.record target a := by
  obtain ⟨y, hy, hya, hc⟩ := ha
  exact ⟨y, dated_touch (Scheme.transfer_touches _ _ _ _) hy, hya, Scheme.transfer_covers hc target⟩

theorem transfer_held_of_ne {slot source target : Slot} {a : Address}
    (ha : s.Held who.record slot a) (hne : slot ≠ target) :
    (s.transfer who source target).Held who.record slot a := by
  obtain ⟨y, hy, hya, hc⟩ := ha
  exact ⟨y, dated_touch (Scheme.transfer_touches _ _ _ _) hy, hya,
    Scheme.transfer_covers_of_ne hc hne⟩

theorem Reaches.publish [Ord κ] {t : Task κ} {pred : Place} (h : s.Reaches who.record t pred)
    {slot : Slot} (hne : .pred ≠ slot) (x : Option Address) :
    (s.publish who slot x).Reaches who.record t pred :=
  fun a ha => ⟨publish_held_of_ne (h a ha).1 hne x, (h a ha).2⟩

theorem Reaches.transfer [Ord κ] {t : Task κ} {pred : Place} (h : s.Reaches who.record t pred)
    {source target : Slot} (hne : .pred ≠ target) :
    (s.transfer who source target).Reaches who.record t pred :=
  fun a ha => ⟨transfer_held_of_ne (h a ha).1 hne, (h a ha).2⟩

variable [Ord κ] {own : List Address}

/-- A node of the chain is held once it is published. -/
theorem Sound.publish_held (hs : s.Sound own) (hd : s.scheme.depth? who.record = some 1)
    {a : Address} (ha : a ∈ s.linked) (slot : Slot) :
    (s.publish who slot (some a)).Held who.record slot a :=
  ⟨⟨a, s.scheme.stamp⟩, dated_touch (Scheme.publish_touches _ _ _ _) (.of_linked ha), rfl,
    hs.scheme.publish_covers hd slot a⟩

/-- The next node is held once it is published, if the current one was found to be linked or if
nothing had to be found out. -/
theorem Sound.publish_next (hs : s.Sound own) (hd : s.scheme.depth? who.record = some 1)
    {curr b : Address} {n : Node κ ν} (hcurr : s.Held who.record .curr curr)
    (hn : s.memory.node? curr = some n) (hb : n.next.target = some b)
    (hlinked : s.scheme.validates = true → curr ∈ s.linked) :
    (s.publish who .succ (some b)).Held who.record .succ b := by
  cases hv : s.scheme.validates with
  | true =>
    refine hs.publish_held hd ?_ .succ
    exact hs.linked_of_next (hlinked hv) hn hb
  | false => exact (Keeps.publish s who .succ _).kept hv _ _ (hs.held_next hcurr hn hb hv .succ)

end SharedSet

/-! ## The set after a move -/

/-- The nodes that an operation has made and not yet linked, after a step. -/
def Next.own : Next κ ν → List Address
  | .goes f => f.own
  | .ends _ => []

variable [Ord κ] {s s₁ s₂ : SharedSet κ ν} {who : Actor} {f : Frame κ} {st : Stride κ ν}
  {own : List Address}

/-- Behind the gap at which an insertion stands there is a greater key, if anything. -/
theorem Gap.over [Std.TransOrd κ] {r : Nat} {t : Task κ} {k : κ} {p : Point} {pred : Place}
    {x : Option Address} (h : Gap s k p pred x) (hp : p.Fits s r t) (hk : t.key? = some k) :
    s.Reaches r t pred ∧ ∀ b, x = some b → s.Held r .curr b ∧ s.Over k b := by
  cases h with
  | atEnd => exact ⟨hp.1, by simp⟩
  | atNode hn hne =>
    obtain ⟨hpred, hcurr, -, hkey⟩ := hp
    refine ⟨hpred, ?_⟩
    intro b hb
    cases hb
    refine ⟨hcurr, ?_⟩
    intro n' hn'
    rw [hn] at hn'
    cases hn'
    refine Std.OrientedCmp.lt_of_gt ?_
    cases hcmp : compare _ k with
    | lt => exact absurd hcmp (hkey k hk _ hn)
    | eq => exact absurd hcmp hne
    | gt => rfl

/-- The node of an insertion gets another link before it is linked in. -/
theorem SharedSet.Sound.prepare {fresh : Address} (hs : s.Sound (fresh :: own)) {x : Option Address}
    (hrel : s.Relinks s₁ (.node fresh) (.unmarked x)) :
    s₁.linked = s.linked ∧ s₁.Sound (fresh :: own) ∧ s.Respects s₁ none := by
  obtain ⟨n, hn⟩ := hs.live_of_own List.mem_cons_self
  exact hs.rewrite hn (hs.fresh _ List.mem_cons_self n hn) hrel
    (fun h => absurd List.mem_cons_self (hs.not_own_of_linked h)) fun _ => rfl

/-- A node that is held and not marked is on the chain and stays there when it is marked. -/
theorem SharedSet.Sound.mark {r : Nat} {slot : Slot} {curr : Address} {n : Node κ ν}
    (hs : s.Sound own) (hcurr : s.Held r slot curr) (hn : s.memory.node? curr = some n)
    (hm : n.next.marked = false) (hrel : s.Relinks s₁ (.node curr) (n.next.setMark true)) :
    curr ∈ s.linked ∧ s₁.linked = s.linked ∧ s₁.Sound own ∧ s.Respects s₁ none := by
  have hlinked := hs.linked_of_held hcurr hn hm
  exact ⟨hlinked, hs.rewrite hn hm hrel (fun _ => rfl)
    fun h => absurd h (hs.not_own_of_linked hlinked)⟩

/-- The node of an insertion enters the chain where the walk has found a gap for its key. -/
theorem SharedSet.Sound.insert [Std.TransOrd κ] {r : Nat} {fresh : Address} {key : κ} {p : Point}
    {pred : Place} {x : Option Address} (hs : s.Sound (fresh :: own))
    (hf : Frame.Fits s r ⟨.insert fresh key, p⟩) (hgap : Gap s key p pred x)
    (hprepare : s.Relinks s₁ (.node fresh) (.unmarked x))
    (hl : s₁.link? pred = some (.unmarked x))
    (hwrite : s₁.Relinks s₂ pred (.unmarked (some fresh))) :
    (∃ before after, s.linked = before ++ after ∧ s₂.linked = before ++ fresh :: after ∧
      (∀ b ∈ before, s₁.Under key b) ∧ ∀ b ∈ after, s₁.Over key b) ∧
      s₂.Sound own ∧ s₁.Respects s₂ none := by
  obtain ⟨hchain, hs₁, hresp⟩ := hs.prepare hprepare
  obtain ⟨n, hn⟩ := hs.live_of_own List.mem_cons_self
  have hkey : n.key = key := hf.task fresh key rfl n hn
  obtain ⟨hpred, hover⟩ := hgap.over hf.point rfl
  have hpred₁ : s₁.Reaches r (.insert fresh key) pred :=
    hpred.respects hs hresp (hresp.held r (by simp) .pred)
  have hon : s₁.OnChain pred := hs₁.onChain_of_unmarked hpred₁.held hl rfl
  have hover₁ : ∀ b, x = some b → s₁.Over key b := by
    intro b hb n' hn'
    obtain ⟨hheld, hb⟩ := hover b hb
    obtain ⟨n₀, hn₀⟩ := hs.live_of_held hheld
    rw [(hresp.node b n₀ n' hn₀ hn').1]
    exact hb n₀ hn₀
  obtain ⟨⟨before, after, hsplit, hinto, hunder, hafter⟩, hs₂⟩ :=
    hs₁.link hon hl (hprepare.node?_self hn) rfl hwrite (fun b hb => hkey ▸ hpred₁.under rfl b hb)
      fun b hb => hkey ▸ hover₁ b hb
  refine ⟨⟨before, after, hchain ▸ hsplit, hinto, ?_, ?_⟩, hs₂,
    respects_link hl hwrite hsplit hinto⟩
  · exact fun b hb => hkey ▸ hunder b hb
  · exact fun b hb => hkey ▸ hafter b hb

namespace Move

/-- An operation that goes on keeps its own node. -/
theorem own_of_goes (h : Move s who f st) {f' : Frame κ} (hnext : st.next = .goes f') :
    f'.own = f.own ∧ ∀ a k, f'.task = .insert a k → f.task = .insert a k := by
  have hrestart : ∀ (t : Task κ) (p p' : Point),
      Frame.own ⟨t.restart, p⟩ = Frame.own ⟨t, p'⟩ ∧
        ∀ a k, t.restart = .insert a k → t = .insert a k := by
    intro t p p'
    cases t with
    | size _ | keys _ => exact ⟨rfl, by simp [Task.restart]⟩
    | _ => exact ⟨rfl, fun _ _ h => h⟩
  cases h with
  | start t | look t | follow t | clear t => cases hnext; exact ⟨rfl, fun _ _ h => h⟩
  | stray t | retry | beaten => cases hnext; exact hrestart _ _ _
  | mark => cases hnext; exact ⟨rfl, by simp [Task.restart]⟩
  | pass pred next hn hpass =>
    cases hnext
    obtain ⟨hkey, hnode, -, hsame⟩ := Task.pass?_eq_some hpass
    refine ⟨congrArg Option.toList hnode, ?_⟩
    rintro a k rfl
    exact (hsame k hkey.symm).1.symm
  | @stop t pred curr n next hn hpass =>
    cases t <;> cases hnext <;> exact ⟨rfl, fun _ _ h => h⟩
  | finish | reject | insert | remove | tell => cases hnext

/-- Every move keeps the set sound, takes the linked or dropped node of an insertion from its
operation, and leaves to all others what they rely on. -/
theorem sound_keeps [Std.TransOrd κ] (h : Move s who f st) (hs : s.Sound (f.own ++ own))
    (hf : f.Fits s who.record) (hd : s.scheme.depth? who.record = some 1) :
    st.set.Sound (st.next.own ++ own) ∧ s.Keeps st.set who.record := by
  cases h with
  | start t => exact ⟨hs.publish hd _ _, .publish _ _ _ _⟩
  | finish t pred ht =>
    rw [Frame.own, ht] at hs
    exact ⟨hs, .refl _ _⟩
  | look t => exact ⟨hs.publish hd _ _, .publish _ _ _ _⟩
  | stray t =>
    refine ⟨?_, .publish _ _ _ _⟩
    rw [Step.again, Next.own, Frame.own, Task.node?_restart]
    exact hs.publish hd _ _
  | @follow t pred curr n =>
    have hd₁ := ((SharedSet.Keeps.publish s who .succ n.next.target).depth?).trans hd
    have hkeeps := SharedSet.Keeps.publish s who .succ n.next.target
    exact ⟨(hs.publish hd _ _).publish hd₁ _ _, hkeeps.trans (.publish _ _ _ _)⟩
  | @clear t pred curr n s' drops hn hm hl hclears =>
    have hs₁ := hs.publish hd .succ n.next.target
    have hs₂ := hclears.sound hs₁ hn hm
    have hkeeps := (SharedSet.Keeps.publish s who .succ n.next.target).trans
      (.of_none (hclears.respects hs₁ hn hm) hclears.unborn)
    exact ⟨hs₂.transfer (hkeeps.depth?.trans hd) _ _, hkeeps.trans (.transfer _ _ _ _)⟩
  | pass pred next hn hpass =>
    have hd₁ := ((SharedSet.Keeps.transfer s who .curr .pred).depth?).trans hd
    refine ⟨?_, (SharedSet.Keeps.transfer _ _ _ _).trans (.transfer _ _ _ _)⟩
    rw [Next.own, Frame.own, (Task.pass?_eq_some hpass).2.1]
    exact (hs.transfer hd _ _).transfer hd₁ _ _
  | @stop t pred curr n next hn hpass =>
    refine ⟨?_, .refl _ _⟩
    cases t <;> exact hs
  | reject pred next hn heq hn₀ hdrops =>
    obtain ⟨-, hs', hresp⟩ := hs.discard hdrops
    refine ⟨hs', .of_none hresp fun a ha => ?_⟩
    rw [hdrops.node?, ha]
    split <;> rfl
  | @insert fresh key p pred x s₁ s₂ hgap hprepare hl hwrite =>
    obtain ⟨-, -, hresp₁⟩ := SharedSet.Sound.prepare hs hprepare
    obtain ⟨-, hs₂, hresp₂⟩ := SharedSet.Sound.insert hs hf hgap hprepare hl hwrite
    have hkeeps : s.Keeps s₁ who.record := .of_none hresp₁ hprepare.unborn
    exact ⟨hs₂, hkeeps.trans (.of_none hresp₂ hwrite.unborn)⟩
  | retry hgap hprepare hl hne =>
    obtain ⟨-, hs₁, hresp⟩ := SharedSet.Sound.prepare hs hprepare
    exact ⟨hs₁, .of_none hresp hprepare.unborn⟩
  | beaten pred next hn heq hm => exact ⟨hs, .refl _ _⟩
  | mark pred next hn heq hm hmark hl hne =>
    obtain ⟨-, -, hs₁, hresp⟩ := hs.mark hf.point.2.1 hn hm hmark
    exact ⟨hs₁, .of_none hresp hmark.unborn⟩
  | remove pred next hn heq hm hmark hl hclears =>
    obtain ⟨-, -, hs₁, hresp⟩ := hs.mark hf.point.2.1 hn hm hmark
    have hn₁ := hmark.node?_self hn
    exact ⟨hclears.sound hs₁ hn₁ rfl, (SharedSet.Keeps.of_none hresp hmark.unborn).trans
      (.of_none (hclears.respects hs₁ hn₁ rfl) hclears.unborn)⟩
  | tell pred next hn ht hne =>
    rw [Frame.own, ht] at hs
    exact ⟨hs, .refl _ _⟩

/-- The frame that an operation goes on with fits the set after the step. -/
theorem fits [Std.TransOrd κ] (h : Move s who f st) (hs : s.Sound (f.own ++ own))
    (hf : f.Fits s who.record) (hd : s.scheme.depth? who.record = some 1) {f' : Frame κ}
    (hnext : st.next = .goes f') : f'.Fits st.set who.record := by
  obtain ⟨-, hkeeps⟩ := h.sound_keeps hs hf hd
  obtain ⟨-, hinsert⟩ := h.own_of_goes hnext
  refine ⟨fun a k ht n' hn' => ?_, ?_⟩
  · have ht := hinsert a k ht
    obtain ⟨n, hn⟩ := hs.live_of_own (a := a) (by simp [Frame.own, ht, Task.node?])
    rw [(hkeeps.respects.node a n n' hn hn').1]
    exact hf.task a k ht n hn
  have hpoint := hf.point
  cases h with
  | start t =>
    cases hnext
    refine ⟨.head _ _ _, ?_⟩
    intro a ha
    rw [Step.start, ha]
    exact hs.publish_held hd (hs.linked_of_head ha) .curr
  | @look t pred curr n hn hhelps =>
    cases hnext
    obtain ⟨hpred, hcurr⟩ := hpoint
    have hcurr := hcurr curr rfl
    refine ⟨hpred.publish (by decide) _, SharedSet.publish_held_of_ne hcurr (by decide) _,
      fun b hb => ?_, fun hh => (hhelps ?_).1⟩
    · rw [hb]
      refine hs.publish_next hd hcurr hn hb fun hv => ?_
      have hl := (hhelps (by simp [SharedSet.helps, hv])).2 hv
      exact hs.linked_of_link (hs.onChain_of_unmarked hpred.held hl rfl) hl rfl
    · rwa [SharedSet.helps_congr (SharedSet.Keeps.publish s who .succ _).respects.validates] at hh
  | stray t | retry | beaten | mark => cases hnext; trivial
  | @follow t pred curr n l hn hm hl hne hlm =>
    cases hnext
    have hs₁ := hs.publish hd .succ n.next.target
    have hd₁ := ((SharedSet.Keeps.publish s who .succ n.next.target).depth?).trans hd
    refine ⟨(hpoint.1.publish (by decide) _).publish (by decide) _, ?_⟩
    intro b hb
    have hlinked := hs.linked_of_link (hs.onChain_of_unmarked hpoint.1.held hl hlm) hl hb
    rw [hb]
    exact hs₁.publish_held hd₁ hlinked .curr
  | @clear t pred curr n s' drops hn hm hl hclears =>
    cases hnext
    have hs₁ := hs.publish hd .succ n.next.target
    have hresp := hclears.respects hs₁ hn hm
    have hon := hs.onChain_of_unmarked hpoint.1.held hl rfl
    refine ⟨?_, ?_⟩
    · have hpred := (hpoint.1.publish (by decide) _).respects hs₁ hresp
        (hresp.held _ (by simp) .pred)
      exact hpred.transfer (by decide)
    · intro b hb
      refine SharedSet.transfer_held (hresp.held _ (by simp) _ _ ?_) .curr
      rw [hb]
      exact hs.publish_next hd (hpoint.2 curr rfl) hn hb fun _ => hs.linked_of_link hon hl rfl
  | @pass t t' pred curr n next hn hpass =>
    cases hnext
    obtain ⟨hpred, hcurr, hsucc, -⟩ := hpoint
    obtain ⟨hkey, -, -, hsame⟩ := Task.pass?_eq_some hpass
    refine ⟨?_, ?_⟩
    · intro a ha
      cases ha
      refine ⟨SharedSet.transfer_held_of_ne (SharedSet.transfer_held hcurr .pred) (by decide), ?_⟩
      intro k hk n' hn'
      rw [show n' = n from Option.some.inj (hn'.symm.trans hn)]
      exact (hsame k (hkey ▸ hk)).2
    · intro b hb
      exact SharedSet.transfer_held (SharedSet.transfer_held_of_ne (hsucc b hb) (by decide)) .curr
  | @stop t pred curr n next hn hpass =>
    obtain ⟨hpred, hcurr, -, hm⟩ := hpoint
    have hjudge : Point.Fits s who.record t (.judge pred curr next) := by
      refine ⟨hpred, hcurr, hm, ?_⟩
      intro k hk n' hn'
      rw [show n' = n from Option.some.inj (hn'.symm.trans hn)]
      exact Task.pass?_eq_none hpass hk
    cases t <;> cases hnext <;> exact hjudge
  | finish | reject | insert | remove | tell => cases hnext

end Move

end MarkedChain
