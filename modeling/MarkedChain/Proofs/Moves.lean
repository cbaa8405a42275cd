import MarkedChain.Proofs.Frames

/-!
# What one step of an operation can do

`Move` lists what a step can come to, one constructor for each way through `Frame.step`, with the
state of the links that decided it and the writes that were made. A frame that fits a sound set
makes one of these moves and is stopped by nothing but a limit (`Frame.step_yields`): every node
that it reads, writes or frees is there.
-/

namespace MarkedChain

variable {κ ν : Type} [Ord κ]

/-- The frame of an insertion is about to link in its node between `pred` and `curr`. -/
inductive Gap (s : SharedSet κ ν) (k : κ) : Point → Place → Option Address → Prop where
  | atEnd {pred} : Gap s k (.inspect pred none) pred none
  | atNode {pred curr next n} (hn : s.memory.node? curr = some n) (hne : compare n.key k ≠ .eq) :
    Gap s k (.judge pred curr next) pred (some curr)

/-- What a task replies that judges a node and leaves the set as it is. -/
def verdict (t : Task κ) (n : Node κ ν) (next : Link Address) : Reply κ ν :=
  match t with
  | .contains k => .contained ((compare n.key k).isEq && !next.marked)
  | .get k => .got (if (compare n.key k).isEq && !next.marked then some n.value else none)
  | .hold k => .held (compare n.key k).isEq
  | .remove _ => .notFound
  | t => Step.closing t

/-- What a step of an operation can come to. -/
inductive Move (s : SharedSet κ ν) (who : Actor) : Frame κ → Stride κ ν → Prop where
  /-- The head link was read. -/
  | start (t) : Move s who ⟨t, .start⟩ (Step.start s who t)
  /-- The walk came to the end of the chain. -/
  | finish (t pred) (ht : t.node? = none) :
    Move s who ⟨t, .inspect pred none⟩ { set := s, next := .ends (Step.closing t) }
  /-- The link of a node was read, and a task that helps found it unmarked and the node linked, as
  far as it has to know. -/
  | look (t pred) {curr n} (hn : s.memory.node? curr = some n)
    (hhelps : s.helps t = true → n.next.marked = false ∧
      (s.scheme.validates = true → s.link? pred = some (.unmarked (some curr)))) :
    Move s who ⟨t, .inspect pred (some curr)⟩ {
      set := s.publish who .succ n.next.target
      next := .goes ⟨t, .encounter pred curr n.next⟩ }
  /-- The link before the node has changed, and the walk starts again. -/
  | stray (t pred) {curr n l} (hn : s.memory.node? curr = some n) (hl : s.link? pred = some l)
    (hne : l ≠ .unmarked (some curr)) (hhelps : s.helps t = true) :
    Move s who ⟨t, .inspect pred (some curr)⟩ (Step.again (s.publish who .succ n.next.target) t)
  /-- The link before a marked node has changed, and the walk goes on from the new one. -/
  | follow (t pred) {curr n l} (hn : s.memory.node? curr = some n) (hm : n.next.marked = true)
    (hl : s.link? pred = some l) (hne : l ≠ .unmarked (some curr)) (hlm : l.marked = false)
    (hhelps : s.helps t = true) :
    Move s who ⟨t, .inspect pred (some curr)⟩ {
      set := (s.publish who .succ n.next.target).publish who .curr l.target
      retries := 1
      next := .goes ⟨t, .inspect pred l.target⟩ }
  /-- A marked node was unlinked and retired, and the walk goes on behind it. -/
  | clear (t pred) {curr n s' drops} (hn : s.memory.node? curr = some n)
    (hm : n.next.marked = true) (hl : s.link? pred = some (.unmarked (some curr)))
    (hclears : (s.publish who .succ n.next.target).Clears s' curr drops)
    (hticks : s.scheme.Ticks s'.scheme (s.scheme.due who.record)) (hhelps : s.helps t = true) :
    Move s who ⟨t, .inspect pred (some curr)⟩ {
      set := s'.transfer who .succ .curr
      drops
      next := .goes ⟨t, .inspect pred n.next.target⟩ }
  /-- A node was met, and the walk passes on. -/
  | pass {t t'} (pred) {curr n} (next) (hn : s.memory.node? curr = some n)
    (hpass : t.pass? n.key next.marked = some t') :
    Move s who ⟨t, .encounter pred curr next⟩ {
      set := (s.transfer who .curr .pred).transfer who .succ .curr
      next := .goes ⟨t', .inspect (.node curr) next.target⟩ }
  /-- A node was met, and the walk stops there. -/
  | stop {t} (pred) {curr n} (next) (hn : s.memory.node? curr = some n)
    (hpass : t.pass? n.key next.marked = none) :
    Move s who ⟨t, .encounter pred curr next⟩ (Step.atNode s t pred curr next)
  /-- An insertion found its key and dropped its node. -/
  | reject {fresh key} (pred) {curr n n₀} (next) {m} (hn : s.memory.node? curr = some n)
    (heq : compare n.key key = .eq) (hn₀ : s.memory.node? fresh = some n₀)
    (hdrops : s.memory.Drops m [fresh]) :
    Move s who ⟨.insert fresh key, .judge pred curr next⟩ {
      set := { s with memory := m }
      drops := [n₀.value]
      next := .ends .alreadyPresent }
  /-- An insertion linked in its node. -/
  | insert {fresh key p pred x s₁ s₂} (hgap : Gap s key p pred x)
    (hprepare : s.Relinks s₁ (.node fresh) (.unmarked x))
    (hl : s₁.link? pred = some (.unmarked x))
    (hwrite : s₁.Relinks s₂ pred (.unmarked (some fresh))) :
    Move s who ⟨.insert fresh key, p⟩ { set := s₂, next := .ends .inserted }
  /-- An insertion found that the link had changed. -/
  | retry {fresh key p pred x s₁ l} (hgap : Gap s key p pred x)
    (hprepare : s.Relinks s₁ (.node fresh) (.unmarked x))
    (hl : s₁.link? pred = some l) (hne : l ≠ .unmarked x) :
    Move s who ⟨.insert fresh key, p⟩ (Step.again s₁ (.insert fresh key))
  /-- A removal found that its node had been removed meanwhile. -/
  | beaten {key} (pred) {curr n} (next) (hn : s.memory.node? curr = some n)
    (heq : compare n.key key = .eq) (hm : n.next.marked = true) :
    Move s who ⟨.remove key, .judge pred curr next⟩ (Step.again s (.remove key))
  /-- A removal marked its node and has to come back to unlink it. -/
  | mark {key} (pred) {curr n} (next) {s₁ l} (hn : s.memory.node? curr = some n)
    (heq : compare n.key key = .eq) (hm : n.next.marked = false)
    (hmark : s.Relinks s₁ (.node curr) (n.next.setMark true))
    (hl : s₁.link? pred = some l) (hne : l ≠ .unmarked (some curr)) :
    Move s who ⟨.remove key, .judge pred curr next⟩ (Step.again s₁ (.unlink key))
  /-- A removal marked its node and unlinked it. -/
  | remove {key} (pred) {curr n} (next) {s₁ s₂ drops} (hn : s.memory.node? curr = some n)
    (heq : compare n.key key = .eq) (hm : n.next.marked = false)
    (hmark : s.Relinks s₁ (.node curr) (n.next.setMark true))
    (hl : s₁.link? pred = some (.unmarked (some curr))) (hclears : s₁.Clears s₂ curr drops)
    (hticks : s.scheme.Ticks s₂.scheme (s.scheme.due who.record)) :
    Move s who ⟨.remove key, .judge pred curr next⟩ { set := s₂, drops, next := .ends .removed }
  /-- A node was judged, and the set stays as it is. -/
  | tell {t} (pred) {curr n} (next) (hn : s.memory.node? curr = some n) (ht : t.node? = none)
    (hne : ∀ k, t = .remove k → compare n.key k ≠ .eq) :
    Move s who ⟨t, .judge pred curr next⟩ { set := s, next := .ends (verdict t n next) }

variable {s : SharedSet κ ν} {who : Actor} {own : List Address}

namespace SharedSet

/-- Publishing is a change of the own record. -/
theorem Sound.publish (hs : s.Sound own) (hd : s.scheme.depth? who.record = some 1) (slot : Slot)
    (x : Option Address) : (s.publish who slot x).Sound own :=
  hs.touch (Scheme.publish_touches _ _ _ _) (hs.scheme.publish hd slot x)

theorem Sound.transfer (hs : s.Sound own) (hd : s.scheme.depth? who.record = some 1)
    (source target : Slot) : (s.transfer who source target).Sound own :=
  hs.touch (Scheme.transfer_touches _ _ _ _) (hs.scheme.transfer hd source target)

end SharedSet

namespace Step

/-! ## The walk -/

/-- The link before a marked node was read when it was expected to lead to the node. -/
theorem help_yields {t : Task κ} {pred : Place} {curr : Address} {n : Node κ ν}
    (hs : s.Sound own) (hd : s.scheme.depth? who.record = some 1)
    (hpred : ∀ a, pred = .node a → s.Held who.record .pred a)
    (hn : s.memory.node? curr = some n) (hm : n.next.marked = true) (hhelps : s.helps t = true) :
    Yields (help (s.publish who .succ n.next.target) who t pred curr n.next.target)
      (Move s who ⟨t, .inspect pred (some curr)⟩) := by
  obtain ⟨l, hl⟩ := hs.link?_of_held hpred
  have hs₁ := hs.publish hd .succ n.next.target
  have hl₁ : (s.publish who .succ n.next.target).link? pred = some l := hl
  have hn₁ : (s.publish who .succ n.next.target).memory.node? curr = some n := hn
  rw [help]
  refine (SharedSet.exchange_yields hl₁ _ _).bind ?_
  rintro ⟨x, s₂⟩ (⟨rfl, rfl, hrel⟩ | ⟨hne, rfl, rfl⟩)
  · have hon : (s.publish who .succ n.next.target).OnChain pred :=
      hs.onChain_of_unmarked hpred hl rfl
    dsimp only
    refine (hs₁.retire_yields hon hl₁ hn₁ hm hrel who.record who.lane).bind ?_
    rintro ⟨drops, s₃⟩ ⟨hclears, hticks⟩
    refine .pure (.clear t pred hn hm hl hclears ?_ hhelps)
    rw [SharedSet.publish, Scheme.due_publish] at hticks
    exact hticks.of_publish
  · dsimp only
    split
    · exact .pure (.stray t pred hn hl hne hhelps)
    · next hlm => exact .pure (.follow t pred hn hm hl hne (by simpa using hlm) hhelps)

theorem inspect_yields {t : Task κ} {pred : Place} {curr : Address} (hs : s.Sound own)
    (hd : s.scheme.depth? who.record = some 1)
    (hpred : ∀ a, pred = .node a → s.Held who.record .pred a)
    (hcurr : s.Held who.record .curr curr) :
    Yields (inspect s who t pred curr) (Move s who ⟨t, .inspect pred (some curr)⟩) := by
  obtain ⟨n, hn⟩ := hs.live_of_held hcurr
  obtain ⟨l, hl⟩ := hs.link?_of_held hpred
  have hstill : ∀ x, Yields ((s.publish who .succ x).stillLinked pred curr) fun b =>
      (b = true → s.scheme.validates = true → l = .unmarked (some curr)) ∧
        (b = false → l ≠ .unmarked (some curr)) := by
    intro x
    have hl' : (s.publish who .succ x).link? pred = some l := hl
    have hv : (s.publish who .succ x).scheme.validates = s.scheme.validates :=
      (Scheme.publish_touches _ _ _ _).validates
    rw [SharedSet.stillLinked, hv]
    split
    · rw [SharedSet.link_eq hl']
      refine .pure ⟨?_, ?_⟩
      · intro h _
        simpa using h
      · intro h
        simpa using h
    · next hv => exact .ok ⟨fun _ h => absurd h hv, by simp⟩
  have hhelps : ∀ x, (s.publish who .succ x).helps t = s.helps t := fun x =>
    SharedSet.helps_congr (Scheme.publish_touches _ _ _ _).validates t
  rw [inspect]
  refine (Memory.read_yields hn).bind ?_
  rintro _ rfl
  dsimp only
  rw [hhelps]
  split
  · next hh =>
    refine (hstill _).bind ?_
    intro b hb
    cases b with
    | true =>
      simp only [if_true]
      split
      · next hm => exact help_yields hs hd hpred hn hm hh
      · next hm =>
        refine .pure (.look t pred hn fun _ => ⟨by simpa using hm, ?_⟩)
        intro hv
        rw [hl, hb.1 rfl hv]
    | false => exact .pure (.stray t pred hn hl (hb.2 rfl) hh)
  · next hh => exact .pure (.look t pred hn fun h => absurd h hh)

theorem encounter_yields {t : Task κ} {pred : Place} {curr : Address} {next : Link Address}
    (hs : s.Sound own) (hcurr : s.Held who.record .curr curr) :
    Yields (encounter s who t pred curr next) (Move s who ⟨t, .encounter pred curr next⟩) := by
  obtain ⟨n, hn⟩ := hs.live_of_held hcurr
  rw [encounter]
  refine (Memory.read_yields hn).bind ?_
  rintro _ rfl
  split
  · next hpass => exact .pure (.pass pred next hn hpass)
  · next hpass => exact .pure (.stop pred next hn hpass)

/-! ## The writes that change the contents -/

theorem linkIn_yields {fresh : Address} {key : κ} {p : Point} {pred : Place} {x : Option Address}
    (hs : s.Sound own) (hfresh : ∃ n, s.memory.node? fresh = some n)
    (hpred : ∀ a, pred = .node a → s.Held who.record .pred a) (hgap : Gap s key p pred x) :
    Yields (linkIn s (.insert fresh key) fresh pred x) (Move s who ⟨.insert fresh key, p⟩) := by
  obtain ⟨n₀, hn₀⟩ := hfresh
  obtain ⟨l₀, hl₀⟩ := hs.link?_of_held hpred
  have hlink : s.link? (.node fresh) = some n₀.next := by simp [SharedSet.link?, hn₀]
  obtain ⟨s₁, hset, hprepare⟩ := SharedSet.setLink_relinks hlink (.unmarked x)
  obtain ⟨l, hl⟩ : ∃ l, s₁.link? pred = some l := by
    cases pred with
    | head => exact ⟨_, rfl⟩
    | node a =>
      have hlive := hprepare.isSome_node? a
      obtain ⟨n, hn, -⟩ := Option.map_eq_some_iff.1 hl₀
      rw [hn] at hlive
      obtain ⟨n', hn'⟩ := Option.isSome_iff_exists.1 hlive
      exact ⟨n'.next, by simp [SharedSet.link?, hn']⟩
  rw [linkIn]
  refine .ok_bind hset ?_
  refine (SharedSet.exchange_yields hl _ _).bind ?_
  rintro ⟨e, s₂⟩ (⟨rfl, rfl, hwrite⟩ | ⟨hne, rfl, rfl⟩)
  · exact .pure (.insert hgap hprepare hl hwrite)
  · exact .pure (.retry hgap hprepare hl hne)

theorem takeOut_yields {key : κ} {pred : Place} {curr : Address} {next : Link Address}
    {n : Node κ ν} (hs : s.Sound own) (hpred : ∀ a, pred = .node a → s.Held who.record .pred a)
    (hcurr : s.Held who.record .curr curr) (hn : s.memory.node? curr = some n)
    (heq : compare n.key key = .eq) :
    Yields (takeOut s who key pred curr) (Move s who ⟨.remove key, .judge pred curr next⟩) := by
  have hlink : s.link? (.node curr) = some n.next := by simp [SharedSet.link?, hn]
  rw [takeOut]
  refine .ok_bind (SharedSet.link_eq hlink) ?_
  split
  · next hm => exact .pure (.beaten pred next hn heq hm)
  · next hm =>
    have hm : n.next.marked = false := by simpa using hm
    refine (SharedSet.exchange_yields hlink _ _).bind ?_
    rintro ⟨e, s₁⟩ (⟨-, rfl, hmark⟩ | ⟨hne, -, -⟩)
    · dsimp only
      have hlinked : curr ∈ s.linked := hs.linked_of_held hcurr hn hm
      obtain ⟨hchain, hs₁, hresp⟩ := hs.rewrite hn hm hmark (fun _ => rfl)
        fun h => absurd h (hs.not_own_of_linked hlinked)
      have hpred₁ : ∀ a, pred = .node a → s₁.Held who.record .pred a :=
        fun a ha => hresp.held _ (by simp) _ _ (hpred a ha)
      obtain ⟨l, hl⟩ := hs₁.link?_of_held hpred₁
      refine (SharedSet.exchange_yields hl _ _).bind ?_
      rintro ⟨e, s₂⟩ (⟨rfl, rfl, hrel⟩ | ⟨hne, rfl, rfl⟩)
      · dsimp only
        have hon := hs₁.onChain_of_unmarked hpred₁ hl rfl
        rw [Link.eq_unmarked hm] at hrel
        refine (hs₁.retire_yields hon hl (hmark.node?_self hn) rfl hrel who.record who.lane).bind ?_
        rintro ⟨drops, s₃⟩ ⟨hclears, hticks⟩
        rw [hmark.scheme] at hticks
        exact .pure (.remove pred next hn heq hm hmark hl hclears hticks)
      · exact .pure (.mark pred next hn heq hm hmark hl hne)
    · exact absurd rfl hne

/-! ## Where a walk ends -/

theorem judge_yields {t : Task κ} {pred : Place} {curr : Address} {next : Link Address}
    (hs : s.Sound own) (hfresh : ∀ a, t.node? = some a → ∃ n, s.memory.node? a = some n)
    (hpred : ∀ a, pred = .node a → s.Held who.record .pred a)
    (hcurr : s.Held who.record .curr curr) :
    Yields (judge s who t pred curr next) (Move s who ⟨t, .judge pred curr next⟩) := by
  obtain ⟨n, hn⟩ := hs.live_of_held hcurr
  rw [judge]
  refine (Memory.read_yields hn).bind ?_
  rintro _ rfl
  cases t with
  | insert fresh key =>
    obtain ⟨n₀, hn₀⟩ := hfresh fresh rfl
    dsimp only
    split
    · next heq =>
      have hfree : Yields (s.freeAll who.lane [fresh]) fun p =>
          ∃ m, s.memory.Drops m [fresh] ∧ p = ([n₀.value], { s with memory := m }) := by
        refine (Memory.freeAll_yields who.lane hs.tidy (by simp) ?_).bind ?_
        · intro a ha
          rw [List.mem_singleton.1 ha, hn₀]
          rfl
        · rintro ⟨values, m⟩ ⟨hvalues, hdrops⟩
          refine .pure ⟨m, hdrops, ?_⟩
          dsimp only at hvalues
          rw [hvalues]
          simp [hn₀]
      refine hfree.bind ?_
      rintro _ ⟨m, hdrops, rfl⟩
      exact .pure (.reject pred next hn (by simpa using heq) hn₀ hdrops)
    · next hne =>
      exact linkIn_yields hs ⟨n₀, hn₀⟩ hpred (.atNode hn (by simpa using hne))
  | remove key =>
    dsimp only
    split
    · next heq => exact takeOut_yields hs hpred hcurr hn (by simpa using heq)
    · next hne =>
      refine .pure (.tell (t := .remove key) pred next hn rfl ?_)
      intro k hk
      cases hk
      simpa using hne
  | contains k | get k | hold k | unlink k | size _ | isEmpty | keys _ =>
    exact .pure (.tell pred next hn rfl (by simp))

theorem atEnd_yields {t : Task κ} {pred : Place} (hs : s.Sound own)
    (hfresh : ∀ a, t.node? = some a → ∃ n, s.memory.node? a = some n)
    (hpred : ∀ a, pred = .node a → s.Held who.record .pred a) :
    Yields (atEnd s t pred) (Move s who ⟨t, .inspect pred none⟩) := by
  cases t with
  | insert fresh key => exact linkIn_yields hs (hfresh fresh rfl) hpred .atEnd
  | _ => exact .ok (.finish _ pred rfl)

end Step

/-- A frame that fits makes one of the moves. -/
theorem Frame.step_yields {f : Frame κ} (hs : s.Sound own) (hf : f.Fits s who.record)
    (hd : s.scheme.depth? who.record = some 1) (hown : f.own ⊆ own) :
    Yields (f.step s who) (Move s who f) := by
  have hfresh : ∀ a, f.task.node? = some a → ∃ n, s.memory.node? a = some n :=
    fun a ha => hs.live_of_own (hown (by simp [Frame.own, ha]))
  have hpoint := hf.point
  obtain ⟨t, p⟩ := f
  cases p with
  | start => exact .ok (.start t)
  | inspect pred curr =>
    obtain ⟨hpred, hcurr⟩ := hpoint
    cases curr with
    | none => exact Step.atEnd_yields hs hfresh hpred.held
    | some curr => exact Step.inspect_yields hs hd hpred.held (hcurr curr rfl)
  | encounter pred curr next => exact Step.encounter_yields hs hpoint.2.1
  | judge pred curr next => exact Step.judge_yields hs hfresh hpoint.1.held hpoint.2.1

end MarkedChain
