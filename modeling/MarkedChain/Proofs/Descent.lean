import MarkedChain.Proofs.Pursuit
import MarkedChain.Proofs.Recency
import MarkedChain.Proofs.Runs

/-!
# A walk comes to greater and greater keys

Every link that a walk can follow leads to a node with a greater key: on the chain, as the chain is
in order, and under epochs also in limbo, where nodes keep the links that they had
(`SharedSet.Orderly`, `Run.orderly`). So the nodes that a walk has before it (`SharedSet.ahead`)
become fewer with every step that is not a retry (`Move.descends`), whatever others have done since
the links were read.
-/

namespace MarkedChain

variable {κ ν : Type} [Ord κ]

namespace SharedSet

variable {s s' : SharedSet κ ν} {own : List Address}

/-! ## Links lead to greater keys -/

/-- A link of the chain leads to a greater key. -/
theorem Sound.below_next (hs : s.Sound own) {a b : Address} {n : Node κ ν} (ha : a ∈ s.linked)
    (hn : s.memory.node? a = some n) (hb : n.next.target = some b) : s.Below a b := by
  obtain ⟨before, after, hsplit⟩ := List.append_of_mem ha
  have hhead := hs.head?_of_split hsplit hn
  rw [hb] at hhead
  have hascending := hs.ascending
  rw [hsplit, List.pairwise_append, List.pairwise_cons] at hascending
  exact hascending.2.1.1 b (List.mem_of_head? hhead)

/-- Under epochs the links of nodes in limbo lead to greater keys. -/
def Orderly (s : SharedSet κ ν) : Prop :=
  s.scheme.validates = false → ∀ a ∈ s.retired, ∀ n b, s.memory.node? a = some n →
    n.next.target = some b → s.Below a b

/-- Under epochs what a node in limbo refers to is on the chain or in limbo. -/
theorem Sound.live_of_target (hs : s.Sound own) (hv : s.scheme.validates = false) {a b : Address}
    {n : Node κ ν} (ha : a ∈ s.retired) (hn : s.memory.node? a = some n)
    (hb : n.next.target = some b) : ∃ m, s.memory.node? b = some m := by
  obtain ⟨x, hx, rfl⟩ := List.mem_map.1 ha
  obtain ⟨y, hy, rfl, -⟩ := hs.closed hv x hx n b hn hb
  exact hs.live_of_dated hy

/-- A node that goes to limbo takes its link with it. -/
theorem Orderly.evolves {window : Option (Place × Address)} (h : s.Orderly) (hs : s.Sound own)
    (hevolves : s.Evolves s' window) : s'.Orderly := by
  intro hv' a ha n' b hn' hb x' y' hx' hy'
  cases hn'.symm.trans hx'
  have hv : s.scheme.validates = false := hevolves.validates.symm.trans hv'
  have hbefore : ∃ n m, s.memory.node? a = some n ∧ s.memory.node? b = some m ∧
      compare n.key m.key = .lt := by
    rcases hevolves.entered a ha with hold | ⟨hlinked, hout⟩
    · obtain ⟨n, hn⟩ := hs.live_of_retired hold
      have hnext := (hevolves.node a n n' hn hn').2.2 (hs.frozen a hold n hn)
      rw [hnext] at hb
      obtain ⟨m, hm⟩ := hs.live_of_target hv hold hn hb
      exact ⟨n, m, hn, hm, h hv a hold n b hn hb n m hn hm⟩
    · obtain ⟨n, hn⟩ := hs.live_of_linked hlinked
      rw [(hevolves.left a hlinked hout).target n n' hn hn'] at hb
      obtain ⟨m, hm⟩ := hs.live_of_linked (hs.linked_of_next hlinked hn hb)
      exact ⟨n, m, hn, hm, hs.below_next hlinked hn hb n m hn hm⟩
  obtain ⟨n, m, hn, hm, hlt⟩ := hbefore
  rw [(hevolves.node a n n' hn hn').1, (hevolves.node b m y' hm hy').1]
  exact hlt

/-- A link leads to a greater key, on the chain or in limbo. Under hazard slots a walk goes on from
unmarked nodes only. -/
theorem Sound.below_read (hs : s.Sound own) (horderly : s.Orderly) {a b : Address} {n : Node κ ν}
    (ha : a ∈ s.linked ∨ a ∈ s.retired) (hn : s.memory.node? a = some n)
    (hb : n.next.target = some b) (hm : s.scheme.validates = true → n.next.marked = false) :
    s.Below a b := by
  rcases ha with hlinked | hretired
  · exact hs.below_next hlinked hn hb
  · refine horderly ?_ a hretired n b hn hb
    -- a node in limbo is marked
    by_contra hv
    have hmarked := hs.frozen a hretired n hn
    rw [hm (by simpa using hv)] at hmarked
    cases hmarked

end SharedSet

/-- In every world of a run the links of nodes in limbo lead to greater keys, under epochs. -/
theorem Run.orderly [Std.TransOrd κ] {kind : Scheme.Kind} {ts : List Tuning}
    {es : List (Event κ ν)} {w : World κ ν} (h : Run (.ofTunings kind ts) es w) {i : Nat}
    {s : SharedSet κ ν} (hs : w.sets[i]? = some s) : s.Orderly := by
  have h₀ := World.sound_ofTunings (κ := κ) (ν := ν) kind ts
  induction h generalizing s with
  | nil =>
    obtain ⟨t, rfl⟩ := World.eq_ofTuning hs
    intro _ a ha
    cases kind <;> cases ha
  | @snoc es w a o h hstep ih =>
    have hw := h.sound h₀ h.worldAt_last
    have hp := (World.step_settles hw _).of_ok hstep
    obtain ⟨s₀, hs₀⟩ := hp.exists_set hs
    obtain ⟨t, ht, hevolves⟩ := hp.evolves hw hs₀
    cases ht.symm.trans hs
    exact (ih hs₀).evolves (hw.sets i s₀ hs₀) hevolves

/-! ## What is before a walk -/

namespace SharedSet

/-- The nodes, on the chain or in limbo, that have no smaller key than a node. -/
def ahead (s : SharedSet κ ν) : Option Address → List Address
  | none => []
  | some a => (s.linked ++ s.retired).filter fun b =>
    (s.memory.node? a).any fun n => (s.memory.node? b).any fun m => (compare n.key m.key).isLE

variable {s s' : SharedSet κ ν} {own : List Address} {a b : Address}

theorem mem_ahead : b ∈ s.ahead (some a) ↔ (b ∈ s.linked ∨ b ∈ s.retired) ∧
    ∃ n m, s.memory.node? a = some n ∧ s.memory.node? b = some m ∧
      (compare n.key m.key).isLE = true := by
  simp only [ahead, List.mem_filter, List.mem_append, Option.any_eq_true]
  refine and_congr_right fun _ => ?_
  constructor
  · rintro ⟨n, hn, m, hm, hle⟩
    exact ⟨n, m, hn, hm, hle⟩
  · rintro ⟨n, m, hn, hm, hle⟩
    exact ⟨n, hn, m, hm, hle⟩

theorem Sound.nodup_ahead (hs : s.Sound own) (x : Option Address) : (s.ahead x).Nodup := by
  cases x with
  | none => exact List.nodup_nil
  | some a =>
    have hnodup := hs.nodup
    rw [← List.append_assoc] at hnodup
    exact (List.nodup_append.1 hnodup).1.filter _

theorem length_ahead_le (s : SharedSet κ ν) (x : Option Address) :
    (s.ahead x).length ≤ s.linked.length + s.retired.length := by
  cases x with
  | none => exact Nat.zero_le _
  | some a => exact Nat.le_trans (List.length_filter_le _ _) (by simp)

variable [Std.TransOrd κ]

/-- A node whose link leads to a greater key has more nodes before it than what it leads to. -/
theorem Sound.ahead_lt (hs : s.Sound own) {n : Node κ ν} (ha : a ∈ s.linked ∨ a ∈ s.retired)
    (hn : s.memory.node? a = some n) {x : Option Address}
    (hbelow : ∀ b, x = some b → s.Below a b) :
    (s.ahead x).length < (s.ahead (some a)).length := by
  have hself : a ∈ s.ahead (some a) := mem_ahead.2 ⟨ha, n, n, hn, hn, by simp⟩
  cases x with
  | none => exact List.length_pos_of_mem hself
  | some b =>
    have hout : a ∉ s.ahead (some b) := by
      intro hmem
      obtain ⟨-, m, n', hm, hn', hle⟩ := mem_ahead.1 hmem
      cases hn.symm.trans hn'
      have hlt := hbelow b rfl n m hn hm
      rw [Std.OrientedCmp.gt_of_lt hlt] at hle
      cases hle
    have hsub : a :: s.ahead (some b) ⊆ s.ahead (some a) := by
      intro c hc
      rcases List.mem_cons.1 hc with rfl | hc
      · exact hself
      · obtain ⟨hplace, m, k, hm, hk, hle⟩ := mem_ahead.1 hc
        have hlt := hbelow b rfl n m hn hm
        exact mem_ahead.2 ⟨hplace, n, k, hn, hk,
          Std.TransCmp.isLE_trans (by rw [hlt]; rfl) hle⟩
    exact ((List.nodup_cons.2 ⟨hout, hs.nodup_ahead _⟩).subperm hsub).length_le

omit [Std.TransOrd κ] in
/-- Records have nothing to do with what is before a node. -/
theorem ahead_touch {r : Nat} {sch : Scheme Address} (h : s.scheme.Touches sch r)
    (x : Option Address) : ({ s with scheme := sch } : SharedSet κ ν).ahead x = s.ahead x := by
  have hretired : ({ s with scheme := sch } : SharedSet κ ν).retired = s.retired := by
    simp only [retired, h.limbo]
  cases x with
  | none => rfl
  | some a =>
    rw [ahead, ahead, hretired]
    rfl

omit [Std.TransOrd κ] in
/-- When a node leaves the chain, no more are before another one than there were. -/
theorem Clears.ahead_le {curr : Address} {drops : List ν} {n : Node κ ν}
    (h : s.Clears s' curr drops) (hs : s.Sound own) (hn : s.memory.node? curr = some n)
    (hm : n.next.marked = true) (x : Option Address) :
    (s'.ahead x).length ≤ (s.ahead x).length := by
  cases x with
  | none => exact Nat.le_refl _
  | some a =>
    have hs' := h.sound hs hn hm
    have hresp := h.respects hs hn hm
    obtain ⟨before, rest, hsplit, hrest⟩ := h.linked hs hn hm
    have hback : ∀ {c : Address} {m : Node κ ν}, s'.memory.node? c = some m →
        ∃ m', s.memory.node? c = some m' ∧ m.key = m'.key := by
      intro c m hc
      cases hc' : s.memory.node? c with
      | none =>
        rw [h.unborn c hc'] at hc
        cases hc
      | some m' => exact ⟨m', rfl, (hresp.node c m' m hc' hc).1⟩
    refine ((hs'.nodup_ahead _).subperm fun b hb => ?_).length_le
    obtain ⟨hplace, k, m, hk, hm', hle⟩ := mem_ahead.1 hb
    obtain ⟨k₀, hk₀, hkey⟩ := hback hk
    obtain ⟨m₀, hm₀, hkey'⟩ := hback hm'
    refine mem_ahead.2 ⟨?_, k₀, m₀, hk₀, hm₀, hkey ▸ hkey' ▸ hle⟩
    rcases hplace with hlinked | hretired
    · refine .inl ?_
      rw [hrest] at hlinked
      rw [hsplit]
      simp only [List.mem_append, List.mem_cons] at hlinked ⊢
      exact hlinked.imp id .inr
    · rcases h.retired hs hn hm b hretired with hold | rfl
      · exact .inr hold
      · exact .inl (by simp [hsplit])

end SharedSet

/-- A bound on the steps that are left without a retry. Each node before the walk takes two. -/
def Point.height (s : SharedSet κ ν) : Point → Nat
  | .start => 2 * (s.linked.length + s.retired.length) + 2
  | .inspect _ curr => 2 * (s.ahead curr).length + 1
  | .encounter _ _ next => 2 * (s.ahead next.target).length + 2
  | .judge .. => 0

/-- A step that is no retry brings the walk nearer to its end. -/
theorem Move.descends [Std.TransOrd κ] {s : SharedSet κ ν} {own : List Address} {who : Actor}
    {f f' : Frame κ} {st : Stride κ ν} (h : Move s who f st) (hs : s.Sound (f.own ++ own))
    (hf : f.Fits s who.record) (hd : s.scheme.depth? who.record = some 1) (horderly : s.Orderly)
    (hnext : st.next = .goes f') (hretries : st.retries = 0) :
    f'.point.height st.set < f.point.height s := by
  have hpublish : ∀ (t : SharedSet κ ν) slot x y, (t.publish who slot x).ahead y = t.ahead y :=
    fun _ _ _ y => SharedSet.ahead_touch (Scheme.publish_touches _ _ _ _) y
  have htransfer : ∀ (t : SharedSet κ ν) slot slot' y,
      (t.transfer who slot slot').ahead y = t.ahead y :=
    fun _ _ _ y => SharedSet.ahead_touch (Scheme.transfer_touches _ _ _ _) y
  cases h with
  | start t =>
    cases hnext
    have hle := s.length_ahead_le s.head.target
    simp only [Point.height, Step.start, hpublish]
    omega
  | @look t pred curr n hn hhelps =>
    cases hnext
    obtain ⟨x, hx, hnode, -⟩ := hf.point.2 curr rfl
    have hplace : curr ∈ s.linked ∨ curr ∈ s.retired := hnode ▸ hx.place
    have hlt := hs.ahead_lt hplace hn (x := n.next.target) fun b hb =>
      hs.below_read horderly hplace hn hb fun hv => (hhelps (by simp [SharedSet.helps, hv])).1
    simp only [Point.height, hpublish]
    omega
  | @clear t pred curr n s' drops hn hm hl hclears =>
    cases hnext
    have hs₁ := hs.publish hd .succ n.next.target
    have hon := hs.onChain_of_unmarked hf.point.1.held hl rfl
    have hlinked := hs.linked_of_link hon hl rfl
    have hle := hclears.ahead_le hs₁ hn hm n.next.target
    have hlt := hs.ahead_lt (.inl hlinked) hn fun b hb => hs.below_next hlinked hn hb
    rw [hpublish] at hle
    simp only [Point.height, htransfer]
    omega
  | pass =>
    cases hnext
    simp only [Point.height, htransfer]
    omega
  | @stop t pred curr n next hn hpass =>
    cases t with
    | insert | remove | contains | get | hold =>
      cases hnext
      exact Nat.succ_pos _
    | unlink | size | isEmpty | keys => cases hnext
  | stray | follow | retry | beaten | mark => cases hretries
  | finish | reject | insert | remove | tell => cases hnext

end MarkedChain
