import MarkedChain.Proofs.Runs

/-!
# No node is used after it was freed

`Frame.references` lists the nodes that an operation may still use. A step reads, writes and frees
no other nodes, apart from those in limbo (`Frame.step_confined`). In a run all references of all
operations in progress are live, each of them still the node that it was when the operation came by
it, and so no step is ever stopped because a node is missing (`Run.no_use_after_free`).
-/

namespace MarkedChain

variable {κ ν : Type}

/-! ## References -/

/-- The node that owns the link at a place. -/
def Place.node? : Place → Option Address
  | .head => none
  | .node a => some a

/-- The nodes that an operation may still use where it stands. -/
def Point.references : Point → List Address
  | .start => []
  | .inspect pred curr => pred.node?.toList ++ curr.toList
  | .encounter pred curr next => pred.node?.toList ++ (curr :: next.target.toList)
  | .judge pred curr _ => pred.node?.toList ++ [curr]

/-- The nodes that an operation may still use. -/
def Frame.references (f : Frame κ) : List Address := f.own ++ f.point.references

/-- The nodes that the operation in progress on a handle may still use. -/
def World.references (w : World κ ν) (h : Nat) : List Address :=
  w.running.flatMap fun a => if a.handle = h then a.frame.references else []

theorem Place.mem_node? {pl : Place} {a : Address} : a ∈ pl.node?.toList ↔ pl = .node a := by
  cases pl with
  | head => simp [Place.node?]
  | node b => simp [Place.node?, eq_comm]

/-! ## What a step reads -/

/-- A computation misses no nodes but those that have a property. -/
def Confined {α : Type} (x : Except Fault α) (p : Address → Prop) : Prop :=
  ∀ a, x = .error (.notAllocated a) → p a

namespace Confined

variable {α β : Type} {x : Except Fault α} {p : Address → Prop}

theorem ok {a : α} : Confined (.ok a) p := by
  intro b hb
  cases hb

theorem pure {a : α} : Confined (Pure.pure a : Except Fault α) p :=
  ok

theorem bind {f : α → Except Fault β} (h : Confined x p)
    (hf : ∀ a, x = .ok a → Confined (f a) p) : Confined (x >>= f) p := by
  cases x with
  | ok a => exact hf a rfl
  | error e =>
    intro a ha
    cases ha
    exact h a rfl

theorem read {m : Memory κ ν} {a : Address} (ha : p a) : Confined (m.read a) p := by
  intro b hb
  rw [Memory.read] at hb
  split at hb
  · cases hb
  · cases hb
    exact ha

theorem link {s : SharedSet κ ν} {pl : Place} (hpl : ∀ a, pl = .node a → p a) :
    Confined (s.link pl) p := by
  cases pl with
  | head => exact .ok
  | node a => exact (Confined.read (hpl a rfl)).bind fun _ _ => .pure

theorem setLink {s : SharedSet κ ν} {l : Link Address} {pl : Place}
    (hpl : ∀ a, pl = .node a → p a) : Confined (s.setLink l pl) p := by
  cases pl with
  | head => exact .ok
  | node a => exact ((Confined.read (hpl a rfl)).bind fun _ _ => .pure).bind fun _ _ => .pure

theorem exchange {s : SharedSet κ ν} {expected new : Link Address} {pl : Place}
    (hpl : ∀ a, pl = .node a → p a) : Confined (s.exchange pl expected new) p := by
  refine (Confined.link hpl).bind fun seen _ => ?_
  split
  · exact (Confined.setLink hpl).bind fun _ _ => .pure
  · exact .pure

theorem freeAll {m : Memory κ ν} {lane : Lane} {nodes : List Address}
    (hnodes : ∀ a ∈ nodes, p a) : Confined (m.freeAll lane nodes) p := by
  induction nodes generalizing m with
  | nil => exact .ok
  | cons a as ih =>
    refine Confined.bind ((Confined.read (hnodes a (by simp))).bind fun n _ => ?_) fun _ _ => ?_
    · dsimp only
      split
      · split <;> exact .pure
      · intro a ha
        cases ha
    · exact (ih fun b hb => hnodes b (by simp [hb])).bind fun _ _ => .pure

end Confined

theorem SharedSet.setLink_scheme {s s' : SharedSet κ ν} {l : Link Address} {pl : Place}
    (h : s.setLink l pl = .ok s') : s'.scheme = s.scheme := by
  cases pl with
  | head =>
    cases h
    rfl
  | node a =>
    obtain ⟨m, -, hm⟩ := bind_eq_ok.1 h
    cases hm
    rfl

theorem SharedSet.exchange_scheme {s s' : SharedSet κ ν} {expected new : Link Address} {pl : Place}
    {x : Exchange (Link Address)} (h : s.exchange pl expected new = .ok (x, s')) :
    s'.scheme = s.scheme := by
  obtain ⟨seen, -, h⟩ := bind_eq_ok.1 h
  split at h
  · obtain ⟨t, ht, h⟩ := bind_eq_ok.1 h
    cases h
    exact setLink_scheme ht
  · cases h
    rfl

/-- A retirement hands out nodes of limbo and perhaps the retired node itself. -/
theorem Scheme.retire_subset {s s' : Scheme Address} {r : Nat} {node : Address}
    {nodes : List Address} (h : s.retire r node = .ok (nodes, s')) :
    ∀ a ∈ nodes, a = node ∨ a ∈ s.limbo.entries.map Retired.node := by
  have hsweep : ∀ (l : Limbo Address) f, ∀ a ∈ (l.sweep f).1, a ∈ l.entries.map Retired.node := by
    intro l f a ha
    rw [Limbo.sweep_nodes] at ha
    exact List.map_subset _ (List.filter_subset_self _) ha
  intro a ha
  cases s with
  | epochs e =>
    cases h
    rw [Epochs.retire] at ha
    split at ha
    · have hlimbo : ∀ e : Epochs Address, e.advance.2.limbo = e.limbo := by
        intro e
        rw [Epochs.advance]
        split <;> rfl
      have hmem := hsweep _ _ a ha
      rw [hlimbo] at hmem
      simpa [Limbo.push, limbo] using hmem
    · cases ha
  | hazards h' =>
    obtain ⟨⟨freed, h''⟩, hretire, hok⟩ := bind_eq_ok.1 h
    cases hok
    rw [Hazards.retire] at hretire
    split at hretire
    · cases hretire
    · split at hretire
      · cases hretire
        have hmem := hsweep _ _ a ha
        simpa [Limbo.push, limbo] using hmem
      · cases hretire
        cases ha

namespace Confined

theorem retire {s : SharedSet κ ν} {p : Address → Prop} {r : Nat} {lane : Lane} {curr : Address}
    (hcurr : p curr) (hretired : ∀ a ∈ s.retired, p a) : Confined (s.retire r lane curr) p := by
  refine Confined.bind ?_ fun q hq => ?_
  · cases hs : s.scheme with
    | epochs e => exact .ok
    | hazards h =>
      refine Confined.bind ?_ fun _ _ => .pure
      rw [Hazards.retire]
      split
      · intro a ha
        cases ha
      · exact .ok
  · obtain ⟨nodes, sch⟩ := q
    refine (Confined.freeAll fun a ha => ?_).bind fun _ _ => .pure
    rcases Scheme.retire_subset hq a ha with rfl | ha
    · exact hcurr
    · exact hretired a ha

end Confined

namespace Step

variable {s : SharedSet κ ν} {who : Actor} {p : Address → Prop}

theorem help_confined {t : Task κ} {pred : Place} {curr : Address} {after : Option Address}
    (hpred : ∀ a, pred = .node a → p a) (hcurr : p curr) (hretired : ∀ a ∈ s.retired, p a) :
    Confined (help s who t pred curr after) p := by
  refine (Confined.exchange hpred).bind ?_
  rintro ⟨x, s'⟩ hx
  have hscheme := SharedSet.exchange_scheme hx
  cases x with
  | written _ =>
    refine (Confined.retire hcurr ?_).bind fun _ _ => .pure
    rwa [SharedSet.retired, hscheme]
  | refused seen =>
    dsimp only
    split <;> exact .pure

theorem inspect_confined {t : Task κ} {pred : Place} {curr : Address}
    (hpred : ∀ a, pred = .node a → p a) (hcurr : p curr) (hretired : ∀ a ∈ s.retired, p a) :
    Confined (inspect s who t pred curr) p := by
  refine (Confined.read hcurr).bind fun n _ => ?_
  dsimp only
  split
  · refine Confined.bind ?_ fun still _ => ?_
    · rw [SharedSet.stillLinked]
      split
      · exact (Confined.link hpred).bind fun _ _ => .pure
      · exact .ok
    · split
      · split
        · exact help_confined hpred hcurr fun a ha =>
            hretired a (by rwa [SharedSet.publish_retired] at ha)
        · exact .pure
      · exact .pure
  · exact .pure

theorem linkIn_confined {t : Task κ} {node : Address} {pred : Place} {curr : Option Address}
    (hnode : p node) (hpred : ∀ a, pred = .node a → p a) :
    Confined (linkIn s t node pred curr) p := by
  refine (Confined.setLink fun a ha => ?_).bind fun s' _ => ?_
  · cases ha
    exact hnode
  · refine (Confined.exchange hpred).bind ?_
    rintro ⟨x, s''⟩ -
    cases x <;> exact .pure

theorem takeOut_confined {key : κ} {pred : Place} {curr : Address}
    (hpred : ∀ a, pred = .node a → p a) (hcurr : p curr) (hretired : ∀ a ∈ s.retired, p a) :
    Confined (takeOut s who key pred curr) p := by
  have hcurr' : ∀ a, Place.node curr = .node a → p a := by
    intro a ha
    cases ha
    exact hcurr
  refine (Confined.link hcurr').bind fun succ _ => ?_
  split
  · exact .pure
  · refine (Confined.exchange hcurr').bind ?_
    rintro ⟨x, s₁⟩ hx
    have hscheme := SharedSet.exchange_scheme hx
    cases x with
    | refused _ => exact .pure
    | written _ =>
      refine (Confined.exchange hpred).bind ?_
      rintro ⟨y, s₂⟩ hy
      have hscheme' := SharedSet.exchange_scheme hy
      cases y with
      | refused _ => exact .pure
      | written _ =>
        refine (Confined.retire hcurr ?_).bind fun _ _ => .pure
        rwa [SharedSet.retired, hscheme', hscheme]

theorem judge_confined [Ord κ] {t : Task κ} {pred : Place} {curr : Address} {next : Link Address}
    (hnode : ∀ a, t.node? = some a → p a) (hpred : ∀ a, pred = .node a → p a) (hcurr : p curr)
    (hretired : ∀ a ∈ s.retired, p a) : Confined (judge s who t pred curr next) p := by
  refine (Confined.read hcurr).bind fun n _ => ?_
  cases t with
  | insert fresh key =>
    dsimp only
    split
    · refine Confined.bind ?_ fun _ _ => .pure
      refine (Confined.freeAll fun a ha => ?_).bind fun _ _ => .pure
      rw [List.mem_singleton.1 ha]
      exact hnode fresh rfl
    · exact linkIn_confined (hnode fresh rfl) hpred
  | remove key =>
    dsimp only
    split
    · exact takeOut_confined hpred hcurr hretired
    · exact .pure
  | _ => exact .pure

end Step

/-- A step uses no nodes but those that its operation refers to, and frees no others but those in
limbo. -/
theorem Frame.step_confined [Ord κ] (f : Frame κ) (s : SharedSet κ ν) (who : Actor) :
    Confined (f.step s who) fun a => a ∈ f.references ∨ a ∈ s.retired := by
  obtain ⟨t, point⟩ := f
  have hnode : ∀ a, t.node? = some a → a ∈ Frame.references ⟨t, point⟩ ∨ a ∈ s.retired :=
    fun a ha => .inl (by simp [references, own, ha])
  have hpoint : ∀ a, a ∈ point.references →
      a ∈ Frame.references ⟨t, point⟩ ∨ a ∈ s.retired :=
    fun a ha => .inl (by simp [references, ha])
  have hretired : ∀ a ∈ s.retired, a ∈ Frame.references ⟨t, point⟩ ∨ a ∈ s.retired :=
    fun a ha => .inr ha
  cases point with
  | start => exact .ok
  | inspect pred curr =>
    have hpred : ∀ a, pred = .node a → _ := fun a ha =>
      hpoint a (List.mem_append_left _ (Place.mem_node?.2 ha))
    cases curr with
    | none =>
      cases t with
      | insert node key => exact Step.linkIn_confined (hnode node rfl) hpred
      | _ => exact .ok
    | some curr =>
      exact Step.inspect_confined hpred (hpoint curr (by simp [Point.references])) hretired
  | encounter pred curr next =>
    have hcurr := hpoint curr (by simp [Point.references])
    refine (Confined.read hcurr).bind fun n _ => ?_
    split <;> exact .pure
  | judge pred curr next =>
    have hpred : ∀ a, pred = .node a → _ := fun a ha =>
      hpoint a (List.mem_append_left _ (Place.mem_node?.2 ha))
    exact Step.judge_confined hnode hpred (hpoint curr (by simp [Point.references])) hretired

/-! ## References are live -/

section

variable [Ord κ]

/-- Whatever an operation in progress may still use is live. -/
theorem Frame.Fits.live {s : SharedSet κ ν} {r : Nat} {f : Frame κ} {own : List Address}
    (h : f.Fits s r) (hs : s.Sound own) (hown : f.own ⊆ own) :
    ∀ a ∈ f.references, ∃ n, s.memory.node? a = some n := by
  intro a ha
  rcases List.mem_append.1 ha with ha | ha
  · exact hs.live_of_own (hown ha)
  have hpoint := h.point
  obtain ⟨t, point⟩ := f
  cases point with
  | start => cases ha
  | inspect pred curr =>
    rcases List.mem_append.1 ha with ha | ha
    · exact hs.live_of_held (hpoint.1.held a (Place.mem_node?.1 ha))
    · exact hs.live_of_held (hpoint.2 a (Option.mem_toList.1 ha))
  | encounter pred curr next =>
    obtain ⟨hpred, hcurr, hsucc, -⟩ := hpoint
    rcases List.mem_append.1 ha with ha | ha
    · exact hs.live_of_held (hpred.held a (Place.mem_node?.1 ha))
    · rcases List.mem_cons.1 ha with rfl | ha
      · exact hs.live_of_held hcurr
      · exact hs.live_of_held (hsucc a (Option.mem_toList.1 ha))
  | judge pred curr next =>
    obtain ⟨hpred, hcurr, -⟩ := hpoint
    rcases List.mem_append.1 ha with ha | ha
    · exact hs.live_of_held (hpred.held a (Place.mem_node?.1 ha))
    · exact List.mem_singleton.1 ha ▸ hs.live_of_held hcurr

theorem World.Sound.references_live {w : World κ ν} (hw : w.Sound) {h i : Nat} {a : Address}
    (hset : w.setOf? h = some i) (ha : a ∈ w.references h) :
    ∃ s n, w.sets[i]? = some s ∧ s.memory.node? a = some n := by
  obtain ⟨b, hb, hab⟩ := List.mem_flatMap.1 ha
  split at hab
  · next hbh =>
    subst hbh
    obtain ⟨x, s, hx, -, hs, hfits⟩ := hw.running b hb
    have hxi : x.set = i := by simpa [setOf?, hx] using hset
    subst hxi
    have hown := own_subset_fresh hb hset
    obtain ⟨n, hn⟩ := hfits.live (hw.sets _ s hs) hown a hab
    exact ⟨s, n, hs, hn⟩
  · cases hab

variable [Std.TransOrd κ]

/-- Nothing but a limit of the configuration stops an action of a run with a fault. As long as an
operation refers to a node, the node is live and keeps its key and its value. A step uses no other
nodes. -/
theorem Run.no_use_after_free {kind : Scheme.Kind} {ts : List Tuning} {es : List (Event κ ν)}
    {w : World κ ν} (h : Run (.ofTunings kind ts) es w) :
    (∀ a e, w.step a = .error (.fault e) → e = .poolTooLarge ∨ e = .thresholdTooLarge) ∧
    (∀ i x a j k, j ≤ k → (∀ m, j ≤ m → m ≤ k → ∃ u,
        (World.ofTunings kind ts).worldAt es m = some u ∧ u.setOf? x = some i ∧
          a ∈ u.references x) →
      ∃ key value, ∀ m, j ≤ m → m ≤ k → ∃ s n, (World.ofTunings kind ts).setAt es i m = some s ∧
        s.memory.node? a = some n ∧ n.key = key ∧ n.value = value) ∧
    ∀ (f : Frame κ) (s : SharedSet κ ν) who a, f.step s who = .error (.notAllocated a) →
      a ∈ f.references ∨ a ∈ s.retired := by
  have h₀ := World.sound_ofTunings (κ := κ) (ν := ν) kind ts
  refine ⟨?_, ?_, fun f s who => f.step_confined s who⟩
  · intro a e he
    have hlimit := (World.step_settles (h.sound h₀ h.worldAt_last) a).of_fault he
    cases e with
    | poolTooLarge => exact .inl rfl
    | thresholdTooLarge => exact .inr rfl
    | _ => exact hlimit.elim
  · intro i x a j k hjk hrefs
    have hlive : (World.ofTunings kind ts).Lasts es i a j k := by
      intro m hjm hmk
      obtain ⟨u, hu, hset, ha⟩ := hrefs m hjm hmk
      obtain ⟨s, n, hs, hn⟩ := (h.sound h₀ hu).references_live hset ha
      exact ⟨s, n, by rw [World.setAt, hu]; exact hs, hn⟩
    obtain ⟨s, n, hs, hn⟩ := hlive j (Nat.le_refl _) hjk
    refine ⟨n.key, n.value, ?_⟩
    intro m hjm hmk
    obtain ⟨t, n', ht, hn'⟩ := hlive m hjm hmk
    have hlasts : (World.ofTunings kind ts).Lasts es i a j m :=
      fun l hjl hlm => hlive l hjl (Nat.le_trans hlm hmk)
    obtain ⟨hkey, hvalue, -⟩ := h.node_lasts h₀ hlasts hjm hs ht hn hn'
    exact ⟨t, n', ht, hn', hkey, hvalue⟩

end

open Overtaking in
/-- The search goes on from the first node after that one was retired. -/
theorem no_use_after_free_overtaking :
    0 ∈ (set 18).retired ∧ ∃ key value, ∀ m, 13 ≤ m → m ≤ 18 → ∃ s n,
      origin.setAt events 0 m = some s ∧ s.memory.node? 0 = some n ∧ n.key = key ∧
        n.value = value := by
  refine ⟨by decide, run.no_use_after_free.2.1 0 1 0 13 18 (by decide) fun m hm hm' => ?_⟩
  have hrefs : ∀ m < 19, 13 ≤ m → (origin.worldAt events m).any (fun u =>
      decide (u.setOf? 1 = some 0) && decide (0 ∈ u.references 1)) = true := by decide
  obtain ⟨u, hu, hcheck⟩ := (Option.any_eq_true _ _).1 (hrefs m (Nat.lt_succ_of_le hm') hm)
  rw [Bool.and_eq_true, decide_eq_true_eq, decide_eq_true_eq] at hcheck
  exact ⟨u, hu, hcheck⟩

end MarkedChain
