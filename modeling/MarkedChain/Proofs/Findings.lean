import MarkedChain.Proofs.Sightings

/-!
# What an operation finds

`Frame.Informed` is what an operation knows of the states of its set since it began. It is kept by
the steps of others (`Frame.Informed.others`) and by its own (`Move.informed`). From it follows what
each step means for the contents of the set (`Move.effect`): it leaves them alone, or it does to
them what the call asks for, and the reply with which an operation ends is right for some moment
since it began.
-/

namespace MarkedChain

variable {κ ν : Type}

/-- The key that a call asks about. -/
def Call.key? : Call κ ν → Option κ
  | .insert k _ | .remove k | .contains k | .get k | .hold k => some k
  | .size | .isEmpty | .keys | .reclaim => none

namespace Task

/-- Whether the operation has done what it was asked for and only clears up. -/
def done : Task κ → Bool
  | .unlink _ => true
  | _ => false

/-- A task is what has become of a call. -/
def Serves (s : SharedSet κ ν) : Task κ → Call κ ν → Prop
  | .insert a k, .insert k' v => k = k' ∧ ∃ n, s.memory.node? a = some n ∧ n.value = v
  | .remove k, .remove k' | .unlink k, .remove k' => k = k'
  | .contains k, .contains k' => k = k'
  | .get k, .get k' => k = k'
  | .hold k, .hold k' => k = k'
  | .size _, .size | .isEmpty, .isEmpty | .keys _, .keys => True
  | _, _ => False

variable {s s' : SharedSet κ ν} {t t' : Task κ} {call : Call κ ν}

theorem Serves.key? (h : t.Serves s call) : t.key? = call.key? := by
  cases t <;> cases call <;>
    first | exact h.elim | rfl | exact congrArg some h.1 | exact congrArg some h

/-- To reclaim needs no task. -/
theorem Serves.ne_reclaim (h : t.Serves s call) : call ≠ .reclaim := by
  rintro rfl
  cases t <;> exact h

/-- Only a removal has something to clear up. -/
theorem Serves.of_done (h : t.Serves s call) (hdone : t.done = true) : ∃ k, call = .remove k := by
  cases t <;> cases hdone
  cases call <;> first | exact h.elim | exact ⟨_, rfl⟩

theorem done_restart (t : Task κ) : t.restart.done = t.done := by
  cases t <;> rfl

theorem Serves.restart (h : t.Serves s call) : t.restart.Serves s call := by
  cases t <;> cases call <;> first | exact h.elim | exact h

/-- Only the node of an insertion matters. -/
theorem Serves.step (h : t.Serves s call) (hnode : ∀ a n, t.node? = some a →
    s.memory.node? a = some n → ∃ n', s'.memory.node? a = some n' ∧ n'.value = n.value) :
    t.Serves s' call := by
  cases t with
  | insert a k =>
    cases call with
    | insert k' v =>
      obtain ⟨hk, n, hn, hv⟩ := h
      obtain ⟨n', hn', hvalue⟩ := hnode a n rfl hn
      exact ⟨hk, n', hn', hvalue.trans hv⟩
    | _ => exact h.elim
  | _ => cases call <;> first | exact h.elim | exact h

variable [Ord κ]

theorem pass?_serves {key : κ} {marked : Bool} (hpass : t.pass? key marked = some t')
    (h : t.Serves s call) : t'.Serves s call ∧ t'.done = t.done := by
  cases hkey : t.key? with
  | some k =>
    obtain ⟨rfl, -⟩ := (pass?_eq_some hpass).2.2.2 k hkey
    exact ⟨h, rfl⟩
  | none =>
    cases t with
    | size met | keys met =>
      cases hpass
      cases call <;> exact ⟨h, rfl⟩
    | isEmpty =>
      rw [pass?] at hpass
      split at hpass
      · cases hpass
        exact ⟨h, rfl⟩
      · cases hpass
    | _ => cases hkey

end Task

section

variable [Ord κ] (seen : SharedSet κ ν → Prop)

/-- What an operation that looks for `k` knows at a point of its walk. -/
def Point.Informed (s : SharedSet κ ν) (k : κ) : Point → Prop
  | .start => True
  | .inspect _ x => ∃ t, seen t ∧ t.Leads k x
  | .encounter _ curr next | .judge _ curr next => s.Sighted seen k curr next

/-- What an operation knows of the states of its set since it began, the last of which is `s`. -/
structure Frame.Informed (s : SharedSet κ ν) (r : Nat) (f : Frame κ) : Prop where
  now : seen s
  sound : ∀ t, seen t → ∃ own, t.Sound own
  remembers : s.scheme.validates = false → s.Remembers seen r
  point : ∀ k, f.task.key? = some k → f.point.Informed seen s k

end

variable [Ord κ] {s s' : SharedSet κ ν} {seen seen' : SharedSet κ ν → Prop}
  {own own' : List Address}

/-- What is known at a point stays known as long as the node there is held. -/
theorem Point.Informed.step {r : Nat} {t : Task κ} {k : κ} {p : Point}
    (h : p.Informed seen s k) (hf : p.Fits s r t) (hs : s.Sound own)
    (hagrees : ∀ a, s.Agrees s' a) (hmono : ∀ t, seen t → seen' t) : p.Informed seen' s' k := by
  cases p with
  | start => trivial
  | inspect pred x =>
    obtain ⟨t, ht, hleads⟩ := h
    exact ⟨t, hmono t ht, hleads⟩
  | encounter pred curr next =>
    exact SharedSet.Sighted.step h (hs.live_of_held hf.2.1) (hagrees curr) hmono
  | judge pred curr next =>
    exact SharedSet.Sighted.step h (hs.live_of_held hf.2.1) (hagrees curr) hmono

variable [Std.TransOrd κ]

/-- What others do takes nothing from what an operation knows. -/
theorem Frame.Informed.others {who : Option Nat} {r : Nat} {window : Option (Place × Address)}
    {f : Frame κ} (h : f.Informed seen s r) (hf : f.Fits s r) (hs : s.Sound own)
    (hs' : s'.Sound own') (hevolves : s.Evolves s' window) (hrespects : s.Respects s' who)
    (hwho : who ≠ some r) (hd : s.scheme.depth? r = some 1) :
    f.Informed (fun t => seen t ∨ t = s') s' r where
  now := .inr rfl
  sound := by
    rintro t (ht | rfl)
    · exact h.sound t ht
    · exact ⟨own', hs'⟩
  remembers hv := (h.remembers (hrespects.validates.symm.trans hv)).step hs hs' h.now hevolves
    (hrespects.held r hwho) hv ((hrespects.depth? r hwho).trans hd)
  point k hk := (h.point k hk).step hf.point hs hevolves.agrees fun _ => .inl

variable {who : Actor} {f f' : Frame κ} {st : Stride κ ν} {call : Call κ ν}

namespace Move

/-- Reading the link of a node shows what has become of it. -/
theorem sighted_of_look {t : Task κ} {pred : Place} {curr : Address} {n : Node κ ν} {r : Nat}
    (hn : s.memory.node? curr = some n)
    (hhelps : s.helps t = true → n.next.marked = false ∧
      (s.scheme.validates = true → s.link? pred = some (.unmarked (some curr))))
    (hs : s.Sound own) (hf : Frame.Fits s r ⟨t, .inspect pred (some curr)⟩)
    (h : Frame.Informed seen s r ⟨t, .inspect pred (some curr)⟩) {k : κ} (hk : t.key? = some k) :
    s.Sighted seen k curr n.next := by
  obtain ⟨hreaches, hcurr⟩ := hf.point
  have hheld := hcurr curr rfl
  cases hv : s.scheme.validates with
  | true =>
    -- under hazard slots the link before the node was found to be there still
    have hl := (hhelps (by simp [SharedSet.helps, hv])).2 hv
    have hon := hs.onChain_of_unmarked hreaches.held hl rfl
    have hleads : s.Leads k (some curr) := hs.leads_of_link hon hl (hreaches.under hk)
    exact hs.sighted h.now ⟨s, h.now, hleads, .refl _ _⟩ hleads.mem hn
  | false =>
    have hremembers := h.remembers hv
    obtain ⟨t', ht', hleads⟩ := h.point k hk
    have hreached : ∃ u, seen u ∧ u.Leads k (some curr) ∧ u.Agrees s curr :=
      ⟨t', ht', hleads, hremembers.agrees t' ht' curr hleads.mem⟩
    by_cases hlinked : curr ∈ s.linked
    · exact hs.sighted h.now hreached hlinked hn
    · have hm : n.next.marked = true := by
        by_contra hm
        exact hlinked (hs.linked_of_held hheld hn (by simpa using hm))
      have hgone := (hremembers.place t' ht' curr hleads.mem).resolve_left hlinked
      exact hgone.sighted hreached h.sound hn hm

/-- What an operation knows at the point where it goes on. -/
theorem informed_point (h : Move s who f st) (hs : s.Sound (f.own ++ own))
    (hf : f.Fits s who.record) (hd : s.scheme.depth? who.record = some 1)
    (hinf : f.Informed seen s who.record) (hnext : st.next = .goes f') {k : κ}
    (hk : f'.task.key? = some k) :
    f'.point.Informed (fun t => seen t ∨ t = st.set) st.set k := by
  cases h with
  | start t =>
    cases hnext
    exact ⟨s, .inl hinf.now, hs.leads_head k⟩
  | look t pred hn hhelps =>
    cases hnext
    have hsighted := sighted_of_look hn hhelps hs hf hinf hk
    exact hsighted.step ⟨_, hn⟩ (.refl _ _) fun _ => .inl
  | @follow t pred curr n l hn hm hl hne hlm =>
    cases hnext
    obtain ⟨hreaches, -⟩ := hf.point
    have hon := hs.onChain_of_unmarked hreaches.held hl hlm
    exact ⟨s, .inl hinf.now, hs.leads_of_link hon hl (hreaches.under hk)⟩
  | @clear t pred curr n s' drops hn hm hl hclears =>
    cases hnext
    obtain ⟨hreaches, -⟩ := hf.point
    have hon := hs.onChain_of_unmarked hreaches.held hl rfl
    have hleads : s.Leads k (some curr) := hs.leads_of_link hon hl (hreaches.under hk)
    exact ⟨_, .inr rfl, hclears.leads (hs.publish hd .succ n.next.target) hn hm hleads⟩
  | @pass t t' pred curr n next hn hpass =>
    cases hnext
    obtain ⟨hkey, -, -, hsame⟩ := Task.pass?_eq_some hpass
    rw [hkey] at hk
    obtain ⟨u, hu, hcurr, hagrees, n₀, hn₀, htarget⟩ := (hinf.point k hk).last
    obtain ⟨own', hsu⟩ := hinf.sound u hu
    have hlink : u.link? (.node curr) = some n₀.next := by simp [SharedSet.link?, hn₀]
    have hon : u.OnChain (.node curr) := hcurr
    refine ⟨u, .inl hu, htarget ▸ hsu.leads_of_link hon hlink ?_⟩
    intro a ha n₁ hn₁
    cases ha
    rw [← (hagrees n₁ n hn₁ hn).1]
    exact (hsame k hk).2
  | @stop t pred curr n next hn hpass =>
    cases t <;> cases hnext <;>
      exact SharedSet.Sighted.step (hinf.point k hk) ⟨n, hn⟩ (.refl _ _) fun _ => .inl
  | stray t | retry | beaten | mark => cases hnext; trivial
  | finish | reject | insert | remove | tell => cases hnext

/-- An operation that goes on knows as much of the state that its step has made. -/
theorem informed (h : Move s who f st) (hs : s.Sound (f.own ++ own))
    (hf : f.Fits s who.record) (hd : s.scheme.depth? who.record = some 1)
    (hinf : f.Informed seen s who.record) (hnext : st.next = .goes f') :
    f'.Informed (fun t => seen t ∨ t = st.set) st.set who.record := by
  obtain ⟨hs', hkeeps⟩ := h.sound_keeps hs hf hd
  refine ⟨.inr rfl, ?_, ?_, fun k hk => h.informed_point hs hf hd hinf hnext hk⟩
  · rintro t (ht | rfl)
    · exact hinf.sound t ht
    · exact ⟨_, hs'⟩
  · intro hv
    have hv₀ : s.scheme.validates = false := hkeeps.respects.validates.symm.trans hv
    exact (hinf.remembers hv₀).step hs hs' hinf.now (h.evolves hs hf hd) (hkeeps.kept hv₀) hv
      (hkeeps.depth?.trans hd)

/-- An operation that goes on serves the same call. -/
theorem serves (h : Move s who f st) (hs : s.Sound (f.own ++ own)) (hf : f.Fits s who.record)
    (hd : s.scheme.depth? who.record = some 1) (hserves : f.task.Serves s call)
    (hnext : st.next = .goes f') : f'.task.Serves st.set call := by
  obtain ⟨hs', hkeeps⟩ := h.sound_keeps hs hf hd
  obtain ⟨hown, -⟩ := h.own_of_goes hnext
  rw [hnext] at hs'
  have hnode : ∀ a n, f'.task.node? = some a → s.memory.node? a = some n →
      ∃ n', st.set.memory.node? a = some n' ∧ n'.value = n.value := by
    intro a n ha hn
    obtain ⟨n', hn'⟩ := hs'.live_of_own (a := a) (by simp [Next.own, Frame.own, ha])
    exact ⟨n', hn', (hkeeps.respects.node a n n' hn hn').2.1⟩
  refine Task.Serves.step ?_ hnode
  cases h with
  | start t | look t | follow t | clear t => cases hnext; exact hserves
  | stray t | retry | beaten => cases hnext; exact hserves.restart
  | mark => cases hnext; cases call <;> exact hserves
  | pass pred next hn hpass =>
    cases hnext
    exact (Task.pass?_serves hpass hserves).1
  | @stop t pred curr n next hn hpass => cases t <;> cases hnext <;> exact hserves
  | finish | reject | insert | remove | tell => cases hnext

end Move

end MarkedChain
