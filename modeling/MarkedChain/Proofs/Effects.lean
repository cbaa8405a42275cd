import MarkedChain.Proofs.Findings

/-!
# What a step means for the contents

A step of an operation leaves the contents of its set alone, or it does to them what the call asks
for. `Effect` lists the ways in which the two can go together with the operation going on or ending,
and `Move.effect` shows that there are no others: an operation acts on the contents at most once,
and if it ends without having acted, its reply is right for a state that it has seen.
-/

namespace MarkedChain

variable {κ ν : Type} [Ord κ]

/-- What a step of an operation that serves a call means for the contents of the set. -/
inductive Effect (seen : SharedSet κ ν → Prop) (s : SharedSet κ ν) (call : Call κ ν) (t : Task κ)
    (st : Stride κ ν) : Prop where
  /-- The operation goes on, and nothing has happened. -/
  | silent {f} (hnext : st.next = .goes f) (hdone : f.task.done = t.done)
    (hsame : st.set.contents = s.contents)
  /-- The operation has done what it was asked for and goes on to clear up. -/
  | early {f} (hnext : st.next = .goes f) (hopen : t.done = false) (hdone : f.task.done = true)
    (hserve : Ledger.serve s.contents call = (st.set.contents, some .removed))
  /-- The operation has cleared up and ends. -/
  | late (hnext : st.next = .ends .removed) (hdone : t.done = true)
    (hsame : st.set.contents = s.contents)
  /-- The operation does what it was asked for and ends. -/
  | acts {reply} (hnext : st.next = .ends reply) (hopen : t.done = false)
    (hkey : call.key?.isSome = true)
    (hserve : Ledger.serve s.contents call = (st.set.contents, some reply))
  /-- The operation ends with a reply that was right for a state it has seen. -/
  | tells {reply} (hnext : st.next = .ends reply) (hopen : t.done = false)
    (hsame : st.set.contents = s.contents)
    (hserve : ∀ k, call.key? = some k →
      ∃ u, seen u ∧ Ledger.serve u.contents call = (u.contents, some reply))

variable {s : SharedSet κ ν} {seen : SharedSet κ ν → Prop} {own : List Address} {who : Actor}
  {t : Task κ} {f : Frame κ} {st : Stride κ ν} {call : Call κ ν}

namespace Task

/-- The reply at the end of the chain, if nothing is found under the key. -/
theorem Serves.closing (h : t.Serves s call) (hnode : t.node? = none) (hopen : t.done = false)
    {k : κ} (hk : call.key? = some k) {l : List (κ × ν)} (hfind : Ledger.find? k l = none) :
    Ledger.serve l call = (l, some (Step.closing t)) := by
  cases t with
  | insert => cases hnode
  | unlink => cases hopen
  | size | isEmpty | keys => cases call <;> first | exact h.elim | cases hk
  | remove | contains | get | hold =>
    cases call <;> first | exact h.elim | skip
    cases hk
    simp [Ledger.serve, Step.closing, hfind]

/-- The reply at a node, if what is found under the key is what was seen there. -/
theorem Serves.verdict (h : t.Serves s call) (hnode : t.node? = none) (hopen : t.done = false)
    {k : κ} (hk : call.key? = some k) {n : Node κ ν} {next : Link Address}
    (hremove : ∀ k, t = .remove k → compare n.key k ≠ .eq)
    (hhold : ∀ k, t = .hold k → next.marked = false) {l : List (κ × ν)}
    (hfind : Ledger.find? k l =
      if (compare n.key k).isEq && !next.marked then some (n.key, n.value) else none) :
    Ledger.serve l call = (l, some (verdict t n next)) := by
  cases t with
  | insert => cases hnode
  | unlink => cases hopen
  | size | isEmpty | keys => cases call <;> first | exact h.elim | cases hk
  | remove k =>
    cases call <;> first | exact h.elim | skip
    cases hk
    cases h
    have hne : (compare n.key k).isEq = false := by simpa using hremove k rfl
    rw [hne, Bool.false_and, if_neg (by decide)] at hfind
    simp [Ledger.serve, MarkedChain.verdict, hfind]
  | hold k =>
    cases call <;> first | exact h.elim | skip
    cases hk
    cases h
    rw [hhold k rfl] at hfind
    simp only [Ledger.serve, MarkedChain.verdict, hfind]
    cases (compare n.key k).isEq <;> rfl
  | contains k | get k =>
    cases call <;> first | exact h.elim | skip
    cases hk
    cases h
    simp only [Ledger.serve, MarkedChain.verdict, hfind]
    cases (compare n.key k).isEq && !next.marked <;> rfl

end Task

variable [Std.TransOrd κ]

/-- Every step of an operation has one of these effects. -/
theorem Move.effect (h : Move s who f st) (hs : s.Sound (f.own ++ own)) (hf : f.Fits s who.record)
    (hd : s.scheme.depth? who.record = some 1) (hinf : f.Informed seen s who.record)
    (hserves : f.task.Serves s call) : Effect seen s call f.task st := by
  have hkey := hserves.key?
  have hpoint := hf.point
  cases h with
  | start t | look t | follow t => exact .silent rfl rfl rfl
  | stray t => exact .silent rfl t.done_restart rfl
  | @clear t pred curr n s' drops hn hm hl hclears =>
    exact .silent rfl rfl (hclears.contents (hs.publish hd .succ n.next.target) hn hm)
  | pass pred next hn hpass => exact .silent rfl (Task.pass?_serves hpass hserves).2 rfl
  | beaten => exact .silent rfl rfl rfl
  | @retry fresh key p pred x s₁ l hgap hprepare hl hne =>
    obtain ⟨n, hn⟩ := hs.live_of_own (a := fresh) List.mem_cons_self
    have hm := hs.fresh fresh List.mem_cons_self n hn
    have hlink : s.link? (.node fresh) = some n.next := by simp [SharedSet.link?, hn]
    exact .silent rfl rfl (SharedSet.contents_congr (SharedSet.Sound.prepare hs hprepare).1
      fun a _ => hprepare.pair? hlink hm.symm a)
  | finish t pred ht =>
    cases hdone : t.done with
    | true =>
      cases t <;> cases hdone
      exact .late rfl rfl rfl
    | false =>
      refine .tells rfl hdone rfl fun k hk => ?_
      obtain ⟨u, hu, hleads⟩ := hinf.point k (hkey.trans hk)
      obtain ⟨own', hsu⟩ := hinf.sound u hu
      exact ⟨u, hu, hserves.closing ht hdone hk (hleads.find?_eq_none hsu (by simp))⟩
  | @stop t pred curr n next hn hpass =>
    cases t with
    | insert | remove | contains | get | hold => exact .silent rfl rfl rfl
    | unlink => exact .late rfl rfl rfl
    | size | isEmpty | keys =>
      refine .tells rfl rfl rfl fun k hk => ?_
      rw [← hkey] at hk
      cases hk
  | @reject fresh key pred curr n n₀ next m hn heq hn₀ hdrops =>
    refine .tells rfl rfl (SharedSet.Sound.contents_discard hs hdrops) fun k hk => ?_
    obtain ⟨-, -, hm, hlow⟩ := hpoint
    have hsighted : s.Sighted seen key curr next := hinf.point key rfl
    obtain ⟨u, hu, hfind⟩ := hsighted.found_at hinf.sound hn (hlow key rfl n hn)
    refine ⟨u, hu, ?_⟩
    rw [heq, hm (by simp [SharedSet.helps, Task.reads])] at hfind
    cases call <;> first | exact hserves.elim | skip
    obtain ⟨rfl, -⟩ := hserves
    simp [Ledger.serve, hfind]
  | @insert fresh key p pred x s₁ s₂ hgap hprepare hl hwrite =>
    cases call <;> first | exact hserves.elim | skip
    obtain ⟨rfl, n, hn, rfl⟩ := hserves
    exact .acts rfl rfl rfl (SharedSet.Sound.serve_insert hs hf hgap hprepare hl hwrite hn)
  | mark pred next hn heq hm hmark hl hne =>
    cases call <;> first | exact hserves.elim | skip
    cases hserves
    obtain ⟨hlinked, hchain, -⟩ := hs.mark hpoint.2.1 hn hm hmark
    exact .early rfl rfl rfl (hs.serve_remove hlinked hn hm hmark hchain heq)
  | remove pred next hn heq hm hmark hl hclears =>
    cases call <;> first | exact hserves.elim | skip
    cases hserves
    obtain ⟨hlinked, hchain, hs₁, -⟩ := hs.mark hpoint.2.1 hn hm hmark
    refine .acts rfl rfl rfl ?_
    rw [hs.serve_remove hlinked hn hm hmark hchain heq]
    exact congrArg (·, _) (hclears.contents hs₁ (hmark.node?_self hn) rfl).symm
  | @tell t pred curr n next hn ht hne =>
    cases hdone : t.done with
    | true =>
      cases t <;> cases hdone
      exact .late rfl rfl rfl
    | false =>
      refine .tells rfl hdone rfl fun k hk => ?_
      obtain ⟨-, -, hm, hlow⟩ := hpoint
      have hsighted : s.Sighted seen k curr next := hinf.point k (hkey.trans hk)
      obtain ⟨u, hu, hfind⟩ := hsighted.found_at hinf.sound hn (hlow k (hkey.trans hk) n hn)
      refine ⟨u, hu, hserves.verdict ht hdone hk hne ?_ hfind⟩
      rintro k' rfl
      exact hm (by simp [SharedSet.helps, Task.reads])

/-! ## What an action means for everyone else -/

namespace Passage

variable {w : World κ ν} {a : Action κ ν} {o : Outcome κ ν}

omit [Ord κ] [Std.TransOrd κ] in
theorem respects_setSet {i r : Nat} {who : Option Nat} {s s' : SharedSet κ ν}
    (hs : w.sets[i]? = some s) (h : s.Respects s' who) {j : Nat} {t : SharedSet κ ν}
    (ht : w.sets[j]? = some t) (hwho : i = j → who ≠ some r) :
    ∃ t' who, (w.setSet i s').sets[j]? = some t' ∧ who ≠ some r ∧ t.Respects t' who := by
  rw [World.getElem?_setSet hs]
  split
  · next hj =>
    subst hj
    rw [hs] at ht
    cases ht
    exact ⟨s', who, rfl, hwho rfl, h⟩
  · exact ⟨t, none, ht, by simp, .refl _ _⟩

omit [Std.TransOrd κ] in
/-- A change of one handle leaves all others alone, and they have other records. -/
theorem apart_setHandle (hw : w.Sound) {h h' : Nat} {x y : Handle} (x' : Handle)
    (hx : w.handles[h]? = some x) (hxlive : x.status ≠ .released)
    (hy : w.handles[h']? = some y) (hylive : y.status ≠ .released) (hne : h' ≠ h) :
    (w.setHandle h x').handles[h']? = some y ∧
      (x.set = y.set → some x.record ≠ some y.record) := by
  refine ⟨by rw [World.getElem?_setHandle hx, if_neg hne, hy], fun hset hrecord => hne ?_⟩
  exact (hw.apart _ _ x y hx hy hxlive hylive hset (Option.some.inj hrecord)).symm

/-- A busy handle stays as it is and its record is left alone, unless its operation makes a step or
the protection that it has kept is ended. -/
theorem aside (h : Passage w a o) (hw : w.Sound) {n : Nat} {y : Handle} {t : SharedSet κ ν}
    (hy : w.handles[n]? = some y) (ht : w.sets[y.set]? = some t)
    (hbusy : y.status = .running ∨ y.status = .holding)
    (hproceed : a = .proceed → ∀ c rest, w.running = c :: rest → c.handle ≠ n)
    (hresume : y.status = .holding → a ≠ .resume n) :
    o.world.handles[n]? = some y ∧
      ∃ t' who, o.world.sets[y.set]? = some t' ∧ who ≠ some y.record ∧ t.Respects t' who := by
  have hlive : y.status ≠ .released := by rcases hbusy with hy | hy <;> rw [hy] <;> decide
  have hne : ∀ {k : Nat} {x : Handle}, w.handles[k]? = some x → x.status = .idle → n ≠ k := by
    rintro k x hx hidle rfl
    rw [hx] at hy
    cases hy
    rw [hidle] at hbusy
    rcases hbusy with h | h <;> cases h
  cases h with
  | misuse => exact ⟨hy, t, none, ht, by simp, .refl _ _⟩
  | sweep _ _ _ _ hs hsheds hdrops =>
    have hrespects := (hw.sets _ _ hs).respects_shed hsheds hdrops
    exact ⟨hy, respects_setSet hs hrespects ht fun _ => by simp⟩
  | @register i s r sch hs hreg =>
    obtain ⟨htouches, -, -, hfree, -⟩ :=
      Scheme.register_eq_ok (hw.sets i s hs).scheme (hw.quiet i s hs) hreg
    have hlt := (Array.getElem?_eq_some_iff.1 hy).1
    refine ⟨?_, respects_setSet hs (SharedSet.respects_touch htouches) ht fun hset hr => ?_⟩
    · change (w.handles.push _)[n]? = some y
      rw [Array.getElem?_push, if_neg (Nat.ne_of_lt hlt), hy]
    · obtain ⟨htaken, -⟩ := hw.depth? hy hlive ht
      subst hset
      rw [hs] at ht
      cases ht
      cases hr
      exact hfree htaken
  | @release h x s hx hrest hs =>
    obtain ⟨hkeep, hrecord⟩ := apart_setHandle hw { x with status := .released } hx
      (by rw [hrest]; decide) hy hlive (hne hx hrest)
    obtain ⟨htouches, -⟩ := Scheme.release_touches (hw.sets _ _ hs).scheme x.record
    exact ⟨hkeep, respects_setSet hs (SharedSet.respects_touch htouches) ht hrecord⟩
  | @resume h x s sch hx hholding hs hunpin =>
    have hother : n ≠ h := by
      rintro rfl
      rw [hx] at hy
      cases hy
      exact hresume hholding rfl
    obtain ⟨hkeep, hrecord⟩ := apart_setHandle hw { x with status := .idle } hx
      (by rw [hholding]; decide) hy hlive hother
    exact ⟨hkeep, respects_setSet hs (SharedSet.respects_touch hunpin.1) ht hrecord⟩
  | @begin h i lane call offer x s u task sch hx hrest hset hs hopens hpin =>
    obtain ⟨hkeep, hrecord⟩ := apart_setHandle hw { x with status := .running } hx
      (by rw [hrest]; decide) hy hlive (hne hx hrest)
    obtain ⟨-, hresp, hscheme, -⟩ := hopens.sound (hw.sets _ _ hs)
    refine ⟨hkeep, respects_setSet hs ?_ ht (hset ▸ hrecord)⟩
    exact (hresp.of_none _).trans (SharedSet.respects_touch hpin.1) fun _ h => h
  | @goes c rest x s st frame hrun hx hs hmove hnext =>
    obtain ⟨hstatus', hfits, hd, hsound⟩ := hw.top hrun hx hs
    obtain ⟨hkeep, hrecord⟩ := apart_setHandle hw { x with retries := x.retries + st.retries } hx
      (by rw [hstatus']; decide) hy hlive (hproceed rfl c rest hrun).symm
    exact ⟨hkeep, respects_setSet hs (hmove.sound_keeps hsound hfits hd).2.respects ht hrecord⟩
  | @ends c rest x s st reply sch hrun hx hs hmove hnext hunpin =>
    obtain ⟨hstatus', hfits, hd, hsound⟩ := hw.top hrun hx hs
    obtain ⟨hkeep, hrecord⟩ := apart_setHandle hw { x with
        retries := x.retries + st.retries
        status := World.statusAfter reply } hx (by rw [hstatus']; decide) hy hlive
      (hproceed rfl c rest hrun).symm
    refine ⟨hkeep, respects_setSet hs ?_ ht hrecord⟩
    exact (hmove.sound_keeps hsound hfits hd).2.respects.trans
      (SharedSet.respects_touch hunpin.1) fun _ h => h

/-- An operation that makes no step itself keeps its handle, and its record is left alone. -/
theorem bystander (h : Passage w a o) (hw : w.Sound) {b : Activation κ} (hb : b ∈ w.running)
    (hother : a = .proceed → ∃ c rest, w.running = c :: rest ∧ b ∈ rest) {y : Handle}
    {t : SharedSet κ ν} (hy : w.handles[b.handle]? = some y) (ht : w.sets[y.set]? = some t) :
    o.world.handles[b.handle]? = some y ∧
      ∃ t' who, o.world.sets[y.set]? = some t' ∧ who ≠ some y.record ∧ t.Respects t' who := by
  obtain ⟨hstatus, -⟩ := hw.fits hb hy ht
  refine h.aside hw hy ht (.inl hstatus) (fun ha c rest hrun hne => ?_)
    (by rw [hstatus]; exact nofun)
  obtain ⟨c', rest', hrun', hmem⟩ := hother ha
  rw [hrun] at hrun'
  cases hrun'
  have hnodup := hw.nodup
  rw [hrun, List.map_cons, List.nodup_cons] at hnodup
  exact hnodup.1 (hne ▸ List.mem_map_of_mem hmem)

omit [Ord κ] [Std.TransOrd κ] in
theorem contents_setSet {i j : Nat} {s s' t t' : SharedSet κ ν} (hs : w.sets[i]? = some s)
    (ht : w.sets[j]? = some t) (ht' : (w.setSet i s').sets[j]? = some t')
    (h : i = j → s'.contents = s.contents) : t'.contents = t.contents := by
  obtain ⟨rfl, rfl, rfl⟩ | rfl := World.setSet_cases hs ht ht'
  · exact h rfl
  · rfl

omit [Std.TransOrd κ] in
/-- Only a step of an operation changes the contents of a set. -/
theorem contents (h : Passage w a o) (hw : w.Sound) (ha : a ≠ .proceed) {j : Nat}
    {t t' : SharedSet κ ν} (ht : w.sets[j]? = some t) (ht' : o.world.sets[j]? = some t') :
    t'.contents = t.contents := by
  cases h with
  | misuse =>
    rw [ht] at ht'
    cases ht'
    rfl
  | sweep _ _ _ _ hs hsheds hdrops =>
    exact contents_setSet hs ht ht' fun _ => (hw.sets _ _ hs).contents_shed hsheds hdrops
  | register hs | release _ _ hs | resume _ _ hs => exact contents_setSet hs ht ht' fun _ => rfl
  | begin h i lane call offer hx hidle hset hs hopens hpin =>
    have hsame := SharedSet.contents_opens hopens (hw.sets _ _ hs)
    exact contents_setSet hs ht ht' fun _ => hsame
  | goes | ends => exact absurd rfl ha

end Passage

end MarkedChain
