import Aqueduct.Broker.RefLedger

/-!
The calls on `MessageRef` objects against the ledger. The references that exist
are the ones in the threads' hands and the ones that a call of `Release` is
still to give up. A call that has brought a counter to 0 has the object to itself
until the pool gets it, and so has a call of an `Acquire` function before it
returns. Each step of a call is taken with the call out of its thread.
-/

namespace Aqueduct.Broker.Nested

open ByteStr RefCount RefWorld
open scoped List

/-! ## What a thread has -/

/-- The reference that a call of `Release` is still to give up. -/
def Releasing.tokens (f : Releasing) : List Ref :=
  match f.stage with
  | .decrement => [f.ref]
  | .zero (some p) => [⟨p, f.ref.buffer⟩]
  | _ => []

/-- The object a call of `Release` has to itself. -/
def Releasing.privates (f : Releasing) : List Nat :=
  match f.stage with
  | .decrement => []
  | _ => [f.ref.obj]

/-- The buffer a call of `Release` is about to return. -/
def Releasing.pending (f : Releasing) : List Nat :=
  match f.stage with
  | .zero none => f.ref.buffer.toList
  | _ => []

def Acquiring.privates (a : Acquiring) : List Nat :=
  match a.stage with
  | .get => []
  | .fill m | .store m | .retainParent m => [m]

/-- The buffer that waits for its message. -/
def Acquiring.inflight (a : Acquiring) : List Nat :=
  if a.target.parent = none then a.buffer.toList else []

namespace Holder

def tokens (th : Holder) : List Ref :=
  th.held.map Held.ref ++ th.releasing.flatMap Releasing.tokens

def privates (th : Holder) : List Nat :=
  th.acquiring.toList.flatMap Acquiring.privates ++ th.releasing.flatMap Releasing.privates

def pending (th : Holder) : List Nat := th.releasing.flatMap Releasing.pending

def inflight (th : Holder) : List Nat := th.acquiring.toList.flatMap Acquiring.inflight

end Holder

/-- The object of a call was not recycled since, nor was an object it goes on to,
and it is as the call found it. -/
structure ReleasingOK (s : RefWorld) (f : Releasing) : Prop where
  gen : s.gen f.ref.obj = f.gen f.ref.obj
  above : ∀ r ∈ f.tokens, ∀ x, Above s.objs r.obj x → s.gen x = f.gen x
  zero : ∀ p, f.stage = .zero p → (s.objs f.ref.obj).parent = p ∧
    (p = none → (s.objs f.ref.obj).buf = f.ref.buffer)

/-- The object of a call has the fields written so far, and a parent is held. -/
structure AcquiringOK (s : RefWorld) (held : List Held) (a : Acquiring) : Prop where
  target : a.target = acquireMessageRef a.buffer ∨
    ∃ p frame topicOffset expiresAt, a.target = acquireChildMessageRef p frame topicOffset expiresAt ∧
      FrameIn a.buffer frame ∧ ∃ h ∈ held, h.ref = ⟨p, a.buffer⟩
  store : ∀ m, a.stage = .store m → { s.objs m with ref := 1 } = a.target
  retainParent : ∀ m, a.stage = .retainParent m → s.objs m = a.target

structure HolderOK (s : RefWorld) (th : Holder) : Prop where
  views : ∀ h ∈ th.held, s.bufOf h.ref.obj = h.view
  releasing : ∀ f ∈ th.releasing, ReleasingOK s f
  acquiring : ∀ a ∈ th.acquiring, AcquiringOK s th.held a

/-- The threads with some loose parts: references `T`, objects `P`, buffers to be
returned `Q` and buffers without a message `N`. -/
structure Parts (s : RefWorld) (g : Ghost) (ths : List Holder) (T : List Ref) (P Q N : List Nat) :
    Prop where
  counts : Counts s.objs g (T ++ ths.flatMap Holder.tokens)
  privacy : Privacy g s.pool (P ++ ths.flatMap Holder.privates) s.nextObj
  buffers : Buffers g s.returned s.nextBuf (Q ++ ths.flatMap Holder.pending)
    (N ++ ths.flatMap Holder.inflight)
  holders : ∀ th ∈ ths, HolderOK s th

/-! ## What a step leaves alone -/

theorem ReleasingOK.congr {s s' : RefWorld} {f : Releasing} (h : ReleasingOK s f)
    (hgen : s'.gen f.ref.obj = s.gen f.ref.obj)
    (habove : ∀ r ∈ f.tokens, ∀ x, Above s'.objs r.obj x →
      Above s.objs r.obj x ∧ s'.gen x = s.gen x)
    (hobj : f.ref.obj ∈ f.privates → s'.objs f.ref.obj = s.objs f.ref.obj) : ReleasingOK s' f := by
  refine ⟨hgen.trans h.gen, fun r hr x hx => ?_, fun p hp => ?_⟩
  · obtain ⟨hx, hxgen⟩ := habove r hr x hx
    exact hxgen.trans (h.above r hr x hx)
  · rw [hobj (by simp [Releasing.privates, hp])]
    exact h.zero p hp

theorem AcquiringOK.congr {s s' : RefWorld} {held : List Held} {a : Acquiring}
    (h : AcquiringOK s held a) (hobj : ∀ m ∈ a.privates, s'.objs m = s.objs m) :
    AcquiringOK s' held a := by
  refine ⟨h.target, fun m hm => ?_, fun m hm => ?_⟩
  · rw [hobj m (by simp [Acquiring.privates, hm])]
    exact h.store m hm
  · rw [hobj m (by simp [Acquiring.privates, hm])]
    exact h.retainParent m hm

theorem HolderOK.congr {s s' : RefWorld} {th : Holder} (h : HolderOK s th)
    (hviews : ∀ r ∈ th.tokens, s'.bufOf r.obj = s.bufOf r.obj)
    (habove : ∀ r ∈ th.tokens, ∀ x, Above s'.objs r.obj x →
      Above s.objs r.obj x ∧ s'.gen x = s.gen x)
    (hgens : ∀ f ∈ th.releasing, s'.gen f.ref.obj = s.gen f.ref.obj)
    (hobjs : ∀ m ∈ th.privates, s'.objs m = s.objs m) : HolderOK s' th := by
  refine ⟨fun e he => ?_, fun f hf => ?_, fun a ha => ?_⟩
  · rw [hviews e.ref (List.mem_append_left _ (List.mem_map_of_mem he))]
    exact h.views e he
  · refine (h.releasing f hf).congr (hgens f hf) (fun r hr => habove r ?_) fun hm => hobjs _ ?_
    · exact List.mem_append_right _ (List.mem_flatMap.mpr ⟨f, hf, hr⟩)
    · exact List.mem_append_right _ (List.mem_flatMap.mpr ⟨f, hf, hm⟩)
  · refine (h.acquiring a ha).congr fun m hm => hobjs m ?_
    exact List.mem_append_left _ (List.mem_flatMap.mpr ⟨a, Option.mem_toList.mpr ha, hm⟩)

namespace RefWorld

@[simp] theorem bufOf_addRef (s : RefWorld) (m x : Nat) (n : Int) :
    (s.addRef m n).bufOf x = s.bufOf x := by
  by_cases hx : x = m
  · subst hx
    simp [bufOf, addRef, setObj]
  · simp [bufOf, addRef, setObj, hx]

@[simp] theorem parent_addRef (s : RefWorld) (m x : Nat) (n : Int) :
    ((s.addRef m n).objs x).parent = (s.objs x).parent := by
  by_cases hx : x = m
  · subst hx
    simp [addRef, setObj]
  · simp [addRef, setObj, hx]

@[simp] theorem above_addRef (s : RefWorld) (m : Nat) (n : Int) :
    Above (s.addRef m n).objs = Above s.objs := by
  simp only [Above, parent_addRef]

end RefWorld

namespace Parts

variable {s s' : RefWorld} {g : Ghost} {ths : List Holder} {T : List Ref} {P Q N : List Nat}

/-- The object of a call of `Release` is in use, or the call has it to itself. -/
theorem releasing_cases {th : Holder} (hth : th ∈ ths) {f : Releasing} (hf : f ∈ th.releasing) :
    f.ref ∈ ths.flatMap Holder.tokens ∨ f.ref.obj ∈ ths.flatMap Holder.privates := by
  cases hstage : f.stage with
  | decrement =>
    refine .inl (List.mem_flatMap.mpr ⟨th, hth, List.mem_append_right _ ?_⟩)
    exact List.mem_flatMap.mpr ⟨f, hf, by simp [Releasing.tokens, hstage]⟩
  | zero p | clear | put =>
    refine .inr (List.mem_flatMap.mpr ⟨th, hth, List.mem_append_right _ ?_⟩)
    exact List.mem_flatMap.mpr ⟨f, hf, by simp [Releasing.privates, hstage]⟩

theorem ne_private (h : Parts s g ths T P Q N) {r : Ref} (hr : r ∈ T ++ ths.flatMap Holder.tokens)
    {m : Nat} (hm : m ∈ P ++ ths.flatMap Holder.privates) : r.obj ≠ m := by
  obtain ⟨c, hc⟩ := h.counts.live hr
  rintro rfl
  exact h.privacy.dead _ (.inl (List.mem_append_right _ hm)) c hc

theorem holders_private {m : Nat} (h : Parts s g ths T (m :: P) Q N)
    (hobjs : ∀ x, x ≠ m → s'.objs x = s.objs x) (hgen : ∀ x, x ≠ m → s'.gen x = s.gen x)
    (hmem : s'.mem = s.mem) : ∀ th ∈ ths, HolderOK s' th := by
  have hout : m ∉ ths.flatMap Holder.privates := fun hmem =>
    h.privacy.tail.2.1 (List.mem_append_right _ (List.mem_append_right _ hmem))
  have hlive : ∀ r ∈ ths.flatMap Holder.tokens, r.obj ≠ m := fun r hr =>
    h.ne_private (List.mem_append_right _ hr) (List.mem_append_left _ List.mem_cons_self)
  have hdead : ∀ x c, g.Live x c → x ≠ m := by
    rintro x c hc rfl
    exact h.privacy.dead x (.inl (by simp)) c hc
  intro th hth
  refine (h.holders th hth).congr (fun r hr => ?_) (fun r hr x hx => ?_) (fun f hf => hgen _ ?_)
    (fun x hx => hobjs x ?_)
  · have hne := hlive r (List.mem_flatMap.mpr ⟨th, hth, hr⟩)
    simp only [bufOf, hobjs _ hne, hmem]
  · obtain ⟨c, hc⟩ := h.counts.live (List.mem_append_right T (List.mem_flatMap.mpr ⟨th, hth, hr⟩))
    obtain ⟨hx, d, hd⟩ := h.counts.above hc (fun y d hd => by rw [hobjs y (hdead y d hd)]) hx
    exact ⟨hx, hgen x (hdead x d hd)⟩
  · rcases releasing_cases hth hf with htok | hpriv
    · exact hlive _ htok
    · exact fun heq => hout (heq ▸ hpriv)
  · rintro rfl
    exact hout (List.mem_flatMap.mpr ⟨th, hth, hx⟩)

theorem holders_addRef (h : Parts s g ths T P Q N) {r : Ref}
    (hr : r ∈ T ++ ths.flatMap Holder.tokens) (n : Int) :
    ∀ th ∈ ths, HolderOK (s.addRef r.obj n) th := by
  intro th hth
  refine (h.holders th hth).congr (fun _ _ => bufOf_addRef ..)
    (fun _ _ x hx => ⟨above_addRef s r.obj n ▸ hx, rfl⟩) (fun _ _ => rfl) fun x hx => ?_
  have hne : r.obj ≠ x :=
    h.ne_private hr (List.mem_append_right _ (List.mem_flatMap.mpr ⟨th, hth, hx⟩))
  exact Function.update_of_ne (Ne.symm hne) _ _

theorem setObj {m : Nat} (h : Parts s g ths T [m] Q N)
    (o : MsgObject) : Parts (s.setObj m o) g ths T [m] Q N := by
  have hdead : ∀ c, ¬ g.Live m c := h.privacy.dead m (.inl (by simp))
  refine ⟨h.counts.congr fun x c hx => ?_, h.privacy, h.buffers, ?_⟩
  · have hne : x ≠ m := fun heq => hdead c (heq ▸ hx)
    exact Function.update_of_ne hne _ _
  · exact h.holders_private (fun x hx => Function.update_of_ne hx _ _) (fun _ _ => rfl) rfl

end Parts

/-! ## Steps of `Release` -/

/-- The threads with the calls `fs` of `Release` taken off a stack. -/
structure WithCalls (s : RefWorld) (g : Ghost) (ths : List Holder) (fs : List Releasing) : Prop where
  parts : Parts s g ths (fs.flatMap Releasing.tokens) (fs.flatMap Releasing.privates)
    (fs.flatMap Releasing.pending) []
  ok : ∀ f ∈ fs, ReleasingOK s f

namespace WithCalls

variable {s : RefWorld} {g : Ghost} {ths : List Holder} {f : Releasing}

theorem decrement_parts (h : WithCalls s g ths [f]) (hstage : f.stage = .decrement) :
    Parts s g ths [f.ref] [] [] [] := by
  simpa [Releasing.tokens, Releasing.privates, Releasing.pending, hstage] using h.parts

theorem decrement_more (h : Parts s g ths [f.ref] [] [] [])
    (hmore : (s.objs f.ref.obj).ref - 1 ≠ 0) :
    ∃ g', WithCalls (s.addRef f.ref.obj (-1)) g' ths [] := by
  have hmem : f.ref ∈ [f.ref] ++ ths.flatMap Holder.tokens := List.mem_cons_self
  obtain ⟨c, hc⟩ := h.counts.live hmem
  have href := (h.counts.shows _ c hc).ref
  refine ⟨g.withHeap (RefCount.release g.heap (g.cell f.ref.obj)).1, ⟨?_, ?_, ?_, ?_⟩, nofun⟩
  · have hcounts := h.counts.release (r := f.ref) (.refl _)
    rw [Ref.next, if_neg hmore] at hcounts
    exact hcounts
  · exact h.privacy.withHeap hc (getElem?_release hc.1)
  · refine h.buffers.congr (fun i => ?_) fun _ _ _ => rfl
    rw [Ghost.withHeap, returnedAt_release hc.1, if_neg fun hand => hmore (href ▸ hand.2.1)]
  · exact h.holders_addRef hmem (-1)

theorem decrement_last (h : Parts s g ths [f.ref] [] [] []) (hok : ReleasingOK s f)
    (hstage : f.stage = .decrement) (hlast : (s.objs f.ref.obj).ref - 1 = 0) :
    ∃ g', WithCalls (s.addRef f.ref.obj (-1)) g' ths
      [{ f with stage := .zero (s.objs f.ref.obj).parent }] := by
  have hmem : f.ref ∈ [f.ref] ++ ths.flatMap Holder.tokens := List.mem_cons_self
  obtain ⟨c, hc⟩ := h.counts.live hmem
  have hshow := h.counts.shows _ c hc
  have hroot := h.counts.roots _ hmem
  have hout := h.privacy.not_mem hc
  have hself : (s.addRef f.ref.obj (-1)).objs f.ref.obj =
      { s.objs f.ref.obj with ref := (s.objs f.ref.obj).ref + -1 } := Function.update_self _ _ _
  have hcounts := h.counts.release (r := f.ref) (.refl _)
  refine ⟨g.withHeap (RefCount.release g.heap (g.cell f.ref.obj)).1, ⟨?_, ?_, ?_, ?_⟩, ?_⟩
  · rw [Ref.next, if_pos hlast] at hcounts
    cases hp : (s.objs f.ref.obj).parent <;> rw [hp] at hcounts <;> exact hcounts
  · exact (h.privacy.withHeap hc (getElem?_release hc.1)).cons (h.counts.release_dead hmem hlast)
      hout.1 hout.2
  · cases hp : (s.objs f.ref.obj).parent with
    | none =>
      -- the cell owned the buffer, which the call is now to return
      have hcp : c.parent = none := by rw [hshow.parent, hp]; rfl
      have hk : returnedAt g.heap (g.cell f.ref.obj) = some c.returned :=
        returnedAt_eq_some.mpr ⟨c, hc.1, hcp, rfl⟩
      have hlast' : c.count - 1 = 0 := hshow.ref ▸ hlast
      have hbuf := h.buffers.last hk fun i => by
        rw [returnedAt_release hc.1]
        simp [hlast', hcp]
      rw [hroot] at hbuf
      exact hbuf.perm (by simp [Releasing.pending]) (.refl _)
    | some p =>
      have hcp : c.parent ≠ none := by simp [hshow.parent, hp]
      refine h.buffers.congr (fun i => ?_) fun _ _ _ => rfl
      rw [Ghost.withHeap, returnedAt_release hc.1, if_neg fun hand => hcp hand.2.2]
  · exact h.holders_addRef hmem (-1)
  · intro f' hf'
    obtain rfl := List.mem_singleton.mp hf'
    refine ⟨hok.gen, fun r hr x hx => ?_, ?_⟩
    · rw [above_addRef] at hx
      cases hp : (s.objs f.ref.obj).parent with
      | none => simp [Releasing.tokens, hp] at hr
      | some p =>
        obtain rfl : r = ⟨p, f.ref.buffer⟩ := by simpa [Releasing.tokens, hp] using hr
        exact hok.above f.ref (by simp [Releasing.tokens, hstage]) x (hx.head hp)
    · rintro p ⟨⟩
      rw [hself]
      exact ⟨rfl, fun hp => (hshow.top hp).1.trans hroot⟩

/-- The branch on the parent: on to its `Release`, or `ReleaseBuffer`. -/
theorem zero_step (h : WithCalls s g ths [f]) {p : Option Nat} (hstage : f.stage = .zero p) :
    ∃ g', WithCalls (s.releaseStep f).1 g' ths (s.releaseStep f).2 := by
  have hok := h.ok f List.mem_cons_self
  obtain ⟨hparent, hbuf⟩ := hok.zero p hstage
  refine ⟨g, ?_⟩
  have hclear : ∀ {s' : RefWorld}, s'.gen = s.gen → ReleasingOK s' { f with stage := .clear } :=
    fun hgen => ⟨by rw [hgen]; exact hok.gen, nofun, nofun⟩
  simp only [RefWorld.releaseStep, hstage, hparent]
  cases p with
  | some p =>
    have hparts : Parts s g ths [⟨p, f.ref.buffer⟩] [f.ref.obj] [] [] := by
      simpa [Releasing.tokens, Releasing.privates, Releasing.pending, hstage] using h.parts
    refine ⟨hparts, fun f' hf' => ?_⟩
    rcases List.mem_cons.mp hf' with rfl | hf'
    · have habove := hok.above ⟨p, f.ref.buffer⟩ (by simp [Releasing.tokens, hstage])
      refine ⟨habove p .refl, fun r hr => ?_, nofun⟩
      obtain rfl := List.mem_singleton.mp hr
      exact habove
    · obtain rfl := List.mem_singleton.mp hf'
      exact hclear rfl
  | none =>
    have hparts : Parts s g ths [] [f.ref.obj] f.ref.buffer.toList [] := by
      simpa [Releasing.tokens, Releasing.privates, Releasing.pending, hstage] using h.parts
    rw [hbuf rfl]
    cases hb : f.ref.buffer with
    | none =>
      rw [hb] at hparts
      refine ⟨hparts, fun f' hf' => ?_⟩
      obtain rfl := List.mem_singleton.mp hf'
      exact hclear rfl
    | some b =>
      rw [hb] at hparts
      refine ⟨⟨(hparts.setObj _).counts, hparts.privacy, hparts.buffers.giveBack, ?_⟩,
        fun f' hf' => ?_⟩
      · exact hparts.holders_private (fun x hx => Function.update_of_ne hx _ _) (fun _ _ => rfl) rfl
      · obtain rfl := List.mem_singleton.mp hf'
        exact hclear rfl

theorem clear_step (h : WithCalls s g ths [f]) (hstage : f.stage = .clear) :
    WithCalls (s.releaseStep f).1 g ths (s.releaseStep f).2 := by
  have hparts : Parts s g ths [] [f.ref.obj] [] [] := by
    simpa [Releasing.tokens, Releasing.privates, Releasing.pending, hstage] using h.parts
  simp only [RefWorld.releaseStep, hstage]
  refine ⟨hparts.setObj _, fun f' hf' => ?_⟩
  obtain rfl := List.mem_singleton.mp hf'
  exact ⟨(h.ok f List.mem_cons_self).gen, nofun, nofun⟩

theorem put_step (h : WithCalls s g ths [f]) (hstage : f.stage = .put) :
    WithCalls (s.releaseStep f).1 g ths (s.releaseStep f).2 := by
  have hparts : Parts s g ths [] [f.ref.obj] [] [] := by
    simpa [Releasing.tokens, Releasing.privates, Releasing.pending, hstage] using h.parts
  simp only [RefWorld.releaseStep, hstage]
  refine ⟨⟨hparts.counts, hparts.privacy.perm List.perm_middle, hparts.buffers, ?_⟩, nofun⟩
  exact hparts.holders_private (fun _ _ => rfl) (fun x hx => Function.update_of_ne hx _ _) rfl

theorem releaseStep (h : WithCalls s g ths [f]) :
    ∃ g', WithCalls (s.releaseStep f).1 g' ths (s.releaseStep f).2 := by
  have hok := h.ok f List.mem_cons_self
  cases hstage : f.stage with
  | decrement =>
    have hparts := h.decrement_parts hstage
    have hwraps := hparts.counts.wraps_iff (r := f.ref) List.mem_cons_self
    simp only [RefWorld.releaseStep, hstage]
    by_cases hlast : (s.objs f.ref.obj).ref - 1 = 0
    · rw [if_pos (hwraps.mpr hlast)]
      exact decrement_last hparts hok hstage hlast
    · rw [if_neg (mt hwraps.mp hlast)]
      exact decrement_more hparts hlast
  | zero p => exact h.zero_step hstage
  | clear => exact ⟨g, h.clear_step hstage⟩
  | put => exact ⟨g, h.put_step hstage⟩

end WithCalls

/-! ## Steps of the `Acquire` functions -/

/-- The threads with the call `a` of an `Acquire` function taken off one of them,
which holds `held`. -/
structure WithAcquire (s : RefWorld) (g : Ghost) (ths : List Holder) (held : List Held)
    (a : Acquiring) : Prop where
  parts : Parts s g ths [] a.privates [] a.inflight
  ok : AcquiringOK s held a
  held : ∀ h ∈ held, h.ref ∈ ths.flatMap Holder.tokens

/-- A call returns the reference `h`. -/
structure Obtained (s : RefWorld) (g : Ghost) (ths : List Holder) (h : Held) : Prop where
  parts : Parts s g ths [h.ref] [] [] []
  view : s.bufOf h.ref.obj = h.view

theorem Obtained.of_parts {s : RefWorld} {g : Ghost} {ths : List Holder} {r : Ref}
    (h : Parts s g ths [r] [] [] []) : Obtained s g ths ⟨r, s.bufOf r.obj⟩ := ⟨h, rfl⟩

theorem getObject_frame (s : RefWorld) (choice : Option Nat) :
    (s.getObject choice).1 = { s with
      pool := (s.getObject choice).1.pool, nextObj := (s.getObject choice).1.nextObj } := by
  unfold getObject
  split
  · split <;> rfl
  · rfl

theorem target_ref {s : RefWorld} {held : List Held} {a : Acquiring} (h : AcquiringOK s held a) :
    { a.target with ref := 1 } = a.target := by
  rcases h.target with ht | ⟨_, _, _, _, ht, -⟩ <;> rw [ht] <;> rfl

namespace WithAcquire

variable {s : RefWorld} {g : Ghost} {ths : List Holder} {held : List Held} {a : Acquiring} {m : Nat}

theorem get_step (h : WithAcquire s g ths held a) (hstage : a.stage = .get) (choice : Option Nat) :
    WithAcquire (s.getObject choice).1 g ths held
      { a with stage := .fill (s.getObject choice).2 } := by
  have hparts : Parts s g ths [] [] [] a.inflight := by
    simpa [Acquiring.privates, hstage] using h.parts
  have hframe := getObject_frame s choice
  refine ⟨⟨?_, hparts.privacy.get choice, ?_, ?_⟩, ⟨h.ok.target, nofun, nofun⟩, h.held⟩
  · rw [hframe]
    exact hparts.counts
  · rw [hframe]
    exact hparts.buffers
  · intro th hth
    rw [hframe]
    exact (hparts.holders th hth).congr (fun _ _ => rfl) (fun _ _ _ hx => ⟨hx, rfl⟩) (fun _ _ => rfl)
      (fun _ _ => rfl)

theorem loose (h : WithAcquire s g ths held a) (hm : a.privates = [m]) :
    Parts s g ths [] [m] [] a.inflight := hm ▸ h.parts

theorem fill_step (h : WithAcquire s g ths held a) (hstage : a.stage = .fill m) :
    WithAcquire (s.setObj m { a.target with ref := (s.objs m).ref }) g ths held
      { a with stage := .store m } := by
  have hparts := h.loose (m := m) (by simp [Acquiring.privates, hstage])
  refine ⟨hparts.setObj _, ⟨h.ok.target, ?_, nofun⟩, h.held⟩
  rintro _ ⟨⟩
  simp only [setObj, Function.update_self]
  exact target_ref h.ok

theorem store_child (h : WithAcquire s g ths held a) (hstage : a.stage = .store m) :
    WithAcquire (s.setObj m { s.objs m with ref := 1 }) g ths held
      { a with stage := .retainParent m } := by
  have hparts := h.loose (m := m) (by simp [Acquiring.privates, hstage])
  refine ⟨hparts.setObj _, ⟨h.ok.target, nofun, ?_⟩, h.held⟩
  rintro _ ⟨⟩
  simp only [setObj, Function.update_self]
  exact h.ok.store m hstage

theorem store_top (h : WithAcquire s g ths held a) (hstage : a.stage = .store m)
    (hparent : a.target.parent = none) :
    ∃ g', Parts (s.setObj m { s.objs m with ref := 1 }) g' ths [⟨m, a.buffer⟩] [] [] [] := by
  have hparts := (h.loose (m := m) (by simp [Acquiring.privates, hstage])).setObj
    { s.objs m with ref := 1 }
  have htarget : a.target = acquireMessageRef a.buffer := by
    rcases h.ok.target with ht | ⟨_, _, _, _, ht, -⟩
    · exact ht
    · rw [ht] at hparent
      cases hparent
  have hobj : (s.setObj m { s.objs m with ref := 1 }).objs m = acquireMessageRef a.buffer := by
    simp only [setObj, Function.update_self]
    exact (h.ok.store m hstage).trans htarget
  have hdead : ∀ c, ¬ g.Live m c := hparts.privacy.dead m (.inl (by simp))
  have hinflight : a.inflight = a.buffer.toList := by simp [Acquiring.inflight, hparent]
  obtain ⟨hprivacy, hout⟩ := hparts.privacy.tail
  refine ⟨g.add m ⟨1, none, 0⟩ a.buffer, hparts.counts.acquire hdead hobj, ?_, ?_, hparts.holders⟩
  · refine hprivacy.congr fun x c hx => ?_
    rcases hparts.counts.add_live hx with ⟨rfl, -⟩ | ⟨-, hlive⟩
    · exact .inr hout
    · exact .inl ⟨c, hlive⟩
  · have hbuffers := hparts.buffers
    rw [hinflight] at hbuffers
    exact hbuffers.store

theorem retain_parent (h : WithAcquire s g ths held a) (hstage : a.stage = .retainParent m) {p : Nat}
    (hparent : a.target.parent = some p) (hroom : (s.objs p).ref < 2 ^ 32) :
    ∃ g', Parts (s.addRef p 1) g' ths [⟨m, a.buffer⟩] [] [] [] := by
  obtain ⟨frame, topicOffset, expiresAt, htarget, hframe, e, he, href⟩ :
      ∃ frame topicOffset expiresAt,
        a.target = acquireChildMessageRef p frame topicOffset expiresAt ∧ FrameIn a.buffer frame ∧
          ∃ h ∈ held, h.ref = ⟨p, a.buffer⟩ := by
    rcases h.ok.target with ht | ⟨q, frame, topicOffset, expiresAt, ht, hframe, hheld⟩
    · rw [ht] at hparent
      cases hparent
    · rw [ht] at hparent
      cases hparent
      exact ⟨frame, topicOffset, expiresAt, ht, hframe, hheld⟩
  have hparts : Parts s g ths [] [m] [] [] := by
    simpa [Acquiring.privates, Acquiring.inflight, hstage, hparent] using h.parts
  have hr : (⟨p, a.buffer⟩ : Ref) ∈ ths.flatMap Holder.tokens := href ▸ h.held e he
  have hdead : ∀ c, ¬ g.Live m c := hparts.privacy.dead m (.inl (by simp))
  obtain ⟨c, hc⟩ := hparts.counts.live hr
  have hcounts := hparts.counts.acquireChild hr hroom hdead
    ((h.ok.retainParent m hstage).trans htarget) hframe
  have hret := hparts.counts.retain hr hroom
  obtain ⟨hprivacy, hout⟩ := hparts.privacy.tail
  refine ⟨_, hcounts, ?_, ?_, hparts.holders_addRef hr 1⟩
  · refine (hprivacy.withHeap hc (getElem?_retain hc.1)).congr fun x d hx => ?_
    rcases hret.add_live hx with ⟨rfl, -⟩ | ⟨-, hlive⟩
    · exact .inr hout
    · exact .inl ⟨_, hlive⟩
  · refine hparts.buffers.congr (fun i => ?_) fun i n hi => ?_
    · rw [Ghost.add, returnedAt_append]
      by_cases hlen : i = (g.withHeap (RefCount.retain g.heap (g.cell p))).heap.length
      · rw [if_pos hlen, hlen]
        have hnone : returnedAt g.heap (RefCount.retain g.heap (g.cell p)).length = none := by
          rw [returnedAt, List.getElem?_eq_none (by simp [RefCount.retain])]
        exact hnone.symm
      · rw [if_neg hlen]
        exact returnedAt_retain ..
    · have hlt : i < g.heap.length := by
        obtain ⟨d, hd, -⟩ := returnedAt_eq_some.mp hi
        exact (List.getElem?_eq_some_iff.mp hd).1
      refine Function.update_of_ne (Nat.ne_of_lt ?_) _ _
      simpa [Ghost.withHeap, RefCount.retain] using hlt

end WithAcquire

/-! ## Taking threads apart -/

theorem AcquiringOK.mono {s : RefWorld} {held held' : List Held} {a : Acquiring}
    (h : AcquiringOK s held a) (hsub : held ⊆ held') : AcquiringOK s held' a := by
  refine ⟨h.target.imp_right ?_, h.store, h.retainParent⟩
  rintro ⟨p, frame, topicOffset, expiresAt, ht, hframe, e, he, href⟩
  exact ⟨p, frame, topicOffset, expiresAt, ht, hframe, e, hsub he, href⟩

namespace Parts

variable {s : RefWorld} {g : Ghost} {ths ths' rest : List Holder} {T T' : List Ref}
  {P P' Q Q' N N' : List Nat} {th : Holder} {f : Releasing} {h : Held}

/-- Only what there is altogether matters. -/
theorem rearrange (hs : Parts s g ths T P Q N)
    (hT : T ++ ths.flatMap Holder.tokens ~ T' ++ ths'.flatMap Holder.tokens)
    (hP : P ++ ths.flatMap Holder.privates ~ P' ++ ths'.flatMap Holder.privates)
    (hQ : Q ++ ths.flatMap Holder.pending ~ Q' ++ ths'.flatMap Holder.pending)
    (hN : N ++ ths.flatMap Holder.inflight ~ N' ++ ths'.flatMap Holder.inflight)
    (hok : ∀ th ∈ ths', HolderOK s th) : Parts s g ths' T' P' Q' N' :=
  ⟨hs.counts.perm hT, hs.privacy.perm (hP.append_left s.pool), hs.buffers.perm hQ hN, hok⟩

theorem perm (hs : Parts s g ths T P Q N) (hp : ths.Perm ths') : Parts s g ths' T P Q N :=
  hs.rearrange ((hp.flatMap_right _).append_left T) ((hp.flatMap_right _).append_left P)
    ((hp.flatMap_right _).append_left Q) ((hp.flatMap_right _).append_left N)
    fun th hth => hs.holders th (hp.mem_iff.mpr hth)

/-- One thread exchanges what it has for loose parts. -/
theorem exchange {th' : Holder} (hs : Parts s g (th :: rest) T P Q N)
    (hT : T ++ th.tokens ~ T' ++ th'.tokens) (hP : P ++ th.privates ~ P' ++ th'.privates)
    (hQ : Q ++ th.pending ~ Q' ++ th'.pending) (hN : N ++ th.inflight ~ N' ++ th'.inflight)
    (hok : HolderOK s th') : Parts s g (th' :: rest) T' P' Q' N' := by
  refine hs.rearrange ?_ ?_ ?_ ?_ fun u hu => ?_
  · simpa only [List.flatMap_cons, List.append_assoc] using hT.append_right (rest.flatMap Holder.tokens)
  · simpa only [List.flatMap_cons, List.append_assoc] using
      hP.append_right (rest.flatMap Holder.privates)
  · simpa only [List.flatMap_cons, List.append_assoc] using
      hQ.append_right (rest.flatMap Holder.pending)
  · simpa only [List.flatMap_cons, List.append_assoc] using
      hN.append_right (rest.flatMap Holder.inflight)
  · rcases List.mem_cons.mp hu with rfl | hu
    · exact hok
    · exact hs.holders u (List.mem_cons_of_mem _ hu)

/-- The innermost call of `Release` is taken off its stack. -/
theorem detach_call {calls : List Releasing} (hf : th.releasing = f :: calls)
    (hs : Parts s g (th :: rest) [] [] [] []) :
    WithCalls s g ({ th with releasing := calls } :: rest) [f] := by
  have hok := hs.holders th List.mem_cons_self
  refine ⟨hs.exchange ?_ ?_ ?_ (.refl _) ?_, fun f' hf' => ?_⟩
  · simpa [Holder.tokens, hf] using List.perm_append_comm_assoc _ _ _
  · simpa [Holder.privates, hf] using List.perm_append_comm_assoc _ _ _
  · simp [Holder.pending, hf]
  · exact ⟨hok.views, fun f' hf' => hok.releasing f' (hf ▸ List.mem_cons_of_mem f hf'), hok.acquiring⟩
  · obtain rfl := List.mem_singleton.mp hf'
    exact hok.releasing f' (hf ▸ List.mem_cons_self)

theorem attach_calls {fs : List Releasing} (hs : WithCalls s g (th :: rest) fs) :
    Parts s g ({ th with releasing := fs ++ th.releasing } :: rest) [] [] [] [] := by
  have hok := hs.parts.holders th List.mem_cons_self
  refine hs.parts.exchange ?_ ?_ ?_ (.refl _) ⟨hok.views, fun f' hf' => ?_, hok.acquiring⟩
  · simpa [Holder.tokens] using List.perm_append_comm_assoc _ _ _
  · simpa [Holder.privates] using List.perm_append_comm_assoc _ _ _
  · simp [Holder.pending]
  · rcases List.mem_append.mp hf' with hf' | hf'
    exacts [hs.ok f' hf', hok.releasing f' hf']

theorem detach_acquire {a : Acquiring} (ha : th.acquiring = some a)
    (hs : Parts s g (th :: rest) [] [] [] []) :
    WithAcquire s g ({ th with acquiring := none } :: rest) th.held a := by
  have hok := hs.holders th List.mem_cons_self
  refine ⟨hs.exchange (.refl _) ?_ (.refl _) ?_ ⟨hok.views, hok.releasing, nofun⟩,
    hok.acquiring a ha, fun e he => ?_⟩
  · simp [Holder.privates, ha]
  · simp [Holder.inflight, ha]
  · exact List.mem_flatMap.mpr ⟨_, List.mem_cons_self,
      List.mem_append_left _ (List.mem_map_of_mem he)⟩

theorem attach_acquire {a : Acquiring} (hnone : th.acquiring = none)
    (hs : Parts s g (th :: rest) [] a.privates [] a.inflight) (ha : AcquiringOK s th.held a) :
    Parts s g ({ th with acquiring := some a } :: rest) [] [] [] [] := by
  have hok := hs.holders th List.mem_cons_self
  refine hs.exchange (.refl _) ?_ (.refl _) ?_ ⟨hok.views, hok.releasing, ?_⟩
  · simp [Holder.privates, hnone]
  · simp [Holder.inflight, hnone]
  · rintro _ ⟨⟩
    exact ha

theorem detach_held {i : Nat} (hi : th.held[i]? = some h) (hnone : th.acquiring = none)
    (hs : Parts s g (th :: rest) [] [] [] []) :
    Obtained s g ({ th with held := th.held.eraseIdx i } :: rest) h := by
  have hok := hs.holders th List.mem_cons_self
  obtain ⟨hlt, hget⟩ := List.getElem?_eq_some_iff.mp hi
  have hperm : th.held ~ h :: th.held.eraseIdx i :=
    hget ▸ (List.getElem_cons_eraseIdx_perm hlt).symm
  refine ⟨hs.exchange ?_ (.refl _) (.refl _) (.refl _) ⟨fun e he => ?_, hok.releasing, ?_⟩,
    hok.views h (hperm.mem_iff.mpr List.mem_cons_self)⟩
  · exact (hperm.map Held.ref).append_right _
  · exact hok.views e (hperm.mem_iff.mpr (List.mem_cons_of_mem _ he))
  · rw [hnone]
    nofun

theorem attach_held (hs : Obtained s g (th :: rest) h) :
    Parts s g ({ th with held := h :: th.held } :: rest) [] [] [] [] := by
  have hok := hs.parts.holders th List.mem_cons_self
  refine hs.parts.exchange (by simp [Holder.tokens]) (.refl _) (.refl _) (.refl _)
    ⟨fun e he => ?_, hok.releasing, fun a ha => ?_⟩
  · rcases List.mem_cons.mp he with rfl | he
    exacts [hs.view, hok.views e he]
  · exact (hok.acquiring a ha).mono (List.subset_cons_self _ _)

end Parts

/-! ## Memory -/

namespace Parts

variable {s : RefWorld} {g : Ghost} {ths : List Holder} {T : List Ref} {P Q N : List Nat}

/-- The buffer of a reference has its message and is not given back. -/
theorem buffer_kept (h : Parts s g ths T P Q N) {r : Ref} (hr : r ∈ T ++ ths.flatMap Holder.tokens)
    {b : Nat} (hb : r.buffer = some b) : b < s.nextBuf ∧ s.returned b = 0 := by
  obtain ⟨c, hc⟩ := h.counts.live hr
  have hroot : g.root (g.cell r.obj) = some b := (h.counts.roots r hr).trans hb
  -- the top of the tree lies in the same buffer and is alive
  obtain ⟨k, d, hd, htop, hpos, hk⟩ := h.counts.accounts.live_top (P := fun i => g.root i = some b)
    (fun i e p hi hp hP => (h.counts.up i e p hi hp).symm.trans hP) hc.1 hc.2 hroot
  have hzero : d.returned = 0 := by
    rw [h.counts.accounts.returned k d hd, if_neg]
    rintro ⟨-, hcount⟩
    omega
  obtain ⟨hlt, -, hsum⟩ := h.buffers.owned k d.returned b
    (returnedAt_eq_some.mpr ⟨d, hd, htop, rfl⟩) hk
  exact ⟨hlt, by omega⟩

theorem bufOf_set (h : Parts s g ths T P Q N) {r : Ref} (hr : r ∈ T ++ ths.flatMap Holder.tokens)
    {b : Nat} (hb : r.buffer ≠ some b) {s' : RefWorld} (hobjs : s'.objs = s.objs) {data : Bytes}
    (hmem : s'.mem = s.mem.set b data) : s'.bufOf r.obj = s.bufOf r.obj := by
  obtain ⟨c, hc⟩ := h.counts.live hr
  have hshow := h.counts.shows _ c hc
  have hroot := h.counts.roots r hr
  unfold bufOf
  rw [hobjs, hmem]
  cases hframe : (s.objs r.obj).frame with
  | some slice =>
    have hparent : (s.objs r.obj).parent ≠ none := by
      intro htop
      rw [(hshow.top htop).2] at hframe
      cases hframe
    have hslice : r.buffer = some slice.buf :=
      hroot.symm.trans ((hshow.child hparent).2 slice hframe)
    have hne : slice.buf ≠ b := fun heq => hb (heq ▸ hslice)
    exact congrArg some (Store.read_set s.mem hne)
  | none =>
    cases hbuf : (s.objs r.obj).buf with
    | none => rfl
    | some b' =>
      have htop : (s.objs r.obj).parent = none := by
        by_contra hparent
        rw [(hshow.child hparent).1] at hbuf
        cases hbuf
      have hne : b' ≠ b := by
        rintro rfl
        exact hb (hroot.symm.trans ((hshow.top htop).1.symm.trans hbuf))
      exact congrArg some (if_neg hne)

theorem setMem (h : Parts s g ths T P Q N) {b : Nat}
    (hb : ∀ r ∈ T ++ ths.flatMap Holder.tokens, r.buffer ≠ some b) (data : Bytes) :
    Parts { s with mem := s.mem.set b data } g ths T P Q N := by
  refine ⟨h.counts, h.privacy, h.buffers, fun th hth => ?_⟩
  refine (h.holders th hth).congr (fun r hr => ?_) (fun _ _ _ hx => ⟨hx, rfl⟩) (fun _ _ => rfl)
    (fun _ _ => rfl)
  have hmem : r ∈ T ++ ths.flatMap Holder.tokens :=
    List.mem_append_right _ (List.mem_flatMap.mpr ⟨th, hth, hr⟩)
  exact h.bufOf_set hmem (hb r hmem) rfl rfl

theorem setThreads (h : Parts s g ths T P Q N) (threads : List Holder) :
    Parts { s with threads := threads } g ths T P Q N :=
  ⟨h.counts, h.privacy, h.buffers, fun th hth =>
    (h.holders th hth).congr (fun _ _ => rfl) (fun _ _ _ hx => ⟨hx, rfl⟩) (fun _ _ => rfl)
      (fun _ _ => rfl)⟩

end Parts

end Aqueduct.Broker.Nested
