import Aqueduct.Broker.RefCalls

/-!
Nested references are safe for threads that use only what they hold. As long as
a message or a child of it has a reference, its buffer stays and `Buf` does not
change; the last release returns the buffer; and a release touches no object
that was recycled since it began, also when it goes on to the parent.

The counter has 32 bits. With more than `2 ^ 32` references to one object it is
back at an earlier value, and a release then frees what others still hold.
-/

namespace Aqueduct.Broker.Nested

open ByteStr RefCount RefWorld
open scoped List

/-! ## Steps of the threads -/

/-- The object whose counter a step increments. -/
def RefWorld.addsTo (s : RefWorld) : RefLabel → Option Nat
  | .call t (.retain i) => (s.threads[t]?).bind fun th => (th.held[i]?).map fun h => h.ref.obj
  | .next t _ =>
    (s.threads[t]?).bind fun th => th.acquiring.bind fun a =>
      match a.stage with
      | .retainParent _ => a.target.parent
      | _ => none
  | _ => none

/-- The step makes no more than `2 ^ 32` references to one object. -/
def RefWorld.HasRoom (s : RefWorld) (l : RefLabel) : Prop :=
  ∀ m ∈ s.addsTo l, (s.objs m).ref < 2 ^ 32

instance (s : RefWorld) (l : RefLabel) : Decidable (s.HasRoom l) :=
  inferInstanceAs (Decidable (∀ m ∈ s.addsTo l, (s.objs m).ref < 2 ^ 32))

section Steps

variable {s s' : RefWorld} {g : Ghost} {th th' : Holder} {rest : List Holder}

theorem acquireStep_parts (h : Parts s g (th :: rest) [] [] [] []) {a : Acquiring}
    (ha : th.acquiring = some a) {choice : Option Nat}
    (hroom : ∀ m p, a.stage = .retainParent m → a.target.parent = some p → (s.objs p).ref < 2 ^ 32)
    (hs : s.acquireStep th a choice = some (s', th')) :
    ∃ g', Parts s' g' (th' :: rest) [] [] [] [] := by
  have hwith := Parts.detach_acquire ha h
  unfold acquireStep at hs
  cases hstage : a.stage with
  | get =>
    rw [hstage] at hs
    cases hs
    have hget := hwith.get_step hstage choice
    have hnext := Parts.attach_acquire rfl hget.parts hget.ok
    exact ⟨g, hnext⟩
  | fill m =>
    rw [hstage] at hs
    cases hs
    have hfill := hwith.fill_step hstage
    have hnext := Parts.attach_acquire rfl hfill.parts hfill.ok
    exact ⟨g, hnext⟩
  | store m =>
    rw [hstage] at hs
    dsimp only at hs
    split at hs
    · next hparent =>
      cases hs
      obtain ⟨g', hstore⟩ := hwith.store_top hstage hparent
      have hnext := Parts.attach_held (.of_parts hstore)
      exact ⟨g', hnext⟩
    · cases hs
      have hstore := hwith.store_child hstage
      have hnext := Parts.attach_acquire rfl hstore.parts hstore.ok
      exact ⟨g, hnext⟩
  | retainParent m =>
    rw [hstage] at hs
    dsimp only at hs
    split at hs
    · cases hs
    · next p hparent =>
      cases hs
      obtain ⟨g', hretain⟩ := hwith.retain_parent hstage hparent (hroom m p hstage hparent)
      have hnext := Parts.attach_held (.of_parts hretain)
      exact ⟨g', hnext⟩

theorem nextStep_parts (h : Parts s g (th :: rest) [] [] [] []) {choice : Option Nat}
    (hroom : ∀ a m p, th.acquiring = some a → a.stage = .retainParent m →
      a.target.parent = some p → (s.objs p).ref < 2 ^ 32)
    (hs : s.nextStep th choice = some (s', th')) :
    ∃ g', Parts s' g' (th' :: rest) [] [] [] [] := by
  unfold nextStep at hs
  split at hs
  · next a ha => exact acquireStep_parts h ha (fun m p => hroom a m p ha) hs
  · next f calls _ hf =>
    cases hs
    obtain ⟨g', hstep⟩ := (Parts.detach_call hf h).releaseStep
    exact ⟨g', Parts.attach_calls hstep⟩
  · cases hs

theorem callStep_parts (h : Parts s g (th :: rest) [] [] [] []) (hidle : th.idle = true)
    {c : RefCall} (hroom : ∀ i h, c = .retain i → th.held[i]? = some h → (s.objs h.ref.obj).ref < 2 ^ 32)
    (hs : s.callStep th c = some (s', th')) : ∃ g', Parts s' g' (th' :: rest) [] [] [] [] := by
  obtain ⟨hacq, hrel⟩ : th.acquiring = none ∧ th.releasing = [] := of_decide_eq_true hidle
  have hheld : ∀ {e : Held}, e ∈ th.held → e.ref ∈ (th :: rest).flatMap Holder.tokens := fun he =>
    List.mem_flatMap.mpr ⟨th, List.mem_cons_self, List.mem_append_left _ (List.mem_map_of_mem he)⟩
  unfold callStep at hs
  cases c with
  | acquire data =>
    cases data with
    | none =>
      cases hs
      exact ⟨g, Parts.attach_acquire hacq h ⟨.inl rfl, nofun, nofun⟩⟩
    | some bytes =>
      cases hs
      have hfresh : ∀ r ∈ [] ++ (th :: rest).flatMap Holder.tokens, r.buffer ≠ some s.nextBuf :=
        fun r hr hb => Nat.lt_irrefl _ (h.buffer_kept hr hb).1
      have hset := h.setMem hfresh bytes
      have hfill : Parts { s with mem := s.mem.set s.nextBuf bytes, nextBuf := s.nextBuf + 1 } g
          (th :: rest) [] [] [] [s.nextBuf] :=
        ⟨hset.counts, hset.privacy, hset.buffers.fill, fun u hu =>
          (hset.holders u hu).congr (fun _ _ => rfl) (fun _ _ _ hx => ⟨hx, rfl⟩) (fun _ _ => rfl)
      (fun _ _ => rfl)⟩
      exact ⟨g, Parts.attach_acquire hacq hfill ⟨.inl rfl, nofun, nofun⟩⟩
  | child i frame topicOffset expiresAt =>
    dsimp only at hs
    split at hs
    · cases hs
    · next e he =>
      split at hs
      · next hframe =>
        cases hs
        refine ⟨g, Parts.attach_acquire hacq h ⟨.inr ?_, nofun, nofun⟩⟩
        exact ⟨_, frame, topicOffset, expiresAt, rfl, hframe, e, List.mem_of_getElem? he, rfl⟩
      · cases hs
  | retain i =>
    dsimp only at hs
    split at hs
    · cases hs
    · next e he =>
      cases hs
      have hmem := hheld (List.mem_of_getElem? he)
      obtain ⟨d, hd⟩ := h.counts.live hmem
      have hcounts := h.counts.retain hmem (hroom i e rfl he)
      refine ⟨_, Parts.attach_held ⟨⟨hcounts, ?_, ?_, h.holders_addRef hmem 1⟩, ?_⟩⟩
      · exact h.privacy.withHeap hd (getElem?_retain hd.1)
      · exact h.buffers.congr (fun i => returnedAt_retain ..) fun _ _ _ => rfl
      · exact bufOf_addRef ..
  | release i =>
    dsimp only at hs
    split at hs
    · cases hs
    · next e he =>
      cases hs
      have hloose := Parts.detach_held he hacq h
      have hcalls : WithCalls s g ({ th with held := th.held.eraseIdx i } :: rest)
          [⟨e.ref, .decrement, s.gen⟩] := by
        refine ⟨hloose.parts, fun f hf => ?_⟩
        obtain rfl := List.mem_singleton.mp hf
        exact ⟨rfl, fun _ _ _ _ => rfl, nofun⟩
      have hattach := Parts.attach_calls hcalls
      rw [hrel] at hattach
      exact ⟨g, hattach⟩

end Steps

/-! ## Whole runs -/

namespace RefWorld

def Balanced (s : RefWorld) : Prop := ∃ g, Parts s g s.threads [] [] [] []

theorem threads_split {ths : List Holder} {t : Nat} {th : Holder} (ht : ths[t]? = some th) :
    ∃ rest, ths ~ th :: rest ∧ ∀ th', ths.set t th' ~ th' :: rest := by
  obtain ⟨hlt, rfl⟩ := List.getElem?_eq_some_iff.mp ht
  exact ⟨ths.eraseIdx t, (List.getElem_cons_eraseIdx_perm hlt).symm,
    fun th' => List.set_perm_cons_eraseIdx hlt th'⟩

theorem onThread_balanced {s t : RefWorld} {i : Nat} {f : Holder → Option (RefWorld × Holder)}
    (h : s.Balanced) (hs : s.onThread i f = some t)
    (hf : ∀ g th rest s' th', s.threads[i]? = some th → Parts s g (th :: rest) [] [] [] [] →
      f th = some (s', th') → ∃ g', Parts s' g' (th' :: rest) [] [] [] []) : t.Balanced := by
  obtain ⟨g, hg⟩ := h
  unfold onThread at hs
  split at hs
  · cases hs
  next th hth =>
  split at hs
  · cases hs
  next s' th' hstep =>
  cases hs
  obtain ⟨rest, hold, hnew⟩ := threads_split hth
  obtain ⟨g', hg'⟩ := hf g th rest s' th' hth (hg.perm hold) hstep
  exact ⟨g', (hg'.perm (hnew th').symm).setThreads _⟩

theorem giveStep_balanced {s t : RefWorld} {i j u : Nat} (h : s.Balanced)
    (hs : s.giveStep i j u = some t) : t.Balanced := by
  obtain ⟨g, hg⟩ := h
  unfold giveStep at hs
  split at hs
  · cases hs
  next th hth =>
  split at hs
  · cases hs
  next e he =>
  dsimp only at hs
  split at hs
  · cases hs
  next th' hth' =>
  split at hs
  · next hidle =>
    cases hs
    obtain ⟨hacq, -⟩ : th.acquiring = none ∧ th.releasing = [] := of_decide_eq_true hidle
    obtain ⟨rest, hold, hnew⟩ := threads_split hth
    obtain ⟨rest', hold', hnew'⟩ := threads_split hth'
    have hloose := Parts.detach_held he hacq (hg.perm hold)
    have hmoved : Obtained s g (th' :: rest') e :=
      ⟨hloose.parts.perm ((hnew _).symm.trans hold'), hloose.view⟩
    exact ⟨g, ((Parts.attach_held hmoved).perm (hnew' _).symm).setThreads _⟩
  · cases hs

theorem step_balanced (s : RefWorld) (l : RefLabel) (t : RefWorld) (h : s.Balanced)
    (hroom : s.HasRoom l) (hs : s.step l = some t) : t.Balanced := by
  cases l with
  | call i c =>
    refine onThread_balanced h hs fun g th rest s' th' hth hg hstep => ?_
    obtain ⟨hidle, hstep⟩ := Option.ite_none_right_eq_some.mp hstep
    refine callStep_parts hg hidle (fun j e hc he => hroom _ ?_) hstep
    subst hc
    simp [addsTo, hth, he]
  | give i j u => exact giveStep_balanced h hs
  | next i choice =>
    refine onThread_balanced h hs fun g th rest s' th' hth hg hstep => ?_
    refine nextStep_parts hg (fun a m p ha hstage hparent => hroom p ?_) hstep
    simp [addsTo, hth, ha, hstage, hparent]
  | scribble b data =>
    obtain ⟨hpos, hs⟩ := Option.ite_none_right_eq_some.mp hs
    cases hs
    obtain ⟨g, hg⟩ := h
    refine ⟨g, hg.setMem (fun r hr hb => ?_) data⟩
    have hzero := (hg.buffer_kept hr hb).2
    omega

theorem initial_balanced (n : Nat) : (initial n).Balanced := by
  have hnone : ∀ {β : Type} (f : Holder → List β), f ⟨[], none, []⟩ = [] →
      (initial n).threads.flatMap f = [] := by
    intro β f hf
    refine List.flatMap_eq_nil_iff.mpr fun th hth => ?_
    rw [List.eq_of_mem_replicate hth, hf]
  have hdead : ∀ m c, ¬ (⟨[⟨0, none, 1⟩], fun _ => 0, fun _ => none⟩ : Ghost).Live m c := by
    rintro m c ⟨hc, hpos⟩
    cases hc
    exact absurd hpos (by decide)
  refine ⟨⟨[⟨0, none, 1⟩], fun _ => 0, fun _ => none⟩, ?_, ?_, ?_, ?_⟩
  · rw [hnone Holder.tokens rfl]
    refine ⟨⟨?_, by simp, ?_, ?_⟩, by simp, fun m c hc => absurd hc (hdead m c),
      fun m _ c _ hc => absurd hc (hdead m c), fun m c hc => absurd hc (hdead m c),
      fun _ => Nat.zero_lt_one, fun _ _ _ _ _ => rfl⟩
    · intro m c hc p hp
      obtain rfl : c = ⟨0, none, 1⟩ := by simpa using List.mem_of_getElem? hc
      cases hp
    · intro m c hc
      obtain rfl : c = ⟨0, none, 1⟩ := by simpa using List.mem_of_getElem? hc
      simp [liveChildren, Cell.isLiveChild]
    · intro m c hc
      obtain rfl : c = ⟨0, none, 1⟩ := by simpa using List.mem_of_getElem? hc
      rfl
  · rw [hnone Holder.privates rfl]
    exact ⟨List.nodup_nil, by simp [initial], fun m _ => hdead m⟩
  · rw [hnone Holder.pending rfl, hnone Holder.inflight rfl]
    exact ⟨by simp, by simp, fun b _ => ⟨rfl, fun hlt => absurd hlt (Nat.not_lt_zero b)⟩,
      List.nodup_nil, by simp⟩
  · intro th hth
    rw [List.eq_of_mem_replicate hth]
    exact ⟨by simp, by simp, by simp⟩

end RefWorld

/-- The thread has a reference into buffer `b`, is giving one up or is making one. -/
def Holder.Mentions (th : Holder) (b : Nat) : Prop :=
  (∃ h ∈ th.held, h.ref.buffer = some b) ∨ (∃ f ∈ th.releasing, f.ref.buffer = some b) ∨
    ∃ a ∈ th.acquiring, a.buffer = some b

namespace RefWorld

/-- What the references promise. -/
structure Safe (s : RefWorld) : Prop where
  /-- `Buf` of a reference in a thread's hands is what it was, and the buffer of
  its message was not returned. -/
  kept : ∀ th ∈ s.threads, ∀ h ∈ th.held,
    s.bufOf h.ref.obj = h.view ∧ ∀ b, h.ref.buffer = some b → s.returned b = 0
  /-- No buffer is returned before the last `Release` has decremented. -/
  early : ∀ th ∈ s.threads, ∀ f ∈ th.releasing, f.stage = .decrement →
    ∀ b, f.ref.buffer = some b → s.returned b = 0
  once : ∀ b, s.returned b ≤ 1
  /-- A buffer that nothing refers to any more was returned. -/
  last : ∀ b < s.nextBuf, (∀ th ∈ s.threads, ¬ th.Mentions b) → s.returned b = 1
  /-- No object of a `Release` went to the pool since the thread called it. -/
  untouched : ∀ th ∈ s.threads, ∀ f ∈ th.releasing,
    s.gen f.ref.obj = f.gen f.ref.obj ∧ f.ref.obj ∉ s.pool

end RefWorld

namespace Parts

variable {s : RefWorld} {g : Ghost} {ths : List Holder}

theorem returned_le (h : Parts s g ths [] [] [] []) (b : Nat) : s.returned b ≤ 1 := by
  by_cases hown : ∃ i n, returnedAt g.heap i = some n ∧ g.root i = some b
  · obtain ⟨i, n, hi, hb⟩ := hown
    obtain ⟨-, -, hsum⟩ := h.buffers.owned i n b hi hb
    obtain ⟨c, hc, -, rfl⟩ := returnedAt_eq_some.mp hi
    have hle : c.returned ≤ 1 := by
      rw [h.counts.accounts.returned i c hc]
      split <;> decide
    omega
  · obtain ⟨hsum, -⟩ := h.buffers.unowned b fun i n hi hb => hown ⟨i, n, hi, hb⟩
    omega

end Parts

namespace Holder

variable {th : Holder} {b : Nat}

theorem mentions_of_token {r : Ref} (hr : r ∈ th.tokens) (hb : r.buffer = some b) :
    th.Mentions b := by
  rcases List.mem_append.mp hr with hr | hr
  · obtain ⟨e, he, rfl⟩ := List.mem_map.mp hr
    exact .inl ⟨e, he, hb⟩
  · obtain ⟨f, hf, hr⟩ := List.mem_flatMap.mp hr
    refine .inr (.inl ⟨f, hf, ?_⟩)
    unfold Releasing.tokens at hr
    split at hr
    · rwa [← List.mem_singleton.mp hr]
    · rw [List.mem_singleton.mp hr] at hb
      exact hb
    · cases hr

theorem mentions_of_pending (h : b ∈ th.pending) : th.Mentions b := by
  obtain ⟨f, hf, hb⟩ := List.mem_flatMap.mp h
  refine .inr (.inl ⟨f, hf, ?_⟩)
  unfold Releasing.pending at hb
  split at hb
  · exact Option.mem_toList.mp hb
  · cases hb

theorem mentions_of_inflight (h : b ∈ th.inflight) : th.Mentions b := by
  obtain ⟨a, ha, hb⟩ := List.mem_flatMap.mp h
  refine .inr (.inr ⟨a, Option.mem_toList.mp ha, ?_⟩)
  unfold Acquiring.inflight at hb
  split at hb
  · exact Option.mem_toList.mp hb
  · cases hb

end Holder

namespace Parts

variable {s : RefWorld} {g : Ghost} {ths : List Holder}

/-- A buffer that no thread has anything to do with went back. -/
theorem returned_of_no_mention (h : Parts s g ths [] [] [] []) {b : Nat} (hlt : b < s.nextBuf)
    (hnone : ∀ th ∈ ths, ¬ th.Mentions b) : s.returned b = 1 := by
  have hin : b ∉ ths.flatMap Holder.inflight := by
    intro hmem
    obtain ⟨th, hth, hb⟩ := List.mem_flatMap.mp hmem
    exact hnone th hth (Holder.mentions_of_inflight hb)
  have hpending : b ∉ ths.flatMap Holder.pending := by
    intro hmem
    obtain ⟨th, hth, hb⟩ := List.mem_flatMap.mp hmem
    exact hnone th hth (Holder.mentions_of_pending hb)
  by_cases hown : ∃ i n, returnedAt g.heap i = some n ∧ g.root i = some b
  · obtain ⟨i, n, hi, hb⟩ := hown
    obtain ⟨-, -, hsum⟩ := h.buffers.owned i n b hi hb
    obtain ⟨c, hc, htop, rfl⟩ := returnedAt_eq_some.mp hi
    have hdead : c.count = 0 := by
      by_contra hne
      have hpos : 0 < c.count := by
        have := h.counts.accounts.count_nonneg hc
        omega
      -- a live top has a reference in the same buffer below it
      obtain ⟨x, hx, hxb⟩ := h.counts.accounts.live_owner (P := fun i => g.root i = some b)
        (fun i e p hi hp hP => (h.counts.up i e p hi hp).trans hP) hc hpos hb
      obtain ⟨r, hr, rfl⟩ := List.mem_map.mp hx
      obtain ⟨th, hth, hrth⟩ := List.mem_flatMap.mp hr
      exact hnone th hth (Holder.mentions_of_token hrth ((h.counts.roots r hr).symm.trans hxb))
    have hone : c.returned = 1 := by
      rw [h.counts.accounts.returned i c hc, if_pos ⟨htop, hdead⟩]
    have hzero : ([] ++ ths.flatMap Holder.pending).count b = 0 := List.count_eq_zero.mpr hpending
    omega
  · obtain ⟨-, hmem⟩ := h.buffers.unowned b fun i n hi hb => hown ⟨i, n, hi, hb⟩
    exact absurd (hmem hlt) hin

end Parts

namespace RefWorld

theorem Balanced.safe {s : RefWorld} (h : s.Balanced) : s.Safe := by
  obtain ⟨g, h⟩ := h
  refine ⟨fun th hth e he => ?_, fun th hth f hf hstage b hb => ?_, h.returned_le,
    fun b hlt hnone => h.returned_of_no_mention hlt hnone, fun th hth f hf => ?_⟩
  · refine ⟨(h.holders th hth).views e he, fun b hb => (h.buffer_kept ?_ hb).2⟩
    exact List.mem_flatMap.mpr ⟨th, hth, List.mem_append_left _ (List.mem_map_of_mem he)⟩
  · refine (h.buffer_kept (List.mem_flatMap.mpr ⟨th, hth, List.mem_append_right _ ?_⟩) hb).2
    exact List.mem_flatMap.mpr ⟨f, hf, by simp [Releasing.tokens, hstage]⟩
  · refine ⟨((h.holders th hth).releasing f hf).gen, fun hpool => ?_⟩
    rcases Parts.releasing_cases hth hf with htok | hpriv
    · obtain ⟨c, hc⟩ := h.counts.live htok
      exact h.privacy.dead _ (.inl (List.mem_append_left _ hpool)) c hc
    · exact (List.nodup_append.mp h.privacy.nodup).2.2 _ hpool _ hpriv rfl

/-- Every run of threads that use only what they hold, with at most `2 ^ 32`
references to each object, keeps what the references promise. -/
theorem nested_refs_safe (n : Nat) (ls : List RefLabel) (s : RefWorld)
    (hroom : Transition.Meets step HasRoom (initial n) ls)
    (h : Transition.run step (initial n) ls = some s) : s.Safe :=
  (Transition.run_invariant step_balanced (initial_balanced n) hroom h).safe

/-- A child goes to a second thread, and the last releases of parent and child
race: the child reaches 0 first, then the parent loses its own reference, and
the child's release is the one that returns the buffer. -/
def racingReleases : List RefLabel :=
  [.call 0 (.acquire (some [7, 8, 9])), .next 0 none, .next 0 none, .next 0 none,
    .call 0 (.child 0 (some ⟨0, 1, 2⟩) 5 0), .next 0 none, .next 0 none, .next 0 none, .next 0 none,
    .give 0 0 1, .call 0 (.release 0), .call 1 (.release 0), .next 1 none, .next 0 none,
    .next 1 none, .next 1 none, .next 1 none]

theorem racing_releases_safe :
    (Transition.after step (initial 2) racingReleases).Safe ∧
      (Transition.after step (initial 2) racingReleases).returned 0 = 1 :=
  ⟨nested_refs_safe 2 racingReleases _ (by decide) (Transition.run_after (by decide)), by decide⟩

/-! ### More references than the counter can tell -/

/-- One thread with `k + 1` references to one message. -/
def retained (k : Nat) : RefWorld :=
  { initial 1 with
    objs := Function.update (initial 1).objs 0 { acquireMessageRef (some 0) with ref := k + 1 }
    nextObj := 1
    mem := (initial 1).mem.set 0 [7]
    nextBuf := 1
    threads := [⟨List.replicate (k + 1) ⟨⟨0, some 0⟩, some [7]⟩, none, []⟩] }

theorem run_acquire :
    Transition.run step (initial 1)
      [.call 0 (.acquire (some [7])), .next 0 none, .next 0 none, .next 0 none] =
      some (retained 0) := by
  simp [step, onThread, initial, callStep, nextStep, acquireStep, getObject, retained, setObj,
    Holder.idle, bufOf, acquireMessageRef, Store.set]

theorem retain_step (k : Nat) :
    (retained k).step (.call 0 (.retain 0)) = some (retained (k + 1)) := by
  have hview : (retained k).bufOf 0 = some [7] := by
    simp [retained, bufOf, acquireMessageRef, Store.set]
  have hthread : (retained k).threads[0]? =
      some ⟨List.replicate (k + 1) ⟨⟨0, some 0⟩, some [7]⟩, none, []⟩ := rfl
  simp only [step, onThread, hthread, Holder.idle, callStep, List.replicate_succ,
    List.getElem?_cons_zero, hview]
  simp [retained, addRef, setObj, List.replicate_succ]

theorem run_retains (k n : Nat) (ls : List RefLabel) :
    Transition.run step (retained n) (List.replicate k (.call 0 (.retain 0)) ++ ls) =
      Transition.run step (retained (n + k)) ls := by
  induction k generalizing n with
  | zero => rfl
  | succ k ih =>
    rw [List.replicate_succ, List.cons_append, Transition.run_cons, retain_step, Option.bind_some, ih,
      Nat.add_right_comm, Nat.add_assoc]

theorem release_step (k : Nat) :
    (retained k).step (.call 0 (.release 0)) = some { retained k with
      threads := [⟨List.replicate k ⟨⟨0, some 0⟩, some [7]⟩, none,
        [⟨⟨0, some 0⟩, .decrement, (retained k).gen⟩]⟩] } := by
  have hthread : (retained k).threads =
      [⟨List.replicate (k + 1) ⟨⟨0, some 0⟩, some [7]⟩, none, []⟩] := rfl
  simp [step, onThread, hthread, Holder.idle, callStep, List.replicate_succ]

theorem next_release {s : RefWorld} {th : Holder} (hs : s.threads = [th])
    (hnone : th.acquiring = none) {f : Releasing} (hf : th.releasing = [f]) :
    s.step (.next 0 none) = some { (s.releaseStep f).1 with
      threads := [{ th with releasing := (s.releaseStep f).2 }] } := by
  simp [step, onThread, nextStep, hs, hnone, hf]

/-- With a multiple of `2 ^ 32` references besides it, a release returns the
buffer. -/
theorem run_release {k : Nat} (hk : k % 2 ^ 32 = 0) :
    ∃ s, Transition.run step (retained k) [.call 0 (.release 0), .next 0 none, .next 0 none] = some s ∧
      s.returned 0 = 1 ∧ ∃ th ∈ s.threads, th.held = List.replicate k ⟨⟨0, some 0⟩, some [7]⟩ := by
  have hwrap : ((k : Int) + 1 - 1) % 2 ^ 32 = 0 := by omega
  have hdecrement : ∀ threads, ({ retained k with threads := threads }).releaseStep
      ⟨⟨0, some 0⟩, .decrement, (retained k).gen⟩ =
        (({ retained k with threads := threads }).addRef 0 (-1),
          [⟨⟨0, some 0⟩, .zero none, (retained k).gen⟩]) := by
    intro threads
    exact congrArg (Prod.mk _) (if_pos hwrap)
  rw [Transition.run_cons, release_step, Option.bind_some, Transition.run_cons,
    next_release rfl rfl rfl, Option.bind_some, hdecrement, Transition.run_cons,
    next_release rfl rfl rfl, Option.bind_some, Transition.run_nil]
  exact ⟨_, rfl, rfl, _, List.mem_singleton_self _, rfl⟩

/-- After `2 ^ 32` calls of `Retain` one `Release` is enough. -/
theorem wrapped_count_returns_buffer :
    ¬ ∀ (n : Nat) (ls : List RefLabel) (s : RefWorld),
      Transition.run step (initial n) ls = some s → s.Safe := by
  intro hall
  obtain ⟨s, hrun, hreturned, th, hth, hheld⟩ := run_release (k := 2 ^ 32) (Nat.mod_self _)
  have hsafe := hall 1 (_ ++ (List.replicate (2 ^ 32) (.call 0 (.retain 0)) ++ _)) s <| by
    rw [Transition.run_append, run_acquire, Option.bind_some, run_retains, Nat.zero_add]
    exact hrun
  have hmem : (⟨⟨0, some 0⟩, some [7]⟩ : Held) ∈ th.held := by
    rw [hheld]
    exact List.mem_replicate.mpr ⟨by decide, rfl⟩
  have hzero := (hsafe.kept th hth _ hmem).2 0 rfl
  omega

end RefWorld

end Aqueduct.Broker.Nested
