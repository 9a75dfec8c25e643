import Mathlib.Data.List.Count
import Mathlib.Data.List.Perm.Subperm
import Aqueduct.Broker.Router
import Aqueduct.Lib.Run

/-!
`nextTopicOffset` under concurrency. A topic's counter is an object of its own,
made by the first caller: a lookup under the read lock, a second look and the
creation under the write lock, and an atomic add with no lock held. Calls of any
number of goroutines interleave at these steps. The invariant is that all calls
for a topic that hold a counter hold the one in the map; then the adds number
the calls without gaps, and `nextTopicOffset` of the router model is what one
add does.
-/

namespace Aqueduct.Broker.TopicOffsets

/-! ## The steps -/

/-- Where a call stands. A counter is named by its address. -/
inductive Phase
  /-- Before the lookup. -/
  | called
  /-- The lookup found nothing. -/
  | missed
  /-- About to add. -/
  | found (counter : Nat)
  deriving DecidableEq, Repr

structure Caller where
  topicHash : UInt64
  phase : Phase
  deriving DecidableEq, Repr

inductive Event
  | call (tid : Nat) (topicHash : UInt64)
  | ret (tid : Nat) (topicHash : UInt64) (offset : UInt64)
  deriving DecidableEq, Repr

/-- `counters` is the memory of the counters; `events` records the calls and
returns, no step reads it. -/
structure State where
  topicOffsets : UInt64 → Option Nat
  counters : Nat → UInt64
  allocated : Nat
  threads : Nat → Option Caller
  events : List Event

def new : State := ⟨fun _ => none, fun _ => 0, 0, fun _ => none, []⟩

inductive Label
  | call (tid : Nat) (topicHash : UInt64)
  | lookup (tid : Nat)
  | create (tid : Nat)
  | add (tid : Nat)
  deriving DecidableEq, Repr

def State.enter (s : State) (tid : Nat) (c : Caller) : State :=
  { s with threads := Function.update s.threads tid (some c) }

def step (s : State) : Label → Option State
  | .call tid topicHash =>
    match s.threads tid with
    | none => some { s.enter tid ⟨topicHash, .called⟩ with
        events := s.events ++ [.call tid topicHash] }
    | some _ => none
  | .lookup tid =>
    match s.threads tid with
    | some ⟨topicHash, .called⟩ =>
      match s.topicOffsets topicHash with
      | none => some (s.enter tid ⟨topicHash, .missed⟩)
      | some counter => some (s.enter tid ⟨topicHash, .found counter⟩)
    | _ => none
  | .create tid =>
    match s.threads tid with
    | some ⟨topicHash, .missed⟩ =>
      match s.topicOffsets topicHash with
      | some counter => some (s.enter tid ⟨topicHash, .found counter⟩)
      | none => some { s.enter tid ⟨topicHash, .found s.allocated⟩ with
          topicOffsets := Function.update s.topicOffsets topicHash (some s.allocated)
          counters := Function.update s.counters s.allocated 0
          allocated := s.allocated + 1 }
    | _ => none
  | .add tid =>
    match s.threads tid with
    | some ⟨topicHash, .found counter⟩ =>
      let v := s.counters counter + 1
      some { s with
        counters := Function.update s.counters counter v
        threads := Function.update s.threads tid none
        events := s.events ++ [.ret tid topicHash v] }
    | _ => none

inductive Moves (s : State) : State → Prop
  | call {tid : Nat} {h : UInt64} (hidle : s.threads tid = none) :
      Moves s { s.enter tid ⟨h, .called⟩ with events := s.events ++ [.call tid h] }
  | miss {tid : Nat} {h : UInt64} (hc : s.threads tid = some ⟨h, .called⟩) :
      Moves s (s.enter tid ⟨h, .missed⟩)
  | find {tid : Nat} {h : UInt64} {phase : Phase} {p : Nat} (hc : s.threads tid = some ⟨h, phase⟩)
      (hp : s.topicOffsets h = some p) : Moves s (s.enter tid ⟨h, .found p⟩)
  | create {tid : Nat} {h : UInt64} (hc : s.threads tid = some ⟨h, .missed⟩)
      (hp : s.topicOffsets h = none) :
      Moves s { s.enter tid ⟨h, .found s.allocated⟩ with
        topicOffsets := Function.update s.topicOffsets h (some s.allocated)
        counters := Function.update s.counters s.allocated 0
        allocated := s.allocated + 1 }
  | add {tid : Nat} {h : UInt64} {p : Nat} (hc : s.threads tid = some ⟨h, .found p⟩) :
      Moves s { s with
        counters := Function.update s.counters p (s.counters p + 1)
        threads := Function.update s.threads tid none
        events := s.events ++ [.ret tid h (s.counters p + 1)] }

theorem step_moves {s t : State} {l : Label} (h : step s l = some t) : Moves s t := by
  cases l with
  | call tid topicHash =>
    rw [step] at h
    split at h
    · next hidle =>
      cases h
      exact .call hidle
    · cases h
  | lookup tid =>
    rw [step] at h
    split at h
    · next hc =>
      split at h
      · cases h
        exact .miss hc
      · next hp =>
        cases h
        exact .find hc hp
    · cases h
  | create tid =>
    rw [step] at h
    split at h
    · next hc =>
      split at h
      · next hp =>
        cases h
        exact .find hc hp
      · next hp =>
        cases h
        exact .create hc hp
    · cases h
  | add tid =>
    rw [step] at h
    split at h
    · next hc =>
      cases h
      exact .add hc
    · cases h

/-! ## Histories -/

variable {s : State}

def Event.offsetFor (h : UInt64) : Event → Option UInt64
  | .call .. => none
  | .ret _ topicHash offset => if topicHash = h then some offset else none

def Event.callerFor (h : UInt64) : Event → Option Nat
  | .call tid topicHash => if topicHash = h then some tid else none
  | .ret .. => none

def Event.returnerFor (h : UInt64) : Event → Option Nat
  | .call .. => none
  | .ret tid topicHash _ => if topicHash = h then some tid else none

/-- The offsets the calls for `h` have returned, in order. -/
def returned (h : UInt64) (es : List Event) : List UInt64 := es.filterMap (Event.offsetFor h)

/-- The goroutines that called for `h`, once per call. -/
def callers (h : UInt64) (es : List Event) : List Nat := es.filterMap (Event.callerFor h)

/-- The goroutines whose calls for `h` have returned, once per call. -/
def returners (h : UInt64) (es : List Event) : List Nat := es.filterMap (Event.returnerFor h)

theorem returned_append (h : UInt64) (es es' : List Event) :
    returned h (es ++ es') = returned h es ++ returned h es' := List.filterMap_append

section Snoc

variable (h : UInt64) (es : List Event) (tid : Nat) (topicHash offset : UInt64)

@[simp] theorem returned_call :
    returned h (es ++ [.call tid topicHash]) = returned h es := by
  simp [returned, List.filterMap_cons, Event.offsetFor]

@[simp] theorem returned_ret : returned h (es ++ [.ret tid topicHash offset]) =
    returned h es ++ if topicHash = h then [offset] else [] := by
  by_cases hh : topicHash = h <;> simp [returned, Event.offsetFor, hh]

@[simp] theorem callers_call : callers h (es ++ [.call tid topicHash]) =
    callers h es ++ if topicHash = h then [tid] else [] := by
  by_cases hh : topicHash = h <;> simp [callers, Event.callerFor, hh]

@[simp] theorem callers_ret :
    callers h (es ++ [.ret tid topicHash offset]) = callers h es := by
  simp [callers, List.filterMap_cons, Event.callerFor]

@[simp] theorem returners_call :
    returners h (es ++ [.call tid topicHash]) = returners h es := by
  simp [returners, List.filterMap_cons, Event.returnerFor]

@[simp] theorem returners_ret : returners h (es ++ [.ret tid topicHash offset]) =
    returners h es ++ if topicHash = h then [tid] else [] := by
  by_cases hh : topicHash = h <;> simp [returners, Event.returnerFor, hh]

end Snoc

theorem length_returners (h : UInt64) (es : List Event) :
    (returners h es).length = (returned h es).length := by
  induction es with
  | nil => rfl
  | cons e es ih =>
    cases e with
    | call tid topicHash => exact ih
    | ret tid topicHash offset =>
      unfold returners returned at ih ⊢
      by_cases hh : topicHash = h
      · simp [Event.returnerFor, Event.offsetFor, hh, ih]
      · simpa [Event.returnerFor, Event.offsetFor, hh] using ih

/-- Goroutine `tid` is in a call for `h`. -/
def State.busy (s : State) (h : UInt64) (tid : Nat) : Bool :=
  (s.threads tid).any fun c => c.topicHash = h

theorem busy_update (s : State) (threads : Nat → Option Caller) (tid : Nat) (c : Option Caller)
    (hthreads : threads = Function.update s.threads tid c) (h : UInt64) (tid' : Nat) :
    { s with threads := threads }.busy h tid' =
      if tid' = tid then c.any fun c => c.topicHash = h else s.busy h tid' := by
  subst hthreads
  unfold State.busy
  dsimp only
  rw [Function.update_apply]
  split <;> rfl

theorem busy_enter {tid : Nat} {h : UInt64} {phase : Phase} (hc : s.threads tid = some ⟨h, phase⟩)
    (phase' : Phase) (h' : UInt64) (tid' : Nat) :
    (s.enter tid ⟨h, phase'⟩).busy h' tid' = s.busy h' tid' := by
  rw [State.enter, busy_update s _ tid _ rfl]
  split
  · next heq =>
    rw [heq, State.busy, hc]
    rfl
  · rfl

/-! ## The invariant -/

/-- The value of the counter of `h`, as `GetTopicOffset` reads it. -/
def State.offset (s : State) (h : UInt64) : UInt64 :=
  match s.topicOffsets h with
  | none => 0
  | some counter => s.counters counter

/-- The first `k` offsets. -/
def firstOffsets (k : Nat) : List UInt64 := (List.range k).map fun i => UInt64.ofNat (i + 1)

structure Numbered (s : State) : Prop where
  held : ∀ tid h p, s.threads tid = some ⟨h, .found p⟩ → s.topicOffsets h = some p
  bound : ∀ h p, s.topicOffsets h = some p → p < s.allocated
  inj : ∀ h h' p, s.topicOffsets h = some p → s.topicOffsets h' = some p → h = h'
  value : ∀ h, s.offset h = UInt64.ofNat (returned h s.events).length
  offsets : ∀ h, returned h s.events = firstOffsets (returned h s.events).length
  balance : ∀ h tid, (callers h s.events).count tid =
    (returners h s.events).count tid + if s.busy h tid then 1 else 0

theorem new_numbered : Numbered new := by
  refine ⟨?_, ?_, ?_, fun _ => rfl, fun _ => rfl, fun _ _ => rfl⟩ <;> simp [new]

/-- A thread that moves on within its call changes nothing an observer sees. -/
theorem Numbered.enter (hs : Numbered s) {tid : Nat} {h : UInt64} {phase phase' : Phase}
    (hc : s.threads tid = some ⟨h, phase⟩)
    (hheld : ∀ p, phase' = .found p → s.topicOffsets h = some p) :
    Numbered (s.enter tid ⟨h, phase'⟩) := by
  refine ⟨?_, hs.bound, hs.inj, hs.value, hs.offsets, ?_⟩
  · intro tid' h' p hp
    dsimp only [State.enter] at hp
    rw [Function.update_apply] at hp
    split at hp
    · cases hp
      exact hheld p rfl
    · exact hs.held tid' h' p hp
  · intro h' tid'
    rw [busy_enter hc]
    exact hs.balance h' tid'

theorem Numbered.call (hs : Numbered s) {tid : Nat} {h : UInt64} (hidle : s.threads tid = none) :
    Numbered { s.enter tid ⟨h, .called⟩ with events := s.events ++ [.call tid h] } := by
  refine ⟨?_, hs.bound, hs.inj, fun h' => ?_, fun h' => ?_, fun h' tid' => ?_⟩
  · intro tid' h' p hp
    dsimp only [State.enter] at hp
    rw [Function.update_apply] at hp
    split at hp
    · cases hp
    · exact hs.held tid' h' p hp
  · rw [returned_call]
    exact hs.value h'
  · rw [returned_call]
    exact hs.offsets h'
  · have hbusy : State.busy { s.enter tid ⟨h, .called⟩ with events := s.events ++ [.call tid h] } h'
        tid' = if tid' = tid then decide (h = h') else s.busy h' tid' :=
      busy_update s _ tid (some ⟨h, .called⟩) rfl h' tid'
    have hidle' : tid' = tid → s.busy h' tid' = false := by
      rintro rfl
      rw [State.busy, hidle]
      rfl
    rw [callers_call, returners_call, List.count_append, hs.balance h' tid', hbusy]
    by_cases htid : tid' = tid
    · rw [hidle' htid]
      by_cases hh : h = h' <;> simp [htid, hh]
    · by_cases hh : h = h' <;> simp [htid, hh, Ne.symm htid]

theorem Numbered.offset_create (hs : Numbered s) {h : UInt64} (hp : s.topicOffsets h = none)
    {t : State} (htable : t.topicOffsets = Function.update s.topicOffsets h (some s.allocated))
    (hcounters : t.counters = Function.update s.counters s.allocated 0) : t.offset = s.offset := by
  funext h'
  unfold State.offset
  rw [htable, hcounters]
  by_cases hh : h' = h
  · rw [hh, hp, Function.update_self]
    exact Function.update_self ..
  · rw [Function.update_of_ne hh]
    cases hc : s.topicOffsets h' with
    | none => rfl
    | some p => exact Function.update_of_ne (Nat.ne_of_lt (hs.bound h' p hc)) _ _

theorem Numbered.offset_add (hs : Numbered s) {h : UInt64} {p : Nat}
    (hown : s.topicOffsets h = some p) (threads : Nat → Option Caller) (events : List Event) :
    State.offset { s with
      counters := Function.update s.counters p (s.counters p + 1)
      threads := threads
      events := events } = setKey s.offset h (s.offset h + 1) := by
  funext h'
  rw [setKey]
  by_cases hh : h' = h
  · rw [if_pos hh, hh, State.offset, State.offset, hown]
    exact Function.update_self ..
  · rw [if_neg hh, State.offset, State.offset]
    dsimp only
    cases hc : s.topicOffsets h' with
    | none => rfl
    | some p' =>
      have hne : p' ≠ p := fun heq => hh (hs.inj h' h p (heq ▸ hc) hown)
      exact Function.update_of_ne hne _ _

theorem Numbered.create (hs : Numbered s) {tid : Nat} {h : UInt64}
    (hc : s.threads tid = some ⟨h, .missed⟩) (hp : s.topicOffsets h = none) :
    Numbered { s.enter tid ⟨h, .found s.allocated⟩ with
      topicOffsets := Function.update s.topicOffsets h (some s.allocated)
      counters := Function.update s.counters s.allocated 0
      allocated := s.allocated + 1 } := by
  have hsame : ∀ h' ≠ h, Function.update s.topicOffsets h (some s.allocated) h' =
      s.topicOffsets h' := fun h' hne => Function.update_of_ne hne _ _
  refine ⟨?_, ?_, ?_, fun h' => ?_, hs.offsets, ?_⟩
  · intro tid' h' p hp'
    dsimp only [State.enter] at hp' ⊢
    rw [Function.update_apply] at hp'
    split at hp'
    · cases hp'
      exact Function.update_self ..
    · have hold := hs.held tid' h' p hp'
      rw [hsame h' fun heq => by rw [heq, hp] at hold; cases hold]
      exact hold
  · intro h' p hp'
    dsimp only at hp' ⊢
    rw [Function.update_apply] at hp'
    split at hp'
    · cases hp'
      exact Nat.lt_succ_self _
    · exact Nat.lt_succ_of_lt (hs.bound h' p hp')
  · intro h₁ h₂ p h₁p h₂p
    dsimp only at h₁p h₂p
    rw [Function.update_apply] at h₁p h₂p
    split at h₁p <;> split at h₂p
    · next e₁ e₂ => exact e₁.trans e₂.symm
    · cases h₁p
      exact absurd (hs.bound h₂ _ h₂p) (Nat.lt_irrefl _)
    · cases h₂p
      exact absurd (hs.bound h₁ _ h₁p) (Nat.lt_irrefl _)
    · exact hs.inj h₁ h₂ p h₁p h₂p
  · rw [hs.offset_create hp rfl rfl]
    exact hs.value h'
  · intro h' tid'
    refine (hs.balance h' tid').trans ?_
    rw [← busy_enter hc (.found s.allocated)]
    rfl

/-- An add returns the next offset of its topic. -/
theorem Numbered.add (hs : Numbered s) {tid : Nat} {h : UInt64} {p : Nat}
    (hc : s.threads tid = some ⟨h, .found p⟩) :
    Numbered { s with
      counters := Function.update s.counters p (s.counters p + 1)
      threads := Function.update s.threads tid none
      events := s.events ++ [.ret tid h (s.counters p + 1)] } := by
  have hown := hs.held tid h p hc
  have hval : s.counters p + 1 = UInt64.ofNat ((returned h s.events).length + 1) := by
    have hval := hs.value h
    rw [State.offset, hown] at hval
    exact (congrArg (· + 1) hval).trans (UInt64.ofNat_add ..).symm
  refine ⟨?_, hs.bound, hs.inj, fun h' => ?_, fun h' => ?_, fun h' tid' => ?_⟩
  · intro tid' h' p' hp'
    dsimp only at hp'
    rw [Function.update_apply] at hp'
    split at hp'
    · cases hp'
    · exact hs.held tid' h' p' hp'
  · rw [hs.offset_add hown, returned_ret, setKey]
    by_cases hh : h = h'
    · rw [if_pos hh.symm, if_pos hh, List.length_append, List.length_singleton, hs.value h, hh]
      exact (UInt64.ofNat_add ..).symm
    · rw [if_neg (Ne.symm hh), if_neg hh, List.append_nil]
      exact hs.value h'
  · rw [returned_ret]
    by_cases hh : h = h'
    · subst hh
      rw [if_pos rfl, List.length_append, List.length_singleton, firstOffsets, List.range_succ,
        List.map_append, List.map_singleton, ← hval]
      exact congrArg (· ++ _) (hs.offsets h)
    · rw [if_neg hh, List.append_nil]
      exact hs.offsets h'
  · have hbusy : State.busy { s with
        counters := Function.update s.counters p (s.counters p + 1)
        threads := Function.update s.threads tid none
        events := s.events ++ [.ret tid h (s.counters p + 1)] } h' tid' =
        if tid' = tid then false else s.busy h' tid' :=
      busy_update s _ tid none rfl h' tid'
    have hbusy' : tid' = tid → s.busy h' tid' = decide (h = h') := by
      rintro rfl
      rw [State.busy, hc]
      rfl
    rw [callers_ret, returners_ret, List.count_append, hs.balance h' tid', hbusy]
    by_cases htid : tid' = tid
    · rw [hbusy' htid]
      by_cases hh : h = h' <;> simp [htid, hh]
    · by_cases hh : h = h' <;> simp [htid, hh, Ne.symm htid]

theorem Numbered.moves {t : State} (hs : Numbered s) (h : Moves s t) : Numbered t := by
  cases h with
  | call hidle => exact hs.call hidle
  | miss hc => exact hs.enter hc (by simp)
  | find hc hp =>
    refine hs.enter hc fun q hq => ?_
    cases hq
    exact hp
  | create hc hp => exact hs.create hc hp
  | add hc => exact hs.add hc

theorem run_numbered {ls : List Label} (h : Transition.run step new ls = some s) : Numbered s :=
  Transition.run_invariant_all (fun _ _ _ hs hstep => hs.moves (step_moves hstep)) new_numbered h

/-! ## One add is one call of the router model -/

/-- A step leaves the offsets as they are, or it is an add: then it does to them
what `nextTopicOffset` does and returns the same number. -/
theorem Numbered.refines {t : State} (hs : Numbered s) (h : Moves s t) (r : Router)
    (hr : r.topicOffsets = s.offset) :
    (t.offset = s.offset ∧ ∀ k, returned k t.events = returned k s.events) ∨
      ∃ k, r.nextTopicOffset k = ({ r with topicOffsets := t.offset }, s.offset k + 1) ∧
        returned k t.events = returned k s.events ++ [s.offset k + 1] := by
  cases h with
  | call hidle => exact .inl ⟨rfl, fun k => returned_call ..⟩
  | miss hc => exact .inl ⟨rfl, fun _ => rfl⟩
  | find hc hp => exact .inl ⟨rfl, fun _ => rfl⟩
  | create hc hp => exact .inl ⟨hs.offset_create hp rfl rfl, fun _ => rfl⟩
  | @add tid k p hc =>
    have hown := hs.held tid k p hc
    have hcount : s.offset k = s.counters p := by rw [State.offset, hown]
    refine .inr ⟨k, ?_, ?_⟩
    · rw [hs.offset_add hown, Router.nextTopicOffset, hr]
    · rw [returned_ret, if_pos rfl, hcount]

/-! ## Numbers without gaps -/

theorem firstOffsets_toNat {k : Nat} (hk : k < 2 ^ 64) :
    (firstOffsets k).map UInt64.toNat = List.range' 1 k := by
  rw [firstOffsets, List.map_map, List.range'_eq_map_range]
  refine List.map_congr_left fun i hi => ?_
  have hlt : i + 1 < UInt64.size := Nat.lt_of_le_of_lt (List.mem_range.mp hi) hk
  rw [Function.comp_apply, UInt64.toNat_ofNat_of_lt' hlt, Nat.add_comm]

theorem returned_le_callers (hs : Numbered s) (h : UInt64) :
    (returned h s.events).length ≤ (callers h s.events).length := by
  rw [← length_returners]
  refine (List.subperm_ext_iff.mpr fun tid _ => ?_).length_le
  rw [hs.balance h tid]
  exact Nat.le_add_right _ _

/-- Without a call in progress every call has returned. -/
theorem returned_eq_callers (hs : Numbered s) {h : UInt64} (hidle : ∀ tid, s.busy h tid = false) :
    (returned h s.events).length = (callers h s.events).length := by
  rw [← length_returners]
  refine (List.perm_iff_count.mpr fun tid => ?_).length_eq
  rw [hs.balance h tid, hidle tid]
  rfl

/-- **Topic offsets.** In every interleaving of the calls for a topic, fewer than
2⁶⁴, those that returned got 1, 2, 3 and so on, each number once. So `k` calls
get 1 to `k`, and a call gets more than every call that returned before it was
made. -/
theorem topic_offsets_gap_free {ls : List Label} {s : State}
    (hrun : Transition.run step new ls = some s) (h : UInt64)
    (hcalls : (callers h s.events).length < 2 ^ 64) :
    (returned h s.events).map UInt64.toNat = List.range' 1 (returned h s.events).length ∧
      ((∀ tid, s.busy h tid = false) →
        (returned h s.events).map UInt64.toNat = List.range' 1 (callers h s.events).length) ∧
      ∀ before during after tid offset,
        s.events = before ++ .call tid h :: (during ++ .ret tid h offset :: after) →
        ∀ earlier ∈ returned h before, earlier < offset := by
  have hs := run_numbered hrun
  have hlt := Nat.lt_of_le_of_lt (returned_le_callers hs h) hcalls
  have hall : (returned h s.events).map UInt64.toNat =
      List.range' 1 (returned h s.events).length := by
    rw [hs.offsets h, firstOffsets_toNat (by simpa [firstOffsets] using hlt)]
    simp [firstOffsets]
  refine ⟨hall, fun hidle => returned_eq_callers hs hidle ▸ hall, ?_⟩
  intro before during after tid offset hevents earlier hearlier
  -- the numbers ascend in the order of the returns
  have hsorted : ((returned h s.events).map UInt64.toNat).Pairwise (· < ·) := by
    rw [hall]
    exact List.pairwise_lt_range'
  rw [hevents, returned_append, List.map_append, List.pairwise_append] at hsorted
  refine UInt64.lt_iff_toNat_lt.mpr ?_
  refine hsorted.2.2 _ (List.mem_map_of_mem hearlier) _ (List.mem_map_of_mem ?_)
  refine List.mem_filterMap.mpr ⟨.ret tid h offset, by simp, ?_⟩
  exact if_pos rfl

/-- Two first publishers of one topic: both lookups miss, the second one finds
the counter of the first at its second look. -/
def racingCalls : List Label :=
  [.call 0 7, .call 1 7, .lookup 0, .lookup 1, .create 0, .create 1, .add 1, .add 0]

theorem racing_first_calls_get_one_and_two :
    ∃ s, Transition.run step new racingCalls = some s ∧ returned 7 s.events = [1, 2] ∧
      (returned 7 s.events).map UInt64.toNat = List.range' 1 (callers 7 s.events).length := by
  refine ⟨_, rfl, rfl, (@topic_offsets_gap_free racingCalls _ rfl 7 (by decide)).2.1 fun tid => ?_⟩
  by_cases h0 : tid = 0 <;> by_cases h1 : tid = 1 <;> simp [State.busy, State.enter, new, h0, h1]

end Aqueduct.Broker.TopicOffsets
