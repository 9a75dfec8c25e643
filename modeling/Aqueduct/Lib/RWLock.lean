import Aqueduct.Lib.Run

/-!
Threads over writer-preferring read-write locks. A thread is the list of lock
actions it still has to do; acquiring for writing takes two steps, a request
and a grant, and a pending request blocks every later read acquisition of that
lock until it has been served.

`Disciplined g` programs use one global lock `g`, which may be read-acquired
again while it is read-held, and leaf locks that are released by the next
action. Such threads get stuck only when a request for `g` comes in while a
reader of `g` is going to acquire it again; `run_progress` is the converse.
-/

namespace RWLock

inductive Mode
  | read
  | write
  deriving DecidableEq, Repr

inductive Act (L : Type)
  | acquire (l : L) (m : Mode)
  | release (l : L) (m : Mode)
  deriving DecidableEq, Repr

structure Thread (L : Type) where
  held : List (L × Mode)
  requested : Bool
  todo : List (Act L)
  deriving DecidableEq, Repr

variable {L : Type} [DecidableEq L]

/-- The lock a thread has requested for writing and not got yet. -/
def Thread.waiting (th : Thread L) : Option L :=
  match th.requested, th.todo with
  | true, .acquire l .write :: _ => some l
  | _, _ => none

def held (s : List (Thread L)) (l : L) : Bool := s.any fun th => th.held.any fun h => h.1 = l

def writeHeld (s : List (Thread L)) (l : L) : Bool := s.any fun th => (l, Mode.write) ∈ th.held

def wanted (s : List (Thread L)) (l : L) : Bool := s.any fun th => th.waiting = some l

/-- The thread after its next action, or `none` while it is blocked or done. -/
def advance (s : List (Thread L)) (th : Thread L) : Option (Thread L) :=
  match th.todo with
  | [] => none
  | .release l m :: p => some ⟨th.held.erase (l, m), th.requested, p⟩
  | .acquire l .read :: p =>
    if writeHeld s l ∨ wanted s l then none else some ⟨(l, .read) :: th.held, th.requested, p⟩
  | .acquire l .write :: p =>
    if th.requested then
      if held s l then none else some ⟨(l, .write) :: th.held, false, p⟩
    else some { th with requested := true }

def step (s : List (Thread L)) (i : Nat) : Option (List (Thread L)) :=
  (s[i]?).bind fun th => (advance s th).map (s.set i)

def Unfinished (s : List (Thread L)) : Prop := ∃ th ∈ s, th.todo ≠ []

def CanStep (s : List (Thread L)) : Prop := ∃ i t, step s i = some t

theorem step_cases {s t : List (Thread L)} {i : Nat} (h : step s i = some t) :
    ∃ th th', s[i]? = some th ∧ advance s th = some th' ∧ t = s.set i th' := by
  obtain ⟨th, hth, h⟩ := Option.bind_eq_some_iff.mp h
  obtain ⟨th', hth', rfl⟩ := Option.map_eq_some_iff.mp h
  exact ⟨th, th', hth, hth', rfl⟩

theorem canStep_iff_advance {s : List (Thread L)} :
    CanStep s ↔ ∃ th ∈ s, (advance s th).isSome := by
  constructor
  · rintro ⟨i, t, h⟩
    obtain ⟨th, th', hth, ha, -⟩ := step_cases h
    exact ⟨th, List.mem_of_getElem? hth, by simp [ha]⟩
  · rintro ⟨th, hm, h⟩
    obtain ⟨i, hi⟩ := List.mem_iff_getElem?.mp hm
    obtain ⟨th', hth'⟩ := Option.isSome_iff_exists.mp h
    exact ⟨i, s.set i th', by simp [step, hi, hth']⟩

instance (s : List (Thread L)) : Decidable (CanStep s) := decidable_of_iff _ canStep_iff_advance.symm

instance (s : List (Thread L)) : Decidable (Unfinished s) :=
  inferInstanceAs (Decidable (∃ th ∈ s, th.todo ≠ []))

/-! ## Disciplined programs -/

/-- Programs that start while `g` is read-held `d` times by the thread. -/
inductive Disciplined (g : L) : Nat → List (Act L) → Prop
  | done : Disciplined g 0 []
  | enter {d : Nat} {p : List (Act L)} : Disciplined g (d + 1) p →
    Disciplined g d (.acquire g .read :: p)
  | leave {d : Nat} {p : List (Act L)} : Disciplined g d p →
    Disciplined g (d + 1) (.release g .read :: p)
  | leaf {d : Nat} {p : List (Act L)} {l : L} {m : Mode} : l ≠ g → Disciplined g d p →
    Disciplined g d (.acquire l m :: .release l m :: p)
  | exclusive {p : List (Act L)} : Disciplined g 0 p →
    Disciplined g 0 (.acquire g .write :: .release g .write :: p)

/-- Where a disciplined thread can stand: between two critical sections, or
inside one that its next action ends. -/
inductive ThreadOK (g : L) : Thread L → Prop
  | between {d : Nat} {req : Bool} {p : List (Act L)} : Disciplined g d p →
    (req = true → ∃ l q, p = .acquire l .write :: q) →
    ThreadOK g ⟨List.replicate d (g, .read), req, p⟩
  | inside {d : Nat} {l : L} {m : Mode} {p : List (Act L)} : Disciplined g d p →
    (l = g → d = 0 ∧ m = .write) →
    ThreadOK g ⟨(l, m) :: List.replicate d (g, .read), false, .release l m :: p⟩

/-- Read-held `d` times, `g` will be read-acquired once more before the thread
has let go of it. -/
def reenters (g : L) : Nat → List (Act L) → Bool
  | 0, _ => false
  | _ + 1, [] => false
  | d + 1, .acquire l m :: p => if l = g ∧ m = .read then true else reenters g (d + 1) p
  | d + 1, .release l m :: p => if l = g ∧ m = .read then reenters g d p else reenters g (d + 1) p

def Thread.reenters (g : L) (th : Thread L) : Bool :=
  RWLock.reenters g (th.held.count (g, .read)) th.todo

/-- Thread `i` does not request `g` while some thread is going to acquire it
again for reading. -/
def Orderly (g : L) (s : List (Thread L)) (i : Nat) : Prop :=
  ∀ th ∈ s[i]?, th.requested = false → (∃ p, th.todo = .acquire g .write :: p) →
    ∀ th' ∈ s, th'.reenters g = false

instance (g : L) (s : List (Thread L)) (i : Nat) : Decidable (Orderly g s i) :=
  decidable_of_iff (∀ th ∈ s[i]?, th.requested = false →
      (th.todo.head? = some (.acquire g .write)) → ∀ th' ∈ s, th'.reenters g = false) (by
    simp only [Orderly, List.head?_eq_some_iff])

/-! ## One step -/

section Step

variable {g : L} {s : List (Thread L)} {th th' : Thread L}

omit [DecidableEq L] in
theorem not_requested {req : Bool} {p : List (Act L)}
    (h : req = true → ∃ l q, p = .acquire l .write :: q)
    (hp : ∀ l q, p ≠ .acquire l .write :: q) : req = false := by
  cases req with
  | false => rfl
  | true =>
    obtain ⟨l, q, hq⟩ := h rfl
    exact absurd hq (hp l q)

section Actions

variable {hd : List (L × Mode)} {req : Bool} {l : L} {p : List (Act L)}

theorem advance_release {m : Mode} (ha : advance s ⟨hd, req, .release l m :: p⟩ = some th') :
    th' = ⟨hd.erase (l, m), req, p⟩ :=
  (Option.some.inj ha).symm

theorem advance_read (ha : advance s ⟨hd, req, .acquire l .read :: p⟩ = some th') :
    wanted s l = false ∧ th' = ⟨(l, .read) :: hd, req, p⟩ := by
  obtain ⟨hfree, heq⟩ := Option.ite_none_left_eq_some.mp ha
  exact ⟨by simpa using (not_or.mp hfree).2, (Option.some.inj heq).symm⟩

theorem advance_write (ha : advance s ⟨hd, req, .acquire l .write :: p⟩ = some th') :
    (req = true ∧ th' = ⟨(l, .write) :: hd, false, p⟩) ∨
      (req = false ∧ th' = ⟨hd, true, .acquire l .write :: p⟩) := by
  cases req with
  | true =>
    simp only [advance, if_true, Option.ite_none_left_eq_some, Option.some.injEq] at ha
    exact .inl ⟨rfl, ha.2.symm⟩
  | false =>
    simp only [advance, Bool.false_eq_true, if_false, Option.some.injEq] at ha
    exact .inr ⟨rfl, ha.symm⟩

end Actions

theorem advance_ok (h : ThreadOK g th) (ha : advance s th = some th') : ThreadOK g th' := by
  cases h with
  | @inside d l m p hp hl =>
    obtain rfl := advance_release ha
    rw [List.erase_cons_head]
    exact .between hp (by simp)
  | @between d req p hp hreq =>
    cases hp with
    | done => simp [advance] at ha
    | enter hp =>
      obtain rfl := not_requested hreq (by simp)
      obtain ⟨-, rfl⟩ := advance_read ha
      exact .between hp (by simp)
    | leave hp =>
      obtain rfl := not_requested hreq (by simp)
      obtain rfl := advance_release ha
      rw [List.replicate_succ, List.erase_cons_head]
      exact .between hp (by simp)
    | @leaf d p l m hl hp =>
      cases m with
      | read =>
        obtain rfl := not_requested hreq (by simp)
        obtain ⟨-, rfl⟩ := advance_read ha
        exact .inside hp fun h => absurd h hl
      | write =>
        obtain ⟨-, rfl⟩ | ⟨-, rfl⟩ := advance_write ha
        · exact .inside hp fun h => absurd h hl
        · exact .between (.leaf hl hp) fun _ => ⟨_, _, rfl⟩
    | exclusive hp =>
      obtain ⟨-, rfl⟩ | ⟨-, rfl⟩ := advance_write ha
      · exact .inside hp fun _ => ⟨rfl, rfl⟩
      · exact .between (.exclusive hp) fun _ => ⟨_, _, rfl⟩

/-- A blocked disciplined thread holds only reads of `g`. -/
theorem blocked_shape (h : ThreadOK g th) (hb : advance s th = none) :
    ∃ d, th.held = List.replicate d (g, .read) ∧ Disciplined g d th.todo ∧
      (th.todo = [] ∨
        (∃ l p, th.todo = .acquire l .read :: p ∧ (writeHeld s l ∨ wanted s l)) ∨
        ∃ l p, th.todo = .acquire l .write :: p ∧ th.waiting = some l ∧ held s l) := by
  cases h with
  | inside hp hl => simp [advance] at hb
  | @between d req p hp hreq =>
    refine ⟨d, rfl, hp, ?_⟩
    match p, hb with
    | [], _ => exact .inl rfl
    | .release l m :: p, hb => simp [advance] at hb
    | .acquire l .read :: p, hb =>
      simp only [advance] at hb
      right; left
      refine ⟨l, p, rfl, ?_⟩
      by_contra hc
      simp [hc] at hb
    | .acquire l .write :: p, hb =>
      right; right
      cases req with
      | false => simp [advance] at hb
      | true =>
        refine ⟨l, p, rfl, rfl, ?_⟩
        by_contra hc
        simp [advance, hc] at hb

omit s th th' in
theorem reenters_acquire {l : L} {m : Mode} (h : (l, m) ≠ (g, .read)) (d : Nat)
    (p : List (Act L)) : reenters g d (.acquire l m :: p) = reenters g d p := by
  have hne : ¬ (l = g ∧ m = .read) := fun he => h (Prod.ext he.1 he.2)
  cases d with
  | zero => simp [reenters]
  | succ d => rw [reenters, if_neg hne]

omit s th th' in
theorem reenters_release {l : L} {m : Mode} (h : (l, m) ≠ (g, .read)) (d : Nat)
    (p : List (Act L)) : reenters g d (.release l m :: p) = reenters g d p := by
  have hne : ¬ (l = g ∧ m = .read) := fun he => h (Prod.ext he.1 he.2)
  cases d with
  | zero => simp [reenters]
  | succ d => rw [reenters, if_neg hne]

omit s th th' in
theorem reenters_leave (d : Nat) (p : List (Act L)) :
    reenters g d (.release g .read :: p) = reenters g (d - 1) p := by
  cases d with
  | zero => simp [reenters]
  | succ d => simp [reenters]

/-- Only a read acquisition of `g` can make a thread one that re-enters. -/
theorem advance_reenters (ha : advance s th = some th') (hr : th'.reenters g = true) :
    th.reenters g = true ∨ wanted s g = false := by
  obtain ⟨hd, req, todo⟩ := th
  match todo, ha with
  | .release l m :: p, ha =>
    obtain rfl := advance_release ha
    left
    by_cases hg : (l, m) = (g, .read)
    · obtain ⟨rfl, rfl⟩ := Prod.mk.inj hg
      simpa [Thread.reenters, reenters_leave] using hr
    · simpa [Thread.reenters, reenters_release hg, List.count_erase_of_ne (Ne.symm hg)] using hr
  | .acquire l .read :: p, ha =>
    obtain ⟨hw, rfl⟩ := advance_read ha
    by_cases hg : l = g
    · exact .inr (hg ▸ hw)
    · have hne : (l, Mode.read) ≠ (g, .read) := fun he => hg (Prod.mk.inj he).1
      left
      simpa [Thread.reenters, reenters_acquire hne, List.count_cons_of_ne hne] using hr
  | .acquire l .write :: p, ha =>
    have hne : (l, Mode.write) ≠ (g, .read) := fun he => absurd (Prod.mk.inj he).2 (by decide)
    left
    obtain ⟨-, rfl⟩ | ⟨-, rfl⟩ := advance_write ha
    · simpa [Thread.reenters, reenters_acquire hne, List.count_cons_of_ne hne] using hr
    · exact hr

/-- A thread newly waiting for `g` has just requested it. -/
theorem advance_waiting (h : ThreadOK g th) (ha : advance s th = some th')
    (hw : th'.waiting = some g) :
    th.requested = false ∧ ∃ p, th.todo = .acquire g .write :: p := by
  have hreq : th.requested = true → ∃ l p, th.todo = .acquire l .write :: p := by
    cases h with
    | between hp hreq => exact hreq
    | inside hp hl => simp
  obtain ⟨hd, req, todo⟩ := th
  match todo, ha with
  | .release l m :: p, ha =>
    obtain rfl := not_requested hreq (by simp)
    obtain rfl := advance_release ha
    simp [Thread.waiting] at hw
  | .acquire l .read :: p, ha =>
    obtain rfl := not_requested hreq (by simp)
    obtain ⟨-, rfl⟩ := advance_read ha
    simp [Thread.waiting] at hw
  | .acquire l .write :: p, ha =>
    obtain ⟨-, rfl⟩ | ⟨rfl, rfl⟩ := advance_write ha
    · simp [Thread.waiting] at hw
    · obtain rfl : l = g := by simpa [Thread.waiting] using hw
      exact ⟨rfl, p, rfl⟩

end Step

/-! ## Runs -/

/-- All threads are disciplined, and nobody re-enters `g` while a thread waits
for it. -/
structure Inv (g : L) (s : List (Thread L)) : Prop where
  threads : ∀ th ∈ s, ThreadOK g th
  noReentry : wanted s g = true → ∀ th ∈ s, th.reenters g = false

theorem step_inv {g : L} {s t : List (Thread L)} {i : Nat} (hi : Inv g s) (ho : Orderly g s i)
    (hs : step s i = some t) : Inv g t := by
  obtain ⟨th, th', hth, ha, rfl⟩ := step_cases hs
  have hmem := List.mem_of_getElem? hth
  have hok := hi.threads th hmem
  refine ⟨?_, ?_⟩
  · intro u hu
    rcases List.mem_or_eq_of_mem_set hu with hu | rfl
    · exact hi.threads u hu
    · exact advance_ok hok ha
  · intro hw u hu
    have hold : wanted s g = true → u.reenters g = false := by
      intro hws
      rcases List.mem_or_eq_of_mem_set hu with hu | rfl
      · exact hi.noReentry hws u hu
      · by_contra hr
        rcases advance_reenters ha (by simpa using hr) with hr | hr
        · rw [hi.noReentry hws th hmem] at hr
          cases hr
        · rw [hws] at hr
          cases hr
    obtain ⟨v, hv, hvw⟩ := List.any_eq_true.mp hw
    rcases List.mem_or_eq_of_mem_set hv with hv | hv
    · exact hold (List.any_eq_true.mpr ⟨v, hv, hvw⟩)
    · -- the stepping thread is the one that waits: it has just requested `g`
      rw [hv] at hvw
      obtain ⟨hreq, p, hp⟩ := advance_waiting hok ha (of_decide_eq_true hvw)
      have hno := ho th hth hreq ⟨p, hp⟩
      rcases List.mem_or_eq_of_mem_set hu with hu | hu
      · exact hno u hu
      · have hsame : th' = { th with requested := true } := by
          simpa [advance, hp, hreq, eq_comm] using ha
        rw [hu, hsame]
        exact hno th hmem

/-! ## Stuck states -/

section Stuck

variable {g l : L} {s : List (Thread L)} (hi : Inv g s) (hstuck : ¬ CanStep s)

include hi hstuck

theorem stuck_shape {th : Thread L} (hth : th ∈ s) :
    ∃ d, th.held = List.replicate d (g, .read) ∧ Disciplined g d th.todo ∧
      (th.todo = [] ∨
        (∃ l p, th.todo = .acquire l .read :: p ∧ (writeHeld s l ∨ wanted s l)) ∨
        ∃ l p, th.todo = .acquire l .write :: p ∧ th.waiting = some l ∧ held s l) := by
  refine blocked_shape (hi.threads th hth) ?_
  by_contra h
  exact hstuck (canStep_iff_advance.mpr ⟨th, hth, Option.isSome_iff_ne_none.mpr h⟩)

theorem stuck_held_eq (hl : held s l = true) : l = g := by
  obtain ⟨th, hth, hh⟩ := List.any_eq_true.mp hl
  obtain ⟨h, hh, heq⟩ := List.any_eq_true.mp hh
  obtain ⟨d, hd, -⟩ := stuck_shape hi hstuck hth
  rw [hd] at hh
  rw [List.eq_of_mem_replicate hh] at heq
  exact (of_decide_eq_true heq).symm

theorem stuck_not_writeHeld (l : L) : ¬ writeHeld s l = true := by
  intro hl
  obtain ⟨th, hth, hh⟩ := List.any_eq_true.mp hl
  obtain ⟨d, hd, -⟩ := stuck_shape hi hstuck hth
  rw [hd] at hh
  have hmode := List.eq_of_mem_replicate (of_decide_eq_true hh)
  exact absurd (Prod.mk.inj hmode).2 (by decide)

/-- Whoever waits is blocked by a holder. -/
theorem stuck_wanted_held (hl : wanted s l = true) : held s l = true := by
  obtain ⟨th, hth, hw⟩ := List.any_eq_true.mp hl
  have hw := of_decide_eq_true hw
  obtain ⟨d, hd, -, hnil | ⟨l', p, hp, -⟩ | ⟨l', p, hp, hw', hheld⟩⟩ := stuck_shape hi hstuck hth
  · simp [Thread.waiting, hnil] at hw
  · simp [Thread.waiting, hp] at hw
  · rw [hw'] at hw
    cases hw
    exact hheld

/-- A reader of `g` that does not re-enter it could go on. -/
theorem stuck_not_wanted : ¬ wanted s g = true := by
  intro hw
  obtain ⟨th, hth, hh⟩ := List.any_eq_true.mp (stuck_wanted_held hi hstuck hw)
  obtain ⟨h, hh, -⟩ := List.any_eq_true.mp hh
  have hno := hi.noReentry hw th hth
  obtain ⟨d, hd, hp, hcase⟩ := stuck_shape hi hstuck hth
  rw [hd] at hh
  have hpos : d ≠ 0 := fun h0 => by simp [h0] at hh
  rw [Thread.reenters, hd, List.count_replicate_self] at hno
  have hnext : ∀ l, l ≠ g → ¬ (writeHeld s l = true ∨ wanted s l = true) := by
    rintro l hl (h | h)
    · exact stuck_not_writeHeld hi hstuck l h
    · exact hl (stuck_held_eq hi hstuck (stuck_wanted_held hi hstuck h))
  generalize th.todo = todo at hp hno hcase
  cases hp with
  | done => exact hpos rfl
  | enter hp =>
    obtain ⟨k, rfl⟩ := Nat.exists_eq_succ_of_ne_zero hpos
    simp [reenters] at hno
  | leave hp => simp at hcase
  | leaf hl hp =>
    rcases hcase with h | ⟨l', p, h, hb⟩ | ⟨l', p, h, -, hb⟩
    · cases h
    · cases h
      exact hnext _ hl hb
    · cases h
      exact hl (stuck_held_eq hi hstuck hb)
  | exclusive hp => exact hpos rfl

end Stuck

/-- A state that satisfies the invariant is not stuck. -/
theorem progress {g : L} {s : List (Thread L)} (hi : Inv g s) (hu : Unfinished s) : CanStep s := by
  by_contra hstuck
  have hfree := stuck_not_wanted hi hstuck
  obtain ⟨th, hth, htodo⟩ := hu
  obtain ⟨d, -, -, hnil | ⟨l, p, -, hb⟩ | ⟨l, p, -, hw, hb⟩⟩ := stuck_shape hi hstuck hth
  · exact htodo hnil
  · rcases hb with hb | hb
    · exact stuck_not_writeHeld hi hstuck l hb
    · exact hfree (stuck_held_eq hi hstuck (stuck_wanted_held hi hstuck hb) ▸ hb)
  · have hwl : wanted s l = true := List.any_eq_true.mpr ⟨th, hth, decide_eq_true hw⟩
    exact hfree (stuck_held_eq hi hstuck hb ▸ hwl)

def Thread.start (p : List (Act L)) : Thread L := ⟨[], false, p⟩

/-- Disciplined threads never get stuck in a run without requests for `g`
under a re-entering reader. -/
theorem run_progress {g : L} {ps : List (List (Act L))} (hp : ∀ p ∈ ps, Disciplined g 0 p)
    {is : List Nat} {t : List (Thread L)}
    (ho : Transition.Meets step (Orderly g) (ps.map Thread.start) is)
    (hr : Transition.run step (ps.map Thread.start) is = some t) (hu : Unfinished t) :
    CanStep t := by
  have h0 : Inv g (ps.map Thread.start) := by
    refine ⟨?_, ?_⟩
    · intro th hth
      obtain ⟨p, hm, rfl⟩ := List.mem_map.mp hth
      exact .between (hp p hm) (by simp)
    · intro hw
      obtain ⟨th, hth, hw⟩ := List.any_eq_true.mp hw
      obtain ⟨p, -, rfl⟩ := List.mem_map.mp hth
      simp [Thread.waiting, Thread.start] at hw
  exact progress (Transition.run_invariant (fun _ _ _ => step_inv) h0 ho hr) hu

end RWLock
