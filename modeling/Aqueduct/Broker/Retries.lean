import Aqueduct.Broker.FrameCache

/-!
Retries and dead letters. A NACK is handled by the writer of its subscription in
two critical sections: the first one counts the NACK under the topic and the
offset, and if that was the last one allowed the second one clears the count. The
frame is published outside of them. `Retrying` interleaves any number of writers
that way. The NACKs of a topic and offset are numbered in the order they are
counted; `history` is what happens to the router, with the NACK that each
publication answers.

The count is an `int8`. With a limit above 127 it never gets there, and no message
is ever dead lettered. With a smaller limit every `maxRetries`-th NACK publishes
the dead letter, as long as nobody counts between the two sections of another
writer and the router takes the frame: it is published under the empty client ID,
which has a quota like any other.
-/

namespace Aqueduct.Broker

open ByteStr Protocol Router

def Nacks.withMaxRetries (n : Nacks) (m : Int) : Nacks :=
  if 0 < m then { n with maxRetries := m } else n

def nackKey (p : Bytes × UInt64) : UInt64 × UInt64 := (topicHashKey p.1, p.2)

/-- Where a writer is: it has counted NACK number `k` of `p`, or cleared the count after it. -/
inductive NackPhase
  | idle
  | counted (p : Bytes × UInt64) (count : Int8) (k : Nat)
  | cleared (p : Bytes × UInt64) (k : Nat)

/-- What happens to the router: NACK number `k` of `p` publishes a frame, or
anything else. -/
inductive RouterEvent
  | nack (p : Bytes × UInt64) (k : Nat) (now : Int64) (f : Frame)
  | other (a : Action)

namespace RouterEvent

def step (r : Router) : RouterEvent → Option Router
  | .nack _ _ now f => some (r.publishWithClientID now f []).1
  | .other a => some (r.act a)

/-- What NACK number `k` of `p` publishes here. -/
def answer (p : Bytes × UInt64) (k : Nat) : RouterEvent → Option Frame
  | .nack q j _ f => if q = p ∧ j = k then some f else none
  | .other _ => none

/-- The router takes what a NACK of `p` publishes. -/
def Taken (p : Bytes × UInt64) (r : Router) : RouterEvent → Prop
  | .nack q _ _ f => q = p → (Publication.client [] f).Accepted r
  | .other _ => True

end RouterEvent

structure Retrying where
  nacks : Nacks
  router : Router
  phases : Nat → NackPhase
  /-- How many NACKs were counted. -/
  nacked : Bytes × UInt64 → Nat
  history : List RouterEvent

namespace Retrying

def start (r : Router) (maxRetries : Int) : Retrying :=
  ⟨(Nacks.new defaultMaxRetries).withMaxRetries maxRetries, r, fun _ => .idle, fun _ => 0, []⟩

/-- What NACK number `k` of `p` has published. -/
def answers (s : Retrying) (p : Bytes × UInt64) (k : Nat) : List Frame :=
  s.history.filterMap (RouterEvent.answer p k)

inductive Label
  /-- Writer `i`, with the cache of `w`, looks a NACK up and counts it. -/
  | nack (i : Nat) (w : Writer) (nackOffset : UInt64)
  /-- Writer `i` goes on: it publishes, or clears the count. -/
  | proceed (i : Nat) (now : Int64)
  /-- Anything else that happens to the router. -/
  | act (a : Action)

/-- The first critical section. -/
def count (s : Retrying) (i : Nat) (p : Bytes × UInt64) : Retrying :=
  let count := s.nacks.counters (nackKey p) + 1
  { s with
    nacks := s.nacks.set (nackKey p) count
    phases := Function.update s.phases i (.counted p count (s.nacked p))
    nacked := Function.update s.nacked p (s.nacked p + 1) }

/-- The second critical section. -/
def clear (s : Retrying) (i : Nat) (p : Bytes × UInt64) (k : Nat) : Retrying :=
  { s with
    nacks := s.nacks.set (nackKey p) 0
    phases := Function.update s.phases i (.cleared p k) }

def publish (s : Retrying) (i : Nat) (now : Int64) (p : Bytes × UInt64) (k : Nat) (f : Frame) :
    Retrying :=
  { s with
    router := (s.router.publishWithClientID now f []).1
    phases := Function.update s.phases i .idle
    history := s.history ++ [.nack p k now f] }

def step (s : Retrying) : Label → Option Retrying
  | .nack i w nackOffset =>
    match s.phases i with
    | .idle =>
      match w.frameCache nackOffset with
      | none => some s
      | some topicName => some (s.count i (topicName, nackOffset))
    | _ => none
  | .proceed i now =>
    match s.phases i with
    | .idle => none
    | .counted p count k =>
      if count.toInt < s.nacks.maxRetries then some (s.publish i now p k (retryFrame p.1 p.2))
      else some (s.clear i p k)
    | .cleared p k => some (s.publish i now p k (dlqFrame p.1))
  | .act a => some { s with router := s.router.act a, history := s.history ++ [.other a] }

inductive Moves (s : Retrying) : Label → Retrying → Prop
  | ignored {i w o} : s.phases i = .idle → w.frameCache o = none → Moves s (.nack i w o) s
  | counted {i w o topicName} : s.phases i = .idle → w.frameCache o = some topicName →
      Moves s (.nack i w o) (s.count i (topicName, o))
  | retried {i now p c k} : s.phases i = .counted p c k → c.toInt < s.nacks.maxRetries →
      Moves s (.proceed i now) (s.publish i now p k (retryFrame p.1 p.2))
  | cleared {i now p c k} : s.phases i = .counted p c k → ¬ c.toInt < s.nacks.maxRetries →
      Moves s (.proceed i now) (s.clear i p k)
  | buried {i now p k} : s.phases i = .cleared p k →
      Moves s (.proceed i now) (s.publish i now p k (dlqFrame p.1))
  | acted (a) : Moves s (.act a)
      { s with router := s.router.act a, history := s.history ++ [.other a] }

theorem step_moves {s t : Retrying} {l : Label} (h : s.step l = some t) : Moves s l t := by
  cases l with
  | nack i w o =>
    dsimp only [step] at h
    split at h
    · next hidle =>
      split at h
      · next hnone =>
        cases h
        exact .ignored hidle hnone
      · next hsome =>
        cases h
        exact .counted hidle hsome
    · cases h
  | proceed i now =>
    dsimp only [step] at h
    split at h
    · cases h
    · next hcounted =>
      split at h
      · next hlt =>
        cases h
        exact .retried hcounted hlt
      · next hlt =>
        cases h
        exact .cleared hcounted hlt
    · next hcleared =>
      cases h
      exact .buried hcleared
  | act a =>
    cases h
    exact .acted a

/-! ## A NACK that nobody interrupts -/

theorem step_nack {s : Retrying} {i : Nat} (hidle : s.phases i = .idle) {w : Writer} {o : UInt64}
    {topicName : Bytes} (hcache : w.frameCache o = some topicName) :
    s.step (.nack i w o) = some (s.count i (topicName, o)) := by
  simp only [step, hidle, hcache]

theorem step_retry {s : Retrying} {i : Nat} {p : Bytes × UInt64} {c : Int8} {k : Nat}
    (hcounted : s.phases i = .counted p c k) (hlt : c.toInt < s.nacks.maxRetries) (now : Int64) :
    s.step (.proceed i now) = some (s.publish i now p k (retryFrame p.1 p.2)) := by
  simp only [step, hcounted, if_pos hlt]

theorem step_clear {s : Retrying} {i : Nat} {p : Bytes × UInt64} {c : Int8} {k : Nat}
    (hcounted : s.phases i = .counted p c k) (hlt : ¬ c.toInt < s.nacks.maxRetries) (now : Int64) :
    s.step (.proceed i now) = some (s.clear i p k) := by
  simp only [step, hcounted, if_neg hlt]

theorem step_bury {s : Retrying} {i : Nat} {p : Bytes × UInt64} {k : Nat}
    (hcleared : s.phases i = .cleared p k) (now : Int64) :
    s.step (.proceed i now) = some (s.publish i now p k (dlqFrame p.1)) := by
  simp only [step, hcleared]

@[simp] theorem count_phase (s : Retrying) (i : Nat) (p : Bytes × UInt64) :
    (s.count i p).phases i =
      .counted p (s.nacks.counters (nackKey p) + 1) (s.nacked p) := by
  simp [count]

@[simp] theorem clear_phase (s : Retrying) (i : Nat) (p : Bytes × UInt64) (k : Nat) :
    (s.clear i p k).phases i = .cleared p k := by
  simp [clear]

section Alone

variable {s : Retrying} {i : Nat} (hidle : s.phases i = .idle) {w : Writer} {p : Bytes × UInt64}
  (hcache : w.frameCache p.2 = some p.1)

include hidle hcache

theorem run_retry (hlt : (s.nacks.counters (nackKey p) + 1).toInt < s.nacks.maxRetries)
    (now : Int64) : Transition.run step s [.nack i w p.2, .proceed i now] =
      some ((s.count i p).publish i now p (s.nacked p) (retryFrame p.1 p.2)) := by
  rw [Transition.run_cons, step_nack hidle hcache, Option.bind_some, Transition.run_cons,
    step_retry (s.count_phase i p) hlt]
  rfl

theorem run_bury (hlt : ¬ (s.nacks.counters (nackKey p) + 1).toInt < s.nacks.maxRetries)
    (now : Int64) : Transition.run step s [.nack i w p.2, .proceed i now, .proceed i now] =
      some (((s.count i p).clear i p (s.nacked p)).publish i now p (s.nacked p)
        (dlqFrame p.1)) := by
  rw [Transition.run_cons, step_nack hidle hcache, Option.bind_some, Transition.run_cons,
    step_clear (s.count_phase i p) hlt, Option.bind_some, Transition.run_cons,
    step_bury (clear_phase _ i p _)]
  rfl

end Alone

/-- Alone, the sections of a writer are `handleNack`. -/
theorem handleNack_alone {s : Retrying} {i : Nat} (hidle : s.phases i = .idle) (w : Writer)
    (now : Int64) (o : UInt64) :
    ∃ ls t, Transition.run step s ls = some t ∧
      (t.nacks, t.router) = w.handleNack now s.nacks s.router o ∧ t.phases = s.phases := by
  have hback : Function.update s.phases i .idle = s.phases := by
    rw [← hidle, Function.update_eq_self]
  cases hcache : w.frameCache o with
  | none =>
    refine ⟨[], s, rfl, ?_, rfl⟩
    rw [Writer.handleNack, hcache]
  | some topicName =>
    by_cases hlt : (s.nacks.counters (nackKey (topicName, o)) + 1).toInt < s.nacks.maxRetries
    · refine ⟨_, _, run_retry (p := (topicName, o)) hidle hcache hlt now, ?_, ?_⟩
      · rw [Writer.handleNack, hcache]
        exact (if_pos hlt).symm
      · dsimp only [publish, count]
        rw [Function.update_idem, hback]
    · refine ⟨_, _, run_bury (p := (topicName, o)) hidle hcache hlt now, ?_, ?_⟩
      · rw [Writer.handleNack, hcache]
        refine Eq.trans ?_ (if_neg hlt).symm
        simp only [publish, clear, count, Nacks.set, Function.update_idem]
        rfl
      · dsimp only [publish, clear, count]
        rw [Function.update_idem, Function.update_idem, hback]

/-! ## The law -/

/-- The count of `p` is about to be cleared. -/
def Clears (maxRetries : Int) (p : Bytes × UInt64) : NackPhase → Prop
  | .counted q count _ => nackKey q = nackKey p ∧ ¬ count.toInt < maxRetries
  | _ => False

def Clearing (p : Bytes × UInt64) (s : Retrying) (i : Nat) : Prop :=
  Clears s.nacks.maxRetries p (s.phases i)

/-- What a writer is about to publish, and for what. -/
def pending (maxRetries : Int) : NackPhase → Option ((Bytes × UInt64) × Frame)
  | .idle => none
  | .counted p count _ =>
    if count.toInt < maxRetries then some (p, retryFrame p.1 p.2) else none
  | .cleared p _ => some (p, dlqFrame p.1)

/-- The key of `p` is used for `p` only, while its count is about to be cleared
nobody counts, and the router takes what is published for `p`. -/
def Undisturbed (p : Bytes × UInt64) (s : Retrying) : Label → Prop
  | .nack _ w o => ∀ topicName, w.frameCache o = some topicName →
      nackKey (topicName, o) = nackKey p → (topicName, o) = p ∧ ∀ j, ¬ s.Clearing p j
  | .proceed i _ => ∀ f, pending s.nacks.maxRetries (s.phases i) = some (p, f) →
      (Publication.client [] f).Accepted s.router
  | .act _ => True

/-- What NACK number `k` of `p` is to publish: the count starts anew after every
`maxRetries`-th one. -/
def expected (maxRetries : Int) (p : Bytes × UInt64) (k : Nat) : Frame :=
  if (k + 1 : Int) % maxRetries = 0 then dlqFrame p.1 else retryFrame p.1 p.2

/-- The writer handles NACK number `k` of `p`. -/
def Handles (p : Bytes × UInt64) (k : Nat) : NackPhase → Prop
  | .idle => False
  | .counted q _ k' | .cleared q k' => q = p ∧ k' = k

theorem Handles.unique {p : Bytes × UInt64} {k k' : Nat} {ph : NackPhase} (h : Handles p k ph)
    (h' : Handles p k' ph) : k = k' := by
  cases ph with
  | idle => exact h.elim
  | counted q c n => exact h.2.symm.trans h'.2
  | cleared q n => exact h.2.symm.trans h'.2

/-- The history is what happened to the router, and the router took all that was
published for `p`. -/
def Told (r : Router) (p : Bytes × UInt64) (s : Retrying) : Prop :=
  Transition.run RouterEvent.step r s.history = some s.router ∧
    Transition.Meets RouterEvent.step (RouterEvent.Taken p) r s.history

/-- A NACK of `p` that is done has published what it is to publish, once; one that
is still being handled, or not counted yet, has published nothing. The count is
what is left after the last dead letter. -/
structure Lawful (r : Router) (maxRetries : Int) (p : Bytes × UInt64) (s : Retrying) : Prop where
  told : Told r p s
  answered : ∀ k, k < s.nacked p → (∀ i, ¬ Handles p k (s.phases i)) →
    s.answers p k = [expected maxRetries p k]
  silent : ∀ k, s.nacked p ≤ k ∨ (∃ i, Handles p k (s.phases i)) → s.answers p k = []
  counter : (∀ i, ¬ s.Clearing p i) →
    (s.nacks.counters (nackKey p)).toInt = (s.nacked p : Int) % maxRetries

/-- A NACK of `p` got the count that its number gives, and the count was cleared
behind a last one. -/
def Proper (maxRetries : Int) (p : Bytes × UInt64) : NackPhase → Prop
  | .idle => True
  | .counted q count k => nackKey q = nackKey p → q = p ∧ count.toInt = (k : Int) % maxRetries + 1
  | .cleared q k => q = p → (k + 1 : Int) % maxRetries = 0

/-- The invariant: next to the law, what the phases of the writers say about `p`. -/
structure Regular (r : Router) (maxRetries : Int) (p : Bytes × UInt64) (s : Retrying) : Prop
    extends Lawful r maxRetries p s where
  limit : s.nacks.maxRetries = maxRetries
  proper : ∀ i, Proper maxRetries p (s.phases i)
  handled : ∀ i k, Handles p k (s.phases i) → k < s.nacked p
  apart : ∀ i j k, Handles p k (s.phases i) → Handles p k (s.phases j) → i = j
  one : ∀ i j, s.Clearing p i → s.Clearing p j → i = j
  full : ∀ i, s.Clearing p i → (s.nacked p : Int) % maxRetries = 0

theorem add_one_toInt {c : Int8} (hlow : 0 ≤ c.toInt) (hhigh : c.toInt < 127) :
    (c + 1).toInt = c.toInt + 1 := by
  rw [Int8.toInt_add, Int.bmod_eq_of_le] <;> simp <;> omega

theorem add_one_emod {m : Int} (hm : 1 ≤ m) (k : Int) :
    (k + 1) % m = if k % m + 1 < m then k % m + 1 else 0 := by
  have hlow := Int.emod_nonneg k (show m ≠ 0 by omega)
  have hhigh := Int.emod_lt_of_pos k (show 0 < m by omega)
  rw [← Int.emod_add_emod]
  split
  · exact Int.emod_eq_of_lt (by omega) (by assumption)
  · rw [show k % m + 1 = m by omega, Int.emod_self]

/-- The history goes on by one event. -/
theorem Told.extend {r : Router} {p : Bytes × UInt64} {s t : Retrying} (h : Told r p s)
    {e : RouterEvent} (hhistory : t.history = s.history ++ [e])
    (hstep : e.step s.router = some t.router) (htaken : e.Taken p s.router) : Told r p t := by
  obtain ⟨hrun, hmeets⟩ := h
  rw [Told, hhistory, Transition.run_append, hrun]
  refine ⟨by rw [Option.bind_some, Transition.run_cons, hstep]; rfl,
    Transition.meets_append hmeets fun u hu => ?_⟩
  obtain rfl := Option.some.inj (hrun.symm.trans hu)
  exact ⟨htaken, fun _ _ => trivial⟩

theorem answers_append {s t : Retrying} {e : RouterEvent}
    (hhistory : t.history = s.history ++ [e]) (p : Bytes × UInt64) (k : Nat) :
    t.answers p k = s.answers p k ++ (e.answer p k).toList := by
  rw [answers, hhistory, List.filterMap_append]
  cases h : e.answer p k <;> simp [answers, h]

/-- The phase has nothing to do with `p`. -/
def Foreign (p : Bytes × UInt64) : NackPhase → Prop
  | .idle => True
  | .counted q _ _ => nackKey q ≠ nackKey p
  | .cleared q _ => q ≠ p

namespace Foreign

variable {p : Bytes × UInt64} {ph : NackPhase} (h : Foreign p ph)

include h

theorem not_clears (m : Int) : ¬ Clears m p ph := by
  cases ph with
  | idle => exact fun hc => hc
  | counted q c k => exact fun hc => h hc.1
  | cleared q k => exact fun hc => hc

theorem not_handles (k : Nat) : ¬ Handles p k ph := by
  cases ph with
  | idle => exact fun hc => hc
  | counted q c k' => exact fun hc => h (hc.1 ▸ rfl)
  | cleared q k' => exact fun hc => h hc.1

theorem proper (m : Int) : Proper m p ph := by
  cases ph with
  | idle => trivial
  | counted q c k => exact fun hkey => absurd hkey h
  | cleared q k => exact fun hq => absurd hq h

end Foreign

section Update

variable {p : Bytes × UInt64} {s t : Retrying} {i : Nat} {ph : NackPhase}
  (hphases : t.phases = Function.update s.phases i ph)

include hphases

theorem phases_self : t.phases i = ph := by
  rw [hphases, Function.update_self]

theorem phases_of_ne {j : Nat} (hj : j ≠ i) : t.phases j = s.phases j := by
  rw [hphases, Function.update_of_ne hj]

theorem proper_update {m : Int} (h : ∀ j, Proper m p (s.phases j)) (hph : Proper m p ph) (j : Nat) :
    Proper m p (t.phases j) := by
  by_cases hj : j = i
  · rwa [hj, phases_self hphases]
  · rw [phases_of_ne hphases hj]
    exact h j

theorem clearing_update (hlimit : t.nacks.maxRetries = s.nacks.maxRetries) (j : Nat) :
    t.Clearing p j ↔ if j = i then Clears s.nacks.maxRetries p ph else s.Clearing p j := by
  rw [Clearing, Clearing, hlimit]
  split
  · next hj => rw [hj, phases_self hphases]
  · next hj => rw [phases_of_ne hphases hj]

theorem handles_update (j k : Nat) :
    Handles p k (t.phases j) ↔ if j = i then Handles p k ph else Handles p k (s.phases j) := by
  split
  · next hj => rw [hj, phases_self hphases]
  · next hj => rw [phases_of_ne hphases hj]

/-- A step that leaves nothing to clear, at writer `i` or anywhere else. -/
theorem clearing_update_of_not (hlimit : t.nacks.maxRetries = s.nacks.maxRetries)
    (hs : ¬ s.Clearing p i) (ht : ¬ Clears s.nacks.maxRetries p ph) (j : Nat) :
    t.Clearing p j ↔ s.Clearing p j := by
  rw [clearing_update hphases hlimit]
  split
  · next hj => exact iff_of_false ht (hj ▸ hs)
  · exact Iff.rfl

end Update

namespace Regular

variable {r : Router} {m : Int} {p : Bytes × UInt64} {s t : Retrying} {i : Nat}

theorem counted (h : Regular r m p s) {q : Bytes × UInt64} {c : Int8} {k : Nat}
    (hphase : s.phases i = .counted q c k) (hkey : nackKey q = nackKey p) :
    q = p ∧ c.toInt = (k : Int) % m + 1 := by
  have hproper := h.proper i
  rw [hphase] at hproper
  exact hproper hkey

/-- A step after which the same NACKs of `p` are counted, handled and answered. -/
theorem same (h : Regular r m p s) (htold : Told r p t) (hnacked : t.nacked p = s.nacked p)
    (hanswers : ∀ k, t.answers p k = s.answers p k)
    (hhandles : ∀ j k, Handles p k (t.phases j) ↔ Handles p k (s.phases j))
    (hlimit : t.nacks.maxRetries = s.nacks.maxRetries) (hproper : ∀ j, Proper m p (t.phases j))
    (hclearing : ∀ j, t.Clearing p j → s.Clearing p j)
    (hcounter : (∀ j, ¬ t.Clearing p j) →
      (t.nacks.counters (nackKey p)).toInt = (t.nacked p : Int) % m) : Regular r m p t where
  told := htold
  answered k hk hnone := by
    rw [hanswers]
    exact h.answered k (hnacked ▸ hk) fun j hj => hnone j ((hhandles j k).mpr hj)
  silent k hk := by
    rw [hanswers]
    refine h.silent k (hk.imp (fun hle => hnacked ▸ hle) ?_)
    exact fun ⟨j, hj⟩ => ⟨j, (hhandles j k).mp hj⟩
  counter := hcounter
  limit := hlimit.trans h.limit
  proper := hproper
  handled j k hj := hnacked ▸ h.handled j k ((hhandles j k).mp hj)
  apart j j' k hj hj' := h.apart j j' k ((hhandles j k).mp hj) ((hhandles j' k).mp hj')
  one j j' hj hj' := h.one j j' (hclearing j hj) (hclearing j' hj')
  full j hj := hnacked ▸ h.full j (hclearing j hj)

/-- What other topics and offsets do leaves `p` alone. -/
theorem frame (h : Regular r m p s) {ph : NackPhase}
    (hphases : t.phases = Function.update s.phases i ph) (hs : Foreign p (s.phases i))
    (ht : Foreign p ph) (hlimit : t.nacks.maxRetries = s.nacks.maxRetries)
    (hcounter : t.nacks.counters (nackKey p) = s.nacks.counters (nackKey p)) (htold : Told r p t)
    (hnacked : t.nacked p = s.nacked p) (hanswers : ∀ k, t.answers p k = s.answers p k) :
    Regular r m p t := by
  have hclearing : ∀ j, t.Clearing p j ↔ s.Clearing p j :=
    clearing_update_of_not hphases hlimit (hs.not_clears _) (ht.not_clears _)
  refine h.same htold hnacked hanswers (fun j k => ?_) hlimit
    (proper_update hphases h.proper (ht.proper m)) (fun j => (hclearing j).mp) fun hnot => ?_
  · rw [handles_update hphases]
    split
    · next hj => exact iff_of_false (ht.not_handles k) (hj ▸ hs.not_handles k)
    · exact Iff.rfl
  · rw [hcounter, hnacked]
    exact h.counter fun j hj => hnot j ((hclearing j).mpr hj)

theorem count (hm : 1 ≤ m) (hbound : m ≤ 127) (h : Regular r m p s) (hidle : s.phases i = .idle)
    (halone : ∀ j, ¬ s.Clearing p j) : Regular r m p (s.count i p) := by
  have hlow := Int.emod_nonneg (s.nacked p : Int) (show m ≠ 0 by omega)
  have hhigh := Int.emod_lt_of_pos (s.nacked p : Int) (show 0 < m by omega)
  have hcounter := h.counter halone
  have hcount : (s.nacks.counters (nackKey p) + 1).toInt = (s.nacked p : Int) % m + 1 := by
    rw [add_one_toInt (by omega) (by omega), hcounter]
  have hphases : (s.count i p).phases = Function.update s.phases i
      (.counted p (s.nacks.counters (nackKey p) + 1) (s.nacked p)) := rfl
  have hnacked : (s.count i p).nacked p = s.nacked p + 1 := Function.update_self ..
  have hnext : ((s.count i p).nacked p : Int) % m =
      if (s.nacked p : Int) % m + 1 < m then (s.nacked p : Int) % m + 1 else 0 := by
    rw [hnacked, ← add_one_emod hm]
    rfl
  -- only the writer that counted can have a count to clear
  have hclearing : ∀ j, (s.count i p).Clearing p j ↔ j = i ∧ ¬ (s.nacked p : Int) % m + 1 < m := by
    intro j
    rw [clearing_update hphases rfl, h.limit, Clears, hcount]
    simp [halone j]
  -- and it handles the new NACK
  have hhandles : ∀ j k, Handles p k ((s.count i p).phases j) ↔
      j = i ∧ s.nacked p = k ∨ Handles p k (s.phases j) := by
    intro j k
    rw [handles_update hphases]
    by_cases hj : j = i
    · simp [hj, hidle, Handles]
    · simp [hj]
  refine ⟨⟨h.told, fun k hk hnone => ?_, fun k hk => ?_, fun hnot => ?_⟩, h.limit,
    proper_update hphases h.proper fun _ => ⟨rfl, hcount⟩, fun j k hj => ?_, fun j j' k hj hj' => ?_,
    fun j j' hj hj' => ?_, fun j hj => ?_⟩
  · rw [hnacked] at hk
    refine h.answered k (Nat.lt_of_le_of_ne (Nat.le_of_lt_succ hk) ?_) fun j hj =>
      hnone j ((hhandles j k).mpr (.inr hj))
    rintro rfl
    exact hnone i ((hhandles i _).mpr (.inl ⟨rfl, rfl⟩))
  · rw [hnacked] at hk
    refine h.silent k ?_
    rcases hk with hk | ⟨j, hj⟩
    · exact .inl (Nat.le_of_succ_le hk)
    · rcases (hhandles j k).mp hj with ⟨-, rfl⟩ | hj
      exacts [.inl (Nat.le_refl _), .inr ⟨j, hj⟩]
  · have hroom : (s.nacked p : Int) % m + 1 < m := by
      by_contra hfull
      exact hnot i ((hclearing i).mpr ⟨rfl, hfull⟩)
    rw [hnext, if_pos hroom, ← hcount]
    exact congrArg Int8.toInt (Function.update_self ..)
  · rw [hnacked]
    rcases (hhandles j k).mp hj with ⟨-, rfl⟩ | hj
    exacts [Nat.lt_succ_self _, Nat.lt_succ_of_lt (h.handled j k hj)]
  · -- nobody handled the new number before
    rcases (hhandles j k).mp hj with ⟨hji, rfl⟩ | hj₀ <;>
      rcases (hhandles j' _).mp hj' with ⟨hji', hk⟩ | hj₀'
    · exact hji.trans hji'.symm
    · exact absurd (h.handled j' _ hj₀') (Nat.lt_irrefl _)
    · exact absurd (h.handled j k hj₀) (hk ▸ Nat.lt_irrefl _)
    · exact h.apart j j' k hj₀ hj₀'
  · rw [((hclearing j).mp hj).1, ((hclearing j').mp hj').1]
  · rw [hnext, if_neg ((hclearing j).mp hj).2]

/-- A NACK of `p` publishes what it is to publish. -/
theorem publish (h : Regular r m p s) {k : Nat} (hphase : Handles p k (s.phases i))
    (hnot : ¬ s.Clearing p i) (now : Int64)
    (htaken : (Publication.client [] (expected m p k)).Accepted s.router) :
    Regular r m p (s.publish i now p k (expected m p k)) := by
  have hphases : (s.publish i now p k (expected m p k)).phases =
      Function.update s.phases i .idle := rfl
  have hclearing : ∀ j, (s.publish i now p k (expected m p k)).Clearing p j ↔ s.Clearing p j :=
    clearing_update_of_not hphases rfl hnot fun hc => hc
  have hanswers : ∀ k', (s.publish i now p k (expected m p k)).answers p k' =
      s.answers p k' ++ if k = k' then [expected m p k] else [] := by
    intro k'
    rw [answers_append rfl, RouterEvent.answer]
    split <;> simp_all
  -- the others go on with what they handle
  have hhandles : ∀ j k', Handles p k' ((s.publish i now p k (expected m p k)).phases j) ↔
      Handles p k' (s.phases j) ∧ k ≠ k' := by
    intro j k'
    rw [handles_update hphases]
    split
    · next hj => exact iff_of_false (fun hc => hc) fun hc => hc.2 (hphase.unique (hj ▸ hc.1))
    · next hj => exact ⟨fun hh => ⟨hh, fun hk => hj (h.apart j i k (hk ▸ hh) hphase)⟩, And.left⟩
  refine ⟨⟨h.told.extend rfl rfl fun _ => htaken, fun k' hk hnone => ?_, fun k' hk => ?_,
    fun hnone => ?_⟩, h.limit, proper_update hphases h.proper trivial,
    fun j k' hj => h.handled j k' ((hhandles j k').mp hj).1,
    fun j j' k' hj hj' => h.apart j j' k' ((hhandles j k').mp hj).1 ((hhandles j' k').mp hj').1,
    fun j j' hj hj' => h.one j j' ((hclearing j).mp hj) ((hclearing j').mp hj'),
    fun j hj => h.full j ((hclearing j).mp hj)⟩
  · rw [hanswers]
    by_cases hkk : k = k'
    · subst hkk
      rw [if_pos rfl, h.silent k (.inr ⟨i, hphase⟩)]
      rfl
    · rw [if_neg hkk, List.append_nil]
      exact h.answered k' hk fun j hj => hnone j ((hhandles j k').mpr ⟨hj, hkk⟩)
  · have hlt : k < s.nacked p := h.handled i k hphase
    have hkk : k ≠ k' := by
      rcases hk with hk | ⟨j, hj⟩
      · exact Nat.ne_of_lt (Nat.lt_of_lt_of_le hlt hk)
      · exact ((hhandles j k').mp hj).2
    rw [hanswers, if_neg hkk, List.append_nil]
    exact h.silent k' (hk.imp_right fun ⟨j, hj⟩ => ⟨j, ((hhandles j k').mp hj).1⟩)
  · exact h.counter fun j hj => hnone j ((hclearing j).mpr hj)

theorem publish_other (h : Regular r m p s) (hphase : Foreign p (s.phases i)) {q : Bytes × UInt64}
    (hq : q ≠ p) (now : Int64) (k : Nat) (f : Frame) : Regular r m p (s.publish i now q k f) := by
  refine h.frame (i := i) rfl hphase trivial rfl rfl
    (h.told.extend rfl rfl fun heq => absurd heq hq) rfl fun k' => ?_
  rw [answers_append rfl, RouterEvent.answer, if_neg fun hc => hq hc.1]
  exact List.append_nil _

theorem clear (hm : 1 ≤ m) (h : Regular r m p s) {c : Int8} {k : Nat}
    (hphase : s.phases i = .counted p c k) (hfull : ¬ c.toInt < m) :
    Regular r m p (s.clear i p k) := by
  have hclear : s.Clearing p i := by
    rw [Clearing, hphase, h.limit]
    exact ⟨rfl, hfull⟩
  have hphases : (s.clear i p k).phases = Function.update s.phases i (.cleared p k) := rfl
  have hnone : ∀ j, ¬ (s.clear i p k).Clearing p j := by
    intro j
    rw [clearing_update hphases rfl]
    split
    · exact fun hc => hc
    · next hji => exact fun hj => hji (h.one j i hj hclear)
  have hlast : (k + 1 : Int) % m = 0 := by
    have hcount := (h.counted hphase rfl).2
    rw [add_one_emod hm, if_neg (by omega)]
  refine h.same h.told rfl (fun _ => rfl) (fun j k' => ?_) rfl
    (proper_update hphases h.proper fun _ => hlast) (fun j hj => absurd hj (hnone j)) fun _ => ?_
  · rw [handles_update hphases]
    split
    · next hj =>
      rw [hj, hphase]
      exact Iff.rfl
    · exact Iff.rfl
  · have hzero : (s.clear i p k).nacks.counters (nackKey p) = 0 := Function.update_self ..
    rw [hzero]
    exact (h.full i hclear).symm

theorem step (hm : 1 ≤ m) (hbound : m ≤ 127) (h : Regular r m p s) {l : Label}
    (hl : s.Undisturbed p l) (hstep : s.step l = some t) : Regular r m p t := by
  cases step_moves hstep with
  | ignored => exact h
  | @counted i w o topicName hidle hcache =>
    by_cases hkey : nackKey (topicName, o) = nackKey p
    · obtain ⟨hp, halone⟩ := hl topicName hcache hkey
      rw [hp]
      exact h.count hm hbound hidle halone
    · have hne : p ≠ (topicName, o) := fun heq => hkey (heq ▸ rfl)
      exact h.frame (i := i) rfl (by rw [hidle]; trivial) hkey rfl
        (Function.update_of_ne (Ne.symm hkey) ..) h.told (Function.update_of_ne hne ..) fun _ => rfl
  | @retried i now q c k hphase hlt =>
    by_cases hkey : nackKey q = nackKey p
    · obtain ⟨rfl, hcount⟩ := h.counted hphase hkey
      have hmod : (k + 1 : Int) % m ≠ 0 := by
        have hlow := Int.emod_nonneg (k : Int) (show m ≠ 0 by omega)
        rw [h.limit] at hlt
        rw [add_one_emod hm, if_pos (by omega)]
        omega
      have hframe : retryFrame q.1 q.2 = expected m q k := (if_neg hmod).symm
      have hnot : ¬ s.Clearing q i := by
        rw [Clearing, hphase]
        exact fun hc => hc.2 hlt
      have htaken := hl (retryFrame q.1 q.2) (by rw [hphase]; exact if_pos hlt)
      rw [hframe] at htaken ⊢
      exact h.publish (by rw [hphase]; exact ⟨rfl, rfl⟩) hnot now htaken
    · exact h.publish_other (hphase ▸ hkey) (fun heq => hkey (heq ▸ rfl)) now k _
  | @cleared i now q c k hphase hlt =>
    by_cases hkey : nackKey q = nackKey p
    · obtain ⟨rfl, -⟩ := h.counted hphase hkey
      exact h.clear hm hphase (h.limit ▸ hlt)
    · have hne : q ≠ p := fun heq => hkey (heq ▸ rfl)
      exact h.frame (i := i) rfl (hphase ▸ hkey) hne rfl (Function.update_of_ne (Ne.symm hkey) ..)
        h.told rfl fun _ => rfl
  | @buried i now q k hphase =>
    by_cases hq : q = p
    · subst hq
      have hproper := h.proper i
      rw [hphase] at hproper
      have hframe : dlqFrame q.1 = expected m q k := (if_pos (hproper rfl)).symm
      have hnot : ¬ s.Clearing q i := by
        rw [Clearing, hphase]
        exact fun hc => hc
      have htaken := hl (dlqFrame q.1) (by rw [hphase]; rfl)
      rw [hframe] at htaken ⊢
      exact h.publish (by rw [hphase]; exact ⟨rfl, rfl⟩) hnot now htaken
    · exact h.publish_other (hphase ▸ hq) hq now k _
  | acted a =>
    refine h.same (h.told.extend rfl rfl trivial) rfl (fun k => ?_) (fun _ _ => Iff.rfl) rfl h.proper
      (fun _ hj => hj) h.counter
    rw [answers_append rfl]
    exact List.append_nil _

end Regular

/-! ## Limits that the counter cannot reach -/

end Retrying

end Aqueduct.Broker
