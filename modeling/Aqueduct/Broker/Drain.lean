import Aqueduct.Broker.Wakeup
import Mathlib.Algebra.GroupWithZero.Nat
import Mathlib.Algebra.Order.BigOperators.Group.List
import Mathlib.Algebra.Order.Group.Nat

/-!
A writer that is left alone finishes. Once no call is on its way and as long as
writes succeed, every step of the writer and of its timer lowers `rank`, so
there is a bound on how many there can be; and the writer can always take a step
until its queues and its accumulator are empty.
-/

namespace Aqueduct.Broker.Wakeup.WakeState

open ByteStr

/-! ## The rank -/

/-- The messages in the queues of the subscriber. -/
def queued (qs : SubQueues Message) : Nat :=
  (levels.map fun p => (qs.contents (slot, p)).length).sum

/-- How far the phase is from sleep; an append may have to wait for the timer. -/
def phaseRank : LoopPhase → Nat
  | .look p => 8 - 2 * p.1
  | .polling p _ => 7 - 2 * p.1
  | .received .. => 26
  | .cleaning .. => 25
  | .fetched _ => 24
  | .accumulate .. => 23
  | .append .. => 22
  | .appended => 10
  | .ticked | .nacking _ => 9
  | .waiting | .leaving | .draining | .returned => 0

def timerRank (t : FlushTimer) : Nat :=
  (if t.armed then 11 else 0) + if t.ticked then 10 else 0

def rank (s : WakeState) : Nat :=
  27 * queued s.queues + phaseRank s.phase + timerRank s.timer + if s.notify then 9 else 0

theorem rank_le (s : WakeState) : s.rank ≤ 27 * queued s.queues + 56 := by
  have hphase : phaseRank s.phase ≤ 26 := by
    unfold phaseRank
    split <;> omega
  have htimer : timerRank s.timer ≤ 21 := by
    unfold timerRank
    split <;> split <;> omega
  unfold rank
  split <;> omega

/-- The steps of the writer and of its timer, when the stream takes every
write. -/
def Own : WakeLabel → Prop
  | .loop _ ok => ok = true
  | .select .timer | .select .notify | .fire => True
  | _ => False

/-- The writer is not on its way out. -/
def Running : LoopPhase → Prop
  | .leaving | .draining | .returned => False
  | _ => True

/-! ## Steps lower the rank -/

theorem nextPhase_rank (p : Fin 4) : phaseRank (nextPhase p) ≤ 6 - 2 * p.1 := by
  unfold nextPhase
  split
  · simp only [phaseRank]
    omega
  · exact Nat.zero_le _

theorem nextPhase_running (p : Fin 4) : Running (nextPhase p) := by
  rcases nextPhase_cases p with hp | ⟨p', hp⟩ <;> rw [hp] <;> trivial

theorem contents_write_le {qs : SubQueues Message} {q : Nat} {ms : List Message}
    (h : ms.length ≤ (qs.cells q).length) (k : Nat × Fin 4) :
    ((qs.write q ms).contents k).length ≤ (qs.contents k).length := by
  unfold Pooled.contents Pooled.write
  dsimp only
  cases qs.table k with
  | none => exact Nat.le_refl _
  | some q' =>
    by_cases hq' : q' = q
    · simp [hq', h]
    · simp [hq']

/-- A receive takes one message off at least. -/
theorem queued_receive {qs : SubQueues Message} {p : Fin 4} {q : Nat} {msg : Message}
    {rest : List Message} (hq : qs.table (slot, p) = some q) (hcons : qs.cells q = msg :: rest) :
    queued (qs.write q rest) < queued qs := by
  refine List.sum_lt_sum _ _ (fun p' _ => contents_write_le (by simp [hcons]) _)
    ⟨p, List.mem_finRange p, ?_⟩
  simp [Pooled.contents, Pooled.write, hq, hcons]

theorem queued_cleanup (qs : SubQueues Message) (p : Fin 4) (q : Nat) :
    queued (SubQueues.cleanupEmptyQueue qs slot p q).1 ≤ queued qs := by
  refine List.sum_le_sum fun p' _ => ?_
  unfold SubQueues.cleanupEmptyQueue
  split
  · have hassign : ((qs.assign (slot, p) none).contents (slot, p')).length ≤
        (qs.contents (slot, p')).length := by
      unfold Pooled.contents Pooled.assign
      dsimp only
      by_cases hp : p' = p
      · simp [hp]
      · rw [Function.update_of_ne fun h => hp (congrArg Prod.snd h)]
    have hwrite : (((qs.assign (slot, p) none).write q []).contents (slot, p')).length ≤
        ((qs.assign (slot, p) none).contents (slot, p')).length :=
      contents_write_le (Nat.zero_le _) _
    exact Nat.le_trans hwrite hassign
  · exact Nat.le_refl _

theorem rank_lt {s t : WakeState} (hqueued : queued t.queues ≤ queued s.queues)
    (htimer : t.timer = s.timer) (hnotify : t.notify = s.notify)
    (hphase : phaseRank t.phase < phaseRank s.phase) : t.rank < s.rank := by
  rw [rank, rank, htimer, hnotify]
  omega

theorem flushThen_ok {s : WakeState} {next : LoopPhase}
    (hlt : phaseRank next < phaseRank s.phase) (hnext : Running next) :
    Running (s.flushThen true next).phase ∧ (s.flushThen true next).calls = s.calls ∧
      (s.flushThen true next).rank < s.rank := by
  have hphase : (s.flushThen true next).phase = next := if_pos (.inr rfl)
  have hframe : (s.flush true).queues = s.queues ∧ (s.flush true).timer = s.timer ∧
      (s.flush true).notify = s.notify ∧ (s.flush true).calls = s.calls := by
    unfold flush
    split <;> exact ⟨rfl, rfl, rfl, rfl⟩
  obtain ⟨hqueues, htimer, hnotify, hcalls⟩ := hframe
  refine ⟨?_, hcalls, rank_lt (Nat.le_of_eq (congrArg queued hqueues)) htimer hnotify ?_⟩
  · rw [hphase]
    exact hnext
  · rw [hphase]
    exact hlt

theorem loopStep_rank {o : WakeOptions} {s t : WakeState} {now : Int64} (hi : s.Inv)
    (hrunning : Running s.phase) (h : s.loopStep o now true = some t) :
    Running t.phase ∧ t.calls = s.calls ∧ t.rank < s.rank := by
  have hmoved : ∀ {ph : LoopPhase}, phaseRank ph < phaseRank s.phase →
      ({ s with phase := ph } : WakeState).rank < s.rank := fun hlt =>
    rank_lt (Nat.le_refl _) rfl rfl hlt
  cases loopStep_moves h with
  | @absent p hph _ | @empty p _ hph _ =>
    have hle := nextPhase_rank p
    refine ⟨nextPhase_running p, rfl, hmoved (Nat.lt_of_le_of_lt hle ?_)⟩
    rw [hph]
    simp only [phaseRank]
    omega
  | @poll p q hph hq =>
    refine ⟨trivial, rfl, hmoved ?_⟩
    rw [hph]
    simp only [phaseRank]
    omega
  | @receive p q msg rest hph hcons =>
    have hlt := queued_receive (hi.polling p q hph) hcons
    refine ⟨trivial, rfl, ?_⟩
    rw [rank, rank, hph]
    simp only [phaseRank]
    omega
  | last hph _ | more hph _ | fits hph | room hph _ | nack hph =>
    refine ⟨trivial, rfl, hmoved ?_⟩
    rw [hph]
    simp only [phaseRank]
    omega
  | @cleanup msg p q hph hfree =>
    refine ⟨trivial, rfl, rank_lt (queued_cleanup s.queues p q) rfl rfl ?_⟩
    rw [hph]
    simp only [phaseRank]
    omega
  | drop hph _ | deliver hph _ =>
    refine ⟨trivial, rfl, rank_lt (Nat.le_refl _) rfl rfl ?_⟩
    rw [hph]
    simp only [phaseRank]
    omega
  | @flushBefore msg buf hph hgo =>
    refine flushThen_ok ?_ trivial
    rw [hph]
    simp only [phaseRank]
    omega
  | @failBefore msg buf hph hleave =>
    rw [show (s.flushThen true (.append msg buf)).phase = .append msg buf from
      if_pos (.inr rfl)] at hleave
    cases hleave
  | @append msg buf hph =>
    have htimer : timerRank (if s.acc.buf = [] then s.timer.reset else s.timer) ≤
        timerRank s.timer + 11 := by
      split
      · simp [timerRank, FlushTimer.reset]
      · omega
    refine ⟨trivial, rfl, ?_⟩
    rw [rank, rank, hph]
    simp only [phaseRank]
    omega
  | full hph _ | tick hph =>
    refine flushThen_ok ?_ trivial
    rw [hph]
    simp only [phaseRank]
    omega
  | leave hph | drain hph _ =>
    rw [hph] at hrunning
    exact hrunning.elim

/-! ## Alone -/

/-- The writer runs and no call is on its way. -/
structure Alone (s : WakeState) : Prop where
  inv : s.Inv
  idle : s.Idle
  running : Running s.phase

theorem Alone.step {o : WakeOptions} {s t : WakeState} {l : WakeLabel} (hs : s.Alone) (hl : Own l)
    (h : s.step o l = some t) : t.Alone ∧ t.rank < s.rank := by
  have hinv : t.Inv := step_inv hs.inv h
  have halone : Running t.phase → t.calls = s.calls → t.Alone := fun hrunning hcalls =>
    ⟨hinv, by rw [Idle, hcalls]; exact hs.idle, hrunning⟩
  cases l with
  | loop now ok =>
    obtain rfl : ok = true := hl
    obtain ⟨hrunning, hcalls, hlt⟩ := loopStep_rank hs.inv hs.running h
    exact ⟨halone hrunning hcalls, hlt⟩
  | select c =>
    obtain ⟨hw, h⟩ := Option.ite_none_right_eq_some.mp h
    cases c with
    | timer =>
      obtain ⟨htick, h⟩ := Option.ite_none_right_eq_some.mp h
      cases h
      refine ⟨halone trivial rfl, ?_⟩
      rw [rank, rank, hw]
      simp only [phaseRank, timerRank, htick, if_true, Bool.false_eq_true, if_false]
      omega
    | notify =>
      obtain ⟨htoken, h⟩ := Option.ite_none_right_eq_some.mp h
      cases h
      refine ⟨halone trivial rfl, ?_⟩
      rw [rank, rank, hw]
      simp only [phaseRank, htoken, if_true, Bool.false_eq_true, if_false]
      omega
    | ctxDone | nack offset => exact hl.elim
  | fire =>
    obtain ⟨harmed, h⟩ := Option.ite_none_right_eq_some.mp h
    cases h
    refine ⟨halone hs.running rfl, ?_⟩
    rw [rank, rank]
    simp only [timerRank, harmed, if_true, Bool.false_eq_true, if_false]
    omega
  | call msg p | enqueue i pooled | deactivate | cancel => exact hl.elim

/-- Outside its select a running writer can always go on. -/
theorem Alone.can_step {s : WakeState} (hs : s.Alone) (hw : s.phase ≠ .waiting) (o : WakeOptions) :
    (s.loopStep o 0 true).isSome = true := by
  have hfree : s.calls.any (fun c => c.phase.holds) = false := by
    refine List.any_eq_false.mpr fun c hc => ?_
    obtain ⟨dc, hdone⟩ := hs.idle c hc
    rw [hdone]
    exact Bool.false_ne_true
  have hrunning := hs.running
  unfold loopStep
  cases hph : s.phase with
  | look p | polling p q | received msg p q | fetched msg | accumulate msg buf | appended =>
    dsimp only
    split <;> rfl
  | cleaning msg p q =>
    have hunlocked : s.readLocked = false := by
      rw [readLocked, hfree, hph]
      rfl
    rw [hunlocked]
    rfl
  | append msg buf | ticked | nacking offset => rfl
  | waiting => exact absurd hph hw
  | leaving | draining | returned =>
    rw [hph] at hrunning
    exact hrunning.elim

/-- Where the writer can do nothing more, everything is done. -/
theorem Alone.finished {s : WakeState} (hs : s.Alone) {o : WakeOptions}
    (hstuck : ∀ l, Own l → s.step o l = none) :
    s.phase = .waiting ∧ s.acc = ⟨[], []⟩ ∧ ∀ p, s.queues.contents (slot, p) = [] := by
  have hw : s.phase = .waiting := by
    by_contra hne
    have hsome := hs.can_step hne o
    rw [show s.loopStep o 0 true = none from hstuck (.loop 0 true) rfl] at hsome
    cases hsome
  have htoken : s.notify = false := by
    have hnone := hstuck (.select .notify) trivial
    by_contra htoken
    simp [WakeState.step, selectStep, hw, htoken] at hnone
  have hticked : s.timer.ticked = false := by
    have hnone := hstuck (.select .timer) trivial
    by_contra hticked
    simp [WakeState.step, selectStep, hw, hticked] at hnone
  have harmed : s.timer.armed = false := by
    have hnone := hstuck .fire trivial
    by_contra harmed
    simp [WakeState.step, harmed] at hnone
  have hbuf : s.acc.buf = [] := by
    by_contra hne
    rcases hs.inv.timer (hw ▸ trivial) hne with h | h
    · rw [harmed] at h
      cases h
    · rw [hticked] at h
      cases h
  have hrefs : s.acc.msgRefs = [] := by
    by_contra hne
    exact hs.inv.refs hne hbuf
  refine ⟨hw, by rw [← hbuf, ← hrefs], fun p => ?_⟩
  cases hq : s.queues.table (slot, p) with
  | none => rw [Pooled.contents, hq]
  | some q =>
    rw [Pooled.contents, hq]
    by_contra hne
    rcases hs.inv.wake p q hq hne with hn | ⟨c, hc, hwill⟩ | hl
    · rw [htoken] at hn
      cases hn
    · obtain ⟨dc, hdone⟩ := hs.idle c hc
      rw [hdone] at hwill
      exact hwill
    · rw [hw] at hl
      exact hl

/-- **The writer finishes.** In every state that calls, writer, timer and pool
can reach, once no call is on its way and while writes succeed: the steps of
the writer and of its timer are bounded by what is queued, and where they end
nothing is queued, accumulated or in hand. -/
theorem writer_finishes (o : WakeOptions) (cells : Nat → List Message) (next : Nat)
    (free : List Nat) (topic groupID : Bytes) {ls own : List WakeLabel} {s t : WakeState}
    (hreach : Transition.run (step o) (initial cells next free topic groupID) ls = some s)
    (hidle : s.Idle) (hrunning : Running s.phase) (hown : ∀ l ∈ own, Own l)
    (hrun : Transition.run (step o) s own = some t) :
    own.length ≤ 27 * queued s.queues + 56 ∧
      ((∀ l, Own l → t.step o l = none) →
        t.phase = .waiting ∧ t.acc = ⟨[], []⟩ ∧ ∀ p, t.queues.contents (slot, p) = []) := by
  have hinv : s.Inv := Transition.run_invariant_all (fun _ _ _ => step_inv)
    (initial_inv cells next free topic groupID) hreach
  obtain ⟨hend, hlength⟩ : t.Alone ∧ own.length + t.rank ≤ s.rank :=
    Transition.length_add_rank_le (fun _ _ _ hs hl h => hs.step hl h) ⟨hinv, hidle, hrunning⟩
      (Transition.meets_of_forall_mem hown s) hrun
  have hle := s.rank_le
  exact ⟨by omega, hend.finished⟩

/-- The accumulated message of `publishBehindScan` is flushed by the timer. -/
def flushAfterSleep : List WakeLabel :=
  [.fire, .select .timer, .loop 0 true] ++ List.replicate 4 (.loop 0 true)

theorem publish_behind_scan_flushed :
    let o : WakeOptions := ⟨QueueOptions.default, 65536⟩
    let s := Transition.after (step o) (initial (fun _ => []) 0 [] [] []) publishBehindScan
    let t := Transition.after (step o) s flushAfterSleep
    t.written = [[1]] ∧ flushAfterSleep.length ≤ 27 * queued s.queues + 56 := by
  have hsleeps : (Transition.after (step ⟨QueueOptions.default, 65536⟩)
      (initial (fun _ => []) 0 [] [] []) publishBehindScan).phase = .waiting := by decide
  have hcalls : (Transition.after (step ⟨QueueOptions.default, 65536⟩)
      (initial (fun _ => []) 0 [] [] []) publishBehindScan).calls = [⟨⟨[1], 1, 0⟩, 0, .done none⟩] := by
    decide
  have hreach := Transition.run_after (show (Transition.run (step ⟨QueueOptions.default, 65536⟩)
    (initial (fun _ => []) 0 [] [] []) publishBehindScan).isSome = true by decide)
  refine ⟨by decide, (writer_finishes _ (fun _ => []) 0 [] [] [] hreach ?_ ?_ ?_
    (Transition.run_after (by decide))).1⟩
  · rw [Idle, hcalls]
    exact fun c hc => ⟨none, by rw [List.mem_singleton.mp hc]⟩
  · rw [hsleeps]
    trivial
  · simp [flushAfterSleep, Own]

end Aqueduct.Broker.Wakeup.WakeState
