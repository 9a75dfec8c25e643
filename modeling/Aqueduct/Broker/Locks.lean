import Aqueduct.Lib.RWLock

/-!
The lock protocol of `internal/broker/router.go`. `r.mu` guards the routing
tables, one lock per slot guards the slot's queues. A call is one path through
its function, written as the lock actions it performs in order; which path it
takes (topic known, slot inactive, queue missing, slots to disconnect) is data.
Paths without any lock action, such as an oversized payload, are left out.
-/

namespace Aqueduct.Broker

open RWLock

inductive Lock
  | mu
  | sub (idx : Nat)
  deriving DecidableEq, Repr

/-- `Lock` and `Unlock` with nothing locked in between, or `RLock` and
`RUnlock`. -/
def guarded (l : Lock) (m : Mode) : List (Act Lock) := [.acquire l m, .release l m]

/-- Paths of `enqueueToSubscriber`: the slot is inactive, its queue is
installed, or the queue has to be installed first. `handleOverflow` locks
nothing. -/
inductive EnqueuePath
  | inactive
  | installed (idx : Nat)
  | missing (idx : Nat)
  deriving DecidableEq, Repr

def enqueueLocks : EnqueuePath → List (Act Lock)
  | .inactive => guarded .mu .read
  | .installed idx => guarded .mu .read ++ guarded (.sub idx) .read
  | .missing idx =>
    guarded .mu .read ++ guarded (.sub idx) .read ++ guarded (.sub idx) .write ++
      guarded (.sub idx) .read

/-- `nextTopicOffset`; the counter of an unknown topic is created under the
write lock. -/
def nextTopicOffsetLocks (known : Bool) : List (Act Lock) :=
  guarded .mu .read ++ if known then [] else guarded .mu .write

/-- The dispatch section of the publish paths: every offer is made with
`r.mu` read-locked. -/
def dispatchLocks (offers : List EnqueuePath) : List (Act Lock) :=
  [.acquire .mu .read] ++ offers.flatMap enqueueLocks ++ [.release .mu .read]

def disconnectLocks (n : Nat) : List (Act Lock) :=
  (List.replicate n (guarded .mu .write)).flatten

/-- A call and the path it takes. `publish` is `publishWithClientID` and
`publishLocal`; `lookup` is any call that only read-locks `r.mu` once
(`NackByStream`, `GetTopicOffset`, `GetConsumerOffset`); `fetch` is a writer
that polls its queues, cleans up or drains them. -/
inductive LockCall
  | publish (known : Bool) (offers : List EnqueuePath) (disconnects : Nat)
  | publishBatch (subs : List (Bool × List EnqueuePath)) (disconnects : Nat)
  | subscribe
  | unsubscribe
  | disconnectSubscriber
  | ackOffset
  | nextTopicOffset (known : Bool)
  | lookup
  | fetch (idx : Nat) (modes : List Mode)
  deriving Repr

def LockCall.locks : LockCall → List (Act Lock)
  | .publish known offers disconnects =>
    nextTopicOffsetLocks known ++ dispatchLocks offers ++ disconnectLocks disconnects
  | .publishBatch subs disconnects =>
    subs.flatMap (fun sub => nextTopicOffsetLocks sub.1 ++ dispatchLocks sub.2) ++
      disconnectLocks disconnects
  | .subscribe => guarded .mu .write ++ guarded .mu .read
  | .unsubscribe | .disconnectSubscriber | .ackOffset => guarded .mu .write
  | .nextTopicOffset known => nextTopicOffsetLocks known
  | .lookup => guarded .mu .read
  | .fetch idx modes => modes.flatMap (guarded (.sub idx))

/-! ## The calls are disciplined -/

theorem read_disciplined {d : Nat} {p : List (Act Lock)} (h : Disciplined Lock.mu d p) :
    Disciplined Lock.mu d (guarded .mu .read ++ p) :=
  .enter (.leave h)

theorem write_disciplined {p : List (Act Lock)} (h : Disciplined Lock.mu 0 p) :
    Disciplined Lock.mu 0 (guarded .mu .write ++ p) :=
  .exclusive h

theorem sub_disciplined {d idx : Nat} {m : Mode} {p : List (Act Lock)}
    (h : Disciplined Lock.mu d p) : Disciplined Lock.mu d (guarded (.sub idx) m ++ p) :=
  .leaf (by simp) h

/-- Blocks of lock actions that keep the discipline can be repeated. -/
theorem flatMap_disciplined {α : Type} {d : Nat} {f : α → List (Act Lock)}
    (hf : ∀ a p, Disciplined Lock.mu d p → Disciplined Lock.mu d (f a ++ p)) (as : List α)
    {p : List (Act Lock)} (h : Disciplined Lock.mu d p) :
    Disciplined Lock.mu d (as.flatMap f ++ p) := by
  induction as with
  | nil => exact h
  | cons a as ih =>
    rw [List.flatMap_cons, List.append_assoc]
    exact hf a _ ih

theorem enqueue_disciplined (e : EnqueuePath) {d : Nat} {p : List (Act Lock)}
    (h : Disciplined Lock.mu d p) : Disciplined Lock.mu d (enqueueLocks e ++ p) := by
  cases e with
  | inactive => exact read_disciplined h
  | installed idx =>
    rw [enqueueLocks, List.append_assoc]
    exact read_disciplined (sub_disciplined h)
  | missing idx =>
    simp only [enqueueLocks, List.append_assoc]
    exact read_disciplined (sub_disciplined (sub_disciplined (sub_disciplined h)))

theorem nextTopicOffset_disciplined (known : Bool) {p : List (Act Lock)}
    (h : Disciplined Lock.mu 0 p) : Disciplined Lock.mu 0 (nextTopicOffsetLocks known ++ p) := by
  rw [nextTopicOffsetLocks, List.append_assoc]
  apply read_disciplined
  cases known with
  | true => exact h
  | false => exact write_disciplined h

theorem dispatch_disciplined (offers : List EnqueuePath) {p : List (Act Lock)}
    (h : Disciplined Lock.mu 0 p) : Disciplined Lock.mu 0 (dispatchLocks offers ++ p) := by
  simp only [dispatchLocks, List.append_assoc]
  exact .enter (flatMap_disciplined (fun e _ => enqueue_disciplined e) offers (.leave h))

theorem disconnect_disciplined (n : Nat) : Disciplined Lock.mu 0 (disconnectLocks n) := by
  induction n with
  | zero => exact .done
  | succ n ih => exact write_disciplined ih

theorem locks_disciplined (c : LockCall) : Disciplined Lock.mu 0 c.locks := by
  cases c with
  | publish known offers disconnects =>
    rw [LockCall.locks, List.append_assoc]
    exact nextTopicOffset_disciplined known
      (dispatch_disciplined offers (disconnect_disciplined disconnects))
  | publishBatch subs disconnects =>
    apply flatMap_disciplined _ subs (disconnect_disciplined disconnects)
    intro sub p h
    rw [List.append_assoc]
    exact nextTopicOffset_disciplined sub.1 (dispatch_disciplined sub.2 h)
  | subscribe => exact write_disciplined (read_disciplined .done)
  | unsubscribe => exact write_disciplined .done
  | disconnectSubscriber => exact write_disciplined .done
  | ackOffset => exact write_disciplined .done
  | nextTopicOffset known =>
    rw [LockCall.locks, ← List.append_nil (nextTopicOffsetLocks known)]
    exact nextTopicOffset_disciplined known .done
  | lookup => exact read_disciplined .done
  | fetch idx modes =>
    rw [LockCall.locks, ← List.append_nil (modes.flatMap _)]
    exact flatMap_disciplined (fun m _ => sub_disciplined) modes .done

/-! ## Deadlock -/

/-- The threads of any number of calls, none of them started. -/
def startCalls (calls : List LockCall) : List (Thread Lock) :=
  (calls.map LockCall.locks).map Thread.start

/-- **Router locks.** In every run of any calls in which no thread asks for
the write lock of `r.mu` while a publisher holds its read lock and is going to
take it again, every state with an unfinished thread has a thread that can
take a step. -/
theorem router_locks_progress (calls : List LockCall) (is : List Nat) (t : List (Thread Lock))
    (ho : Transition.Meets step (Orderly Lock.mu) (startCalls calls) is)
    (hr : Transition.run step (startCalls calls) is = some t) (hu : Unfinished t) :
    CanStep t := by
  refine run_progress (g := Lock.mu) ?_ ho hr hu
  intro p hp
  obtain ⟨c, -, rfl⟩ := List.mem_map.mp hp
  exact locks_disciplined c

/-- A publisher with one live subscriber whose queue is installed, and a new
subscriber. -/
def publisherAndSubscriber : List LockCall := [.publish true [.installed 0] 0, .subscribe]

/-- The subscriber waits until the publisher has only its release left. -/
theorem publisher_first_progresses :
    ∃ t, Transition.run step (startCalls publisherAndSubscriber) [0, 0, 0, 0, 0, 1] = some t ∧
      Unfinished t ∧ CanStep t := by
  let t := (Transition.run step (startCalls publisherAndSubscriber) [0, 0, 0, 0, 0, 1]).getD []
  have hr : Transition.run step (startCalls publisherAndSubscriber) [0, 0, 0, 0, 0, 1] = some t := by
    decide
  have hu : Unfinished t := by decide
  exact ⟨t, hr, hu, router_locks_progress publisherAndSubscriber _ t (by decide) hr hu⟩

/-- The subscriber asks for `r.mu` after the publisher has read-locked it and
before `enqueueToSubscriber` does so again: neither can go on. -/
theorem router_locks_deadlock :
    ∃ t, Transition.run step (startCalls publisherAndSubscriber) [0, 0, 0, 1] = some t ∧
      Unfinished t ∧ ¬ CanStep t := by
  let t := (Transition.run step (startCalls publisherAndSubscriber) [0, 0, 0, 1]).getD []
  have hr : Transition.run step (startCalls publisherAndSubscriber) [0, 0, 0, 1] = some t := by
    decide
  exact ⟨t, hr, by decide, by decide⟩

end Aqueduct.Broker
