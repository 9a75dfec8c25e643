import Aqueduct.Lib.Run
import Aqueduct.Broker.Queues
import Aqueduct.Broker.Writer
import Mathlib.Logic.Relation

/-!
One subscriber with its writer, and any number of calls of `enqueueToSubscriber`
at the same time. A call looks up or installs a queue, sends, and then puts a
token into the one-slot notify channel; the writer scans the four levels one
after the other, accumulates and flushes what it finds, and sleeps in its select
when they give nothing.

Sections under the write lock are one step and need all read locks to be free.
A queue may leave its slot between the lookup of a call and its send, so pooled
channels need not be empty here. Without interference a call and a fetch do what
the functions of `Queues` do.
-/

namespace Aqueduct.Broker.Wakeup

open ByteStr Router

/-! ## State -/

/-- `enqueueToSubscriber`: the check of the live flag, the lookup, the write
lock, the gap before the read lock is taken again, the send, the two steps of
`handleOverflow`, the unlock and the notify. The last ones carry the result. -/
inductive CallPhase
  | start
  | lookup
  | missing
  | gap (q : Nat)
  | holding (q : Nat)
  | overflow (q : Nat)
  | resend (q : Nat)
  | sent (dc : Option Nat)
  | unlocked (dc : Option Nat)
  | done (dc : Option Nat)
  deriving DecidableEq, Repr

def CallPhase.holds : CallPhase → Bool
  | .holding _ | .overflow _ | .resend _ | .sent _ => true
  | _ => false

/-- The call is past the check of the live flag, so it will notify. -/
def CallPhase.WillNotify : CallPhase → Prop
  | .start | .done _ => False
  | _ => True

structure EnqueueCall where
  msg : Message
  level : UInt8
  phase : CallPhase
  deriving DecidableEq

/-- Where `runSubscriberWriter` is: in `fetchNextMessage` (`look` to `cleaning`),
with a message, in its select (`waiting`), behind a case of it, or on its way
out. -/
inductive LoopPhase
  | look (p : Fin 4)
  | polling (p : Fin 4) (q : Nat)
  | received (msg : Message) (p : Fin 4) (q : Nat)
  | cleaning (msg : Message) (p : Fin 4) (q : Nat)
  | fetched (msg : Message)
  | accumulate (msg : Message) (buf : Bytes)
  | append (msg : Message) (buf : Bytes)
  | appended
  | waiting
  | ticked
  | nacking (offset : UInt64)
  | leaving
  | draining
  | returned
  deriving DecidableEq

def LoopPhase.holds : LoopPhase → Bool
  | .polling .. | .received .. => true
  | _ => false

/-- `batchAccumulator` without its timer. -/
structure Accumulator where
  buf : Bytes
  msgRefs : List Message
  deriving DecidableEq

/-- A `time.Timer`: it is running, or its tick waits in the channel. -/
structure FlushTimer where
  armed : Bool
  ticked : Bool
  deriving DecidableEq, Repr

/-- `Reset` drops a tick that nobody received. -/
def FlushTimer.reset (_ : FlushTimer) : FlushTimer := ⟨true, false⟩

def FlushTimer.stop (_ : FlushTimer) : FlushTimer := ⟨false, false⟩

structure WakeState where
  queues : SubQueues Message
  active : Bool
  cancelled : Bool
  notify : Bool
  calls : List EnqueueCall
  phase : LoopPhase
  writer : Writer
  acc : Accumulator
  timer : FlushTimer
  written : List Bytes
  released : List Message

/-- The options of the router that the writer and the calls read. -/
structure WakeOptions where
  queues : QueueOptions
  maxSize : Nat

/-- The cases of the writer's select. -/
inductive SelectCase
  | ctxDone
  | timer
  | nack (offset : UInt64)
  | notify
  deriving DecidableEq, Repr

inductive WakeLabel
  /-- A publisher calls `enqueueToSubscriber`. -/
  | call (msg : Message) (p : UInt8)
  /-- The next step of a call, with the choice of the pool. -/
  | enqueue (i : Nat) (pooled : Option Nat)
  /-- The next step of the writer; `ok` is the outcome of a write. -/
  | loop (now : Int64) (ok : Bool)
  | select (c : SelectCase)
  /-- The flush timer expires. -/
  | fire
  | deactivate
  | cancel

namespace WakeState

def slot : Nat := 0

def readLocked (s : WakeState) : Bool := s.calls.any (fun c => c.phase.holds) || s.phase.holds

/-! ## The calls -/

/-- The next step of a call; none when it has to wait or is done. -/
def callStep (o : WakeOptions) (s : WakeState) (c : EnqueueCall) (pooled : Option Nat) :
    Option (WakeState × CallPhase) :=
  let k := (slot, levelOf c.level)
  match c.phase with
  | .start => some (s, if s.active then .lookup else .done none)
  | .lookup =>
    match s.queues.table k with
    | some q => some (s, .holding q)
    | none => some (s, .missing)
  | .missing =>
    if s.readLocked then none
    else
      let (queues, q) := s.queues.ensure k pooled
      some ({ s with queues := queues }, .gap q)
  | .gap q => some (s, .holding q)
  | .holding q =>
    match trySend o.queues.queueSize (s.queues.cells q) c.msg with
    | some ms => some ({ s with queues := s.queues.write q ms }, .sent none)
    | none =>
      match o.queues.policy with
      | .dropOldest => some (s, .overflow q)
      | .dropNewest => some ({ s with released := s.released ++ [c.msg] }, .sent none)
      | .disconnect => some ({ s with released := s.released ++ [c.msg] }, .sent (some slot))
  | .overflow q =>
    match s.queues.cells q with
    | oldest :: rest =>
      some ({ s with queues := s.queues.write q rest, released := s.released ++ [oldest] }, .resend q)
    | [] => some (s, .resend q)
  | .resend q =>
    match trySend o.queues.queueSize (s.queues.cells q) c.msg with
    | some ms => some ({ s with queues := s.queues.write q ms }, .sent none)
    | none => some ({ s with released := s.released ++ [c.msg] }, .sent none)
  | .sent dc => some (s, .unlocked dc)
  | .unlocked dc => some ({ s with notify := true }, .done dc)
  | .done _ => none

def enqueueStep (o : WakeOptions) (s : WakeState) (i : Nat) (pooled : Option Nat) :
    Option WakeState :=
  match s.calls[i]? with
  | none => none
  | some c =>
    match s.callStep o c pooled with
    | none => none
    | some (t, phase) => some { t with calls := s.calls.set i { c with phase := phase } }

/-! ## The writer -/

/-- `acc.flush`, which empties the accumulator whatever the stream says. -/
def flush (s : WakeState) (ok : Bool) : WakeState :=
  if s.acc.buf = [] then s
  else
    { s with
      acc := ⟨[], []⟩
      written := if ok then s.written ++ [s.acc.buf] else s.written
      released := s.released ++ s.acc.msgRefs }

/-- After a flush the writer goes on, or returns when the write failed. -/
def flushThen (s : WakeState) (ok : Bool) (next : LoopPhase) : WakeState :=
  { s.flush ok with phase := if s.acc.buf = [] ∨ ok then next else .leaving }

/-- Where the fetch goes on when level `p` gave nothing. -/
def nextPhase (p : Fin 4) : LoopPhase := if h : p.1 + 1 < 4 then .look ⟨p.1 + 1, h⟩ else .waiting

def drainSubscriberQueues (s : WakeState) : WakeState :=
  levels.foldl (fun s p =>
    match s.queues.table (slot, p) with
    | none => s
    | some q =>
      let (queues, released) := SubQueues.returnQueueToPool (s.queues.assign (slot, p) none) q
      { s with queues := queues, released := s.released ++ released }) s

def loopStep (o : WakeOptions) (s : WakeState) (now : Int64) (ok : Bool) : Option WakeState :=
  match s.phase with
  | .look p =>
    match s.queues.table (slot, p) with
    | none => some { s with phase := nextPhase p }
    | some q => some { s with phase := .polling p q }
  | .polling p q =>
    match s.queues.cells q with
    | [] => some { s with phase := nextPhase p }
    | msg :: rest => some { s with queues := s.queues.write q rest, phase := .received msg p q }
  | .received msg p q =>
    if s.queues.cells q = [] then some { s with phase := .cleaning msg p q }
    else some { s with phase := .fetched msg }
  | .cleaning msg p q =>
    if s.readLocked then none
    else
      let (queues, released) := SubQueues.cleanupEmptyQueue s.queues slot p q
      some { s with queues := queues, released := s.released ++ released, phase := .fetched msg }
  | .fetched msg =>
    match s.writer.deliver now msg with
    | (w, none) => some { s with writer := w, released := s.released ++ [msg], phase := .look (levelOf 0) }
    | (w, some buf) => some { s with writer := w, phase := .accumulate msg buf }
  | .accumulate msg buf =>
    if s.acc.buf ≠ [] ∧ o.maxSize < s.acc.buf.length + buf.length then
      let t := s.flushThen ok (.append msg buf)
      some (if t.phase = .leaving then { t with released := t.released ++ [msg] } else t)
    else some { s with phase := .append msg buf }
  | .append msg buf =>
    some { s with
      acc := ⟨s.acc.buf ++ buf, s.acc.msgRefs ++ [msg]⟩
      timer := if s.acc.buf = [] then s.timer.reset else s.timer
      phase := .appended }
  | .appended =>
    if o.maxSize ≤ s.acc.buf.length then some (s.flushThen ok (.look (levelOf 0)))
    else some { s with phase := .look (levelOf 0) }
  | .ticked => some (s.flushThen ok (.look (levelOf 0)))
  | .nacking _ => some { s with phase := .look (levelOf 0) }
  | .leaving => some { s.flush ok with timer := s.timer.stop, phase := .draining }
  | .draining =>
    if s.readLocked then none else some { s.drainSubscriberQueues with phase := .returned }
  | .waiting | .returned => none

/-- What a step of the writer outside its select can do, with what it found. -/
inductive WriterMoves (o : WakeOptions) (s : WakeState) (now : Int64) (ok : Bool) : WakeState → Prop
  | absent {p : Fin 4} (hph : s.phase = .look p) (hnone : s.queues.table (slot, p) = none) :
    WriterMoves o s now ok { s with phase := nextPhase p }
  | poll {p : Fin 4} {q : Nat} (hph : s.phase = .look p)
    (hq : s.queues.table (slot, p) = some q) :
    WriterMoves o s now ok { s with phase := .polling p q }
  | empty {p : Fin 4} {q : Nat} (hph : s.phase = .polling p q) (hnil : s.queues.cells q = []) :
    WriterMoves o s now ok { s with phase := nextPhase p }
  | receive {p : Fin 4} {q : Nat} {msg : Message} {rest : List Message}
    (hph : s.phase = .polling p q) (hcons : s.queues.cells q = msg :: rest) :
    WriterMoves o s now ok
      { s with queues := s.queues.write q rest, phase := .received msg p q }
  | last {msg : Message} {p : Fin 4} {q : Nat} (hph : s.phase = .received msg p q)
    (hnil : s.queues.cells q = []) :
    WriterMoves o s now ok { s with phase := .cleaning msg p q }
  | more {msg : Message} {p : Fin 4} {q : Nat} (hph : s.phase = .received msg p q)
    (hne : s.queues.cells q ≠ []) :
    WriterMoves o s now ok { s with phase := .fetched msg }
  | cleanup {msg : Message} {p : Fin 4} {q : Nat} (hph : s.phase = .cleaning msg p q)
    (hfree : ¬ s.readLocked) :
    WriterMoves o s now ok { s with
      queues := (SubQueues.cleanupEmptyQueue s.queues slot p q).1
      released := s.released ++ (SubQueues.cleanupEmptyQueue s.queues slot p q).2
      phase := .fetched msg }
  | drop {msg : Message} {w : Writer} (hph : s.phase = .fetched msg)
    (hd : s.writer.deliver now msg = (w, none)) :
    WriterMoves o s now ok
      { s with writer := w, released := s.released ++ [msg], phase := .look (levelOf 0) }
  | deliver {msg : Message} {w : Writer} {buf : Bytes} (hph : s.phase = .fetched msg)
    (hd : s.writer.deliver now msg = (w, some buf)) :
    WriterMoves o s now ok { s with writer := w, phase := .accumulate msg buf }
  /-- The bytes in hand do not fit behind those of the accumulator. -/
  | flushBefore {msg : Message} {buf : Bytes} (hph : s.phase = .accumulate msg buf)
    (hgo : (s.flushThen ok (.append msg buf)).phase ≠ .leaving) :
    WriterMoves o s now ok (s.flushThen ok (.append msg buf))
  | failBefore {msg : Message} {buf : Bytes} (hph : s.phase = .accumulate msg buf)
    (hleave : (s.flushThen ok (.append msg buf)).phase = .leaving) :
    WriterMoves o s now ok { s.flushThen ok (.append msg buf) with
      released := (s.flushThen ok (.append msg buf)).released ++ [msg] }
  | fits {msg : Message} {buf : Bytes} (hph : s.phase = .accumulate msg buf) :
    WriterMoves o s now ok { s with phase := .append msg buf }
  | append {msg : Message} {buf : Bytes} (hph : s.phase = .append msg buf) :
    WriterMoves o s now ok { s with
      acc := ⟨s.acc.buf ++ buf, s.acc.msgRefs ++ [msg]⟩
      timer := if s.acc.buf = [] then s.timer.reset else s.timer
      phase := .appended }
  | full (hph : s.phase = .appended) (hsize : o.maxSize ≤ s.acc.buf.length) :
    WriterMoves o s now ok (s.flushThen ok (.look (levelOf 0)))
  | room (hph : s.phase = .appended) (hsize : ¬ o.maxSize ≤ s.acc.buf.length) :
    WriterMoves o s now ok { s with phase := .look (levelOf 0) }
  | tick (hph : s.phase = .ticked) : WriterMoves o s now ok (s.flushThen ok (.look (levelOf 0)))
  | nack {offset : UInt64} (hph : s.phase = .nacking offset) :
    WriterMoves o s now ok { s with phase := .look (levelOf 0) }
  | leave (hph : s.phase = .leaving) :
    WriterMoves o s now ok { s.flush ok with timer := s.timer.stop, phase := .draining }
  | drain (hph : s.phase = .draining) (hfree : ¬ s.readLocked) :
    WriterMoves o s now ok { s.drainSubscriberQueues with phase := .returned }

theorem loopStep_moves {o : WakeOptions} {s t : WakeState} {now : Int64} {ok : Bool}
    (h : s.loopStep o now ok = some t) : WriterMoves o s now ok t := by
  unfold loopStep at h
  split at h
  · next p hph =>
    split at h <;> cases h
    · next hnone => exact .absent hph hnone
    · next q hq => exact .poll hph hq
  · next p q hph =>
    split at h <;> cases h
    · next hnil => exact .empty hph hnil
    · next msg rest hcons => exact .receive hph hcons
  · next msg p q hph =>
    split at h <;> cases h
    · next hnil => exact .last hph hnil
    · next hne => exact .more hph hne
  · next msg p q hph =>
    obtain ⟨hfree, h⟩ := Option.ite_none_left_eq_some.mp h
    cases h
    exact .cleanup hph hfree
  · next msg hph =>
    split at h <;> cases h
    · next w hd => exact .drop hph hd
    · next w buf hd => exact .deliver hph hd
  · next msg buf hph =>
    split at h
    · dsimp only at h
      split at h <;> cases h
      · next hleave => exact .failBefore hph hleave
      · next hgo => exact .flushBefore hph hgo
    · cases h
      exact .fits hph
  · next msg buf hph =>
    cases h
    exact .append hph
  · next hph =>
    split at h <;> cases h
    · next hsize => exact .full hph hsize
    · next hsize => exact .room hph hsize
  · next hph =>
    cases h
    exact .tick hph
  · next offset hph =>
    cases h
    exact .nack hph
  · next hph =>
    cases h
    exact .leave hph
  · next hph =>
    obtain ⟨hfree, h⟩ := Option.ite_none_left_eq_some.mp h
    cases h
    exact .drain hph hfree
  · cases h
  · cases h

/-- `handleNack` publishes through calls of its own, which are calls like any
other. -/
def selectStep (s : WakeState) : SelectCase → Option WakeState
  | .ctxDone => if s.cancelled then some { s with phase := .leaving } else none
  | .timer =>
    if s.timer.ticked then
      some { s with timer := { s.timer with ticked := false }, phase := .ticked }
    else none
  | .nack offset => some { s with phase := .nacking offset }
  | .notify => if s.notify then some { s with notify := false, phase := .look (levelOf 0) } else none

def step (o : WakeOptions) (s : WakeState) : WakeLabel → Option WakeState
  | .call msg p => some { s with calls := s.calls ++ [⟨msg, p, .start⟩] }
  | .enqueue i pooled => s.enqueueStep o i pooled
  | .loop now ok => s.loopStep o now ok
  | .select c => if s.phase = .waiting then s.selectStep c else none
  | .fire => if s.timer.armed then some { s with timer := ⟨false, true⟩ } else none
  | .deactivate => some { s with active := false }
  | .cancel => some { s with cancelled := true }

/-- A subscriber that was just registered; the pool may hold any channels. -/
def initial (cells : Nat → List Message) (next : Nat) (free : List Nat) (topic groupID : Bytes) :
    WakeState where
  queues := ⟨cells, next, free, fun _ => none⟩
  active := true
  cancelled := false
  notify := false
  calls := []
  phase := .look (levelOf 0)
  writer := Writer.new topic groupID
  acc := ⟨[], []⟩
  timer := ⟨false, false⟩
  written := []
  released := []

/-! ## A call and a fetch that nobody interrupts

Their steps add up to the functions of `Queues`. -/

def callAt (s : WakeState) (i : Nat) (c : EnqueueCall) (ph : CallPhase) : WakeState :=
  { s with calls := s.calls.set i { c with phase := ph } }

abbrev CallMoves (o : WakeOptions) (i : Nat) : WakeState → WakeState → Prop :=
  Relation.ReflTransGen fun s t => ∃ pooled, s.step o (.enqueue i pooled) = some t

theorem callMoves_step {o : WakeOptions} {s t : WakeState} {i : Nat} {c : EnqueueCall}
    {ph ph' : CallPhase} (pooled : Option Nat) (hlt : i < s.calls.length)
    (hcalls : t.calls = s.calls)
    (h : (s.callAt i c ph).callStep o { c with phase := ph } pooled = some (t.callAt i c ph, ph')) :
    CallMoves o i (s.callAt i c ph) (t.callAt i c ph') := by
  refine .single ⟨pooled, ?_⟩
  have hget : (s.callAt i c ph).calls[i]? = some { c with phase := ph } :=
    List.getElem?_set_self hlt
  simp only [step, enqueueStep, hget, h]
  simp only [callAt, hcalls, List.set_set]

theorem callMoves_holding {o : WakeOptions} {s : WakeState} {i : Nat} {c : EnqueueCall}
    (hlt : i < s.calls.length) (hactive : s.active = true)
    (hfree : (s.callAt i c .missing).readLocked = false) (pooled : Option Nat) :
    let r := s.queues.ensure (slot, levelOf c.level) pooled
    CallMoves o i (s.callAt i c .start) ({ s with queues := r.1 }.callAt i c (.holding r.2)) := by
  intro r
  have hstart : CallMoves o i (s.callAt i c .start) (s.callAt i c .lookup) := by
    refine callMoves_step none hlt rfl ?_
    simp [callStep, callAt, hactive]
  refine hstart.trans ?_
  cases hk : s.queues.table (slot, levelOf c.level) with
  | some q =>
    have hr : r = (s.queues, q) := by simp only [r, Pooled.ensure, hk]
    rw [hr]
    refine callMoves_step none hlt rfl ?_
    simp [callStep, callAt, hk]
  | none =>
    have hmissing : CallMoves o i (s.callAt i c .lookup) (s.callAt i c .missing) := by
      refine callMoves_step none hlt rfl ?_
      simp [callStep, callAt, hk]
    have hgap : CallMoves o i (s.callAt i c .missing)
        ({ s with queues := r.1 }.callAt i c (.gap r.2)) := by
      refine callMoves_step (t := { s with queues := r.1 }) pooled hlt rfl ?_
      simp only [callStep, hfree]
      rfl
    refine (hmissing.trans hgap).trans ?_
    exact callMoves_step none hlt rfl rfl

/-- From the send, with the steps of `handleOverflow`, to the unlock. -/
theorem callMoves_sent {o : WakeOptions} {s : WakeState} {i : Nat} {c : EnqueueCall}
    (hlt : i < s.calls.length) (q : Nat) :
    let r := SubQueues.sendOrOverflow o.queues s.queues slot q c.msg
    CallMoves o i (s.callAt i c (.holding q))
      ({ s with queues := r.1, released := s.released ++ r.2.1 }.callAt i c (.sent r.2.2)) := by
  intro r
  cases hsend : trySend o.queues.queueSize (s.queues.cells q) c.msg with
  | some ms =>
    have hr : r = (s.queues.write q ms, [], none) := by
      simp only [r, SubQueues.sendOrOverflow, hsend]
    rw [hr]
    refine callMoves_step none hlt rfl ?_
    simp [callStep, callAt, hsend]
  | none =>
    have hr : r = SubQueues.handleOverflow o.queues s.queues slot q c.msg := by
      simp only [r, SubQueues.sendOrOverflow, hsend]
    rw [hr]
    unfold SubQueues.handleOverflow
    cases hpolicy : o.queues.policy with
    | dropNewest =>
      refine callMoves_step none hlt rfl ?_
      simp [callStep, callAt, hsend, hpolicy]
    | disconnect =>
      refine callMoves_step none hlt rfl ?_
      simp [callStep, callAt, hsend, hpolicy]
    | dropOldest =>
      have hoverflow : CallMoves o i (s.callAt i c (.holding q)) (s.callAt i c (.overflow q)) := by
        refine callMoves_step none hlt rfl ?_
        simp [callStep, callAt, hsend, hpolicy]
      refine hoverflow.trans ?_
      cases hq : s.queues.cells q with
      | nil =>
        have hresend : CallMoves o i (s.callAt i c (.overflow q)) (s.callAt i c (.resend q)) := by
          refine callMoves_step none hlt rfl ?_
          simp [callStep, callAt, hq]
        refine hresend.trans (callMoves_step none hlt rfl ?_)
        rw [hq] at hsend
        simp [callStep, callAt, hq, hsend]
      | cons oldest rest =>
        have hresend : CallMoves o i (s.callAt i c (.overflow q))
            ({ s with queues := s.queues.write q rest,
                      released := s.released ++ [oldest] }.callAt i c (.resend q)) := by
          refine callMoves_step none hlt rfl ?_
          simp [callStep, callAt, hq]
        refine hresend.trans (callMoves_step none hlt ?_ ?_)
        · cases trySend o.queues.queueSize rest c.msg <;> rfl
        · have hcell : (s.queues.write q rest).cells q = rest := by simp [Pooled.write]
          have hwrite : ∀ ms, (s.queues.write q rest).write q ms = s.queues.write q ms := by
            simp [Pooled.write]
          cases hre : trySend o.queues.queueSize rest c.msg <;>
            simp [callStep, callAt, hcell, hre, hwrite]

/-- A call that runs alone changes the queues, releases and returns what
`enqueueToSubscriber` does, and leaves a token. -/
theorem call_alone {o : WakeOptions} {s : WakeState} {i : Nat} {c : EnqueueCall}
    (hlt : i < s.calls.length) (hactive : s.active = true)
    (hfree : (s.callAt i c .missing).readLocked = false) (pooled : Option Nat) :
    let r := SubQueues.enqueueToSubscriber o.queues (fun _ => s.active) s.queues slot c.msg c.level
      pooled
    CallMoves o i (s.callAt i c .start)
      ({ s with queues := r.1, released := s.released ++ r.2.1, notify := true }.callAt i c
        (.done r.2.2)) := by
  intro r
  have hholding := callMoves_holding (o := o) hlt hactive hfree pooled
  generalize hq : s.queues.ensure (slot, levelOf c.level) pooled = e at hholding
  have hsent := callMoves_sent (o := o) (s := { s with queues := e.1 }) (c := c) hlt e.2
  have hunlock : ∀ (t : WakeState) (dc : Option Nat), i < t.calls.length →
      CallMoves o i (t.callAt i c (.sent dc)) ({ t with notify := true }.callAt i c (.done dc)) :=
    fun t dc hlt => (callMoves_step (t := t) none hlt rfl rfl).trans
      (callMoves_step (t := { t with notify := true }) none hlt rfl rfl)
  have hr : r = SubQueues.sendOrOverflow o.queues e.1 slot e.2 c.msg := by
    simp only [r, SubQueues.enqueueToSubscriber, hactive, Bool.true_eq_false, if_false, hq]
  rw [hr]
  exact (hholding.trans hsent).trans (hunlock _ _ hlt)

abbrev LoopMoves (o : WakeOptions) : WakeState → WakeState → Prop :=
  Relation.ReflTransGen fun s t => ∃ now ok, s.step o (.loop now ok) = some t

/-- The state in which a fetch has returned `r`. -/
def afterFetch (s : WakeState) (r : SubQueues Message × List Message × Option (Message × Fin 4)) :
    WakeState :=
  { s with
    queues := r.1
    released := s.released ++ r.2.1
    phase := match r.2.2 with
      | some (msg, _) => .fetched msg
      | none => .waiting }

theorem loopMoves_step {o : WakeOptions} {s t : WakeState} (h : s.loopStep o 0 true = some t) :
    LoopMoves o s t :=
  .single ⟨0, true, h⟩

/-- The scan of one level, given the scan of the levels behind it. -/
theorem loopMoves_level {o : WakeOptions} {s : WakeState}
    (hfree : s.calls.any (fun c => c.phase.holds) = false) {p : Fin 4} {ps : List (Fin 4)}
    (hnext : LoopMoves o { s with phase := nextPhase p }
      (s.afterFetch (SubQueues.fetchLoop s.queues slot ps))) :
    LoopMoves o { s with phase := .look p }
      (s.afterFetch (SubQueues.fetchLoop s.queues slot (p :: ps))) := by
  unfold SubQueues.fetchLoop
  cases hk : s.queues.table (slot, p) with
  | none =>
    refine (loopMoves_step ?_).trans hnext
    simp [loopStep, hk]
  | some q =>
    have hpoll : LoopMoves o { s with phase := .look p } { s with phase := .polling p q } := by
      apply loopMoves_step
      simp [loopStep, hk]
    refine hpoll.trans ?_
    cases hq : s.queues.cells q with
    | nil =>
      simp only [hq]
      refine (loopMoves_step ?_).trans hnext
      simp [loopStep, hq]
    | cons msg rest =>
      have hcell : (s.queues.write q rest).cells q = rest := by simp [Pooled.write]
      have hreceive : LoopMoves o { s with phase := .polling p q }
          { s with queues := s.queues.write q rest, phase := .received msg p q } := by
        apply loopMoves_step
        simp [loopStep, hq]
      refine hreceive.trans ?_
      simp only [hq]
      by_cases hrest : rest = []
      · have hclean : LoopMoves o
            { s with queues := s.queues.write q rest, phase := .received msg p q }
            { s with queues := s.queues.write q rest, phase := .cleaning msg p q } := by
          apply loopMoves_step
          simp only [loopStep, hcell, if_pos hrest]
        refine hclean.trans (loopMoves_step ?_)
        simp [loopStep, readLocked, hfree, LoopPhase.holds, hrest, afterFetch]
      · apply loopMoves_step
        simp [loopStep, hcell, hrest, afterFetch]

/-- A fetch that runs alone returns what `fetchNextMessage` does; the writer
goes to its select when that is nothing. -/
theorem fetch_alone {o : WakeOptions} {s : WakeState}
    (hfree : s.calls.any (fun c => c.phase.holds) = false) :
    LoopMoves o { s with phase := .look (levelOf 0) }
      (s.afterFetch (SubQueues.fetchNextMessage s.queues slot)) := by
  refine loopMoves_level hfree (loopMoves_level hfree (loopMoves_level hfree
    (loopMoves_level hfree ?_)))
  have hend : s.afterFetch (SubQueues.fetchLoop s.queues slot []) = { s with phase := .waiting } := by
    simp [afterFetch, SubQueues.fetchLoop]
  rw [hend]
  exact .refl

end WakeState

end Aqueduct.Broker.Wakeup
