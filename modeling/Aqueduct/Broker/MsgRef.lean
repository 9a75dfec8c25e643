import Aqueduct.Broker.Router
import Aqueduct.Lib.RefCount
import Aqueduct.Lib.Run

/-!
Reference counting of messages (`internal/broker/msg_ref.go`) and its users in
`router.go`: `publishWithClientID` and `publishLocal`, `PublishBatch`,
`runBackfillWorker`, `enqueueToSubscriber` with `handleOverflow`, and the
writer with its accumulator. A goroutine is an automaton whose steps are the
atomic operations: one count, one channel operation, one look at the live
flags. Which channel a send, a fetch or a drain hits is left open, so every
interleaving of the queue recycling is included: a send may hit a channel that
the writer has taken out of its slot. Such a channel lies in the pool until it is
installed again or the garbage collector drops it, and it is nobody's queue.
Whether a message is expired or a write fails is left open as well. `lost` records
the references that are dropped without `Release`; no step reads it.
-/

namespace Aqueduct.Broker

/-! ## Counts -/

/-- A message. Its number is its place in the heap, and `returned` says how often
its buffer was given back. -/
structure MessageRef where
  ref : Int32
  parent : Option Nat
  returned : Nat
  deriving DecidableEq, Repr

abbrev RefHeap := List MessageRef

namespace RefHeap

def acquireMessageRef (heap : RefHeap) : RefHeap := heap ++ [⟨1, none, 0⟩]

def retain (heap : RefHeap) (m : Nat) : RefHeap :=
  heap.modify m fun c => { c with ref := c.ref + 1 }

def acquireChildMessageRef (heap : RefHeap) (parent : Nat) : RefHeap :=
  retain heap parent ++ [⟨1, some parent, 0⟩]

/-- One decrement, and the call of `Release` that comes next: the last one of a
child goes on to the parent. -/
def release (heap : RefHeap) (m : Nat) : RefHeap × List Nat :=
  match heap[m]? with
  | none => (heap, [])
  | some c =>
    if c.ref + -1 = 0 then
      match c.parent with
      | some parent => (heap.set m { c with ref := c.ref + -1 }, [parent])
      | none => (heap.set m { c with ref := c.ref + -1, returned := c.returned + 1 }, [])
    else (heap.set m { c with ref := c.ref + -1 }, [])

/-- One more reference to any message does not wrap its count. -/
def HasRoom (heap : RefHeap) : Prop := ∀ c ∈ heap, c.ref < Int32.maxValue

/-- The heap with the counts as integers. -/
def ints (heap : RefHeap) : RefCount.Heap :=
  heap.map fun c => ⟨c.ref.toInt, c.parent, c.returned⟩

theorem getElem?_ints (heap : RefHeap) (m : Nat) :
    heap.ints[m]? = heap[m]?.map fun c => ⟨c.ref.toInt, c.parent, c.returned⟩ :=
  List.getElem?_map

theorem length_ints (heap : RefHeap) : heap.ints.length = heap.length := List.length_map _

theorem toInt_add_one {n : Int32} (h : n < Int32.maxValue) : (n + 1).toInt = n.toInt + 1 := by
  have hlow := Int32.le_toInt n
  have hhigh : n.toInt < 2147483647 := Int32.lt_iff_toInt_lt.mp h
  rw [Int32.toInt_add, Int.bmod_eq_of_le (by simp; omega) (by simp; omega)]
  rfl

theorem toInt_sub_one {n : Int32} (h : 0 < n.toInt) : (n + -1).toInt = n.toInt - 1 := by
  have hhigh := Int32.toInt_lt n
  rw [Int32.toInt_add, Int.bmod_eq_of_le (by simp; omega) (by simp; omega)]
  rfl

theorem ints_acquireMessageRef (heap : RefHeap) :
    heap.acquireMessageRef.ints = RefCount.acquire heap.ints := by
  simp [ints, acquireMessageRef, RefCount.acquire]

theorem ints_retain {heap : RefHeap} (h : heap.HasRoom) (m : Nat) :
    (heap.retain m).ints = RefCount.retain heap.ints m := by
  refine List.ext_getElem? fun i => ?_
  rw [getElem?_ints, retain, RefCount.retain, List.getElem?_modify, List.getElem?_modify,
    getElem?_ints]
  cases hc : heap[i]? with
  | none => rfl
  | some c =>
    by_cases hi : m = i
    · simp [hi, toInt_add_one (h c (List.mem_of_getElem? hc))]
    · simp [hi]

theorem ints_acquireChildMessageRef {heap : RefHeap} (h : heap.HasRoom) (parent : Nat) :
    (heap.acquireChildMessageRef parent).ints = RefCount.acquireChild heap.ints parent := by
  rw [RefCount.acquireChild, ← ints_retain h]
  simp [ints, acquireChildMessageRef]

theorem ints_release {heap : RefHeap} {m : Nat}
    (h : ∀ c, heap[m]? = some c → 0 < c.ref.toInt) :
    ((heap.release m).1.ints, (heap.release m).2) = RefCount.release heap.ints m := by
  cases hc : heap[m]? with
  | none => simp [release, RefCount.release, getElem?_ints, hc]
  | some c =>
    have hsub := toInt_sub_one (h c hc)
    have hzero : c.ref + -1 = 0 ↔ c.ref.toInt - 1 = 0 := by
      rw [← Int32.toInt_inj, hsub]
      rfl
    simp only [release, RefCount.release, getElem?_ints, hc, Option.map_some, hzero]
    split
    · cases c.parent <;> simp [ints, List.map_set, hsub]
    · simp [ints, List.map_set, hsub]

end RefHeap

/-! ## Goroutines and channels -/

/-- Who called `enqueueToSubscriber`: a single publish, the callback of a batch
with parent `b`, the backfill worker. -/
inductive EnqueueCaller
  | publish
  | batch (b : Nat)
  | backfill
  deriving DecidableEq, Repr

/-- `enqueueing` is a call of `enqueueToSubscriber` before it looks at the live
flag, `overflowing` is `handleOverflow`, `resending` its second send. The last
three belong to the writer: its loop, a message in hand, the deferred drain. -/
inductive RefPhase
  | idle
  | publishing (m : Nat)
  | batching (b : Nat)
  | unpacking (b c : Nat)
  | replaying (m : Nat)
  | enqueueing (k : EnqueueCaller) (m idx : Nat)
  | sending (k : EnqueueCaller) (m q : Nat)
  | overflowing (k : EnqueueCaller) (m q : Nat)
  | resending (k : EnqueueCaller) (m q : Nat)
  | writing (acc : List Nat)
  | fetched (acc : List Nat) (m : Nat)
  | draining
  deriving DecidableEq, Repr

/-- `todo` lists the calls of `Release` that come next. -/
structure RefThread where
  phase : RefPhase
  todo : List Nat
  deriving DecidableEq, Repr

/-- Where a channel is: the queue of a slot, in the pool, or gone. -/
inductive ChanPlace
  | installed
  | pooled
  | dropped
  deriving DecidableEq, Repr

structure RefChan where
  entries : List Nat
  place : ChanPlace
  deriving DecidableEq, Repr

structure RefState where
  heap : RefHeap
  chans : List RefChan
  active : List Bool
  queueSize : Nat
  policy : BackpressurePolicy
  threads : List RefThread
  lost : List Nat
  deriving DecidableEq

/-- `discard` is a message that is expired or empty, `quit` a failed flush or a
cancelled context. -/
inductive RefAct
  | publish
  | batch
  | replay
  | startWriter
  | child
  | offer (idx : Nat)
  | enter (q : Nat)
  | send
  | overflow
  | resend
  | finish
  | release
  | fetch (q : Nat)
  | discard
  | append
  | flush
  | quit
  | drain (q : Nat)
  | pool (q : Nat)
  | exit
  deriving DecidableEq, Repr

/-- A step of a goroutine, a channel that is made or taken from the pool and
installed, one that the garbage collector takes from the pool, or a change of the
tables under the write lock of `r.mu`. -/
inductive RefLabel
  | run (t : Nat) (a : RefAct)
  | newQueue
  | reuse (q : Nat)
  | gc (q : Nat)
  | subscribe
  | deactivate (idx : Nat)
  deriving DecidableEq, Repr

def RefLabel.replays : RefLabel → Bool
  | .run _ .replay => true
  | _ => false

/-- The channel a goroutine is about to send into. -/
def RefPhase.target : RefPhase → Option Nat
  | .sending _ _ q | .resending _ _ q => some q
  | _ => none

/-! ## References held by a goroutine -/

def EnqueueCaller.held (m : Nat) : EnqueueCaller → List Nat
  | .publish => [m]
  | .batch b => [b, m]
  | .backfill => [m]

def RefPhase.held : RefPhase → List Nat
  | .idle | .draining => []
  | .publishing m | .replaying m => [m]
  | .batching b => [b]
  | .unpacking b c => [b, c]
  | .enqueueing k m _ | .sending k m _ | .overflowing k m _ | .resending k m _ => m :: k.held m
  | .writing acc => acc
  | .fetched acc m => m :: acc

def RefThread.held (th : RefThread) : List Nat := th.todo ++ th.phase.held

/-- The publish paths keep `r.mu` read-locked while they dispatch; the backfill
worker does not. -/
def RefPhase.locked : RefPhase → Bool
  | .publishing _ | .unpacking .. => true
  | .enqueueing k .. | .sending k .. | .overflowing k .. | .resending k .. => k ≠ .backfill
  | _ => false

namespace RefState

/-! ## Steps -/

def isActive (s : RefState) (idx : Nat) : Bool := s.active.getD idx false

def setChan (s : RefState) (q : Nat) (ch : RefChan) : RefState :=
  { s with chans := s.chans.set q ch }

/-- `enqueueToSubscriber` returns to its caller. The backfill worker forgets
the reference it acquired. -/
def returnTo (s : RefState) (todo : List Nat) (m : Nat) : EnqueueCaller → RefThread × RefState
  | .publish => (⟨.publishing m, todo⟩, s)
  | .batch b => (⟨.unpacking b m, todo⟩, s)
  | .backfill => (⟨.idle, todo⟩, { s with lost := m :: s.lost })

/-- The live check; a slot that is not live returns without `Release`. -/
def enter (s : RefState) (k : EnqueueCaller) (m idx q : Nat) : RefThread × RefState :=
  if s.isActive idx then (⟨.sending k m q, []⟩, s)
  else { s with lost := m :: s.lost }.returnTo [] m k

/-- The non-blocking send; `full` says what happens without room. -/
def trySend (s : RefState) (k : EnqueueCaller) (m q : Nat) (full : RefThread × RefState) :
    Option (RefThread × RefState) :=
  (s.chans[q]?).map fun ch =>
    if ch.entries.length < s.queueSize then
      (s.setChan q { ch with entries := ch.entries ++ [m] }).returnTo [] m k
    else full

def handleOverflow (s : RefState) (k : EnqueueCaller) (m q : Nat) : Option (RefThread × RefState) :=
  match s.policy with
  | .dropOldest =>
    match s.chans[q]? with
    | some ⟨oldest :: entries, place⟩ =>
      some (⟨.resending k m q, [oldest]⟩, s.setChan q ⟨entries, place⟩)
    | some ⟨[], _⟩ => some (⟨.resending k m q, []⟩, s)
    | none => none
  | .dropNewest | .disconnect => some (s.returnTo [m] m k)

/-- A receive that hands the message to `next`. -/
def receive (s : RefState) (q : Nat) (next : Nat → RefThread) : Option (RefThread × RefState) :=
  match s.chans[q]? with
  | some ⟨m :: entries, place⟩ => some (next m, s.setChan q ⟨entries, place⟩)
  | _ => none

/-- `returnQueueToPool` puts the channel back once it is drained. -/
def returnQueueToPool (s : RefState) (q : Nat) : Option RefState :=
  match s.chans[q]? with
  | some ⟨[], .installed⟩ => some (s.setChan q ⟨[], .pooled⟩)
  | _ => none

/-- A step of a goroutine that has no `Release` to call first. -/
def phaseStep (s : RefState) : RefPhase → RefAct → Option (RefThread × RefState)
  | .idle, .publish =>
    some (⟨.publishing s.heap.length, []⟩, { s with heap := s.heap.acquireMessageRef })
  | .idle, .batch =>
    some (⟨.batching s.heap.length, []⟩, { s with heap := s.heap.acquireMessageRef })
  | .idle, .replay =>
    some (⟨.replaying s.heap.length, []⟩, { s with heap := s.heap.acquireMessageRef })
  | .idle, .startWriter => some (⟨.writing [], []⟩, s)
  | .batching b, .child =>
    some (⟨.unpacking b s.heap.length, []⟩, { s with heap := s.heap.acquireChildMessageRef b })
  | .publishing m, .offer idx =>
    if s.isActive idx then
      some (⟨.enqueueing .publish m idx, []⟩, { s with heap := s.heap.retain m })
    else none
  | .unpacking b c, .offer idx =>
    if s.isActive idx then
      some (⟨.enqueueing (.batch b) c idx, []⟩, { s with heap := s.heap.retain c })
    else none
  | .replaying m, .offer idx =>
    some (⟨.enqueueing .backfill m idx, []⟩, { s with heap := s.heap.retain m })
  | .enqueueing k m idx, .enter q => some (s.enter k m idx q)
  | .sending k m q, .send => s.trySend k m q (⟨.overflowing k m q, []⟩, s)
  | .overflowing k m q, .overflow => s.handleOverflow k m q
  | .resending k m q, .resend => s.trySend k m q (s.returnTo [m] m k)
  | .publishing m, .finish => some (⟨.idle, [m]⟩, s)
  | .unpacking b c, .finish => some (⟨.batching b, [c]⟩, s)
  | .batching b, .finish => some (⟨.idle, [b]⟩, s)
  | .writing acc, .fetch q => s.receive q fun m => ⟨.fetched acc m, []⟩
  | .fetched acc m, .discard => some (⟨.writing acc, [m]⟩, s)
  | .fetched acc m, .append => some (⟨.writing (acc ++ [m]), []⟩, s)
  | .fetched acc m, .flush => some (⟨.fetched [] m, acc⟩, s)
  | .fetched acc m, .quit => some (⟨.draining, acc ++ [m]⟩, s)
  -- `cleanupEmptyQueue` drains what it hands back
  | .fetched acc m, .drain q => s.receive q fun x => ⟨.fetched acc m, [x]⟩
  | .fetched acc m, .pool q => (s.returnQueueToPool q).map fun s => (⟨.fetched acc m, []⟩, s)
  | .writing acc, .flush => some (⟨.writing [], acc⟩, s)
  | .writing acc, .quit => some (⟨.draining, acc⟩, s)
  | .draining, .drain q => s.receive q fun m => ⟨.draining, [m]⟩
  | .draining, .pool q => (s.returnQueueToPool q).map fun s => (⟨.draining, []⟩, s)
  | .draining, .exit => some (⟨.idle, []⟩, s)
  | _, _ => none

def threadStep (s : RefState) (th : RefThread) (a : RefAct) : Option (RefThread × RefState) :=
  match th.todo with
  | m :: todo =>
    if a = .release then
      some (⟨th.phase, (s.heap.release m).2 ++ todo⟩,
        { s with heap := (s.heap.release m).1 })
    else none
  | [] => s.phaseStep th.phase a

def takeFromPool (s : RefState) (q : Nat) (place : ChanPlace) : Option RefState :=
  match s.chans[q]? with
  | some ⟨entries, .pooled⟩ => some (s.setChan q ⟨entries, place⟩)
  | _ => none

def readLocked (s : RefState) : Bool := s.threads.any (·.phase.locked)

def step (s : RefState) : RefLabel → Option RefState
  | .run t a =>
    (s.threads[t]?).bind fun th =>
      (s.threadStep th a).map fun (th, s) => { s with threads := s.threads.set t th }
  | .newQueue => some { s with chans := s.chans ++ [⟨[], .installed⟩] }
  | .reuse q => s.takeFromPool q .installed
  | .gc q => s.takeFromPool q .dropped
  | .subscribe => if s.readLocked then none else some { s with active := s.active ++ [true] }
  | .deactivate idx =>
    if s.readLocked then none else some { s with active := s.active.set idx false }

/-- Any number of goroutines that have not begun. -/
def initial (n queueSize : Nat) (policy : BackpressurePolicy) : RefState :=
  ⟨[], [], [], queueSize, policy, List.replicate n ⟨.idle, []⟩, []⟩

/-! ## What must hold -/

/-- References held by operations in progress and writers. -/
def hands (s : RefState) : List Nat := s.threads.flatMap RefThread.held

/-- References in the queues of the slots. -/
def queued (s : RefState) : List Nat :=
  s.chans.flatMap fun ch => if ch.place = .installed then ch.entries else []

def holders (s : RefState) (m : Nat) : Nat :=
  s.hands.count m + s.queued.count m + RefCount.liveChildren s.heap.ints m

/-- Every count is the number of holders, and a buffer has been returned once
if its message has no holder left, never otherwise. -/
def Conserved (s : RefState) : Prop :=
  ∀ m (c : MessageRef), s.heap[m]? = some c → c.ref.toInt = s.holders m ∧
    c.returned = if c.parent = none ∧ s.holders m = 0 then 1 else 0

/-- No operation in progress, all queues and accumulators empty. -/
def Quiet (s : RefState) : Prop :=
  (∀ th ∈ s.threads, th = ⟨.idle, []⟩ ∨ th = ⟨.writing [], []⟩) ∧ s.queued = []

/-- The channel that the step sends into. -/
def target (s : RefState) : RefLabel → Option Nat
  | .run t .send | .run t .resend => (s.threads[t]?).bind (·.phase.target)
  | _ => none

/-- No record of the log is replayed into a queue, no message is sent into a
channel that was taken out of its slot, and no count is full. -/
structure Disciplined (s : RefState) (l : RefLabel) : Prop where
  noReplay : l.replays = false
  noStaleSend : ∀ q ∈ s.target l, ∀ ch ∈ s.chans[q]?, ch.place = .installed
  room : s.heap.HasRoom

instance (s : RefState) (l : RefLabel) : Decidable (s.Disciplined l) :=
  decidable_of_iff (l.replays = false ∧ (∀ q ∈ s.target l, ∀ ch ∈ s.chans[q]?,
      ch.place = .installed) ∧ ∀ c ∈ s.heap, c.ref < Int32.maxValue)
    ⟨fun ⟨h, h', h''⟩ => ⟨h, h', h''⟩, fun ⟨h, h', h''⟩ => ⟨h, h', h''⟩⟩

/-! ## Every reference is accounted for -/

variable {s : RefState} {th : RefThread} {ph : RefPhase} {a : RefAct} {r : RefThread × RefState}
  {k : EnqueueCaller} {m q : Nat}

def shared (s : RefState) : List Nat := s.chans.flatMap RefChan.entries ++ s.lost

theorem count_setChan {ch : RefChan} (hq : s.chans[q]? = some ch) (ch' : RefChan) (x : Nat) :
    (s.setChan q ch').shared.count x + ch.entries.count x =
      s.shared.count x + ch'.entries.count x := by
  obtain ⟨hlt, rfl⟩ := List.getElem?_eq_some_iff.mp hq
  have hset := ((List.set_perm_cons_eraseIdx hlt ch').flatMap_right RefChan.entries).count_eq x
  have hold := ((List.getElem_cons_eraseIdx_perm hlt).flatMap_right RefChan.entries).count_eq x
  simp only [List.flatMap_cons, List.count_append] at hset hold
  simp only [setChan, shared, List.count_append]
  omega

/-- A step that only moves references. -/
structure Moves (s : RefState) (held : List Nat) (r : RefThread × RefState) : Prop where
  heap : r.2.heap = s.heap
  threads : r.2.threads = s.threads
  active : r.2.active = s.active
  owned : (r.1.held ++ r.2.shared).Perm (held ++ s.shared)

theorem returnTo_moves (s : RefState) (todo : List Nat) (m : Nat) (k : EnqueueCaller) :
    s.Moves (todo ++ k.held m) (s.returnTo todo m k) := by
  cases k with
  | publish => exact ⟨rfl, rfl, rfl, .refl _⟩
  | batch b => exact ⟨rfl, rfl, rfl, .refl _⟩
  | backfill =>
    refine ⟨rfl, rfl, rfl, List.perm_iff_count.mpr fun x => ?_⟩
    simp only [returnTo, RefThread.held, RefPhase.held, EnqueueCaller.held, shared,
      List.count_append, List.count_cons, List.count_nil]
    omega

theorem enter_moves (s : RefState) (k : EnqueueCaller) (m idx q : Nat) :
    s.Moves (m :: k.held m) (s.enter k m idx q) := by
  unfold enter
  split
  · exact ⟨rfl, rfl, rfl, .refl _⟩
  · have h := returnTo_moves { s with lost := m :: s.lost } [] m k
    refine ⟨h.heap, h.threads, h.active, h.owned.trans (List.perm_iff_count.mpr fun x => ?_)⟩
    simp only [shared, List.nil_append, List.cons_append, List.count_append, List.count_cons]
    omega

theorem trySend_moves {full : RefThread × RefState} (hfull : s.Moves (m :: k.held m) full)
    (h : s.trySend k m q full = some r) : s.Moves (m :: k.held m) r := by
  obtain ⟨ch, hq, rfl⟩ := Option.map_eq_some_iff.mp h
  split
  · have hret := returnTo_moves (s.setChan q { ch with entries := ch.entries ++ [m] }) [] m k
    refine ⟨hret.heap, hret.threads, hret.active, hret.owned.trans (List.perm_iff_count.mpr fun x => ?_)⟩
    have hset := count_setChan hq { ch with entries := ch.entries ++ [m] } x
    simp only [List.nil_append, List.cons_append, List.count_append, List.count_cons,
      List.count_nil] at hset ⊢
    omega
  · exact hfull

theorem handleOverflow_moves (h : s.handleOverflow k m q = some r) : s.Moves (m :: k.held m) r := by
  unfold handleOverflow at h
  split at h
  · split at h
    · next oldest entries place hq =>
      cases h
      refine ⟨rfl, rfl, rfl, List.perm_iff_count.mpr fun x => ?_⟩
      have hset := count_setChan hq ⟨entries, place⟩ x
      simp only [RefThread.held, RefPhase.held, List.count_append, List.count_cons,
        List.count_nil] at hset ⊢
      omega
    · cases h
      exact ⟨rfl, rfl, rfl, .refl _⟩
    · simp at h
  all_goals
    cases h
    exact returnTo_moves s [m] m k

theorem receive_moves {next : Nat → RefThread} {held : List Nat}
    (hnext : ∀ m, (next m).held.Perm (m :: held)) (h : s.receive q next = some r) :
    s.Moves held r := by
  unfold receive at h
  split at h
  · next m entries place hq =>
    cases h
    refine ⟨rfl, rfl, rfl, List.perm_iff_count.mpr fun x => ?_⟩
    have hset := count_setChan hq ⟨entries, place⟩ x
    have hx := (hnext m).count_eq x
    simp only [List.count_append, List.count_cons] at hset hx ⊢
    omega
  · simp at h

theorem shared_place {entries : List Nat} {place : ChanPlace}
    (hq : s.chans[q]? = some ⟨entries, place⟩) (place' : ChanPlace) :
    (s.setChan q ⟨entries, place'⟩).shared.Perm s.shared := by
  refine List.perm_iff_count.mpr fun x => ?_
  have hset := count_setChan hq ⟨entries, place'⟩ x
  exact Nat.add_right_cancel hset

theorem returnQueueToPool_eq {u : RefState} (h : s.returnQueueToPool q = some u) :
    s.chans[q]? = some ⟨[], .installed⟩ ∧ u = s.setChan q ⟨[], .pooled⟩ := by
  unfold returnQueueToPool at h
  split at h
  · next hq => exact ⟨hq, (Option.some.inj h).symm⟩
  · cases h

theorem takeFromPool_eq {u : RefState} {place : ChanPlace} (h : s.takeFromPool q place = some u) :
    ∃ entries, s.chans[q]? = some ⟨entries, .pooled⟩ ∧ u = s.setChan q ⟨entries, place⟩ := by
  unfold takeFromPool at h
  split at h
  · next entries hq => exact ⟨entries, hq, (Option.some.inj h).symm⟩
  · cases h

theorem pool_moves (h : (s.returnQueueToPool q).map (fun u => (th, u)) = some r) :
    s.Moves th.held r := by
  obtain ⟨u, hu, rfl⟩ := Option.map_eq_some_iff.mp h
  obtain ⟨hq, rfl⟩ := returnQueueToPool_eq hu
  exact ⟨rfl, rfl, rfl, (shared_place hq .pooled).append_left _⟩

/-- Everything a goroutine can do to the counts: move references, or make one
more through `AcquireMessageRef`, `AcquireChildMessageRef` or `Retain`. -/
inductive Effect (s : RefState) (held : List Nat) (r : RefThread × RefState) : Prop
  | moves (h : s.Moves held r)
  | acquires (heap : r.2 = { s with heap := s.heap.acquireMessageRef })
      (owned : r.1.held.Perm (s.heap.length :: held))
  | adopts (p : Nat) (hp : p ∈ held) (heap : r.2 = { s with heap := s.heap.acquireChildMessageRef p })
      (owned : r.1.held.Perm (s.heap.length :: held))
  | retains (m : Nat) (hm : m ∈ held) (heap : r.2 = { s with heap := s.heap.retain m })
      (owned : r.1.held.Perm (m :: held))

theorem phaseStep_effect (h : s.phaseStep ph a = some r) : s.Effect ph.held r := by
  unfold phaseStep at h
  split at h
  case h_1 | h_2 | h_3 =>
    cases h
    exact .acquires rfl (.refl _)
  case h_4 | h_27 =>
    cases h
    exact .moves ⟨rfl, rfl, rfl, .refl _⟩
  case h_5 b =>
    cases h
    exact .adopts b (by simp [RefPhase.held]) rfl (.swap ..)
  case h_6 | h_7 =>
    split at h
    · cases h
      exact .retains _ (by simp [RefPhase.held]) rfl (.refl _)
    · simp at h
  case h_8 =>
    cases h
    exact .retains _ (by simp [RefPhase.held]) rfl (.refl _)
  case h_9 k m idx q =>
    cases h
    exact .moves (enter_moves s k m idx q)
  case h_10 k m q => exact .moves (trySend_moves ⟨rfl, rfl, rfl, .refl _⟩ h)
  case h_11 k m q => exact .moves (handleOverflow_moves h)
  case h_12 k m q => exact .moves (trySend_moves (returnTo_moves s [m] m k) h)
  case h_16 acc q => exact .moves (receive_moves (fun _ => .refl _) h)
  case h_21 acc m q => exact .moves (receive_moves (fun _ => .refl _) h)
  case h_25 q => exact .moves (receive_moves (fun _ => .refl _) h)
  case h_22 | h_26 => exact .moves (pool_moves h)
  case h_28 => simp at h
  all_goals
    cases h
    refine .moves ⟨rfl, rfl, rfl, List.perm_iff_count.mpr fun x => ?_⟩
    simp only [RefThread.held, RefPhase.held, List.count_append, List.count_cons, List.count_nil]
    omega

theorem threadStep_frame (h : s.threadStep th a = some r) :
    r.2.threads = s.threads ∧ r.2.active = s.active := by
  obtain ⟨ph, todo⟩ := th
  cases todo with
  | cons m todo =>
    simp only [threadStep] at h
    split at h
    · cases h
      exact ⟨rfl, rfl⟩
    · simp at h
  | nil =>
    cases phaseStep_effect (s := s) h with
    | moves hm => exact ⟨hm.threads, hm.active⟩
    | acquires heap _ | adopts _ _ heap _ | retains _ _ heap _ => rw [heap]; exact ⟨rfl, rfl⟩

theorem threadStep_accounts (h : s.threadStep th a = some r) (hroom : s.heap.HasRoom)
    (rest : List Nat) (hs : RefCount.Accounts s.heap.ints (th.held ++ s.shared ++ rest)) :
    RefCount.Accounts r.2.heap.ints (r.1.held ++ r.2.shared ++ rest) := by
  obtain ⟨ph, todo⟩ := th
  cases todo with
  | cons m todo =>
    simp only [threadStep] at h
    split at h
    · cases h
      have hm : m ∈ RefThread.held ⟨ph, m :: todo⟩ ++ s.shared ++ rest := by simp [RefThread.held]
      have hpos : ∀ c, s.heap[m]? = some c → 0 < c.ref.toInt := fun c hc =>
        hs.count_pos hm (by rw [RefHeap.getElem?_ints, hc]; rfl)
      have hnext := hs.release hm
      rw [← RefHeap.ints_release hpos] at hnext
      refine hnext.perm ?_
      simp [RefThread.held, shared]
    · simp at h
  | nil =>
    cases phaseStep_effect (s := s) h with
    | moves hm =>
      rw [hm.heap]
      exact hs.perm (hm.owned.symm.append_right rest)
    | acquires heap owned =>
      rw [heap, RefHeap.ints_acquireMessageRef]
      refine hs.acquire.perm ?_
      rw [RefHeap.length_ints]
      exact (owned.symm.append_right s.shared).append_right rest
    | adopts p hp heap owned =>
      rw [heap, RefHeap.ints_acquireChildMessageRef hroom]
      refine (hs.acquireChild (p := p) (by simp [RefThread.held, hp])).perm ?_
      rw [RefHeap.length_ints]
      exact (owned.symm.append_right s.shared).append_right rest
    | retains m hm heap owned =>
      rw [heap, RefHeap.ints_retain hroom]
      exact (hs.retain (m := m) (by simp [RefThread.held, hm])).perm
        ((owned.symm.append_right s.shared).append_right rest)

def Accounted (s : RefState) : Prop := RefCount.Accounts s.heap.ints (s.hands ++ s.shared)

theorem step_accounted (s : RefState) (l : RefLabel) (s' : RefState) (hs : s.Accounted)
    (hl : s.Disciplined l) (h : s.step l = some s') : s'.Accounted := by
  cases l with
  | run t a =>
    obtain ⟨th, hth, h⟩ := Option.bind_eq_some_iff.mp h
    obtain ⟨⟨th', u⟩, hstep, rfl⟩ := Option.map_eq_some_iff.mp h
    obtain ⟨ht, rfl⟩ := List.getElem?_eq_some_iff.mp hth
    -- split off the goroutine that moves; the others are the frame
    have hframe : u.threads = s.threads := (threadStep_frame hstep).1
    have hold := (List.getElem_cons_eraseIdx_perm ht).flatMap_right RefThread.held
    have hnew := (List.set_perm_cons_eraseIdx (hframe ▸ ht) th').flatMap_right RefThread.held
    have hs' := threadStep_accounts hstep hl.room ((s.threads.eraseIdx t).flatMap RefThread.held)
      (hs.perm (List.perm_iff_count.mpr fun x => by
        have hx := hold.count_eq x
        simp only [hands, List.flatMap_cons, List.count_append] at hx ⊢
        omega))
    refine hs'.perm (List.perm_iff_count.mpr fun x => ?_)
    have hx := hnew.count_eq x
    simp only [hands, shared, hframe, List.flatMap_cons, List.count_append] at hx ⊢
    omega
  | newQueue =>
    cases h
    simpa [Accounted, hands, shared] using hs
  | reuse q | gc q =>
    obtain ⟨entries, hq, rfl⟩ := takeFromPool_eq h
    exact hs.perm ((shared_place hq _).symm.append_left _)
  | subscribe | deactivate idx =>
    simp only [step] at h
    split at h
    · simp at h
    · cases h
      exact hs

theorem initial_accounted (n queueSize : Nat) (policy : BackpressurePolicy) :
    (initial n queueSize policy).Accounted := by
  have hnone : (initial n queueSize policy).hands ++ (initial n queueSize policy).shared = [] := by
    simp [initial, hands, shared, RefThread.held, RefPhase.held]
  have hheap : (initial n queueSize policy).heap.ints = [] := rfl
  rw [Accounted, hnone, hheap]
  exact ⟨by simp, by simp, by simp, by simp⟩

/-! ## Who can lose a reference -/

/-- The slot of a publisher's pending `enqueueToSubscriber` is live, and no
goroutine handles a replayed message. -/
def SafePhase (s : RefState) : RefPhase → Prop
  | .replaying _ => False
  | .enqueueing k _ idx => k ≠ .backfill ∧ s.isActive idx = true
  | .sending k _ _ | .overflowing k _ _ | .resending k _ _ => k ≠ .backfill
  | _ => True

/-- Nothing is lost, and a channel that is no queue holds nothing. -/
structure Tidy (s : RefState) : Prop where
  lost : s.lost = []
  empty : ∀ ch ∈ s.chans, ch.place = .installed ∨ ch.entries = []

structure Lossless (s : RefState) : Prop extends s.Tidy where
  safe : ∀ th ∈ s.threads, s.SafePhase th.phase

theorem Tidy.setChan (hs : s.Tidy) (q : Nat) {ch : RefChan}
    (h : ch.place = .installed ∨ ch.entries = []) : (s.setChan q ch).Tidy := by
  refine ⟨hs.lost, fun ch' hch => ?_⟩
  rcases List.mem_or_eq_of_mem_set hch with hch | rfl
  exacts [hs.empty ch' hch, h]

/-- A channel that holds something is a queue. -/
theorem Tidy.installed (hs : s.Tidy) {entries : List Nat} {place : ChanPlace}
    (hq : s.chans[q]? = some ⟨m :: entries, place⟩) : place = .installed :=
  (hs.empty _ (List.mem_of_getElem? hq)).resolve_right (by simp)

theorem SafePhase.congr {u : RefState} (h : u.active = s.active) (hs : s.SafePhase ph) :
    u.SafePhase ph := by
  cases ph with
  | enqueueing k m idx => exact ⟨hs.1, by rw [isActive, h]; exact hs.2⟩
  | replaying m => exact hs.elim
  | sending k m q | overflowing k m q | resending k m q => exact hs
  | _ => trivial

/-- Without a read lock on `r.mu` no publisher depends on a live flag. -/
theorem SafePhase.of_unlocked {u : RefState} (h : ph.locked = false) (hs : s.SafePhase ph) :
    u.SafePhase ph := by
  cases ph with
  | enqueueing k m idx => exact absurd (by simpa [RefPhase.locked] using h) hs.1
  | replaying m => exact hs.elim
  | sending k m q | overflowing k m q | resending k m q => exact hs
  | _ => trivial

theorem returnTo_lossless (hk : k ≠ .backfill) (hs : s.Tidy) (todo : List Nat) (m : Nat) :
    s.SafePhase (s.returnTo todo m k).1.phase ∧ (s.returnTo todo m k).2.Tidy := by
  cases k with
  | publish | batch b => exact ⟨trivial, hs⟩
  | backfill => exact absurd rfl hk

theorem trySend_lossless {full : RefThread × RefState} (hk : k ≠ .backfill) (hs : s.Tidy)
    (hplace : ∀ ch ∈ s.chans[q]?, ch.place = .installed)
    (hfull : s.SafePhase full.1.phase ∧ full.2.Tidy) (h : s.trySend k m q full = some r) :
    s.SafePhase r.1.phase ∧ r.2.Tidy := by
  obtain ⟨ch, hq, rfl⟩ := Option.map_eq_some_iff.mp h
  split
  · exact returnTo_lossless (s := s.setChan q { ch with entries := ch.entries ++ [m] }) hk
      (hs.setChan q (.inl (hplace ch hq))) [] m
  · exact hfull

theorem handleOverflow_lossless (hk : k ≠ .backfill) (hs : s.Tidy)
    (h : s.handleOverflow k m q = some r) : s.SafePhase r.1.phase ∧ r.2.Tidy := by
  unfold handleOverflow at h
  split at h
  · split at h
    · next hq =>
      cases h
      exact ⟨hk, hs.setChan q (.inl (hs.installed hq))⟩
    · cases h
      exact ⟨hk, hs⟩
    · simp at h
  all_goals
    cases h
    exact returnTo_lossless hk hs [m] m

theorem receive_lossless {next : Nat → RefThread} (hs : s.Tidy)
    (hnext : ∀ m, s.SafePhase (next m).phase) (h : s.receive q next = some r) :
    s.SafePhase r.1.phase ∧ r.2.Tidy := by
  unfold receive at h
  split at h
  · next hq =>
    cases h
    exact ⟨hnext _, hs.setChan q (.inl (hs.installed hq))⟩
  · simp at h

theorem phaseStep_lossless (ha : a ≠ .replay)
    (hplace : a = .send ∨ a = .resend → ∀ q ∈ ph.target, ∀ ch ∈ s.chans[q]?,
      ch.place = .installed) (hs : s.Tidy) (hsafe : s.SafePhase ph)
    (h : s.phaseStep ph a = some r) :
    s.SafePhase r.1.phase ∧ r.2.Tidy := by
  unfold phaseStep at h
  split at h
  case h_3 => exact absurd rfl ha
  case h_6 | h_7 =>
    split at h
    · cases h
      exact ⟨⟨by simp, ‹_›⟩, hs.lost, hs.empty⟩
    · simp at h
  case h_8 => exact hsafe.elim
  case h_9 k m idx q =>
    cases h
    simp only [enter, hsafe.2, ↓reduceIte]
    exact ⟨hsafe.1, hs⟩
  case h_10 k m q => exact trySend_lossless hsafe hs (hplace (.inl rfl) q rfl) ⟨hsafe, hs⟩ h
  case h_11 k m q => exact handleOverflow_lossless hsafe hs h
  case h_12 k m q =>
    exact trySend_lossless hsafe hs (hplace (.inr rfl) q rfl) (returnTo_lossless hsafe hs [m] m) h
  case h_16 | h_21 | h_25 =>
    refine receive_lossless hs ?_ h
    exact fun _ => trivial
  case h_22 | h_26 =>
    obtain ⟨u, hu, rfl⟩ := Option.map_eq_some_iff.mp h
    obtain ⟨-, rfl⟩ := returnQueueToPool_eq hu
    exact ⟨trivial, hs.setChan _ (.inr rfl)⟩
  case h_28 => simp at h
  all_goals
    cases h
    exact ⟨trivial, hs.lost, hs.empty⟩

theorem threadStep_lossless (ha : a ≠ .replay)
    (hplace : a = .send ∨ a = .resend → ∀ q ∈ th.phase.target, ∀ ch ∈ s.chans[q]?,
      ch.place = .installed) (hs : s.Tidy) (hsafe : s.SafePhase th.phase)
    (h : s.threadStep th a = some r) : s.SafePhase r.1.phase ∧ r.2.Tidy := by
  unfold threadStep at h
  split at h
  · split at h
    · cases h
      exact ⟨hsafe, hs.lost, hs.empty⟩
    · simp at h
  · exact phaseStep_lossless ha hplace hs hsafe h

theorem step_lossless (s : RefState) (l : RefLabel) (s' : RefState) (hs : s.Lossless)
    (hl : s.Disciplined l) (h : s.step l = some s') : s'.Lossless := by
  have hunlocked : s.readLocked = false → ∀ u : RefState, ∀ th ∈ s.threads,
      u.SafePhase th.phase := by
    intro hfree u th hth
    refine SafePhase.of_unlocked ?_ (hs.safe th hth)
    have hall := List.any_eq_false.mp hfree th hth
    simpa using hall
  cases l with
  | run t a =>
    obtain ⟨th, hth, h⟩ := Option.bind_eq_some_iff.mp h
    obtain ⟨⟨th', u⟩, hstep, rfl⟩ := Option.map_eq_some_iff.mp h
    have ha : a ≠ .replay := by
      rintro rfl
      exact absurd hl.noReplay (by simp [RefLabel.replays])
    have hplace : a = .send ∨ a = .resend → ∀ q ∈ th.phase.target, ∀ ch ∈ s.chans[q]?,
        ch.place = .installed := by
      rintro (rfl | rfl) q hq <;> exact hl.noStaleSend q (by simpa [target, hth] using hq)
    obtain ⟨hthreads, hactive⟩ := threadStep_frame hstep
    obtain ⟨hsafe, htidy⟩ :=
      threadStep_lossless ha hplace hs.toTidy (hs.safe th (List.mem_of_getElem? hth)) hstep
    refine ⟨⟨htidy.lost, htidy.empty⟩, fun x hx => ?_⟩
    rcases List.mem_or_eq_of_mem_set hx with hx | rfl
    · exact (hs.safe x (hthreads ▸ hx)).congr hactive
    · exact hsafe.congr hactive
  | newQueue =>
    cases h
    refine ⟨⟨hs.lost, fun ch hch => ?_⟩, fun th hth => (hs.safe th hth).congr rfl⟩
    rcases List.mem_append.mp hch with hch | hch
    · exact hs.empty ch hch
    · exact .inl (by rw [List.mem_singleton.mp hch])
  | reuse q | gc q =>
    obtain ⟨entries, hq, rfl⟩ := takeFromPool_eq h
    have hempty : entries = [] := (hs.empty _ (List.mem_of_getElem? hq)).resolve_left (by simp)
    exact ⟨hs.toTidy.setChan q (.inr hempty), fun th hth => (hs.safe th hth).congr rfl⟩
  | subscribe | deactivate idx =>
    simp only [step] at h
    split at h
    · simp at h
    · next hfree =>
      cases h
      exact ⟨⟨hs.lost, hs.empty⟩, hunlocked (by simpa using hfree) _⟩

theorem initial_lossless (n queueSize : Nat) (policy : BackpressurePolicy) :
    (initial n queueSize policy).Lossless := by
  refine ⟨⟨rfl, fun _ h => by cases h⟩, fun th hth => ?_⟩
  rw [List.eq_of_mem_replicate hth]
  trivial

/-! ## Conservation -/

/-- All that is outside the goroutines is in the queues. -/
theorem Tidy.shared_eq {s : RefState} (hs : s.Tidy) : s.shared = s.queued := by
  rw [shared, hs.lost, List.append_nil, queued]
  refine List.flatMap_congr fun ch hch => ?_
  rcases hs.empty ch hch with h | h
  · rw [if_pos h]
  · rw [h, ite_self]

theorem Accounted.conserved {s : RefState} (hs : s.Accounted) (htidy : s.Tidy) : s.Conserved := by
  intro m c hc
  have hcell : s.heap.ints[m]? = some ⟨c.ref.toInt, c.parent, c.returned⟩ := by
    rw [RefHeap.getElem?_ints, hc]
    rfl
  have hholders : c.ref.toInt = s.holders m := by
    have hcount := hs.counts m _ hcell
    simp only [htidy.shared_eq, List.count_append] at hcount
    simp only [holders]
    omega
  have hreturned : c.returned = if c.parent = none ∧ c.ref.toInt = 0 then 1 else 0 :=
    hs.returned m _ hcell
  refine ⟨hholders, ?_⟩
  rw [hreturned, hholders]
  simp

theorem Quiet.nothing_alive {s : RefState} (hq : s.Quiet) (hs : s.Accounted) (htidy : s.Tidy) :
    ∀ c ∈ s.heap, ¬ 0 < c.ref := by
  have hnone : s.hands ++ s.shared = [] := by
    have hhands : s.hands = [] := by
      refine List.flatMap_eq_nil_iff.mpr fun th hth => ?_
      rcases hq.1 th hth with rfl | rfl <;> rfl
    rw [hhands, htidy.shared_eq, hq.2]
    rfl
  rw [Accounted, hnone] at hs
  intro c hc
  obtain ⟨m, hm⟩ := List.mem_iff_getElem?.mp hc
  have hzero : c.ref.toInt = 0 := hs.none_alive m ⟨c.ref.toInt, c.parent, c.returned⟩
    (by rw [RefHeap.getElem?_ints, hm]; rfl)
  rw [Int32.lt_iff_toInt_lt, hzero]
  exact Int.lt_irrefl 0

/-- In every run without backfill, stale sends and full counts the counts are
conserved. -/
theorem refs_conserved {n queueSize : Nat} {policy : BackpressurePolicy} {ls : List RefLabel}
    {t : RefState} (hc : Transition.Meets step Disciplined (initial n queueSize policy) ls)
    (hr : Transition.run step (initial n queueSize policy) ls = some t) :
    t.Conserved ∧ (t.Quiet → ∀ c ∈ t.heap, ¬ 0 < c.ref) := by
  have hacc := Transition.run_invariant step_accounted (initial_accounted _ _ _) hc hr
  have htidy := (Transition.run_invariant step_lossless (initial_lossless _ _ _) hc hr).toTidy
  exact ⟨hacc.conserved htidy, fun hq => hq.nothing_alive hacc htidy⟩

/-- The writer of slot 0, goroutine 1, delivers what is in queue 0 and puts the
queue into the pool. -/
def deliver : List RefLabel :=
  [.run 1 (.fetch 0), .run 1 (.pool 0), .run 1 .append, .run 1 .flush, .run 1 .release]

def publishOnce : List RefLabel :=
  [.subscribe, .run 1 .startWriter, .run 0 .publish, .run 0 (.offer 0), .newQueue,
    .run 0 (.enter 0), .run 0 .send, .run 0 .finish, .run 0 .release] ++ deliver

theorem publish_once_conserved :
    Transition.Meets step Disciplined (initial 2 1 .dropOldest) publishOnce ∧
      ∃ t, Transition.run step (initial 2 1 .dropOldest) publishOnce = some t ∧
        t.heap = [⟨0, none, 1⟩] ∧ t.Quiet ∧ t.Conserved ∧
        (t.Quiet → ∀ c ∈ t.heap, ¬ 0 < c.ref) := by
  have hc : Transition.Meets step Disciplined (initial 2 1 .dropOldest) publishOnce := by
    decide +kernel
  have hrun := Transition.run_after (show (Transition.run step (initial 2 1 .dropOldest)
    publishOnce).isSome = true by decide +kernel)
  exact ⟨hc, _, hrun, by decide +kernel, ⟨by decide +kernel, by decide +kernel⟩,
    refs_conserved hc hrun⟩

def replayOnce : List RefLabel :=
  [.subscribe, .run 1 .startWriter, .run 0 .replay, .run 0 (.offer 0), .newQueue,
    .run 0 (.enter 0), .run 0 .send] ++ deliver

/-- The first publisher installs queue 0 and pauses. The second one sends through it,
the writer delivers and puts the queue into the pool; then the first one sends,
and the garbage collector empties the pool. -/
def staleSend : List RefLabel :=
  [.subscribe, .run 1 .startWriter, .run 0 .publish, .run 0 (.offer 0), .newQueue,
    .run 0 (.enter 0), .run 2 .publish, .run 2 (.offer 0), .run 2 (.enter 0), .run 2 .send,
    .run 2 .finish, .run 2 .release] ++ deliver ++
  [.run 0 .send, .run 0 .finish, .run 0 .release, .gc 0]

/-- A replayed message keeps a reference nobody holds, and so does one that is
sent into a pooled queue. -/
theorem replay_leaks_buffer :
    (∃ t, Transition.run step (initial 2 1 .dropOldest) replayOnce = some t ∧ t.Quiet ∧
      t.heap = [⟨1, none, 0⟩]) ∧
    ∃ t, Transition.run step (initial 3 1 .dropOldest) staleSend = some t ∧ t.Quiet ∧
      t.heap = [⟨1, none, 0⟩, ⟨0, none, 1⟩] := by
  refine ⟨⟨_, Transition.run_after (by decide +kernel), ⟨?_, ?_⟩, ?_⟩,
    _, Transition.run_after (by decide +kernel), ⟨?_, ?_⟩, ?_⟩ <;> decide +kernel

end RefState

end Aqueduct.Broker
