import Aqueduct.Lib.Machine
import Aqueduct.Lib.Pooled
import Aqueduct.Broker.Sound

/-!
The priority queues of the subscribers, one call after the other. The code keeps
an array of four channels per slot, takes a channel from a shared pool when a
message first needs one and hands it back once it is empty. `Fifos` says what
this is for: four bounded FIFOs per slot. The calls answer as the FIFOs do,
whatever the pool hands out, and the router model of this development keeps
the FIFOs directly. The wake-up of the writer does not touch the queues and is
left out.
-/

namespace Aqueduct.Broker

open Router Protocol
open scoped List

structure QueueOptions where
  queueSize : Nat
  policy : BackpressurePolicy
  queueSize_pos : 0 < queueSize

namespace QueueOptions

def default : QueueOptions := ⟨defaultQueueSize, .dropOldest, Nat.succ_pos 1023⟩

end QueueOptions

theorem clampLevel_lt (p : UInt8) : (clampLevel p).toNat < 4 := by
  unfold clampLevel
  split
  · decide
  · next h =>
    have hle : p.toNat ≤ priorityLow.toNat := UInt8.le_iff_toNat_le.mp (UInt8.not_lt.mp h)
    exact Nat.lt_succ_of_le hle

/-- The level `enqueueToSubscriber` uses, as an index of the array. -/
def levelOf (p : UInt8) : Fin 4 := ⟨(clampLevel p).toNat, clampLevel_lt p⟩

/-- `fetchNextMessage` polls them in this order. -/
def levels : List (Fin 4) := List.finRange 4

/-- The select with one send and a default. -/
def trySend {α : Type*} (cap : Nat) (q : List α) (msg : α) : Option (List α) :=
  if q.length < cap then some (q ++ [msg]) else none

inductive Call (α : Type*)
  | enqueue (idx : Nat) (msg : α) (p : UInt8)
  | fetch (idx : Nat)
  deriving DecidableEq, Repr

/-- What a call returns, and the messages it released. -/
inductive Answer (α : Type*)
  | enqueued (released : List α) (disconnect : Option Nat)
  | fetched (released : List α) (msg : Option (α × Fin 4))
  deriving DecidableEq, Repr

variable {α : Type*}

/-! ## The queues of the code -/

/-- `r.queues` and `r.queuePool`; the key is a slot and a level. -/
abbrev SubQueues (α : Type*) := Pooled (Nat × Fin 4) α

namespace SubQueues

def handleOverflow (o : QueueOptions) (s : SubQueues α) (idx q : Nat) (msg : α) :
    SubQueues α × List α × Option Nat :=
  match o.policy with
  | .dropOldest =>
    match s.cells q with
    | oldest :: rest =>
      match trySend o.queueSize rest msg with
      | some ms => (s.write q ms, [oldest], none)
      | none => (s.write q rest, [oldest, msg], none)
    | [] =>
      match trySend o.queueSize [] msg with
      | some ms => (s.write q ms, [], none)
      | none => (s, [msg], none)
  | .dropNewest => (s, [msg], none)
  | .disconnect => (s, [msg], some idx)

def sendOrOverflow (o : QueueOptions) (s : SubQueues α) (idx q : Nat) (msg : α) :
    SubQueues α × List α × Option Nat :=
  match trySend o.queueSize (s.cells q) msg with
  | some ms => (s.write q ms, [], none)
  | none => handleOverflow o s idx q msg

/-- `pooled` is the channel the pool hands out if one is needed. -/
def enqueueToSubscriber (o : QueueOptions) (active : Nat → Bool) (s : SubQueues α) (idx : Nat)
    (msg : α) (p : UInt8) (pooled : Option Nat) : SubQueues α × List α × Option Nat :=
  if active idx = false then (s, [], none)
  else
    let (s, q) := s.ensure (idx, levelOf p) pooled
    sendOrOverflow o s idx q msg

/-- Releases what is still in the channel. -/
def returnQueueToPool (s : SubQueues α) (q : Nat) : SubQueues α × List α :=
  ((s.write q []).put q, s.cells q)

def cleanupEmptyQueue (s : SubQueues α) (idx : Nat) (p : Fin 4) (q : Nat) :
    SubQueues α × List α :=
  if s.table (idx, p) = some q ∧ s.cells q = [] then
    returnQueueToPool (s.assign (idx, p) none) q
  else (s, [])

/-- The loop of `fetchNextMessage` over the levels that are left. -/
def fetchLoop (s : SubQueues α) (idx : Nat) :
    List (Fin 4) → SubQueues α × List α × Option (α × Fin 4)
  | [] => (s, [], none)
  | p :: ps =>
    match s.table (idx, p) with
    | none => fetchLoop s idx ps
    | some q =>
      match s.cells q with
      | [] => fetchLoop s idx ps
      | msg :: rest =>
        let s := s.write q rest
        if rest = [] then
          let (s, released) := cleanupEmptyQueue s idx p q
          (s, released, some (msg, p))
        else (s, [], some (msg, p))

def fetchNextMessage (s : SubQueues α) (idx : Nat) :
    SubQueues α × List α × Option (α × Fin 4) :=
  fetchLoop s idx levels

def call (o : QueueOptions) (active : Nat → Bool) (s : SubQueues α) (c : Call α × Option Nat) :
    SubQueues α × Answer α :=
  match c.1 with
  | .enqueue idx msg p =>
    let r := enqueueToSubscriber o active s idx msg p c.2
    (r.1, .enqueued r.2.1 r.2.2)
  | .fetch idx =>
    let r := fetchNextMessage s idx
    (r.1, .fetched r.2.1 r.2.2)

end SubQueues

/-! ## Plain FIFOs -/

/-- The messages waiting for a slot at a level. -/
abbrev Fifos (α : Type*) := Nat × Fin 4 → List α

namespace Fifos

/-- A full FIFO loses its head, or the new message. -/
def enqueue (o : QueueOptions) (active : Nat → Bool) (f : Fifos α) (idx : Nat) (msg : α)
    (p : UInt8) : Fifos α × List α × Option Nat :=
  let k := (idx, levelOf p)
  if active idx = false then (f, [], none)
  else if (f k).length < o.queueSize then (Function.update f k (f k ++ [msg]), [], none)
  else
    match o.policy with
    | .dropOldest =>
      (Function.update f k ((f k).tail ++ [msg]), (f k).head?.toList, none)
    | .dropNewest => (f, [msg], none)
    | .disconnect => (f, [msg], some idx)

/-- The head of the first FIFO that has one. -/
def fetchFrom (f : Fifos α) (idx : Nat) (ps : List (Fin 4)) : Fifos α × Option (α × Fin 4) :=
  match ps.find? fun p => (f (idx, p)).isEmpty = false with
  | none => (f, none)
  | some p =>
    (Function.update f (idx, p) (f (idx, p)).tail, (f (idx, p)).head?.map fun msg => (msg, p))

def fetch (f : Fifos α) (idx : Nat) : Fifos α × Option (α × Fin 4) := f.fetchFrom idx levels

def call (o : QueueOptions) (active : Nat → Bool) (f : Fifos α) : Call α → Fifos α × Answer α
  | .enqueue idx msg p =>
    let r := enqueue o active f idx msg p
    (r.1, .enqueued r.2.1 r.2.2)
  | .fetch idx => ((fetch f idx).1, .fetched [] (fetch f idx).2)

end Fifos

/-! ## The simulation -/

/-- The channels stand for the FIFOs. -/
structure Represents (s : SubQueues α) (f : Fifos α) : Prop where
  wf : s.WF
  contents : s.contents = f

theorem trySend_room {cap : Nat} {q : List α} (h : q.length < cap) (msg : α) :
    trySend cap q msg = some (q ++ [msg]) := if_pos h

theorem trySend_full {cap : Nat} {q : List α} (h : ¬ q.length < cap) (msg : α) :
    trySend cap q msg = none := if_neg h

theorem Represents.write {s : SubQueues α} {f : Fifos α} (h : Represents s f) {k : Nat × Fin 4}
    {q : Nat} (hk : s.table k = some q) (xs : List α) :
    Represents (s.write q xs) (Function.update f k xs) := by
  obtain ⟨hwf, hcontents⟩ := h.wf.write hk xs
  exact ⟨hwf, h.contents ▸ hcontents⟩

theorem Represents.cells {s : SubQueues α} {f : Fifos α} (h : Represents s f) {k : Nat × Fin 4}
    {q : Nat} (hk : s.table k = some q) : s.cells q = f k := by
  rw [← h.contents, Pooled.contents_of_table hk]

/-- Two calls answer alike and leave channels that stand for the FIFOs. -/
def Agree {β : Type*} (r : SubQueues α × β) (r' : Fifos α × β) : Prop :=
  Represents r.1 r'.1 ∧ r.2 = r'.2

theorem handleOverflow_agrees (o : QueueOptions) {s : SubQueues α} {f : Fifos α}
    (h : Represents s f) {idx q : Nat} {p : UInt8} {active : Nat → Bool}
    (hactive : active idx = true) (hk : s.table (idx, levelOf p) = some q)
    (hfull : ¬ (f (idx, levelOf p)).length < o.queueSize)
    (hcap : (f (idx, levelOf p)).length ≤ o.queueSize) (msg : α) :
    Agree (SubQueues.handleOverflow o s idx q msg) (f.enqueue o active idx msg p) := by
  have hcells := h.cells hk
  simp only [Fifos.enqueue, hactive, Bool.true_eq_false, if_false, hfull]
  unfold SubQueues.handleOverflow
  cases o.policy with
  | dropOldest =>
    cases hq : f (idx, levelOf p) with
    | nil => exact absurd o.queueSize_pos (by simpa [hq] using hfull)
    | cons oldest rest =>
      -- Without its head a full FIFO has room again.
      have hroom : rest.length < o.queueSize := by
        rw [hq, List.length_cons] at hcap
        exact hcap
      simp only [hcells, hq, trySend_room hroom]
      exact ⟨h.write hk _, rfl⟩
  | dropNewest => exact ⟨h, rfl⟩
  | disconnect => exact ⟨h, rfl⟩

/-- No FIFO holds more than the size. -/
def Fifos.Bounded (o : QueueOptions) (f : Fifos α) : Prop := ∀ k, (f k).length ≤ o.queueSize

theorem enqueueToSubscriber_agrees (o : QueueOptions) (active : Nat → Bool) {s : SubQueues α}
    {f : Fifos α} (h : Represents s f) (hcap : f.Bounded o) (idx : Nat) (msg : α) (p : UInt8)
    (pooled : Option Nat) :
    Agree (SubQueues.enqueueToSubscriber o active s idx msg p pooled)
      (f.enqueue o active idx msg p) := by
  unfold SubQueues.enqueueToSubscriber
  cases hactive : active idx with
  | false =>
    simp only [Fifos.enqueue, hactive, if_true]
    exact ⟨h, rfl⟩
  | true =>
    obtain ⟨hwf, hk, hcontents⟩ := h.wf.ensure (idx, levelOf p) pooled
    have hrep : Represents (s.ensure (idx, levelOf p) pooled).1 f :=
      ⟨hwf, hcontents.trans h.contents⟩
    simp only [Bool.true_eq_false, if_false, SubQueues.sendOrOverflow, hrep.cells hk]
    by_cases hroom : (f (idx, levelOf p)).length < o.queueSize
    · simp only [trySend_room hroom, Fifos.enqueue, hactive, Bool.true_eq_false, if_false, hroom,
        if_true]
      exact ⟨hrep.write hk _, rfl⟩
    · simp only [trySend_full hroom]
      exact handleOverflow_agrees o hrep hactive hk hroom (hcap _) msg

theorem cleanupEmptyQueue_agrees {s : SubQueues α} {f : Fifos α} (h : Represents s f) (idx : Nat)
    (p : Fin 4) (q : Nat) : Agree (SubQueues.cleanupEmptyQueue s idx p q) (f, []) := by
  unfold SubQueues.cleanupEmptyQueue
  split
  · next hguard =>
    obtain ⟨hk, hempty⟩ := hguard
    obtain ⟨hwf, hcontents⟩ := h.wf.recycle hk hempty
    -- The channel is empty, so draining it releases and changes nothing.
    have hdrain : (s.assign (idx, p) none).write q [] = s.assign (idx, p) none := by
      rw [Pooled.write, Function.update_eq_self_iff.mpr hempty.symm]
    unfold SubQueues.returnQueueToPool
    rw [hdrain]
    exact ⟨⟨hwf, hcontents.trans h.contents⟩, hempty⟩
  · exact ⟨h, rfl⟩

theorem fetchLoop_agrees {s : SubQueues α} {f : Fifos α} (h : Represents s f) (idx : Nat)
    (ps : List (Fin 4)) :
    Represents (SubQueues.fetchLoop s idx ps).1 (f.fetchFrom idx ps).1 ∧
      (SubQueues.fetchLoop s idx ps).2 = ([], (f.fetchFrom idx ps).2) := by
  induction ps with
  | nil => exact ⟨h, rfl⟩
  | cons p ps ih =>
    have hskip : f (idx, p) = [] → f.fetchFrom idx (p :: ps) = f.fetchFrom idx ps := by
      intro hnil
      simp [Fifos.fetchFrom, hnil]
    unfold SubQueues.fetchLoop
    cases hk : s.table (idx, p) with
    | none =>
      rw [hskip (by rw [← h.contents, Pooled.contents_of_none hk])]
      exact ih
    | some q =>
      have hcells := h.cells hk
      cases hf : f (idx, p) with
      | nil =>
        rw [hf] at hcells
        simp only [hcells, hskip hf]
        exact ih
      | cons msg rest =>
        have hfetch : f.fetchFrom idx (p :: ps) =
            (Function.update f (idx, p) rest, some (msg, p)) := by
          simp [Fifos.fetchFrom, hf]
        have hrep := h.write hk rest
        rw [hf] at hcells
        simp only [hcells, hfetch]
        by_cases hrest : rest = []
        · obtain ⟨hclean, hreleased⟩ := cleanupEmptyQueue_agrees hrep idx p q
          simp only [if_pos hrest]
          exact ⟨hclean, congrArg (·, some (msg, p)) hreleased⟩
        · rw [if_neg hrest]
          exact ⟨hrep, rfl⟩

theorem call_agrees (o : QueueOptions) (active : Nat → Bool) {s : SubQueues α} {f : Fifos α}
    (h : Represents s f) (hcap : f.Bounded o) (c : Call α × Option Nat) :
    Agree (SubQueues.call o active s c) (f.call o active c.1) := by
  obtain ⟨c, pooled⟩ := c
  cases c with
  | enqueue idx msg p =>
    obtain ⟨hrep, hans⟩ := enqueueToSubscriber_agrees o active h hcap idx msg p pooled
    refine ⟨hrep, ?_⟩
    simp only [SubQueues.call, Fifos.call, hans]
  | fetch idx =>
    obtain ⟨hrep, hans⟩ := fetchLoop_agrees h idx levels
    refine ⟨hrep, ?_⟩
    simp only [SubQueues.call, SubQueues.fetchNextMessage, hans, Fifos.call]
    rfl

theorem Fifos.Bounded.update {o : QueueOptions} {f : Fifos α} (h : f.Bounded o)
    {k : Nat × Fin 4} {xs : List α} (hxs : xs.length ≤ o.queueSize) :
    Fifos.Bounded o (Function.update f k xs) := by
  intro k'
  by_cases heq : k' = k
  · rw [heq, Function.update_self]
    exact hxs
  · rw [Function.update_of_ne heq]
    exact h k'

theorem Fifos.call_bounded {o : QueueOptions} {active : Nat → Bool} {f : Fifos α}
    (h : f.Bounded o) (c : Call α) : (f.call o active c).1.Bounded o := by
  cases c with
  | enqueue idx msg p =>
    simp only [Fifos.call, Fifos.enqueue]
    split
    · exact h
    split
    · next hroom =>
      refine h.update ?_
      rw [List.length_append, List.length_singleton]
      exact hroom
    cases o.policy with
    | dropOldest =>
      refine h.update ?_
      have hpos := o.queueSize_pos
      have hlen := h (idx, levelOf p)
      rw [List.length_append, List.length_tail, List.length_singleton]
      omega
    | dropNewest => exact h
    | disconnect => exact h
  | fetch idx =>
    simp only [Fifos.call, Fifos.fetch, Fifos.fetchFrom]
    split
    · exact h
    · next p _ =>
      refine h.update ?_
      rw [List.length_tail]
      exact (Nat.sub_le _ 1).trans (h (idx, p))

/-! ## Where every message goes -/

/-- The message a call offers to queue `k`. -/
def offeredTo (active : Nat → Bool) (k : Nat × Fin 4) : Call α → List α
  | .enqueue idx msg p => if active idx = true ∧ (idx, levelOf p) = k then [msg] else []
  | .fetch _ => []

/-- The messages of queue `k` that a call releases or returns. What a fetch
releases would count for all levels of its slot. -/
def leaves (k : Nat × Fin 4) : Call α × Answer α → List α
  | (.enqueue idx _ p, .enqueued released _) => if (idx, levelOf p) = k then released else []
  | (.fetch idx, .fetched released msg) =>
    (if idx = k.1 then released else []) ++
      (match msg with
        | some (m, p) => if (idx, p) = k then [m] else []
        | none => [])
  | _ => []

theorem Fifos.enqueue_perm (o : QueueOptions) {active : Nat → Bool} (f : Fifos α) {idx : Nat}
    (h : active idx = true) (msg : α) (p : UInt8) :
    f (idx, levelOf p) ++ [msg] ~
      (f.enqueue o active idx msg p).2.1 ++ (f.enqueue o active idx msg p).1 (idx, levelOf p) := by
  simp only [Fifos.enqueue, h, Bool.true_eq_false, if_false]
  split
  · simp
  cases o.policy with
  | dropOldest => cases hf : f (idx, levelOf p) <;> simp
  | dropNewest => exact List.perm_append_comm
  | disconnect => exact List.perm_append_comm

theorem Fifos.enqueue_other (o : QueueOptions) (active : Nat → Bool) (f : Fifos α) {idx : Nat}
    (msg : α) {p : UInt8} {k : Nat × Fin 4} (h : (idx, levelOf p) ≠ k) :
    (f.enqueue o active idx msg p).1 k = f k := by
  simp only [Fifos.enqueue]
  split
  · rfl
  split
  · exact Function.update_of_ne (Ne.symm h) _ _
  cases o.policy with
  | dropOldest => exact Function.update_of_ne (Ne.symm h) _ _
  | dropNewest => rfl
  | disconnect => rfl

theorem Fifos.fetch_cases (f : Fifos α) (idx : Nat) :
    f.fetch idx = (f, none) ∨ ∃ p msg rest, f (idx, p) = msg :: rest ∧
      f.fetch idx = (Function.update f (idx, p) rest, some (msg, p)) := by
  unfold Fifos.fetch Fifos.fetchFrom
  split
  · exact .inl rfl
  · next p hp =>
    have hne := List.find?_some hp
    cases hf : f (idx, p) with
    | nil => simp [hf] at hne
    | cons msg rest => exact .inr ⟨p, msg, rest, hf, by simp⟩

theorem Fifos.call_perm (o : QueueOptions) (active : Nat → Bool) (k : Nat × Fin 4) (f : Fifos α)
    (c : Call α) :
    f k ++ offeredTo active k c ~ leaves k (c, (f.call o active c).2) ++ (f.call o active c).1 k := by
  cases c with
  | enqueue idx msg p =>
    by_cases hk : (idx, levelOf p) = k
    · subst hk
      cases hactive : active idx with
      | true => simpa [offeredTo, leaves, Fifos.call, hactive] using f.enqueue_perm o hactive msg p
      | false => simp [offeredTo, leaves, Fifos.call, Fifos.enqueue, hactive]
    · simp [offeredTo, leaves, Fifos.call, hk, f.enqueue_other o active msg hk]
  | fetch idx =>
    rcases f.fetch_cases idx with hf | ⟨p, msg, rest, hp, hf⟩
    · simp [offeredTo, leaves, Fifos.call, hf]
    · by_cases hk : (idx, p) = k
      · subst hk
        simp [offeredTo, leaves, Fifos.call, hf, hp]
      · simp [offeredTo, leaves, Fifos.call, hf, hk, Function.update_of_ne (Ne.symm hk)]

/-! ## Whole runs -/

/-- The channels after the calls, from a router without any. -/
def queuesAfter (o : QueueOptions) (active : Nat → Bool) (calls : List (Call α × Option Nat)) :
    SubQueues α :=
  (Machine.run (SubQueues.call o active) Pooled.empty calls).1

def answers (o : QueueOptions) (active : Nat → Bool) (calls : List (Call α × Option Nat)) :
    List (Answer α) :=
  (Machine.run (SubQueues.call o active) Pooled.empty calls).2

/-- **The queues refine bounded FIFOs.** Whatever channels the pool hands out,
every call answers and releases what four FIFOs per slot would. Of the messages
offered to a queue each one was released by its enqueue or by the one that
pushed it out, was fetched from that slot at that level, or is still there. -/
theorem queues_refine_fifos (o : QueueOptions) (active : Nat → Bool)
    (calls : List (Call α × Option Nat)) :
    answers o active calls =
        (Machine.run (Fifos.call o active) (fun _ => []) (calls.map Prod.fst)).2 ∧
      ∀ k, (calls.map Prod.fst).flatMap (offeredTo active k) ~
        ((calls.map Prod.fst).zip (answers o active calls)).flatMap (leaves k) ++
          (queuesAfter o active calls).contents k := by
  have hempty : Represents (Pooled.empty : SubQueues α) (fun _ => []) ∧
      Fifos.Bounded o (fun _ => ([] : List α)) :=
    ⟨⟨Pooled.empty_wf, rfl⟩, fun _ => Nat.zero_le _⟩
  obtain ⟨⟨hrep, -⟩, hanswers⟩ := Machine.run_simulates (f := Prod.fst)
    (R := fun s f => Represents s f ∧ f.Bounded o)
    (fun s f c h => ⟨⟨(call_agrees o active h.1 h.2 c).1, Fifos.call_bounded h.2 c.1⟩,
      (call_agrees o active h.1 h.2 c).2⟩) hempty calls
  refine ⟨hanswers, fun k => ?_⟩
  have hperm := Machine.run_perm (fun f => f k) (Fifos.call_perm o active k)
    (fun _ => ([] : List α)) (calls.map Prod.fst)
  rw [queuesAfter, hrep.contents, answers, hanswers]
  exact hperm

/-! ## The queues of the router model -/

def Router.fifos (r : Router) : Fifos Message := fun k => r.queueAt k.1 (UInt8.ofNat k.2)

theorem ofNat_levelOf (p : UInt8) : UInt8.ofNat (levelOf p) = clampLevel p := by
  simp [levelOf]

theorem ofNat_eq_clampLevel_iff (l : Fin 4) (p : UInt8) :
    UInt8.ofNat l = clampLevel p ↔ l = levelOf p := by
  have hinj : ∀ a b : Fin 4, UInt8.ofNat a = UInt8.ofNat b → a = b := by decide
  rw [← ofNat_levelOf]
  exact ⟨hinj l _, fun h => h ▸ rfl⟩

/-- The router model keeps a full queue's contents as the FIFOs do. -/
theorem Router.sendOrOverflow_fifos {r : Router} {o : QueueOptions}
    (hsize : o.queueSize = r.queueSize) (hpolicy : o.policy = r.policy) {idx : Nat} {p : UInt8}
    (hlive : r.isActive idx = true) (hcap : (r.fifos (idx, levelOf p)).length ≤ r.queueSize)
    (msg : Message) :
    (r.fifos.enqueue o r.isActive idx msg p).1 = Function.update r.fifos (idx, levelOf p)
        (r.sendOrOverflow idx (r.fifos (idx, levelOf p)) msg).1 ∧
      (r.fifos.enqueue o r.isActive idx msg p).2.2 =
        (r.sendOrOverflow idx (r.fifos (idx, levelOf p)) msg).2.2 := by
  simp only [Fifos.enqueue, hlive, Bool.true_eq_false, if_false, hsize, hpolicy,
    Router.sendOrOverflow]
  split
  · exact ⟨rfl, rfl⟩
  · unfold Router.handleOverflow
    cases r.policy with
    | dropOldest =>
      have hpos := o.queueSize_pos
      have htail : (r.fifos (idx, levelOf p)).tail.length < r.queueSize := by
        rw [List.length_tail]
        omega
      rw [if_pos htail]
      exact ⟨rfl, rfl⟩
    | dropNewest => exact ⟨(Function.update_eq_self _ _).symm, rfl⟩
    | disconnect => exact ⟨(Function.update_eq_self _ _).symm, rfl⟩

/-- The router model's `enqueueToSubscriber` is the one on FIFOs, so what is
proved about its queues holds of the pooled channels. -/
theorem Router.enqueueToSubscriber_fifos {r : Router} (hr : r.Sound) {o : QueueOptions}
    (hsize : o.queueSize = r.queueSize) (hpolicy : o.policy = r.policy) (idx : Nat)
    (msg : Message) (p : UInt8) :
    (r.enqueueToSubscriber idx msg p).1.fifos =
        (r.fifos.enqueue o r.isActive idx msg p).1 ∧
      (r.enqueueToSubscriber idx msg p).2 = (r.fifos.enqueue o r.isActive idx msg p).2.2 := by
  cases hlive : r.isActive idx with
  | false =>
    have hskip : r.enqueueToSubscriber idx msg p = (r, none) := if_pos (.inr hlive)
    simp [hskip, Fifos.enqueue, hlive]
  | true =>
    have hqueue : r.fifos (idx, levelOf p) = r.queueAt idx (clampLevel p) := by
      rw [Router.fifos, ofNat_levelOf]
    obtain ⟨hfifos, hdc⟩ := Router.sendOrOverflow_fifos (p := p) hsize hpolicy hlive
      (hr.capacity _ _) msg
    rw [hfifos, hdc, hqueue]
    refine ⟨?_, by rw [enqueueToSubscriber_live hr hlive]⟩
    funext k
    rw [Router.fifos, enqueue_queueAt hr hlive]
    by_cases hk : k = (idx, levelOf p)
    · rw [hk, Function.update_self, if_pos ⟨rfl, ofNat_levelOf p⟩]
    · rw [Function.update_of_ne hk, if_neg]
      · rfl
      · rintro ⟨hidx, hlevel⟩
        exact hk (Prod.ext hidx ((ofNat_eq_clampLevel_iff k.2 p).mp hlevel))

end Aqueduct.Broker
