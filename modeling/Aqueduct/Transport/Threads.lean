import Aqueduct.Broker.Backfill
import Aqueduct.Lib.Run
import Aqueduct.Transport.Replay
import Mathlib.Logic.Relation

/-!
The broker with a thread for each client frame. A thread logs, numbers and
dispatches in separate steps, and one `Subscribe` with its backfill worker runs
among the threads. A message is known by the client frame it came in and its
place there; `assigned` records the number each message of the topic took, `got`
what entered the queue of the resuming subscriber. No step reads these two.

A thread that runs alone does what the router's calls do, and a worker that
runs alone what `runBackfillWorker` does.
-/

namespace Aqueduct.Transport

open ByteStr Aqueduct.Protocol Aqueduct.Broker Aqueduct.Aal

/-- A message: the number of its client frame, and which message of it. -/
abbrev Tag := Nat × Nat

/-- A record of the log with the number of the client frame it holds. -/
structure LogRecord where
  number : Nat
  raw : Bytes
  deriving DecidableEq, Repr

/-! ## Threads -/

/-- What a thread does without giving way. -/
inductive Op
  | log (raw : Bytes)
  | number (part : Nat) (now : Int64) (pub : Router.Publication)
  | send (part : Nat) (now : Int64) (pub : Router.Publication) (msgOffset : UInt64)
  | batch (now : Int64) (frame : Frame)
  | forwardBatch (frame : Frame)
  /-- One of the slow consumers a dispatch found is disconnected. -/
  | disconnectSlow
  | subscribe (stream : Stream) (frame : Frame)
  | ackOffset (consumerID topic : Bytes) (offset : UInt64)
  | nackByStream (streamID : UInt32) (offset : UInt64)

structure Thread where
  number : Nat
  todo : List Op
  slow : List Nat

def callOps (now : Int64) : Call → List Op
  | .subscribe stream frame => [.subscribe stream frame]
  | .publishWithClientID frame clientID =>
    [.number 0 now (.client clientID frame), .disconnectSlow]
  | .publishFromPeer frame => [.number 0 now (.peer frame), .disconnectSlow]
  | .publishBatch frame => [.batch now frame]
  | .ackOffset consumerID topic offset => [.ackOffset consumerID topic offset]
  | .nackByStream streamID offset => [.nackByStream streamID offset]
  | .handler _ => []

/-- A sub-frame of a batch and its place. -/
def batchOp (now : Int64) (p : Bytes × Nat) : Option Op :=
  match parseFrame p.1 with
  | .ok frame => some (.number p.2 now (.batched p.1 frame))
  | .error _ => none

def batchOps (now : Int64) (payload : Bytes) : List Op :=
  (batchFrames payload).zipIdx.filterMap (batchOp now)

/-! ## The system -/

/-- Where the worker is in the log, and its `currentMsgOffset`. -/
structure Cursor where
  pos : Nat
  currentMsgOffset : UInt64
  deriving DecidableEq, Repr

/-- The `Subscribe` call of the resuming subscriber. -/
inductive ResumePhase
  | idle
  | registered (idx : Nat) (startOffset : UInt64)
  /-- The latest offset has been read; the worker runs, or has ended. -/
  | resumed (w : Backfill) (cursor : Option Cursor)

def ResumePhase.slot : ResumePhase → Option Nat
  | .idle => none
  | .registered idx _ => some idx
  | .resumed w _ => some w.idx

structure Setup where
  broker : Broker
  aead : Option Aead
  spec : SubscriptionSpec

structure Resume where
  router : Router
  log : List LogRecord
  threads : List Thread
  arrived : Nat
  phase : ResumePhase
  assigned : List (Tag × UInt64)
  got : List (Tag × UInt64)

inductive ResumeEvent
  | arrive (ev : Incoming)
  | thread (i : Nat)
  | register (stream : Stream) (streamID : UInt32)
  | readLatest
  /-- The worker handles a record. -/
  | backfill (now : Int64)
  /-- The worker finds the end of the file. -/
  | backfillEnd
  /-- A step of another goroutine of the router. -/
  | router (a : Router.Action)

namespace Resume

def fresh (o : Router.Options) : Resume := ⟨Router.newRouterWith o, [], [], 0, .idle, [], []⟩

/-- What the resuming subscriber gets when the router goes on to `r`. -/
def seen (s : Resume) (r : Router) (tag : Tag) : List (Tag × UInt64) :=
  match s.phase.slot with
  | none => []
  | some idx => (Router.received s.router r idx).map fun m => (tag, m.offset)

def setThread (s : Resume) (i : Nat) (th : Thread) : Resume :=
  { s with threads := s.threads.set i th }

variable (c : Setup)

/-- Thread `i` does `op` and has `rest` left to do. -/
def exec (s : Resume) (i : Nat) (th : Thread) (rest : List Op) : Op → Resume
  | .log raw =>
    { s.setThread i { th with todo := rest } with log := s.log ++ [⟨th.number, raw⟩] }
  | .number part now pub =>
    match pub.number now s.router with
    | (r, none) => { s.setThread i { th with todo := rest } with router := r }
    | (r, some msgOffset) =>
      { s.setThread i { th with todo := .send part now pub msgOffset :: rest } with
        router := r
        assigned := s.assigned ++
          if pub.topic now = c.spec.topic then [((th.number, part), msgOffset)] else [] }
  | .send part now pub msgOffset =>
    let (r, dcs) := pub.send now s.router msgOffset
    { s.setThread i { th with todo := rest, slow := th.slow ++ dcs } with
      router := r
      got := s.got ++ s.seen r (th.number, part) }
  | .batch now frame =>
    if frame.payloadLen > maxPayloadSize then s.setThread i { th with todo := rest }
    else
      -- whether there are peers is asked once, before the first message
      let forward : List Op := if 0 < s.router.activePeers then [.forwardBatch frame] else []
      let todo := batchOps now frame.payload ++ .disconnectSlow :: forward
      s.setThread i { th with todo := todo ++ rest }
  | .forwardBatch frame =>
    { s.setThread i { th with todo := rest } with
      router := s.router.forward ((s.router.compressedBuf frame).getD (Router.batchBuf frame)) }
  | .disconnectSlow =>
    match th.slow with
    | [] => s.setThread i { th with todo := rest }
    | idx :: slow =>
      { s.setThread i { th with slow := slow } with router := s.router.disconnectSubscriber idx }
  | .subscribe stream frame =>
    { s.setThread i { th with todo := rest } with router := (s.router.subscribe stream frame).1 }
  | .ackOffset consumerID topic offset =>
    { s.setThread i { th with todo := rest } with
      router := s.router.ackOffset consumerID topic offset }
  | .nackByStream streamID offset =>
    { s.setThread i { th with todo := rest } with router := s.router.nackByStream streamID offset }

/-- What the goroutines behind the router do on their own: streams end, writers
fetch, other workers enqueue for other slots. -/
def internal (slot : Option Nat) : Router.Action → Bool
  | .unsubscribe _ | .disconnect _ | .fetch _ _ | .drain _ | .peers _ => true
  | .backfill idx _ => slot ≠ some idx
  | _ => false

def step (s : Resume) : ResumeEvent → Option Resume
  | .arrive ev =>
    match prepareFrame c.broker ev.clientID ev.unread ev.total with
    | (.ready frame _ _ logged, _) =>
      let todo := logged.map Op.log ++
        (routeFrame c.broker ev.stream frame ev.clientID).flatMap (callOps ev.now)
      some { s with threads := s.threads ++ [⟨s.arrived, todo, []⟩], arrived := s.arrived + 1 }
    | _ => some s
  | .thread i =>
    (s.threads[i]?).bind fun th =>
      match th.todo with
      | [] => none
      | op :: rest => some (s.exec c i th rest op)
  | .register stream streamID =>
    match s.phase with
    | .idle =>
      let (r, startOffset) := s.router.register stream streamID c.spec
      some { s with router := r, phase := .registered s.router.streamIDs.length startOffset }
    | _ => none
  | .readLatest =>
    match s.phase with
    | .registered idx startOffset =>
      let w := ⟨c.spec.topic, c.spec.consumerID, startOffset, s.router.getTopicOffset c.spec.topic,
        idx⟩
      let cursor := (s.router.startBackfill c.spec idx startOffset).map fun _ => ⟨0, 0⟩
      some { s with phase := .resumed w cursor }
    | _ => none
  | .backfill now =>
    match s.phase with
    | .resumed w (some cur) =>
      (s.log[cur.pos]?).bind fun rec =>
        -- a record that does not fit the read buffer is never complete
        if recordLen c.aead rec.raw > replayBufSize then none
        else
          match Router.backfillRecord now (s.router.cancels.getD w.idx false) w
            (s.router, cur.currentMsgOffset) rec.raw with
          | ((r, current), none) =>
            some { s with
              router := r
              phase := .resumed w (some ⟨cur.pos + 1, current⟩)
              got := s.got ++ s.seen r (rec.number, 0) }
          | (_, some _) => some { s with phase := .resumed w none }
    | _ => none
  | .backfillEnd =>
    match s.phase with
    | .resumed w (some cur) =>
      if cur.pos = s.log.length then some { s with phase := .resumed w none } else none
    | _ => none
  | .router a =>
    if internal s.phase.slot a then some { s with router := s.router.act a } else none

/-! ## A thread alone -/

def Alone (i : Nat) : Resume → Resume → Prop :=
  Relation.ReflTransGen fun s t => s.step c (.thread i) = some t

/-- Alone, the thread gets to the router `r` and is `th` then. -/
def AloneTo (i : Nat) (s : Resume) (r : Router) (th : Thread) : Prop :=
  ∃ t, Alone c i s t ∧ t.router = r ∧ t.threads[i]? = some th

variable {c} {i n : Nat}

theorem AloneTo.refl {s : Resume} {th : Thread} (h : s.threads[i]? = some th) :
    AloneTo c i s s.router th :=
  ⟨s, .refl, rfl, h⟩

theorem AloneTo.trans {s : Resume} {r r' : Router} {th th' : Thread} (h : AloneTo c i s r th)
    (h' : ∀ t : Resume, t.router = r → t.threads[i]? = some th → AloneTo c i t r' th') :
    AloneTo c i s r' th' := by
  obtain ⟨t, hst, hr, hth⟩ := h
  obtain ⟨u, htu, hr', hth'⟩ := h' t hr hth
  exact ⟨u, hst.trans htu, hr', hth'⟩

theorem aloneTo_exec {s : Resume} {op : Op} {rest : List Op} {slow : List Nat}
    (h : s.threads[i]? = some ⟨n, op :: rest, slow⟩) {r : Router} {th : Thread}
    (hr : (s.exec c i ⟨n, op :: rest, slow⟩ rest op).router = r)
    (hth : (s.exec c i ⟨n, op :: rest, slow⟩ rest op).threads = s.threads.set i th) :
    AloneTo c i s r th := by
  refine ⟨_, .single ?_, hr, ?_⟩
  · rw [step, h]
    rfl
  · rw [hth, List.getElem?_set_self (List.getElem?_eq_some_iff.mp h).1]

theorem aloneTo_publication {s : Resume} {part : Nat} {now : Int64} {pub : Router.Publication}
    {rest : List Op} {slow : List Nat}
    (h : s.threads[i]? = some ⟨n, .number part now pub :: rest, slow⟩) :
    AloneTo c i s (pub.both now s.router).1 ⟨n, rest, slow ++ (pub.both now s.router).2⟩ := by
  rw [Router.Publication.both]
  cases hnumber : pub.number now s.router with
  | mk r msgOffset =>
    cases msgOffset with
    | none =>
      rw [List.append_nil]
      refine aloneTo_exec h ?_ ?_
      · rw [exec, hnumber]
      · rw [exec, hnumber]
        rfl
    | some msgOffset =>
      have hfirst : AloneTo c i s r ⟨n, .send part now pub msgOffset :: rest, slow⟩ := by
        refine aloneTo_exec h ?_ ?_
        · rw [exec, hnumber]
        · rw [exec, hnumber]
          rfl
      refine hfirst.trans fun t ht hth => ?_
      subst ht
      exact aloneTo_exec hth rfl rfl

theorem aloneTo_disconnect {s : Resume} {rest : List Op} {slow : List Nat}
    (h : s.threads[i]? = some ⟨n, .disconnectSlow :: rest, slow⟩) :
    AloneTo c i s (Router.disconnectAll (s.router, slow)) ⟨n, rest, []⟩ := by
  induction slow generalizing s with
  | nil => exact aloneTo_exec h rfl rfl
  | cons idx slow ih =>
    have hfirst : AloneTo c i s (s.router.disconnectSubscriber idx)
        ⟨n, .disconnectSlow :: rest, slow⟩ :=
      aloneTo_exec h rfl rfl
    refine hfirst.trans fun t ht hth => ?_
    have hrest := ih hth
    rw [ht] at hrest
    exact hrest

theorem aloneTo_batch {s : Resume} {now : Int64} (subs : List (Bytes × Nat)) {rest : List Op}
    {slow : List Nat} (h : s.threads[i]? = some ⟨n, subs.filterMap (batchOp now) ++ rest, slow⟩) :
    AloneTo c i s ((subs.map (·.1)).foldl (Router.publishSub now) (s.router, slow)).1
      ⟨n, rest, ((subs.map (·.1)).foldl (Router.publishSub now) (s.router, slow)).2⟩ := by
  induction subs generalizing s slow with
  | nil => exact .refl h
  | cons p subs ih =>
    rw [List.map_cons, List.foldl_cons]
    rw [List.filterMap_cons, batchOp] at h
    cases hparse : parseFrame p.1 with
    | error e =>
      rw [hparse] at h
      have hsub : Router.publishSub now (s.router, slow) p.1 = (s.router, slow) := by
        rw [Router.publishSub, hparse]
      rw [hsub]
      exact ih h
    | ok frame =>
      rw [hparse] at h
      rw [Router.publishSub_both hparse]
      refine (aloneTo_publication h).trans fun t ht hth => ?_
      have hrest := ih hth
      rw [ht] at hrest
      exact hrest

/-- Alone, a thread does what the router's functions do. -/
theorem aloneTo_call {s : Resume} {now : Int64} (call : Call) {rest : List Op}
    (h : s.threads[i]? = some ⟨n, callOps now call ++ rest, []⟩) :
    AloneTo c i s (call.apply now s.router) ⟨n, rest, []⟩ := by
  have hpublish : ∀ pub : Router.Publication,
      s.threads[i]? = some ⟨n, [.number 0 now pub, .disconnectSlow] ++ rest, []⟩ →
      AloneTo c i s (Router.disconnectAll (pub.both now s.router)) ⟨n, rest, []⟩ := by
    intro pub h
    refine (aloneTo_publication h).trans fun t ht hth => ?_
    have hrest := aloneTo_disconnect (c := c) hth
    rw [ht] at hrest
    exact hrest
  cases call with
  | subscribe stream frame => exact aloneTo_exec h rfl rfl
  | publishWithClientID frame clientID =>
    rw [Call.apply, Router.publishWithClientID_both]
    exact hpublish _ h
  | publishFromPeer frame =>
    rw [Call.apply, Router.publishFromPeer_both]
    exact hpublish _ h
  | publishBatch frame =>
    rw [Call.apply, Router.publishBatch]
    by_cases hlarge : frame.payloadLen > maxPayloadSize
    · rw [if_pos hlarge]
      refine aloneTo_exec h ?_ ?_
      all_goals
        rw [exec, if_pos hlarge]
        rfl
    · rw [if_neg hlarge]
      have hfirst : AloneTo c i s s.router ⟨n, batchOps now frame.payload ++ .disconnectSlow ::
          (if 0 < s.router.activePeers then [.forwardBatch frame] else []) ++ rest, []⟩ := by
        refine aloneTo_exec h ?_ ?_
        all_goals
          rw [exec, if_neg hlarge]
          rfl
      refine hfirst.trans fun t ht hth => ?_
      rw [List.append_assoc] at hth
      have hbatch := aloneTo_batch (c := c) _ hth
      rw [List.zipIdx_map_fst, ht] at hbatch
      refine hbatch.trans fun u hu huth => ?_
      have hslow := aloneTo_disconnect (c := c) huth
      rw [hu] at hslow
      by_cases hpeers : 0 < s.router.activePeers
      · simp only [hpeers, decide_true, if_true] at hslow ⊢
        refine hslow.trans fun v hv hvth => ?_
        refine aloneTo_exec hvth ?_ rfl
        exact congrArg
          (fun r : Router => r.forward ((r.compressedBuf frame).getD (Router.batchBuf frame))) hv
      · simp only [hpeers, decide_false, if_false] at hslow ⊢
        exact hslow
  | ackOffset consumerID topic offset => exact aloneTo_exec h rfl rfl
  | nackByStream streamID offset => exact aloneTo_exec h rfl rfl
  | handler frame => exact .refl h

theorem aloneTo_calls {s : Resume} {now : Int64} (calls : List Call)
    (h : s.threads[i]? = some ⟨n, calls.flatMap (callOps now), []⟩) :
    AloneTo c i s (calls.foldl (Call.apply now) s.router) ⟨n, [], []⟩ := by
  induction calls generalizing s with
  | nil => exact .refl h
  | cons call calls ih =>
    refine (aloneTo_call call h).trans fun t ht hth => ?_
    have hrest := ih hth
    rw [ht] at hrest
    exact hrest

/-! ## The worker alone -/

/-- A step of a worker that has not been cancelled. -/
theorem step_backfill {s t : Resume} {w : Backfill} {cur : Cursor}
    (hp : s.phase = .resumed w (some cur)) (hcancel : s.router.cancels.getD w.idx false = false)
    {now : Int64} (h : s.step c (.backfill now) = some t) :
    ∃ rec current, s.log[cur.pos]? = some rec ∧ t.log = s.log ∧
      t.phase = .resumed w (some ⟨cur.pos + 1, current⟩) ∧
      Router.backfillRecord now false w (s.router, cur.currentMsgOffset) rec.raw =
        ((t.router, current), none) := by
  rw [step, hp] at h
  dsimp only at h
  obtain ⟨rec, hrec, h⟩ := Option.bind_eq_some_iff.mp h
  rw [hcancel] at h
  have hok := Router.backfillRecord_ok now w (s.router, cur.currentMsgOffset) rec.raw
  generalize heq : Router.backfillRecord now false w (s.router, cur.currentMsgOffset) rec.raw = x
    at h hok
  obtain ⟨⟨r, current⟩, fault⟩ := x
  cases hok
  split at h
  · cases h
  · cases h
    exact ⟨rec, current, hrec, rfl, rfl, heq⟩

/-- A worker that is not interrupted goes through the records as the callback
of `runBackfillWorker` does. -/
theorem worker_alone (clock : Nat → Int64) (k : Nat) {s t : Resume} {w : Backfill} {cur : Cursor}
    (hp : s.phase = .resumed w (some cur))
    (hmeets : Transition.Meets (step c) (fun s _ => s.router.cancels.getD w.idx false = false) s
      ((List.range' cur.pos k).map fun j => .backfill (clock j)))
    (hrun : Transition.run (step c) s
      ((List.range' cur.pos k).map fun j => .backfill (clock j)) = some t) :
    ∃ current, t.phase = .resumed w (some ⟨cur.pos + k, current⟩) ∧
      handleAll (Router.backfillHandler clock (fun _ => false) w)
        ((s.router, cur.currentMsgOffset), cur.pos) (((s.log.drop cur.pos).take k).map (·.raw)) =
        ((t.router, current), cur.pos + k) := by
  induction k generalizing s cur with
  | zero =>
    cases hrun
    exact ⟨_, hp, rfl⟩
  | succ k ih =>
    rw [List.range'_succ, List.map_cons] at hmeets hrun
    obtain ⟨u, hu, hrun⟩ := Option.bind_eq_some_iff.mp hrun
    obtain ⟨rec, current, hrec, hlog, hphase, heq⟩ := step_backfill hp hmeets.1 hu
    obtain ⟨last, hlast, hall⟩ := ih hphase (hmeets.2 u hu) hrun
    refine ⟨last, ?_, ?_⟩
    · rw [hlast, Nat.add_assoc, Nat.add_comm 1]
    · obtain ⟨hlt, rfl⟩ := List.getElem?_eq_some_iff.mp hrec
      have hcall : (Router.backfillHandler clock (fun _ => false) w
          ((s.router, cur.currentMsgOffset), cur.pos) s.log[cur.pos].raw).1 =
          ((u.router, current), cur.pos + 1) := by
        rw [Router.backfillHandler]
        dsimp only
        rw [heq]
      rw [List.drop_eq_getElem_cons hlt, List.take_succ_cons, List.map_cons, handleAll,
        List.foldl_cons, hcall]
      rw [hlog] at hall
      refine hall.trans ?_
      rw [Nat.add_assoc, Nat.add_comm 1]

/-- Over the file of the log it ends where `runBackfillWorker` ends. -/
theorem runBackfillWorker_alone {newGCM : Bytes → Aead} {key : Bytes}
    (hgcm : cipherFor newGCM key = .ok c.aead) (clock : Nat → Int64) {s t : Resume} {w : Backfill}
    (hp : s.phase = .resumed w (some ⟨0, 0⟩)) (hpath : s.router.aalPath ≠ [])
    (hmeets : Transition.Meets (step c) (fun s _ => s.router.cancels.getD w.idx false = false) s
      ((List.range' 0 s.log.length).map fun j => .backfill (clock j)))
    (hrun : Transition.run (step c) s
      ((List.range' 0 s.log.length).map fun j => .backfill (clock j)) = some t)
    {items : List (Bytes × Bytes)} (hraw : items.map (·.2) = s.log.map (·.raw))
    (hitems : ∀ p ∈ items, (recordCutter c.aead).Whole p.1 (some p.2) ∧
      p.1.length ≤ replayBufSize) (pick : Nat → Nat) {fuel : Nat}
    (hfuel : (items.map (·.1)).flatten.length < fuel) :
    ∃ current, t.phase = .resumed w (some ⟨s.log.length, current⟩) ∧
      Router.runBackfillWorker newGCM key clock (fun _ => false) w pick fuel
          (some (items.map (·.1)).flatten) s.router =
        some ⟨((t.router, current), s.log.length), s.log.length, none⟩ := by
  obtain ⟨current, hphase, hall⟩ := worker_alone clock s.log.length hp hmeets hrun
  have hlen : items.length = s.log.length := by
    simpa using congrArg List.length hraw
  rw [Nat.zero_add] at hphase hall
  rw [List.drop_zero, List.take_length, ← hraw] at hall
  refine ⟨current, hphase, ?_⟩
  rw [Router.runBackfillWorker_records hgcm hitems clock (fun _ => rfl) w pick hfuel hpath, hall,
    hlen]

end Resume

end Aqueduct.Transport
