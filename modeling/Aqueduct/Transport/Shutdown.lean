import Aqueduct.Lib.TaskGroup
import Aqueduct.Transport.Lifecycle

/-!
Stopping the two listeners: `Broker.Shutdown` and `Broker.Close` of
`internal/transport/broker.go`, `Gateway.Close` of
`internal/webtransport/server.go`. An accept loop starts a goroutine for each
connection and that one a goroutine for each stream, all counted by a wait
group; every step between `Accept`, `Add`, `go`, `HandleStream` and `Done` is a
step of its own, and any number of stop calls run beside them. `Accept`,
`AcceptStream` and `Read` may fail at any time, so nothing here rests on what a
cancelled context does to them. The writers, the backfill workers and the other
listener share the router and are not counted here; they may do anything to it.

The broker counts its accept loop, the gateway does not. After a completed
`Shutdown` none of its goroutines reaches the router (`shutdown_final`). After a
completed `Close` of the gateway this is so exactly if the accept loop holds no
connection at that moment (`close_final_iff`).
-/

namespace Aqueduct.Transport.Shutdown

open ByteStr Aqueduct.Protocol Aqueduct.Broker

/-! ## Goroutines -/

inductive Kind
  | broker
  | gateway
  deriving DecidableEq, Repr

/-- Where a goroutine is. `accepting` and the places up to `acceptReturned` are
those of the accept loop; a goroutine at `returned` has its deferred `Done`
before it. -/
inductive Place
  | accepting
  | accepted (conn : Nat)
  | addedConn (conn : Nat)
  | acceptReturned
  /-- `handleConn` of the gateway before `serveDataStreams`. -/
  | preparing (conn : Nat)
  /-- In `AcceptStream`. -/
  | serving (conn : Nat)
  | opened (stream : Stream)
  | addedStream (stream : Stream)
  /-- In `HandleStream`. -/
  | reading (stream : Stream)
  | returned
  | ended
  deriving DecidableEq, Repr

inductive Act
  | accept (conn : Nat)
  /-- `Accept` returns an error; is it `ErrServerClosed`, is its context done? -/
  | acceptFails (serverClosed ctxDone : Bool)
  | addConn
  | goConn
  | prepare (ok : Bool)
  | acceptStream (streamID : Nat)
  | acceptStreamFails
  | addStream
  | goStream
  | frame (clientID : Bytes) (frame : Frame) (now : Int64)
  /-- The read loop ends and the deferred `Unsubscribe` runs. -/
  | streamEnds
  | done

/-- `Listen` calls `Add(1)` for its accept loop, `ListenAndServe` does not. -/
def Kind.acceptLoop : Kind → Nat
  | .broker => 1
  | .gateway => 0

/-- Where the goroutine of a new connection starts. -/
def Kind.handler : Kind → Nat → Place
  | .broker => .serving
  | .gateway => .preparing

/-- The `Done` calls a goroutine has still to answer for. -/
def Kind.owes (kind : Kind) : Place → Nat
  | .accepting | .accepted _ | .acceptReturned => kind.acceptLoop
  | .addedConn _ => kind.acceptLoop + 1
  | .preparing _ | .serving _ | .opened _ | .reading _ | .returned => 1
  | .addedStream _ => 2
  | .ended => 0

/-! ## Stop calls -/

/-- Where a stop call is. `skipped` has found the flag set, `forced` has run
into the deadline of its context. -/
inductive CallPhase
  | entered
  | won
  | logClosed
  | cancelled
  | waiting
  | drained
  | completed
  | forced
  | skipped
  | returned
  deriving DecidableEq, Repr

inductive StopProc
  | brokerShutdown
  | brokerClose
  | gatewayClose
  deriving DecidableEq, Repr

def StopProc.kind : StopProc → Kind
  | .brokerShutdown | .brokerClose => .broker
  | .gatewayClose => .gateway

structure StopCall where
  proc : StopProc
  phase : CallPhase
  deriving DecidableEq, Repr

/-- A listening server. `pending` are the connections its listener has ready
for `Accept`; they stay ready when the listener is closed. -/
structure Server where
  group : TaskGroup Place
  pending : List Nat
  listening : Bool
  stopped : Bool
  calls : List StopCall

/-- `Shutdown`: the flag, the log, the context, the listener, the wait group. -/
def Server.shutdown (s : Server) : CallPhase → Option (CallPhase × Server)
  | .entered => if s.stopped then some (.skipped, s) else some (.won, { s with stopped := true })
  | .won => some (.logClosed, s)
  | .logClosed => some (.cancelled, s)
  | .cancelled => some (.waiting, { s with listening := false })
  | .waiting => if s.group.counter = 0 then some (.drained, s) else none
  | .drained => some (.completed, s)
  | _ => none

def Server.close (s : Server) : CallPhase → Option (CallPhase × Server)
  | .entered => if s.stopped then some (.skipped, s) else some (.won, { s with stopped := true })
  | .won => some (.cancelled, s)
  | .cancelled => some (.returned, { s with listening := false })
  | _ => none

def Server.closeGateway (s : Server) : CallPhase → Option (CallPhase × Server)
  | .entered => if s.stopped then some (.skipped, s) else some (.won, { s with stopped := true })
  | .won => some (.waiting, { s with listening := false })
  | .waiting => if s.group.counter = 0 then some (.drained, s) else none
  | .drained => some (.completed, s)
  | _ => none

def StopProc.advance (s : Server) : StopProc → CallPhase → Option (CallPhase × Server)
  | .brokerShutdown => s.shutdown
  | .brokerClose => s.close
  | .gatewayClose => s.closeGateway

/-! ## The node -/

/-- A step of a goroutine and what it does to the router. -/
def Place.act (kind : Kind) (s : Server) :
    Place → Act → Option (TaskGroup.Move Place × List StreamEvent)
  | .accepting, .accept conn =>
    if conn ∈ s.pending then some ({ next := .accepted conn }, []) else none
  | .accepting, .acceptFails serverClosed ctxDone =>
    if serverClosed = true ∧ s.listening = true then none
    -- the gateway goes on after an error it has no explanation for
    else if kind = .gateway ∧ s.stopped = false ∧ serverClosed = false ∧ ctxDone = false then
      some ({ next := .accepting }, [])
    else some ({ next := .acceptReturned }, [])
  | .accepted conn, .addConn => some ({ next := .addedConn conn, added := 1 }, [])
  | .addedConn conn, .goConn =>
    some ({ next := .accepting, spawned := [kind.handler conn] }, [])
  | .acceptReturned, .done => some ({ next := .ended, done := kind.acceptLoop }, [])
  | .preparing conn, .prepare ok =>
    some ({ next := if ok then .serving conn else .returned }, [])
  | .serving conn, .acceptStream streamID => some ({ next := .opened ⟨conn, streamID⟩ }, [])
  | .serving _, .acceptStreamFails => some ({ next := .returned }, [])
  | .opened stream, .addStream => some ({ next := .addedStream stream, added := 1 }, [])
  | .addedStream stream, .goStream =>
    some ({ next := .serving stream.conn, spawned := [.reading stream] }, [])
  | .reading stream, .frame clientID frame now =>
    some ({ next := .reading stream }, [.frame stream clientID frame now])
  | .reading stream, .streamEnds => some ({ next := .returned }, [.close stream])
  | .returned, .done => some ({ next := .ended, done := 1 }, [])
  | _, _ => none

def Act.takes (pending : List Nat) : Act → List Nat
  | .accept conn => pending.erase conn
  | _ => pending

structure Node where
  server : Server
  router : Router

inductive Label
  | task (i : Nat) (a : Act)
  /-- The listener has a new connection. -/
  | arrive (conn : Nat)
  | call (proc : StopProc)
  | advance (j : Nat)
  /-- The context of `Shutdown` is done before it sees that all is drained. -/
  | force (j : Nat)
  /-- Something that is not of this server changes the router. -/
  | other (f : Router → Router)

/-- What others do to the router. -/
def Label.byOthers (r : Router) : Label → Router
  | .other f => f r
  | _ => r

namespace Node

def step (b : Transport.Broker) (kind : Kind) (n : Node) : Label → Option Node
  | .task i a => do
    let t ← n.server.group.tasks[i]?
    let (m, es) ← t.act kind n.server a
    return ⟨{ n.server with
      group := n.server.group.move i m
      pending := a.takes n.server.pending }, es.foldl (serve b) n.router⟩
  | .arrive conn =>
    if n.server.listening then
      some { n with server := { n.server with pending := n.server.pending ++ [conn] } }
    else none
  | .call proc =>
    if proc.kind = kind then
      some { n with server := { n.server with calls := n.server.calls ++ [⟨proc, .entered⟩] } }
    else none
  | .advance j => do
    let c ← n.server.calls[j]?
    let (phase, s) ← c.proc.advance n.server c.phase
    return { n with server := { s with calls := s.calls.set j ⟨c.proc, phase⟩ } }
  | .force j => do
    let c ← n.server.calls[j]?
    if c.proc = .brokerShutdown ∧ (c.phase = .waiting ∨ c.phase = .drained) then
      some { n with server :=
        { n.server with calls := n.server.calls.set j ⟨c.proc, .forced⟩ } }
    else none
  | .other f => some { n with router := f n.router }

/-- The node when `Listen` or `ListenAndServe` has returned. -/
def start (kind : Kind) (r : Router) : Node where
  server := ⟨⟨[.accepting], kind.acceptLoop⟩, [], true, false, []⟩
  router := r

/-- Some stop call has waited until the wait group was empty. -/
def Completed (n : Node) : Prop := ∃ c ∈ n.server.calls, c.phase = .completed

/-! ## What a step can do -/

variable {b : Transport.Broker} {kind : Kind} {n n' : Node}

theorem step_task {i : Nat} {a : Act} (h : n.step b kind (.task i a) = some n') :
    ∃ t m es, n.server.group.tasks[i]? = some t ∧ t.act kind n.server a = some (m, es) ∧
      n' = ⟨{ n.server with
        group := n.server.group.move i m
        pending := a.takes n.server.pending }, es.foldl (serve b) n.router⟩ := by
  obtain ⟨t, ht, h⟩ := Option.bind_eq_some_iff.mp h
  obtain ⟨⟨m, es⟩, hact, h⟩ := Option.bind_eq_some_iff.mp h
  exact ⟨t, m, es, ht, hact, (Option.some.inj h).symm⟩

end Node

/-- The goroutine has nothing left to do that could lead to the router. -/
def Place.idle (pending : List Nat) : Place → Bool
  | .accepting => pending.isEmpty
  | .acceptReturned | .returned | .ended => true
  | _ => false

/-- Every step of a goroutine is balanced in the wait group, and an idle one
stays idle and starts nothing. -/
structure Moves (kind : Kind) (s : Server) (t : Place) (a : Act) (m : TaskGroup.Move Place)
    (es : List StreamEvent) : Prop where
  balanced : m.Balanced kind.owes t
  live : t ≠ .ended
  idle : t.idle s.pending = true → m.next.idle s.pending = true ∧ m.spawned = [] ∧ es = [] ∧
    a.takes s.pending = s.pending

theorem Place.act_moves {kind : Kind} {s : Server} {t : Place} {a : Act}
    {m : TaskGroup.Move Place} {es : List StreamEvent} (h : t.act kind s a = some (m, es)) :
    Moves kind s t a m es := by
  cases t <;> cases a <;> simp only [Place.act, reduceCtorEq] at h
  case accepting.accept conn =>
    obtain ⟨hmem, h⟩ := Option.ite_none_right_eq_some.mp h
    cases h
    refine ⟨rfl, nofun, fun hidle => ?_⟩
    rw [List.isEmpty_iff.mp hidle] at hmem
    cases hmem
  case accepting.acceptFails =>
    obtain ⟨-, h⟩ := Option.ite_none_left_eq_some.mp h
    split at h <;> cases h
    · exact ⟨rfl, nofun, fun hidle => ⟨hidle, rfl, rfl, rfl⟩⟩
    · exact ⟨rfl, nofun, fun _ => ⟨rfl, rfl, rfl, rfl⟩⟩
  case addedConn.goConn =>
    cases h
    cases kind <;> exact ⟨rfl, nofun, nofun⟩
  case acceptReturned.done =>
    cases h
    exact ⟨by simp [TaskGroup.Move.Balanced, Kind.owes], nofun, fun _ => ⟨rfl, rfl, rfl, rfl⟩⟩
  case preparing.prepare conn ok =>
    cases h
    cases ok <;> exact ⟨rfl, nofun, nofun⟩
  case returned.done =>
    cases h
    exact ⟨rfl, nofun, fun _ => ⟨rfl, rfl, rfl, rfl⟩⟩
  all_goals
    cases h
    exact ⟨rfl, nofun, nofun⟩

/-- The phases in which a call waits for the goroutines, or has done so. -/
def CallPhase.late : CallPhase → Bool
  | .waiting | .drained | .completed => true
  | _ => false

/-- A stop call sets the flag and closes the listener, and waits with the
listener closed. -/
structure Advanced (s : Server) (phase phase' : CallPhase) (s' : Server) : Prop where
  group : s'.group = s.group
  pending : s'.pending = s.pending
  calls : s'.calls = s.calls
  listening : s.listening = false → s'.listening = false
  late : phase'.late = true → phase.late = true ∨ s'.listening = false
  drained : phase' = .drained → s.group.counter = 0
  completed : phase' = .completed → phase = .drained

theorem StopProc.advance_cases {proc : StopProc} {s s' : Server} {phase phase' : CallPhase}
    (h : proc.advance s phase = some (phase', s')) : Advanced s phase phase' s' := by
  cases proc <;> cases phase <;>
    simp only [advance, Server.shutdown, Server.close, Server.closeGateway, reduceCtorEq] at h
  all_goals
    try split at h
    all_goals cases h
    all_goals constructor <;> simp_all [CallPhase.late]

namespace Node

variable {b : Transport.Broker} {kind : Kind} {n n' : Node}

/-- Every step keeps a closed listener closed and brings a stop call on as
`advance` does. Only goroutines move goroutines, only they and others reach the
router, and behind a closed listener only they take a connection. -/
structure Keeps (l : Label) (n n' : Node) : Prop where
  listening : n.server.listening = false → n'.server.listening = false := by exact fun h => h
  calls : ∀ c ∈ n'.server.calls, c ∈ n.server.calls ∨ c.phase.late = false ∨
    ∃ phase, ⟨c.proc, phase⟩ ∈ n.server.calls ∧ Advanced n.server phase c.phase
      { n'.server with calls := n.server.calls } := by exact fun _ h => .inl h
  group : (∀ i a, l ≠ .task i a) → n'.server.group = n.server.group := by exact fun _ => rfl
  router : (∀ i a, l ≠ .task i a) → n'.router = l.byOthers n.router := by exact fun _ => rfl
  pending : (∀ i a, l ≠ .task i a) → n.server.listening = false →
    n'.server.pending = n.server.pending := by exact fun _ _ => rfl

theorem step_keeps {l : Label} (h : n.step b kind l = some n') : Keeps l n n' := by
  cases l with
  | task i a =>
    obtain ⟨t, m, es, -, -, rfl⟩ := step_task h
    exact { group := fun hl => absurd rfl (hl i a), router := fun hl => absurd rfl (hl i a),
            pending := fun hl => absurd rfl (hl i a) }
  | arrive conn =>
    obtain ⟨hopen, h⟩ := Option.ite_none_right_eq_some.mp h
    cases h
    exact { pending := fun _ hclosed => absurd (hopen.symm.trans hclosed) (by decide) }
  | call proc =>
    obtain ⟨-, h⟩ := Option.ite_none_right_eq_some.mp h
    cases h
    refine { calls := fun c hc => (List.mem_append.mp hc).imp_right fun hc => .inl ?_ }
    rw [List.mem_singleton.mp hc]
    rfl
  | advance j =>
    obtain ⟨c, hc, h⟩ := Option.bind_eq_some_iff.mp h
    obtain ⟨⟨phase, s⟩, hadv, h⟩ := Option.bind_eq_some_iff.mp h
    cases h
    have hcases := StopProc.advance_cases hadv
    refine { listening := hcases.listening, calls := fun d hd => ?_, group := fun _ => hcases.group,
             pending := fun _ _ => hcases.pending }
    rcases List.mem_or_eq_of_mem_set hd with hd | rfl
    · exact .inl (hcases.calls ▸ hd)
    · exact .inr (.inr ⟨c.phase, List.mem_of_getElem? hc, { hcases with calls := rfl }⟩)
  | force j =>
    obtain ⟨c, -, h⟩ := Option.bind_eq_some_iff.mp h
    obtain ⟨-, h⟩ := Option.ite_none_right_eq_some.mp h
    cases h
    refine { calls := fun d hd => ?_ }
    rcases List.mem_or_eq_of_mem_set hd with hd | rfl
    · exact .inl hd
    · exact .inr (.inl rfl)
  | other f =>
    cases h
    exact {}

/-- Along these steps only others change the router. -/
def LeftAlone (n : Node) (ls : List Label) (n' : Node) : Prop :=
  n'.router = ls.foldl Label.byOthers n.router

theorem leftAlone_run {I : Node → Prop}
    (hstep : ∀ m l m', I m → m.step b kind l = some m' → I m' ∧ m'.router = l.byOthers m.router)
    {ls : List Label} (hn : I n) (h : Transition.run (step b kind) n ls = some n') :
    I n' ∧ n.LeftAlone ls n' := by
  induction ls generalizing n with
  | nil =>
    obtain rfl : n = n' := by simpa using h
    exact ⟨hn, rfl⟩
  | cons l ls ih =>
    obtain ⟨m, hm, h⟩ := Option.bind_eq_some_iff.mp h
    obtain ⟨hi, hr⟩ := hstep n l m hn hm
    obtain ⟨hn', hleft⟩ := ih hi h
    refine ⟨hn', ?_⟩
    rw [LeftAlone, hr] at hleft
    exact hleft

/-! ## Shutdown of the broker -/

theorem exact_step {l : Label} (hx : n.server.group.Exact kind.owes)
    (h : n.step b kind l = some n') : n'.server.group.Exact kind.owes := by
  by_cases hl : ∃ i a, l = .task i a
  · obtain ⟨i, a, rfl⟩ := hl
    obtain ⟨t, m, es, ht, hact, rfl⟩ := step_task h
    exact hx.move ht (Place.act_moves hact).balanced
  · rw [(step_keeps h).group fun i a hla => hl ⟨i, a, hla⟩]
    exact hx

def Stopped (n : Node) : Prop := ∀ t ∈ n.server.group.tasks, t = .ended

theorem Stopped.step {l : Label} (hs : n.Stopped) (h : n.step b kind l = some n') :
    n'.server.group = n.server.group ∧ n'.router = l.byOthers n.router := by
  have hl : ∀ i a, l ≠ .task i a := by
    rintro i a rfl
    obtain ⟨t, m, es, ht, hact, -⟩ := step_task h
    exact (Place.act_moves hact).live (hs t (List.mem_of_getElem? ht))
  exact ⟨(step_keeps h).group hl, (step_keeps h).router hl⟩

theorem Stopped.run {ls : List Label} (hs : n.Stopped)
    (h : Transition.run (Node.step b kind) n ls = some n') :
    n'.server.group = n.server.group ∧ n.LeftAlone ls n' := by
  refine leftAlone_run (I := fun m => m.server.group = n.server.group) ?_ rfl h
  intro m l m' hg hstep
  have hm : m.Stopped := by rwa [Stopped, hg]
  obtain ⟨hg', hr⟩ := hm.step hstep
  exact ⟨hg'.trans hg, hr⟩

/-- For the broker an empty wait group means that nothing runs. -/
theorem stopped_of_counter (hx : n.server.group.Exact Kind.broker.owes)
    (h0 : n.server.group.counter = 0) : n.Stopped := by
  intro t ht
  have howes := hx.counter_eq_zero_iff.mp h0 t ht
  cases t <;> first | rfl | cases howes

/-- What holds in every run of the broker. -/
structure Drains (n : Node) : Prop where
  exact : n.server.group.Exact Kind.broker.owes
  drained : ∀ c ∈ n.server.calls, c.phase = .drained ∨ c.phase = .completed → n.Stopped

theorem Drains.step {l : Label} (hd : n.Drains) (h : n.step b .broker l = some n') :
    n'.Drains := by
  refine ⟨exact_step hd.exact h, fun c hc hphase => ?_⟩
  have hstopped : n.Stopped := by
    rcases (step_keeps h).calls c hc with hold | hearly | ⟨phase, hbefore, hadv⟩
    · exact hd.drained c hold hphase
    · rcases hphase with hphase | hphase <;> rw [hphase] at hearly <;> cases hearly
    · rcases hphase with hphase | hphase
      · exact stopped_of_counter hd.exact (hadv.drained hphase)
      · exact hd.drained _ hbefore (.inl (hadv.completed hphase))
  rw [Stopped, (hstopped.step h).1]
  exact hstopped

theorem start_drains (r : Router) : (start .broker r).Drains :=
  ⟨rfl, fun _ hc => by cases hc⟩

/-- **Shutdown is final.** When a `Shutdown` of the broker has completed, every
goroutine of the accept loop, of a connection and of a stream has ended, and
whatever happens afterwards none is started and only others reach the router. -/
theorem shutdown_final (b : Transport.Broker) (r : Router) (ls : List Label)
    (n : Node) (h : Transition.run (step b .broker) (start .broker r) ls = some n)
    (hcompleted : n.Completed) :
    n.Stopped ∧ ∀ ls' n', Transition.run (step b .broker) n ls' = some n' →
      n'.server.group = n.server.group ∧ n.LeftAlone ls' n' := by
  obtain ⟨c, hc, hphase⟩ := hcompleted
  have hdrains : n.Drains :=
    Transition.run_invariant_all (fun _ _ _ => Drains.step) (start_drains r) h
  have hstopped : n.Stopped := hdrains.drained c hc (.inr hphase)
  exact ⟨hstopped, fun ls' n' => hstopped.run⟩

/-- A client subscribes, `Shutdown` is called and waits, and the goroutines end
one after the other. -/
def stopWhileSubscribed : List Label :=
  [.arrive 0, .task 0 (.accept 0), .task 0 .addConn, .task 0 .goConn, .task 1 (.acceptStream 4),
    .task 1 .addStream, .task 1 .goStream,
    .task 2 (.frame (ascii "anonymous") ⟨cmdSubscribe, 4, 7, ascii "topic:a", []⟩ 0),
    .call .brokerShutdown, .advance 0, .advance 0, .advance 0, .advance 0,
    .task 0 (.acceptFails true true), .task 1 .acceptStreamFails, .task 0 .done,
    .task 2 .streamEnds, .task 1 .done, .task 2 .done, .advance 0, .advance 0]

theorem shutdown_ends_subscription :
    let n := Transition.after (step routedBroker .broker) (start .broker newRouter)
      stopWhileSubscribed
    n.router.active = [false] ∧ n.Stopped ∧
      ∀ ls' n', Transition.run (step routedBroker .broker) n ls' = some n' →
        n'.server.group = n.server.group ∧ n.LeftAlone ls' n' := by
  have hrun := Transition.run_after (show (Transition.run (step routedBroker .broker)
    (start .broker newRouter) stopWhileSubscribed).isSome = true by decide)
  exact ⟨by decide, shutdown_final routedBroker newRouter _ _ hrun
    ⟨⟨.brokerShutdown, .completed⟩, by decide, rfl⟩⟩

/-! ## Close of the gateway -/

/-- A stop call waits with the listener closed. -/
def WaitsClosed (n : Node) : Prop :=
  ∀ c ∈ n.server.calls, c.phase.late = true → n.server.listening = false

theorem WaitsClosed.step {l : Label} (hw : n.WaitsClosed) (h : n.step b kind l = some n') :
    n'.WaitsClosed := by
  have hk := step_keeps h
  intro c hc hlate
  rcases hk.calls c hc with hold | hearly | ⟨phase, hbefore, hadv⟩
  · exact hk.listening (hw c hold hlate)
  · rw [hearly] at hlate
    cases hlate
  · exact (hadv.late hlate).elim (fun hold => hk.listening (hw _ hbefore hold)) id

/-- Nobody is on the way to the router, and nobody can come. -/
structure Quiet (n : Node) : Prop where
  closed : n.server.listening = false
  idle : ∀ t ∈ n.server.group.tasks, t.idle n.server.pending = true

theorem Quiet.step {l : Label} (hq : n.Quiet) (h : n.step b kind l = some n') :
    n'.Quiet ∧ n'.router = l.byOthers n.router := by
  have hk := step_keeps h
  have hclosed := hk.listening hq.closed
  by_cases hl : ∃ i a, l = .task i a
  · obtain ⟨i, a, rfl⟩ := hl
    obtain ⟨t, m, es, ht, hact, rfl⟩ := step_task h
    obtain ⟨hnext, hspawned, hes, hpending⟩ :=
      (Place.act_moves hact).idle (hq.idle t (List.mem_of_getElem? ht))
    refine ⟨⟨hclosed, fun u hu => ?_⟩, by rw [hes]; rfl⟩
    dsimp only at hu ⊢
    rw [hpending]
    rcases TaskGroup.mem_move hu with hu | rfl | hu
    · exact hq.idle u hu
    · exact hnext
    · rw [hspawned] at hu
      cases hu
  · have hcall : ∀ i a, l ≠ .task i a := fun i a hla => hl ⟨i, a, hla⟩
    refine ⟨⟨hclosed, ?_⟩, hk.router hcall⟩
    rw [hk.group hcall, hk.pending hcall hq.closed]
    exact hq.idle

/-! ### Goroutines that are on the way -/

/-- In some continuation a goroutine changes the router. -/
def CanChange (b : Transport.Broker) (n : Node) : Prop :=
  ∃ ls n', Transition.run (step b .gateway) n ls = some n' ∧ ¬ n.LeftAlone ls n'

theorem step_of_act {i : Nat} {t : Place} {a : Act} {m : TaskGroup.Move Place}
    {es : List StreamEvent} (ht : n.server.group.tasks[i]? = some t)
    (hact : t.act kind n.server a = some (m, es)) :
    n.step b kind (.task i a) = some ⟨{ n.server with
      group := n.server.group.move i m
      pending := a.takes n.server.pending }, es.foldl (serve b) n.router⟩ := by
  simp only [step, ht, hact, bind, Option.bind_some, pure]

/-- A goroutine whose step is silent can do it first. -/
theorem CanChange.of_act {i : Nat} {t : Place} {a : Act} {m : TaskGroup.Move Place}
    (ht : n.server.group.tasks[i]? = some t) (hact : t.act .gateway n.server a = some (m, []))
    (h : CanChange b ⟨{ n.server with
      group := n.server.group.move i m
      pending := a.takes n.server.pending }, n.router⟩) : CanChange b n := by
  obtain ⟨ls, n', hrun, hne⟩ := h
  refine ⟨.task i a :: ls, n', ?_, hne⟩
  rw [Transition.run_cons, step_of_act ht hact]
  exact hrun

theorem canChange_reading (hb : b.hasRouter = true) {i : Nat} {stream : Stream}
    (ht : n.server.group.tasks[i]? = some (.reading stream)) : CanChange b n := by
  let frame : Frame := ⟨cmdSubscribe, 0, 7, ascii "topic:a", []⟩
  have hstep := step_of_act (b := b) ht
    (show Place.act .gateway n.server (.reading stream) (.frame [] frame 0) = some (_, _) from rfl)
  refine ⟨[.task i (.frame [] frame 0)], _, by rw [Transition.run_cons, hstep]; rfl, ?_⟩
  show serve b n.router (.frame stream [] frame 0) ≠ n.router
  obtain ⟨spec, hspec⟩ : ∃ spec, parseSubscriptionPayload frame.payload = .ok spec := ⟨_, rfl⟩
  have hroute : routeFrame b stream frame [] = [.subscribe stream frame] := by
    have hlocal : handleLocalFrame stream frame [] = some [.subscribe stream frame] :=
      if_pos (by decide)
    rw [routeFrame, if_pos hb, if_neg (by decide), hlocal]
    rfl
  have hserve : serve b n.router (.frame stream [] frame 0) =
      (n.router.subscribe stream frame).1 := by
    rw [serve, hroute]
    rfl
  obtain ⟨_, _, _, _, hreg⟩ := Router.register_frame n.router stream frame.streamID spec
  rw [hserve, Router.subscribe_stages hspec, hreg]
  intro heq
  have hlen := congrArg (fun r => r.streams.length) heq
  simp [Router.appendSlot] at hlen

variable (hb : b.hasRouter = true) {i : Nat}

include hb

theorem canChange_addedStream {stream : Stream}
    (ht : n.server.group.tasks[i]? = some (.addedStream stream)) : CanChange b n :=
  .of_act (a := .goStream) ht rfl (canChange_reading hb (TaskGroup.getElem?_spawned _ _ _ _))

theorem canChange_opened {stream : Stream}
    (ht : n.server.group.tasks[i]? = some (.opened stream)) : CanChange b n :=
  .of_act (a := .addStream) ht rfl (canChange_addedStream hb (TaskGroup.getElem?_move ht _))

theorem canChange_serving {conn : Nat}
    (ht : n.server.group.tasks[i]? = some (.serving conn)) : CanChange b n :=
  .of_act (a := .acceptStream 0) ht rfl (canChange_opened hb (TaskGroup.getElem?_move ht _))

theorem canChange_preparing {conn : Nat}
    (ht : n.server.group.tasks[i]? = some (.preparing conn)) : CanChange b n :=
  .of_act (a := .prepare true) ht rfl (canChange_serving hb (TaskGroup.getElem?_move ht _))

theorem canChange_addedConn {conn : Nat}
    (ht : n.server.group.tasks[i]? = some (.addedConn conn)) : CanChange b n :=
  .of_act (a := .goConn) ht rfl (canChange_preparing hb (TaskGroup.getElem?_spawned _ _ _ _))

theorem canChange_accepted {conn : Nat}
    (ht : n.server.group.tasks[i]? = some (.accepted conn)) : CanChange b n :=
  .of_act (a := .addConn) ht rfl (canChange_addedConn hb (TaskGroup.getElem?_move ht _))

/-- A goroutine that is not idle can get a stream to the router. -/
theorem canChange_of_not_idle {t : Place} (ht : n.server.group.tasks[i]? = some t)
    (hidle : t.idle n.server.pending = false) : CanChange b n := by
  cases t with
  | accepting =>
    obtain ⟨conn, hconn⟩ := List.exists_mem_of_ne_nil n.server.pending fun hnil => by
      rw [Place.idle, hnil] at hidle
      cases hidle
    exact .of_act (a := .accept conn) ht (if_pos hconn)
      (canChange_accepted hb (TaskGroup.getElem?_move ht _))
  | accepted conn => exact canChange_accepted hb ht
  | addedConn conn => exact canChange_addedConn hb ht
  | preparing conn => exact canChange_preparing hb ht
  | serving conn => exact canChange_serving hb ht
  | opened stream => exact canChange_opened hb ht
  | addedStream stream => exact canChange_addedStream hb ht
  | reading stream => exact canChange_reading hb ht
  | acceptReturned | returned | ended => cases hidle

omit hb in
/-- **Close of the gateway.** When a `Close` has completed, the gateway leaves
the router to others from then on exactly if none of its goroutines is on the
way to it: those of streams and connections have returned, and the accept loop
has returned or waits for a connection that cannot come. -/
theorem close_final_iff (b : Transport.Broker) (hb : b.hasRouter = true) (r : Router)
    (ls : List Label) (n : Node)
    (h : Transition.run (step b .gateway) (start .gateway r) ls = some n)
    (hcompleted : n.Completed) :
    (∀ ls' n', Transition.run (step b .gateway) n ls' = some n' → n.LeftAlone ls' n') ↔
      ∀ t ∈ n.server.group.tasks, t.idle n.server.pending = true := by
  have hwaits : n.WaitsClosed := Transition.run_invariant_all (fun _ _ _ => WaitsClosed.step)
    (fun _ hc => by cases hc) h
  constructor
  · intro hsame t ht
    by_contra hidle
    obtain ⟨i, hi⟩ := List.mem_iff_getElem?.mp ht
    obtain ⟨ls', n', hrun, hne⟩ := canChange_of_not_idle hb hi (by simpa using hidle)
    exact hne (hsame ls' n' hrun)
  · intro hidle ls' n' hrun
    obtain ⟨c, hc, hphase⟩ := hcompleted
    have hquiet : n.Quiet := ⟨hwaits c hc (by rw [hphase]; rfl), hidle⟩
    exact (leftAlone_run (fun _ _ _ => Quiet.step) hquiet hrun).2

omit hb in
/-- `Close` completes while the accept loop holds a connection that it has not
counted yet. -/
theorem close_misses_connection :
    let n := Transition.after (step routedBroker .gateway) (start .gateway newRouter)
      [.arrive 0, .task 0 (.accept 0), .call .gatewayClose, .advance 0, .advance 0, .advance 0,
        .advance 0]
    n.server.group.tasks = [.accepted 0] ∧ ¬ ∀ ls' n',
      Transition.run (step routedBroker .gateway) n ls' = some n' → n.LeftAlone ls' n' := by
  refine ⟨by decide, ?_⟩
  rw [close_final_iff routedBroker rfl newRouter _ _ (Transition.run_after (by decide))
    ⟨⟨.gatewayClose, .completed⟩, by decide, rfl⟩]
  decide

end Node

end Aqueduct.Transport.Shutdown
