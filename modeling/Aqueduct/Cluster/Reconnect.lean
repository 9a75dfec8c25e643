import Aqueduct.Lib.Run
import Aqueduct.Lib.TaskGroup
import Mathlib.Logic.Function.Basic

/-!
The goroutines of the peer manager in `internal/cluster/cluster.go`: a
`reconnectLoop` for each ref, and beside the loops any number of `AddPeer`,
`RemovePeer`, `Forward` and `Close` calls. `AddPeer` and `RemovePeer` hold `mu`
over several steps; `Close` sets `closed` before it takes `mu`, and `Forward`
takes no lock but that of one ref. A ref is known by its number, and loop `i`
belongs to ref `i`; `cancelled` and `parentDone` say which contexts are done.

After a completed `Close` no loop runs and `Forward` finds no stream, whatever is
called then (`close_final`).
-/

namespace Aqueduct.Cluster.Reconnect

/-! ## The loop -/

/-- In milliseconds. -/
def initialBackoff : Nat := 250

def maxBackoff : Nat := 30000

/-- Where a `reconnectLoop` is. Behind a successful dial the backoff is the
initial one. -/
inductive Place
  | top (backoff : Nat)
  | checkCtx (backoff : Nat)
  | dialing (backoff : Nat)
  /-- In `waitBackoffOrDone`. -/
  | sleeping (backoff : Nat)
  | opening
  /-- `runPeerStream` has a stream and has not stored it yet. -/
  | opened
  | reading
  /-- Reading failed, the stream is still stored. -/
  | clearing
  | returned
  | ended
  deriving DecidableEq, Repr

inductive LoopAct
  | loadClosed
  | checkCtx
  | dial (ok : Bool)
  | sleepOver
  | ctxDone
  | openStream (ok : Bool)
  | setStream
  | readFails
  | clearStream
  | done
  deriving DecidableEq, Repr

/-- The doubling in `waitBackoffOrDone`. -/
def nextBackoff (backoff : Nat) : Nat := if backoff < maxBackoff then backoff * 2 else backoff

/-- A step of a loop, and what it stores in the `stream` of its ref. -/
def Place.act (closed ctxDone : Bool) :
    Place → LoopAct → Option (TaskGroup.Move Place × Option Bool)
  | .top backoff, .loadClosed =>
    some ({ next := if closed then .returned else .checkCtx backoff }, none)
  | .checkCtx backoff, .checkCtx =>
    some ({ next := if ctxDone then .returned else .dialing backoff }, none)
  | .dialing backoff, .dial ok =>
    some ({ next := if ok then .opening else .sleeping backoff }, none)
  | .sleeping backoff, .sleepOver => some ({ next := .top (nextBackoff backoff) }, none)
  | .sleeping _, .ctxDone => if ctxDone then some ({ next := .returned }, none) else none
  | .opening, .openStream ok =>
    some ({ next := if ok then .opened else .sleeping initialBackoff }, none)
  | .opened, .setStream => some ({ next := .reading }, some true)
  | .reading, .readFails => some ({ next := .clearing }, none)
  | .clearing, .clearStream => some ({ next := .sleeping initialBackoff }, some false)
  | .returned, .done => some ({ next := .ended, done := 1 }, none)
  | _, _ => none

def Place.owes : Place → Nat
  | .ended => 0
  | _ => 1

/-! ## The manager -/

/-- Who holds `mu`, and how far. -/
inductive Holder
  /-- `AddPeer` has passed its checks. -/
  | adding (addr : Nat)
  /-- `AddPeer` has started the loop of the ref. -/
  | added (id : Nat)
  /-- `RemovePeer` has cancelled the loop. -/
  | removing (addr : Nat)
  /-- `RemovePeer` has closed the streams. -/
  | removed (addr : Nat)
  deriving DecidableEq, Repr

inductive ClosePhase
  | entered
  | stored
  /-- The contexts in `addrSet` are cancelled, `mu` is free again. -/
  | swept
  | closing (ids : List Nat)
  | waiting
  | drained
  | completed
  deriving DecidableEq, Repr

/-- A `Forward` call: the refs of its snapshot it has still to visit, and those
whose stream it took. -/
structure ForwardCall where
  todo : List Nat
  taken : List Nat
  deriving DecidableEq, Repr

structure Manager where
  /-- The address of each ref that was ever made. -/
  addrs : List Nat
  loops : TaskGroup Place
  stream : Nat → Bool
  cancelled : Nat → Bool
  parentDone : Bool
  snapshot : List Nat
  addrSet : Nat → Option Nat
  mu : Option Holder
  closed : Bool
  closes : List ClosePhase
  forwards : List ForwardCall

namespace Manager

def empty : Manager where
  addrs := []
  loops := ⟨[], 0⟩
  stream := fun _ => false
  cancelled := fun _ => false
  parentDone := false
  snapshot := []
  addrSet := fun _ => none
  mu := none
  closed := false
  closes := []
  forwards := []

def launch (s : Manager) (addr : Nat) : Manager :=
  { s with
    addrs := s.addrs ++ [addr]
    addrSet := Function.update s.addrSet addr (some s.addrs.length)
    loops := s.loops.spawn (.top initialBackoff) }

def newWithLogger (addrs : List Nat) : Manager :=
  addrs.foldl (fun s addr => { s.launch addr with snapshot := s.snapshot ++ [s.addrs.length] }) empty

def hasAddr (s : Manager) (addr id : Nat) : Bool := s.addrs[id]? = some addr

def closeStep (s : Manager) : ClosePhase → Option (ClosePhase × Manager)
  | .entered => some (.stored, { s with closed := true })
  | .stored =>
    if s.mu = none then
      some (.swept, { s with
        cancelled := fun id =>
          s.cancelled id || (s.addrs[id]?.bind s.addrSet == some id)
        addrSet := fun _ => none })
    else none
  | .swept => some (.closing s.snapshot, s)
  | .closing (id :: ids) => some (.closing ids, { s with stream := Function.update s.stream id false })
  | .closing [] => some (.waiting, s)
  | .waiting => if s.loops.counter = 0 then some (.drained, s) else none
  | .drained => some (.completed, s)
  | .completed => none

/-- The streams after a loop has stored or cleared its own. -/
def store (stream : Nat → Bool) (i : Nat) : Option Bool → Nat → Bool
  | some v => Function.update stream i v
  | none => stream

inductive Label
  | loop (i : Nat) (a : LoopAct)
  | parentDone
  | addPeer (addr : Nat)
  | addGo
  | addStore
  | removePeer (addr : Nat)
  | removeStreams
  | removeStore
  | close
  | closeStep (j : Nat)
  | forward
  | visit (j : Nat)
  deriving DecidableEq, Repr

def step (s : Manager) : Label → Option Manager
  | .loop i a => do
    let t ← s.loops.tasks[i]?
    let (m, w) ← t.act s.closed (s.parentDone || s.cancelled i) a
    return { s with
      loops := s.loops.move i m
      stream := store s.stream i w }
  | .parentDone => some { s with parentDone := true }
  | .addPeer addr =>
    if s.mu ≠ none then none
    -- a call that returns at once leaves no trace
    else if s.closed then some s
    else if (s.addrSet addr).isSome then some s
    else some { s with mu := some (.adding addr) }
  | .addGo =>
    match s.mu with
    | some (.adding addr) => some { s.launch addr with mu := some (.added s.addrs.length) }
    | _ => none
  | .addStore =>
    match s.mu with
    | some (.added id) => some { s with snapshot := s.snapshot ++ [id], mu := none }
    | _ => none
  | .removePeer addr =>
    if s.mu ≠ none then none
    else
      match s.addrSet addr with
      | none => some s
      | some id => some { s with
          cancelled := Function.update s.cancelled id true
          addrSet := Function.update s.addrSet addr none
          mu := some (.removing addr) }
  | .removeStreams =>
    match s.mu with
    | some (.removing addr) => some { s with
        stream := fun id => s.stream id && !(s.snapshot.contains id && s.hasAddr addr id)
        mu := some (.removed addr) }
    | _ => none
  | .removeStore =>
    match s.mu with
    | some (.removed addr) => some { s with
        snapshot := s.snapshot.filter fun id => !s.hasAddr addr id
        mu := none }
    | _ => none
  | .close => some { s with closes := s.closes ++ [.entered] }
  | .closeStep j => do
    let p ← s.closes[j]?
    let (p', s') ← s.closeStep p
    return { s' with closes := s'.closes.set j p' }
  | .forward => some { s with forwards := s.forwards ++ [⟨s.snapshot, []⟩] }
  | .visit j =>
    match s.forwards[j]? with
    | some ⟨id :: todo, taken⟩ => some { s with
        forwards := s.forwards.set j
          ⟨todo, if s.stream id then taken ++ [id] else taken⟩ }
    | _ => none

end Manager

/-! ## What a step can do -/

/-- The places at which the stream of a ref may be stored. -/
def Place.connected : Place → Bool
  | .reading | .clearing => true
  | _ => false

/-- The backoff of the place is the initial one, doubled at most seven times. -/
def Place.Doubled : Place → Prop
  | .top backoff | .checkCtx backoff | .dialing backoff | .sleeping backoff =>
    ∃ k ≤ 7, backoff = initialBackoff * 2 ^ k
  | _ => True

/-- The seventh doubling passes `maxBackoff`, and none follows. -/
theorem nextBackoff_doubled {k : Nat} (hk : k ≤ 7) :
    ∃ k' ≤ 7, nextBackoff (initialBackoff * 2 ^ k) = initialBackoff * 2 ^ k' := by
  unfold nextBackoff
  split
  · next hlt =>
    refine ⟨k + 1, ?_, by rw [Nat.pow_succ, Nat.mul_assoc]⟩
    by_contra hgt
    obtain rfl : k = 7 := by omega
    exact absurd hlt (by decide)
  · exact ⟨k, hk, rfl⟩

structure Moves (t : Place) (m : TaskGroup.Move Place) (w : Option Bool) : Prop where
  balanced : m.Balanced Place.owes t
  spawned : m.spawned = []
  doubled : t.Doubled → m.next.Doubled
  kept : w = none → t.connected = true → m.next.connected = true
  stored : w = some true → m.next.connected = true

theorem Place.act_moves {closed ctxDone : Bool} {t : Place} {a : LoopAct}
    {m : TaskGroup.Move Place} {w : Option Bool} (h : t.act closed ctxDone a = some (m, w)) :
    Moves t m w := by
  have hfirst : ∃ k ≤ 7, initialBackoff = initialBackoff * 2 ^ k := ⟨0, by decide, rfl⟩
  cases t <;> cases a <;> simp only [Place.act, reduceCtorEq] at h
  case top.loadClosed =>
    cases h
    cases closed <;> exact ⟨rfl, rfl, by simp [Place.Doubled], nofun, nofun⟩
  case checkCtx.checkCtx =>
    cases h
    cases ctxDone <;> exact ⟨rfl, rfl, by simp [Place.Doubled], nofun, nofun⟩
  case dialing.dial ok =>
    cases h
    cases ok <;> exact ⟨rfl, rfl, by simp [Place.Doubled], nofun, nofun⟩
  case sleeping.sleepOver =>
    cases h
    refine ⟨rfl, rfl, ?_, nofun, nofun⟩
    rintro ⟨k, hk, rfl⟩
    exact nextBackoff_doubled hk
  case sleeping.ctxDone =>
    obtain ⟨-, h⟩ := Option.ite_none_right_eq_some.mp h
    cases h
    exact ⟨rfl, rfl, fun _ => trivial, nofun, nofun⟩
  case opening.openStream ok =>
    cases h
    cases ok
    · exact ⟨rfl, rfl, fun _ => hfirst, nofun, nofun⟩
    · exact ⟨rfl, rfl, fun _ => trivial, nofun, nofun⟩
  case opened.setStream =>
    cases h
    exact ⟨rfl, rfl, fun _ => trivial, nofun, fun _ => rfl⟩
  case reading.readFails =>
    cases h
    exact ⟨rfl, rfl, fun _ => trivial, fun _ _ => rfl, nofun⟩
  case clearing.clearStream =>
    cases h
    exact ⟨rfl, rfl, fun _ => hfirst, nofun, nofun⟩
  case returned.done =>
    cases h
    exact ⟨rfl, rfl, fun _ => trivial, nofun, nofun⟩

/-- The phases behind the critical section of `Close`. -/
def ClosePhase.late : ClosePhase → Bool
  | .entered | .stored => false
  | _ => true

namespace Manager

variable {s s' : Manager}

theorem step_loop {i : Nat} {a : LoopAct} (h : s.step (.loop i a) = some s') :
    ∃ t m w, s.loops.tasks[i]? = some t ∧ Moves t m w ∧ t ≠ .ended ∧
      s' = { s with
        loops := s.loops.move i m
        stream := store s.stream i w } := by
  obtain ⟨t, ht, h⟩ := Option.bind_eq_some_iff.mp h
  obtain ⟨⟨m, w⟩, hact, h⟩ := Option.bind_eq_some_iff.mp h
  refine ⟨t, m, w, ht, Place.act_moves hact, ?_, (Option.some.inj h).symm⟩
  rintro rfl
  cases hact

theorem update_false_le {f : Nat → Bool} {i j : Nat} (h : Function.update f i false j = true) :
    f j = true := by
  by_cases hij : j = i
  · rw [hij, Function.update_self] at h
    cases h
  · rwa [Function.update_of_ne hij] at h

/-- The streams that `Forward` calls have taken. -/
def taken (s : Manager) : List Nat := s.forwards.flatMap (·.taken)

/-- A `Close` call in phase `q` gets to phase `p`. -/
structure Follows (s : Manager) (q p : ClosePhase) : Prop where
  late : p.late = true → s.closed = true ∧ (q.late = true ∨ s.mu = none) := by
    exact fun _ => ⟨‹_›, .inl rfl⟩
  drained : p = .drained → s.loops.counter = 0 := by exact nofun
  completed : p = .completed → q = .drained := by exact nofun

/-- What every step but `addGo` leaves alone. The loops and their streams are
only moved by the loops. -/
structure Frame (l : Label) (s s' : Manager) : Prop where
  mu : ∀ addr, s'.mu = some (.adding addr) → s.mu = some (.adding addr) ∨ s.closed = false := by
    exact fun _ h => .inl h
  closed : s.closed = true → s'.closed = true := by exact fun h => h
  closes : ∀ p ∈ s'.closes, p ∈ s.closes ∨ p = .entered ∨
    s'.closed = true ∧ ∃ q ∈ s.closes, Follows s q p := by exact fun _ h => .inl h
  loops : (∀ i a, l ≠ .loop i a) → s'.loops = s.loops := by exact fun _ => rfl
  stream : (∀ i a, l ≠ .loop i a) → ∀ i, s'.stream i = true → s.stream i = true := by
    exact fun _ _ h => h
  taken : (∀ i, s.stream i = false) → s'.taken = s.taken := by exact fun _ => rfl

theorem closeStep_frame {j : Nat} (h : s.step (.closeStep j) = some s')
    (hclosed : ∀ p ∈ s.closes, p ≠ .entered → s.closed = true) : Frame (.closeStep j) s s' := by
  obtain ⟨p, hp, h⟩ := Option.bind_eq_some_iff.mp h
  obtain ⟨⟨p', u⟩, hstep, h⟩ := Option.bind_eq_some_iff.mp h
  obtain rfl := Option.some.inj h
  have hmem := List.mem_of_getElem? hp
  have hset : ∀ {v : Manager}, v.closes = s.closes → v.closed = true → Follows s p p' →
      ∀ q ∈ v.closes.set j p', q ∈ s.closes ∨ q = .entered ∨
        v.closed = true ∧ ∃ q' ∈ s.closes, Follows s q' q := by
    intro v hv hc hf q hq
    rcases List.mem_or_eq_of_mem_set hq with hq | rfl
    · exact .inl (hv ▸ hq)
    · exact .inr (.inr ⟨hc, p, hmem, hf⟩)
  cases p with
  | entered =>
    cases hstep
    exact { closed := fun _ => rfl, closes := hset rfl rfl { late := nofun } }
  | stored =>
    have hc := hclosed _ hmem nofun
    obtain ⟨hmu, hstep⟩ := Option.ite_none_right_eq_some.mp hstep
    cases hstep
    exact { closes := hset rfl hc { late := fun _ => ⟨hc, .inr hmu⟩ } }
  | swept =>
    have hc := hclosed _ hmem nofun
    cases hstep
    exact { closes := hset rfl hc {} }
  | closing ids =>
    have hc := hclosed _ hmem nofun
    cases ids with
    | nil =>
      cases hstep
      exact { closes := hset rfl hc {} }
    | cons id ids =>
      cases hstep
      exact { closes := hset rfl hc {}, stream := fun _ i hi => update_false_le hi }
  | waiting =>
    have hc := hclosed _ hmem nofun
    obtain ⟨h0, hstep⟩ := Option.ite_none_right_eq_some.mp hstep
    cases hstep
    exact { closes := hset rfl hc { drained := fun _ => h0 } }
  | drained =>
    have hc := hclosed _ hmem nofun
    cases hstep
    exact { closes := hset rfl hc { completed := fun _ => rfl } }
  | completed => cases hstep

theorem taken_visit {j : Nat} {id : Nat} {todo taken : List Nat}
    (hj : s.forwards[j]? = some ⟨id :: todo, taken⟩) :
    (s.forwards.set j ⟨todo, taken⟩).flatMap (·.taken) = s.taken := by
  unfold Manager.taken
  generalize s.forwards = fs at hj
  induction fs generalizing j with
  | nil => cases hj
  | cons f fs ih =>
    cases j with
    | zero =>
      obtain rfl : f = ⟨id :: todo, taken⟩ := Option.some.inj hj
      rfl
    | succ j =>
      rw [List.set_cons_succ, List.flatMap_cons, List.flatMap_cons, ih hj]

theorem step_frame {l : Label} (h : s.step l = some s') (hl : l ≠ .addGo)
    (hclosed : ∀ p ∈ s.closes, p ≠ .entered → s.closed = true) : Frame l s s' := by
  cases l with
  | loop i a =>
    obtain ⟨t, m, w, -, -, -, rfl⟩ := step_loop h
    exact { loops := fun hne => absurd rfl (hne i a), stream := fun hne => absurd rfl (hne i a) }
  | parentDone =>
    cases h
    exact {}
  | addPeer addr =>
    obtain ⟨-, h⟩ := Option.ite_none_left_eq_some.mp h
    split at h
    · cases h
      exact {}
    split at h
    · cases h
      exact {}
    · next hopen _ =>
      cases h
      exact { mu := fun _ _ => .inr (by simpa using hopen) }
  | addGo => exact absurd rfl hl
  | addStore =>
    simp only [step] at h
    split at h
    · cases h
      exact { mu := nofun }
    · cases h
  | removePeer addr =>
    obtain ⟨-, h⟩ := Option.ite_none_left_eq_some.mp h
    split at h
    · cases h
      exact {}
    · cases h
      exact { mu := nofun }
  | removeStreams =>
    simp only [step] at h
    split at h
    · cases h
      exact { mu := nofun, stream := fun _ i hi => (Bool.and_eq_true_iff.mp hi).1 }
    · cases h
  | removeStore =>
    simp only [step] at h
    split at h
    · cases h
      exact { mu := nofun }
    · cases h
  | close =>
    cases h
    refine { closes := fun p hp => ?_ }
    rcases List.mem_append.mp hp with hp | hp
    · exact .inl hp
    · exact .inr (.inl (List.mem_singleton.mp hp))
  | closeStep j => exact closeStep_frame h hclosed
  | forward =>
    cases h
    exact { taken := fun _ => by simp [taken] }
  | visit j =>
    simp only [step] at h
    split at h
    · next id todo taken hj =>
      cases h
      refine { taken := fun hnone => ?_ }
      show (s.forwards.set j ⟨todo, if s.stream id = true then _ else _⟩).flatMap _ = _
      rw [hnone id, if_neg (by decide)]
      exact taken_visit hj
    · cases h

/-! ## The invariant -/

def Stopped (s : Manager) : Prop := ∀ t ∈ s.loops.tasks, t = .ended

structure Inv (s : Manager) : Prop where
  exact : s.loops.Exact Place.owes
  /-- A stream is stored only as long as its loop reads it. -/
  reader : ∀ i, s.stream i = true → ∃ t, s.loops.tasks[i]? = some t ∧ t.connected = true
  doubled : ∀ t ∈ s.loops.tasks, t.Doubled
  closed : ∀ p ∈ s.closes, p ≠ .entered → s.closed = true
  /-- Behind its critical section no `AddPeer` is past its checks. -/
  swept : ∀ p ∈ s.closes, p.late = true → ∀ addr, s.mu ≠ some (.adding addr)
  drained : ∀ p ∈ s.closes, p = .drained ∨ p = .completed → s.Stopped

namespace Inv

variable (h : s.Inv)

include h

/-- A new ref and its loop, while no `Close` has swept. -/
theorem launch (hlate : ∀ p ∈ s.closes, p.late = false) (addr : Nat) :
    ({ s.launch addr with mu := some (.added s.addrs.length) } : Manager).Inv where
  exact := h.exact.spawn rfl
  reader i hi := by
    obtain ⟨t, ht, hconn⟩ := h.reader i hi
    obtain ⟨hlt, -⟩ := List.getElem?_eq_some_iff.mp ht
    exact ⟨t, (List.getElem?_append_left hlt).trans ht, hconn⟩
  doubled t ht := by
    rcases List.mem_append.mp ht with ht | ht
    · exact h.doubled t ht
    · rw [List.mem_singleton.mp ht]
      exact ⟨0, by decide, rfl⟩
  closed := h.closed
  swept p _ _ addr' hadding := by cases hadding
  drained p hp hphase := by
    have hearly := hlate p hp
    rcases hphase with rfl | rfl <;> cases hearly

/-- An `AddPeer` that starts a loop was let through by every `Close`. -/
theorem addGo (hs : s.step .addGo = some s') : s'.Inv := by
  simp only [Manager.step] at hs
  split at hs
  · next addr hmu =>
    cases hs
    refine h.launch (fun p hp => ?_) addr
    by_contra hlate
    exact h.swept p hp (by simpa using hlate) addr hmu
  · cases hs

theorem stopped_of_counter (h0 : s.loops.counter = 0) : s.Stopped := by
  intro t ht
  have howes := h.exact.counter_eq_zero_iff.mp h0 t ht
  cases t <;> first | rfl | cases howes

/-- A step that starts no loop, for what the loops do not decide. -/
theorem frame {l : Label} (hf : Frame l s s') (hexact : s'.loops.Exact Place.owes)
    (hreader : ∀ i, s'.stream i = true → ∃ t, s'.loops.tasks[i]? = some t ∧ t.connected = true)
    (hdoubled : ∀ t ∈ s'.loops.tasks, t.Doubled) (hstopped : s.Stopped → s'.Stopped) : s'.Inv where
  exact := hexact
  reader := hreader
  doubled := hdoubled
  closed p hp hne := by
    rcases hf.closes p hp with hold | rfl | ⟨hc, -⟩
    · exact hf.closed (h.closed p hold hne)
    · exact absurd rfl hne
    · exact hc
  swept p hp hlate addr hadding := by
    have hmu : s.closed = true → s.mu = some (.adding addr) := fun hc => by
      rcases hf.mu addr hadding with hold | hopen
      · exact hold
      · rw [hopen] at hc
        cases hc
    rcases hf.closes p hp with hold | rfl | ⟨-, q, hq, hfollows⟩
    · exact h.swept p hold hlate addr (hmu (h.closed p hold (by rintro rfl; cases hlate)))
    · cases hlate
    · obtain ⟨hc, hlate' | hnone⟩ := hfollows.late hlate
      · exact h.swept q hq hlate' addr (hmu hc)
      · exact absurd (hnone.symm.trans (hmu hc)) nofun
  drained p hp hphase := by
    rcases hf.closes p hp with hold | rfl | ⟨-, q, hq, hfollows⟩
    · exact hstopped (h.drained p hold hphase)
    · rcases hphase with hphase | hphase <;> cases hphase
    · rcases hphase with hphase | hphase
      · exact hstopped (h.stopped_of_counter (hfollows.drained hphase))
      · exact hstopped (h.drained q hq (.inl (hfollows.completed hphase)))

theorem loop {i : Nat} {a : LoopAct} (hs : s.step (.loop i a) = some s') : s'.Inv := by
  have hf := step_frame hs nofun h.closed
  obtain ⟨t, m, w, ht, hmoves, hlive, rfl⟩ := step_loop hs
  refine h.frame hf (h.exact.move ht hmoves.balanced) ?_ ?_ fun hstopped =>
    absurd (hstopped t (List.mem_of_getElem? ht)) hlive
  · intro j hj
    dsimp only at hj ⊢
    by_cases hij : i = j
    · subst hij
      refine ⟨m.next, TaskGroup.getElem?_move ht m, ?_⟩
      cases w with
      | none =>
        obtain ⟨u, hu, hconn⟩ := h.reader i hj
        obtain rfl : t = u := Option.some.inj (ht.symm.trans hu)
        exact hmoves.kept rfl hconn
      | some v =>
        have hv : v = true := by rwa [store, Function.update_self] at hj
        exact hmoves.stored (by rw [hv])
    · have hold : s.stream j = true := by
        cases w with
        | none => exact hj
        | some v => rwa [store, Function.update_of_ne (Ne.symm hij)] at hj
      obtain ⟨u, hu, hconn⟩ := h.reader j hold
      exact ⟨u, TaskGroup.getElem?_move_ne hij hu m, hconn⟩
  · intro u hu
    rcases TaskGroup.mem_move hu with hu | rfl | hu
    · exact h.doubled u hu
    · exact hmoves.doubled (h.doubled t (List.mem_of_getElem? ht))
    · rw [hmoves.spawned] at hu
      cases hu

theorem step {l : Label} (hs : s.step l = some s') : s'.Inv := by
  by_cases hloop : ∃ i a, l = .loop i a
  · obtain ⟨i, a, rfl⟩ := hloop
    exact h.loop hs
  by_cases hgo : l = .addGo
  · subst hgo
    exact h.addGo hs
  have hf := step_frame hs hgo h.closed
  have hcall : ∀ i a, l ≠ .loop i a := fun i a hl => hloop ⟨i, a, hl⟩
  have hloops := hf.loops hcall
  refine h.frame hf (by rw [hloops]; exact h.exact) ?_
    (by rw [hloops]; exact h.doubled) (by unfold Stopped; rw [hloops]; exact id)
  rw [hloops]
  exact fun i hi => h.reader i (hf.stream hcall i hi)

end Inv

theorem empty_inv : empty.Inv where
  exact := rfl
  reader _ hi := by cases hi
  doubled _ ht := by cases ht
  closed _ hp := by cases hp
  swept _ hp := by cases hp
  drained _ hp := by cases hp

theorem newWithLogger_inv (addrs : List Nat) : (newWithLogger addrs).Inv := by
  have hall : (newWithLogger addrs).Inv ∧ (newWithLogger addrs).mu = none ∧
      (newWithLogger addrs).closes = [] := by
    refine List.foldlRecOn addrs _
      (motive := fun s : Manager => s.Inv ∧ s.mu = none ∧ s.closes = [])
      ⟨empty_inv, rfl, rfl⟩ ?_
    rintro s ⟨h, hmu, hcloses⟩ addr -
    have hlaunch := h.launch (fun p hp => by rw [hcloses] at hp; cases hp) addr
    -- what `addStore` would do
    have hstore : ({ s.launch addr with
        snapshot := s.snapshot ++ [s.addrs.length], mu := none } : Manager).Inv :=
      hlaunch.step (l := .addStore) rfl
    refine ⟨?_, hmu, hcloses⟩
    rwa [← hmu] at hstore
  exact hall.1

theorem run_inv {addrs : List Nat} {ls : List Label}
    (h : Transition.run step (newWithLogger addrs) ls = some s) : s.Inv :=
  Transition.run_invariant_all (fun _ _ _ hu hs => Inv.step hu hs) (newWithLogger_inv addrs) h

/-! ## After Close -/

/-- A completed `Close`, and what it leaves behind. -/
structure Final (s : Manager) : Prop where
  stopped : s.Stopped
  stream : ∀ i, s.stream i = false
  closed : s.closed = true
  mu : ∀ addr, s.mu ≠ some (.adding addr)

theorem Inv.final (h : s.Inv) (hc : .completed ∈ s.closes) : s.Final where
  stopped := h.drained _ hc (.inr rfl)
  stream i := by
    by_contra hi
    obtain ⟨t, ht, hconn⟩ := h.reader i (by simpa using hi)
    rw [h.drained _ hc (.inr rfl) t (List.mem_of_getElem? ht)] at hconn
    cases hconn
  closed := h.closed _ hc nofun
  mu := h.swept _ hc rfl

theorem Final.step (h : s.Final) (hclosed : ∀ p ∈ s.closes, p ≠ .entered → s.closed = true)
    {l : Label} (hs : s.step l = some s') :
    s'.Final ∧ s'.loops = s.loops ∧ s'.taken = s.taken := by
  have hgo : l ≠ .addGo := by
    rintro rfl
    simp only [Manager.step] at hs
    split at hs
    · next addr hmu => exact h.mu addr hmu
    · cases hs
  have hcall : ∀ i a, l ≠ .loop i a := by
    rintro i a rfl
    obtain ⟨t, m, w, ht, -, hlive, -⟩ := step_loop hs
    exact hlive (h.stopped t (List.mem_of_getElem? ht))
  have hf := step_frame hs hgo hclosed
  refine ⟨⟨?_, fun i => ?_, hf.closed h.closed, fun addr hadding => ?_⟩, hf.loops hcall,
    hf.taken h.stream⟩
  · rw [Stopped, hf.loops hcall]
    exact h.stopped
  · by_contra hi
    exact absurd (hf.stream hcall i (by simpa using hi)) (by rw [h.stream i]; decide)
  · rcases hf.mu addr hadding with hold | hopen
    · exact h.mu addr hold
    · exact absurd (h.closed.symm.trans hopen) (by decide)

/-- **Close is final.** When a `Close` has completed, every reconnect loop has
ended and no ref has a stream, and whatever is called afterwards: no loop is
started, no stream is stored and no `Forward` takes one. -/
theorem close_final (addrs : List Nat) (ls : List Label) (s : Manager)
    (h : Transition.run step (newWithLogger addrs) ls = some s) (hc : .completed ∈ s.closes) :
    s.Stopped ∧ ∀ ls' s', Transition.run step s ls' = some s' →
      s'.loops = s.loops ∧ (∀ i, s'.stream i = false) ∧ s'.taken = s.taken := by
  have hinv := run_inv h
  have hfinal := hinv.final hc
  refine ⟨hfinal.stopped, fun ls' s' hrun => ?_⟩
  obtain ⟨-, hf, hloops, htaken⟩ := Transition.run_invariant_all
    (I := fun u => u.Inv ∧ u.Final ∧ u.loops = s.loops ∧ u.taken = s.taken)
    (by
      rintro u l u' ⟨hi, hu, hl, ht⟩ hs
      obtain ⟨hu', hl', ht'⟩ := hu.step hi.closed hs
      exact ⟨hi.step hs, hu', hl'.trans hl, ht'.trans ht⟩) ⟨hinv, hfinal, rfl, rfl⟩ hrun
  exact ⟨hloops, hf.stream, htaken⟩

def closeWhileReading : List Label :=
  [.loop 0 .loadClosed, .loop 0 .checkCtx, .loop 0 (.dial true), .loop 0 (.openStream true),
    .loop 0 .setStream, .forward, .visit 0, .close, .closeStep 0, .closeStep 0, .closeStep 0,
    .closeStep 0, .closeStep 0, .loop 0 .readFails, .loop 0 .clearStream, .loop 0 .ctxDone,
    .loop 0 .done, .closeStep 0, .closeStep 0]

theorem close_while_reading_final :
    let s := Transition.after step (newWithLogger [7]) closeWhileReading
    s.taken = [0] ∧ s.Stopped ∧ ∀ ls' s', Transition.run step s ls' = some s' →
      s'.loops = s.loops ∧ (∀ i, s'.stream i = false) ∧ s'.taken = s.taken := by
  have hrun := Transition.run_after
    (show (Transition.run step (newWithLogger [7]) closeWhileReading).isSome = true by decide)
  exact ⟨by decide, close_final [7] _ _ hrun (by decide)⟩

/-- **Reconnecting.** In every interleaving a ref has a stream only from the
moment its loop stores it until that loop clears it, and a loop waits 250 ms,
doubled at most seven times: up to 32 s, which is past `maxBackoff`. -/
theorem reconnect_loops (addrs : List Nat) (ls : List Label) (s : Manager)
    (h : Transition.run step (newWithLogger addrs) ls = some s) :
    (∀ i, s.stream i = true → s.loops.tasks[i]? = some .reading ∨
      s.loops.tasks[i]? = some .clearing) ∧
      ∀ backoff, .sleeping backoff ∈ s.loops.tasks → ∃ k ≤ 7, backoff = initialBackoff * 2 ^ k := by
  have hinv := run_inv h
  refine ⟨fun i hi => ?_, fun backoff hb => hinv.doubled _ hb⟩
  obtain ⟨t, ht, hconn⟩ := hinv.reader i hi
  cases t with
  | reading => exact .inl ht
  | clearing => exact .inr ht
  | _ => cases hconn

/-- Seven failed dials in a row. -/
def failedDials : List Label :=
  (List.replicate 7 [.loop 0 .loadClosed, .loop 0 .checkCtx, .loop 0 (.dial false),
    .loop 0 .sleepOver]).flatten ++ [.loop 0 .loadClosed, .loop 0 .checkCtx, .loop 0 (.dial false)]

theorem eighth_wait :
    let s := Transition.after step (newWithLogger [7]) failedDials
    s.loops.tasks = [.sleeping 32000] ∧ ∃ k ≤ 7, 32000 = initialBackoff * 2 ^ k := by
  have hrun := Transition.run_after
    (show (Transition.run step (newWithLogger [7]) failedDials).isSome = true by decide)
  have htasks : (Transition.after step (newWithLogger [7]) failedDials).loops.tasks =
      [.sleeping 32000] := by decide
  exact ⟨htasks, (reconnect_loops [7] _ _ hrun).2 32000 (by rw [htasks]; exact List.mem_cons_self)⟩

end Manager

end Aqueduct.Cluster.Reconnect
