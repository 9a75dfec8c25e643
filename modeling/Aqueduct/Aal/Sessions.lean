import Mathlib.Data.List.Nodup
import Mathlib.Data.List.Perm.Basic
import Aqueduct.Aal
import Aqueduct.Lib.Run

/-!
The nonces of all sessions under one key. Every `OpenEncrypted` draws a prefix
and starts a counter; `WriteFrame` takes the mutex of its log, adds one to the
counter, seals and unlocks; `Rotate` keeps the mutex of its log while it writes
the replayed frames to a temporary log with a prefix and a counter of its own,
and then the old session goes on. Each of these is a step, taken by any
goroutine. `Ledger` accounts for the numbers drawn so far: no number is drawn
twice from a counter that has not come around.
-/

namespace Aqueduct.Aal

open ByteStr

/-! ## Sessions and goroutines -/

/-- What a session takes its nonces from, and how many calls of `WriteFrame`
have done so. -/
structure Counter where
  noncePrefix : UInt32
  nonce : UInt64
  drawn : Nat
  deriving DecidableEq, Repr

def Counter.next (c : Counter) : Counter := { c with nonce := c.nonce + 1, drawn := c.drawn + 1 }

/-- An open log; `temporary` is a log that a `Rotate` has to itself. -/
structure Session where
  counter : Counter
  mu : Bool
  temporary : Bool
  deriving DecidableEq, Repr

/-- Where a goroutine is in `WriteFrame`. -/
inductive WritePhase
  | idle
  | locked (log : Nat)
  | numbered (log : Nat) (nonceVal : UInt64)
  | written (log : Nat)
  deriving DecidableEq, Repr

/-- `rotating` is the log under rotation and the temporary log, once open. -/
structure Goroutine where
  write : WritePhase
  rotating : Option (Nat × Option Nat)
  deriving DecidableEq, Repr

/-- A number that was drawn and is not used yet. -/
def Goroutine.pending (th : Goroutine) : Option (Nat × UInt64) :=
  match th.write with
  | .numbered log nonceVal => some (log, nonceVal)
  | _ => none

/-- One invocation of `Seal`. -/
structure SealCall where
  log : Nat
  nonceVal : UInt64
  nonce : Bytes
  deriving DecidableEq, Repr

structure Sessions where
  logs : List Session
  goroutines : List Goroutine
  seals : List SealCall
  deriving DecidableEq, Repr

inductive SessionLabel
  | openEncrypted (noncePrefix : UInt32)
  | lock (g log : Nat)
  | add (g : Nat)
  | sealFrame (g : Nat)
  | unlock (g : Nat)
  | rotate (g log : Nat)
  | openTemp (g : Nat) (noncePrefix : UInt32)
  | endRotate (g : Nat)
  deriving DecidableEq, Repr

namespace Sessions

def setGoroutine (s : Sessions) (g : Nat) (th : Goroutine) : Sessions :=
  { s with goroutines := s.goroutines.set g th }

def setMu (s : Sessions) (log : Nat) (l : Session) (mu : Bool) : Sessions :=
  { s with logs := s.logs.set log { l with mu := mu } }

def setCounter (s : Sessions) (log : Nat) (l : Session) (c : Counter) : Sessions :=
  { s with logs := s.logs.set log { l with counter := c } }

def opened (s : Sessions) (noncePrefix : UInt32) (temporary : Bool) : Sessions :=
  { s with logs := s.logs ++ [⟨⟨noncePrefix, 0, 0⟩, false, temporary⟩] }

/-- The logs a goroutine writes to: inside `Rotate` its temporary log, outside
any other one. -/
def mayWrite (rotating : Option (Nat × Option Nat)) (log : Nat) (l : Session) : Bool :=
  match rotating with
  | none => !l.temporary
  | some (_, tmp) => tmp = some log

def lockStep (s : Sessions) (g log : Nat) (rotating : Option (Nat × Option Nat)) (l : Session) :
    Option Sessions :=
  if l.mu = false ∧ mayWrite rotating log l then
    some ((s.setMu log l true).setGoroutine g ⟨.locked log, rotating⟩)
  else none

def rotateStep (s : Sessions) (g log : Nat) (l : Session) : Option Sessions :=
  if l.mu = false ∧ l.temporary = false then
    some ((s.setMu log l true).setGoroutine g ⟨.idle, some (log, none)⟩)
  else none

def addStep (s : Sessions) (g log : Nat) (rotating : Option (Nat × Option Nat)) (l : Session) :
    Sessions :=
  (s.setCounter log l l.counter.next).setGoroutine g
    ⟨.numbered log l.counter.next.nonce, rotating⟩

def sealStep (s : Sessions) (g log : Nat) (nonceVal : UInt64)
    (rotating : Option (Nat × Option Nat)) (l : Session) : Sessions :=
  { s.setGoroutine g ⟨.written log, rotating⟩ with
    seals := s.seals ++ [⟨log, nonceVal, nonceBytes l.counter.noncePrefix nonceVal⟩] }

def step (s : Sessions) : SessionLabel → Option Sessions
  | .openEncrypted noncePrefix => some (s.opened noncePrefix false)
  | .lock g log =>
    match s.goroutines[g]?, s.logs[log]? with
    | some ⟨.idle, rotating⟩, some l => s.lockStep g log rotating l
    | _, _ => none
  | .add g =>
    match s.goroutines[g]? with
    | some ⟨.locked log, rotating⟩ => (s.logs[log]?).map (s.addStep g log rotating)
    | _ => none
  | .sealFrame g =>
    match s.goroutines[g]? with
    | some ⟨.numbered log nonceVal, rotating⟩ =>
      (s.logs[log]?).map (s.sealStep g log nonceVal rotating)
    | _ => none
  | .unlock g =>
    match s.goroutines[g]? with
    | some ⟨.written log, rotating⟩ =>
      (s.logs[log]?).map fun l => (s.setMu log l false).setGoroutine g ⟨.idle, rotating⟩
    | _ => none
  | .rotate g log =>
    match s.goroutines[g]?, s.logs[log]? with
    | some ⟨.idle, none⟩, some l => s.rotateStep g log l
    | _, _ => none
  | .openTemp g noncePrefix =>
    match s.goroutines[g]? with
    | some ⟨.idle, some (log, none)⟩ =>
      some ((s.opened noncePrefix true).setGoroutine g ⟨.idle, some (log, some s.logs.length)⟩)
    | _ => none
  | .endRotate g =>
    match s.goroutines[g]? with
    | some ⟨.idle, some (log, _)⟩ =>
      (s.logs[log]?).map fun l => (s.setMu log l false).setGoroutine g ⟨.idle, none⟩
    | _ => none

/-- Any number of goroutines, and no log open. -/
def initial (goroutines : Nat) : Sessions :=
  ⟨[], List.replicate goroutines ⟨.idle, none⟩, []⟩

/-- A call of `WriteFrame` that nobody interrupts seals with the nonce that
`Log.writeFrame` puts into the record, and leaves its counter. -/
theorem writeFrame_alone {s : Sessions} {g log : Nat} {rotating : Option (Nat × Option Nat)}
    {l : Session} (hg : s.goroutines[g]? = some ⟨.idle, rotating⟩) (hl : s.logs[log]? = some l)
    (hfree : l.mu = false ∧ mayWrite rotating log l) {file f : Bytes} {aead : Aead} {l' : Log}
    (hwrite : Log.writeFrame ⟨file, some aead, l.counter.noncePrefix, l.counter.nonce⟩ f =
      some l') :
    ∃ t call, Transition.run step s [.lock g log, .add g, .sealFrame g, .unlock g] = some t ∧
      t.seals = s.seals ++ [call] ∧
      l'.file = file ++ (toLE 4 (12 + (aead.sealBytes call.nonce f).length) ++
        (call.nonce ++ aead.sealBytes call.nonce f)) ∧
      t.logs = s.logs.set log ⟨⟨l'.noncePrefix, l'.nonce, l.counter.drawn + 1⟩, false,
        l.temporary⟩ := by
  obtain ⟨hg', -⟩ := List.getElem?_eq_some_iff.mp hg
  obtain ⟨hl', -⟩ := List.getElem?_eq_some_iff.mp hl
  obtain ⟨-, heq⟩ := Option.ite_none_left_eq_some.mp hwrite
  cases heq
  have hset : ∀ th : Goroutine, (s.goroutines.set g th)[g]? = some th :=
    fun th => List.getElem?_set_self hg'
  have hlog : ∀ k : Session, (s.logs.set log k)[log]? = some k :=
    fun k => List.getElem?_set_self hl'
  rw [Transition.run_cons, step, hg, hl]
  dsimp only
  rw [lockStep, if_pos hfree]
  simp only [Option.bind_some, Transition.run_cons, Transition.run_nil, step, setMu, setGoroutine,
    setCounter, addStep, sealStep, hset, hlog, List.set_set, Option.map_some]
  exact ⟨_, _, rfl, rfl, rfl, rfl⟩

/-! ## What a step does to the numbers -/

def counters (s : Sessions) : List Counter := s.logs.map (·.counter)

def pendings (s : Sessions) : List (Nat × UInt64) := s.goroutines.filterMap Goroutine.pending

theorem counters_setMu {s : Sessions} {log : Nat} {l : Session} (h : s.logs[log]? = some l)
    (mu : Bool) : (s.setMu log l mu).counters = s.counters := by
  refine List.ext_getElem? fun i => ?_
  simp only [counters, setMu, List.getElem?_map, List.getElem?_set]
  split
  · next hi =>
    subst hi
    rw [h, if_pos (List.getElem?_eq_some_iff.mp h).1]
    rfl
  · rfl

theorem counters_get {s : Sessions} {log : Nat} {l : Session} (h : s.logs[log]? = some l) :
    s.counters[log]? = some l.counter := by
  simp [counters, h]

theorem pendings_setGoroutine {s : Sessions} {g : Nat} {th : Goroutine}
    (h : s.goroutines[g]? = some th) (th' : Goroutine) :
    (th.pending.toList ++ (s.setGoroutine g th').pendings).Perm
      (th'.pending.toList ++ s.pendings) := by
  obtain ⟨hg, rfl⟩ := List.getElem?_eq_some_iff.mp h
  have hnew := (List.set_perm_cons_eraseIdx hg th').filterMap Goroutine.pending
  have hold := (List.getElem_cons_eraseIdx_perm hg).filterMap Goroutine.pending
  rw [← List.singleton_append, List.filterMap_append] at hnew hold
  have hcons : ∀ x : Goroutine, [x].filterMap Goroutine.pending = x.pending.toList := by
    intro x
    cases hx : x.pending <;> simp [hx]
  rw [hcons] at hnew hold
  exact (hnew.append_left _).trans
    ((List.perm_append_comm_assoc _ _ _).trans (hold.append_left _))

/-- The effect of a step on counters, pending numbers and sealed ones: nothing
but new counters at 0, a number drawn, or a pending number used. -/
theorem step_cases {s t : Sessions} {l : SessionLabel} (h : step s l = some t) :
    (∃ new, t.counters = s.counters ++ new ∧ (∀ c ∈ new, c.nonce = 0 ∧ c.drawn = 0) ∧
        t.pendings.Perm s.pendings ∧ t.seals = s.seals) ∨
      (∃ log c, s.counters[log]? = some c ∧ t.counters = s.counters.set log c.next ∧
        t.pendings.Perm ((log, c.next.nonce) :: s.pendings) ∧ t.seals = s.seals) ∨
      ∃ log nonceVal c, s.counters[log]? = some c ∧ t.counters = s.counters ∧
        s.pendings.Perm ((log, nonceVal) :: t.pendings) ∧
        t.seals = s.seals ++ [⟨log, nonceVal, nonceBytes c.noncePrefix nonceVal⟩] := by
  have hnone : ∀ {u : Sessions}, u.counters = s.counters → u.pendings.Perm s.pendings →
      u.seals = s.seals → ∃ new, u.counters = s.counters ++ new ∧
        (∀ c ∈ new, c.nonce = 0 ∧ c.drawn = 0) ∧ u.pendings.Perm s.pendings ∧
          u.seals = s.seals :=
    fun hc hp hs => ⟨[], by rw [hc, List.append_nil], by simp, hp, hs⟩
  cases l with
  | openEncrypted noncePrefix =>
    cases h
    exact .inl ⟨[⟨noncePrefix, 0, 0⟩], by simp [opened, counters], by simp, .refl _, rfl⟩
  | lock g log =>
    simp only [step] at h
    split at h
    · next rotating l hg hl =>
      obtain ⟨-, heq⟩ := Option.ite_none_right_eq_some.mp h
      cases heq
      exact .inl (hnone (counters_setMu hl true) (pendings_setGoroutine (s := s) hg _) rfl)
    · cases h
  | add g =>
    simp only [step] at h
    split at h
    · next log rotating hg =>
      obtain ⟨l, hl, rfl⟩ := Option.map_eq_some_iff.mp h
      refine .inr (.inl ⟨log, l.counter, counters_get hl, ?_, ?_, rfl⟩)
      · simp [addStep, setGoroutine, setCounter, counters, List.map_set]
      · exact pendings_setGoroutine (s := s) hg ⟨.numbered log l.counter.next.nonce, rotating⟩
    · cases h
  | sealFrame g =>
    simp only [step] at h
    split at h
    · next log nonceVal rotating hg =>
      obtain ⟨l, hl, rfl⟩ := Option.map_eq_some_iff.mp h
      refine .inr (.inr ⟨log, nonceVal, l.counter, counters_get hl, rfl, ?_, rfl⟩)
      exact (pendings_setGoroutine (s := s) hg ⟨.written log, rotating⟩).symm
    · cases h
  | unlock g =>
    simp only [step] at h
    split at h
    · next log rotating hg =>
      obtain ⟨l, hl, rfl⟩ := Option.map_eq_some_iff.mp h
      exact .inl (hnone (counters_setMu hl false) (pendings_setGoroutine (s := s) hg _) rfl)
    · cases h
  | rotate g log =>
    simp only [step] at h
    split at h
    · next l hg hl =>
      obtain ⟨-, heq⟩ := Option.ite_none_right_eq_some.mp h
      cases heq
      exact .inl (hnone (counters_setMu hl true) (pendings_setGoroutine (s := s) hg _) rfl)
    · cases h
  | openTemp g noncePrefix =>
    simp only [step] at h
    split at h
    · next log hg =>
      cases h
      exact .inl ⟨[⟨noncePrefix, 0, 0⟩], by simp [opened, counters, setGoroutine], by simp,
        pendings_setGoroutine (s := s) hg _, rfl⟩
    · cases h
  | endRotate g =>
    simp only [step] at h
    split at h
    · next log tmp hg =>
      obtain ⟨l, hl, rfl⟩ := Option.map_eq_some_iff.mp h
      exact .inl (hnone (counters_setMu hl false) (pendings_setGoroutine (s := s) hg _) rfl)
    · cases h

end Sessions

/-! ## The ledger -/

/-- Every counter says how many numbers it gave out, and the numbers given out
are different. -/
structure Ledger (counters : List Counter) (taken : List (Nat × UInt64)) : Prop where
  counted : ∀ (i : Nat) (c : Counter), counters[i]? = some c → c.nonce.toNat = c.drawn
  bounded : ∀ e ∈ taken, ∃ c, counters[e.1]? = some c ∧ e.2.toNat ≤ c.drawn
  nodup : taken.Nodup

namespace Ledger

variable {counters : List Counter} {taken taken' : List (Nat × UInt64)}

theorem perm (h : Ledger counters taken) (hp : taken'.Perm taken) : Ledger counters taken' :=
  ⟨h.counted, fun e he => h.bounded e (hp.mem_iff.mp he), hp.nodup_iff.mpr h.nodup⟩

theorem fresh (h : Ledger counters taken) {new : List Counter}
    (hnew : ∀ c ∈ new, c.nonce = 0 ∧ c.drawn = 0) : Ledger (counters ++ new) taken := by
  refine ⟨?_, ?_, h.nodup⟩
  · intro i c hc
    rcases Nat.lt_or_ge i counters.length with hi | hi
    · rw [List.getElem?_append_left hi] at hc
      exact h.counted i c hc
    · rw [List.getElem?_append_right hi] at hc
      obtain ⟨hnonce, hdrawn⟩ := hnew c (List.mem_of_getElem? hc)
      rw [hnonce, hdrawn]
      rfl
  · intro e he
    obtain ⟨c, hc, hle⟩ := h.bounded e he
    exact ⟨c, by rw [List.getElem?_append_left (List.getElem?_eq_some_iff.mp hc).1, hc], hle⟩

/-- A counter that has not come around gives out a number it never gave out. -/
theorem draw (h : Ledger counters taken) {log : Nat} {c : Counter}
    (hc : counters[log]? = some c) (hlt : c.next.drawn < 2 ^ 64) :
    Ledger (counters.set log c.next) ((log, c.next.nonce) :: taken) := by
  have hlog := (List.getElem?_eq_some_iff.mp hc).1
  have hnonce : c.next.nonce.toNat = c.next.drawn := by
    have hcount := h.counted log c hc
    simp only [Counter.next] at hlt ⊢
    rw [UInt64.toNat_add, hcount]
    exact Nat.mod_eq_of_lt hlt
  have hself : (counters.set log c.next)[log]? = some c.next := by simp [hlog]
  have hdrawn : c.drawn < c.next.drawn := Nat.lt_succ_self _
  refine ⟨?_, ?_, List.nodup_cons.mpr ⟨?_, h.nodup⟩⟩
  · intro i d hd
    by_cases hi : log = i
    · subst hi
      rw [hself] at hd
      cases hd
      exact hnonce
    · rw [List.getElem?_set_ne hi] at hd
      exact h.counted i d hd
  · intro e he
    rcases List.mem_cons.mp he with rfl | he
    · exact ⟨c.next, hself, Nat.le_of_eq hnonce⟩
    · obtain ⟨d, hd, hle⟩ := h.bounded e he
      by_cases hi : log = e.1
      · obtain rfl : c = d := Option.some.inj (hc.symm.trans (hi ▸ hd))
        exact ⟨c.next, hi ▸ hself, Nat.le_trans hle (Nat.le_of_lt hdrawn)⟩
      · exact ⟨d, by rw [List.getElem?_set_ne hi, hd], hle⟩
  · intro he
    obtain ⟨d, hd, hle⟩ := h.bounded _ he
    obtain rfl : c = d := Option.some.inj (hc.symm.trans hd)
    rw [hnonce] at hle
    omega

end Ledger

namespace Sessions

/-- The numbers of pending and of past calls of `Seal`. -/
def taken (s : Sessions) : List (Nat × UInt64) :=
  s.pendings ++ s.seals.map fun c => (c.log, c.nonceVal)

/-- The prefixes differ, and no session has come to its last number. -/
def Fresh (s : Sessions) : Prop :=
  (s.counters.map (·.noncePrefix)).Nodup ∧ ∀ c ∈ s.counters, c.drawn < 2 ^ 64

structure Inv (s : Sessions) : Prop where
  ledger : Ledger s.counters s.taken
  nonces : ∀ call ∈ s.seals, ∃ c, s.counters[call.log]? = some c ∧
    call.nonce = nonceBytes c.noncePrefix call.nonceVal

theorem Fresh.of_step {s t : Sessions} {l : SessionLabel} (h : step s l = some t)
    (hf : t.Fresh) : s.Fresh := by
  obtain ⟨hnodup, hlt⟩ := hf
  rcases step_cases h with ⟨new, hc, -⟩ | ⟨log, c, hget, hc, -⟩ | ⟨log, nonceVal, c, -, hc, -⟩
  · rw [hc, List.map_append] at hnodup
    exact ⟨(List.nodup_append.mp hnodup).1, fun c hm => hlt c (hc ▸ List.mem_append_left _ hm)⟩
  · obtain ⟨hlog, rfl⟩ := List.getElem?_eq_some_iff.mp hget
    constructor
    · have hsame : t.counters.map (·.noncePrefix) = s.counters.map (·.noncePrefix) := by
        rw [hc, List.map_set]
        refine List.ext_getElem? fun i => ?_
        rw [List.getElem?_set]
        split
        · next hi => simp [← hi, hlog, Counter.next]
        · rfl
      rwa [hsame] at hnodup
    · intro d hd
      obtain ⟨i, hi⟩ := List.mem_iff_getElem?.mp hd
      by_cases hlogi : log = i
      · subst hlogi
        have hmem : s.counters[log].next ∈ t.counters := by
          rw [hc]
          exact List.mem_of_getElem? (i := log) (by simp [hlog])
        have hnext := hlt _ hmem
        rw [List.getElem?_eq_getElem hlog] at hi
        cases hi
        exact Nat.lt_of_succ_lt hnext
      · exact hlt d (hc ▸ List.mem_of_getElem? (by rw [List.getElem?_set_ne hlogi, hi]))
  · rw [hc] at hnodup hlt
    exact ⟨hnodup, hlt⟩

theorem step_inv {s t : Sessions} {l : SessionLabel} (hi : s.Inv) (h : step s l = some t)
    (hf : t.Fresh) : t.Inv := by
  rcases step_cases h with ⟨new, hc, hnew, hp, hs⟩ | ⟨log, c, hget, hc, hp, hs⟩ |
    ⟨log, nonceVal, c, hget, hc, hp, hs⟩
  · refine ⟨?_, ?_⟩
    · rw [hc]
      refine (hi.ledger.fresh hnew).perm ?_
      rw [taken, hs]
      exact hp.append_right _
    · intro call hcall
      obtain ⟨d, hd, hnonce⟩ := hi.nonces call (hs ▸ hcall)
      exact ⟨d, by rw [hc, List.getElem?_append_left (List.getElem?_eq_some_iff.mp hd).1, hd], hnonce⟩
  · have hlog := (List.getElem?_eq_some_iff.mp hget).1
    refine ⟨?_, ?_⟩
    · rw [hc]
      refine (hi.ledger.draw hget (hf.2 _ ?_)).perm ?_
      · rw [hc]
        exact List.mem_of_getElem? (i := log) (by simp [hlog])
      · rw [taken, hs]
        exact hp.append_right _
    · intro call hcall
      obtain ⟨d, hd, hnonce⟩ := hi.nonces call (hs ▸ hcall)
      rw [hc]
      by_cases hlogi : log = call.log
      · obtain rfl : c = d := Option.some.inj (hget.symm.trans (hlogi ▸ hd))
        exact ⟨c.next, by simp [← hlogi, hlog], hnonce⟩
      · exact ⟨d, by rw [List.getElem?_set_ne hlogi, hd], hnonce⟩
  · refine ⟨?_, ?_⟩
    · rw [hc]
      refine hi.ledger.perm ?_
      rw [taken, hs, List.map_append, ← List.append_assoc]
      exact List.perm_append_comm.trans (hp.append_right _).symm
    · intro call hcall
      rw [hs] at hcall
      rw [hc]
      rcases List.mem_append.mp hcall with hcall | hcall
      · exact hi.nonces call hcall
      · rw [List.mem_singleton.mp hcall]
        exact ⟨c, hget, rfl⟩

end Sessions

theorem nonceBytes_inj {p p' : UInt32} {v v' : UInt64} (h : nonceBytes p v = nonceBytes p' v') :
    p = p' ∧ v = v' := by
  obtain ⟨hp, hv⟩ := List.append_inj h (by simp)
  exact ⟨UInt32.toNat_inj.mp (toLE_inj p.toNat_lt p'.toNat_lt hp),
    UInt64.toNat_inj.mp (toLE_inj v.toNat_lt v'.toNat_lt (List.reverse_injective hv))⟩

namespace Sessions

theorem Inv.nonces_nodup {s : Sessions} (hi : s.Inv) (hf : s.Fresh) :
    (s.seals.map (·.nonce)).Nodup := by
  have hpairs : (s.seals.map fun c => (c.log, c.nonceVal)).Nodup :=
    (List.nodup_append.mp hi.ledger.nodup).2.1
  have hcalls : s.seals.Nodup := hpairs.of_map
  refine hcalls.map_on ?_
  intro a ha b hb hab
  obtain ⟨c, hc, hca⟩ := hi.nonces a ha
  obtain ⟨d, hd, hdb⟩ := hi.nonces b hb
  rw [hca, hdb] at hab
  obtain ⟨hsame, hval⟩ := nonceBytes_inj hab
  -- sessions with the same prefix are the same session
  have hlog : a.log = b.log := by
    refine (List.getElem?_inj (l := s.counters.map (·.noncePrefix)) ?_ hf.1).mp ?_
    · simpa using (List.getElem?_eq_some_iff.mp hc).1
    · simp [hc, hd, hsame]
  exact List.inj_on_of_nodup_map hpairs ha hb (by rw [hlog, hval])

theorem initial_inv (goroutines : Nat) : (initial goroutines).Inv where
  ledger := by
    have hpend : (initial goroutines).pendings = [] := by
      simp [pendings, initial, Goroutine.pending]
    refine ⟨by simp [counters, initial], ?_, ?_⟩ <;> simp [taken, hpend] <;> simp [initial]
  nonces := by simp [initial]

/-- **Nonces.** In every run of any number of goroutines and sessions whose
prefixes are different, and with fewer than 2^64 numbers drawn in each, no two
calls of `Seal` have the same nonce. -/
theorem nonces_never_reused (goroutines : Nat) (ls : List SessionLabel) (t : Sessions)
    (hr : Transition.run step (initial goroutines) ls = some t)
    (hprefixes : (t.logs.map (·.counter.noncePrefix)).Nodup)
    (hcalls : ∀ l ∈ t.logs, l.counter.drawn < 2 ^ 64) : (t.seals.map (·.nonce)).Nodup := by
  have hfresh : t.Fresh := by
    refine ⟨by rwa [counters, List.map_map], ?_⟩
    intro c hc
    obtain ⟨l, hl, rfl⟩ := List.mem_map.mp hc
    exact hcalls l hl
  have hinv : t.Fresh → t.Inv := Transition.run_invariant_all (I := fun s => s.Fresh → s.Inv)
    (fun s l u hi h hf => step_inv (hi (hf.of_step h)) h hf) (fun _ => initial_inv goroutines) hr
  exact (hinv hfresh).nonces_nodup hfresh

/-- Two goroutines; the second rotates the log between two frames of the first. -/
def rotatedTwice : List SessionLabel :=
  [.openEncrypted 7, .lock 0 0, .add 0, .sealFrame 0, .unlock 0,
    .rotate 1 0, .openTemp 1 8, .lock 1 1, .add 1, .sealFrame 1, .unlock 1, .endRotate 1,
    .lock 0 0, .add 0, .sealFrame 0, .unlock 0]

theorem rotation_keeps_nonces_apart :
    ∃ t, Transition.run step (initial 2) rotatedTwice = some t ∧ t.seals.length = 3 ∧
      (t.seals.map (·.nonce)).Nodup := by
  have hrun : Transition.run step (initial 2) rotatedTwice =
      some (Transition.after step (initial 2) rotatedTwice) := Transition.run_after (by decide)
  exact ⟨_, hrun, by decide, nonces_never_reused 2 rotatedTwice _ hrun (by decide) (by decide)⟩

end Sessions
end Aqueduct.Aal
