import Aqueduct.Lib.Run
import Aqueduct.Lib.Store
import Mathlib.Algebra.Group.Int.Defs
import Mathlib.Logic.Function.Basic

/-!
`MessageRef` objects of `internal/broker/msg_ref.go` step by step. Objects come
from a pool and go back to it, a child keeps its parent alive, and a release
that finds the last reference goes on to the parent or gives the buffer back.
Each pool operation, each atomic operation on a counter and each group of plain
writes to an object is one step; the threads take them in any order. A thread
only uses references it holds, and may hand them to another thread.

A buffer gets a new number each time it is taken from the buffer pool. Once it
was returned, somebody else may write to the same memory (`scribble`).
-/

namespace Aqueduct.Broker.Nested

open ByteStr

/-- `MessageRef`. The counter is kept exactly; the code has 32 bits of it. -/
structure MsgObject where
  buf : Option Nat
  frame : Option Slice
  ref : Int
  expiresAt : Int64
  offset : UInt64
  parent : Option Nat
  deriving DecidableEq

def acquireMessageRef (buf : Option Nat) : MsgObject := ⟨buf, none, 1, 0, 0, none⟩

def acquireChildMessageRef (parent : Nat) (frame : Option Slice) (topicOffset : UInt64)
    (expiresAt : Int64) : MsgObject :=
  ⟨none, frame, 1, expiresAt, topicOffset, some parent⟩

/-- A reference, with the buffer its message lies in. -/
structure Ref where
  obj : Nat
  buffer : Option Nat
  deriving DecidableEq

/-- A reference in a thread's hands and what `Buf` returned when it got it. -/
structure Held where
  ref : Ref
  view : Option Bytes
  deriving DecidableEq

/-- The steps of the two `Acquire` functions: the pool, the fields, the
`Store(1)`, and for a child the `Add(1)` on its parent. -/
inductive AcquireStage
  | get
  | fill (m : Nat)
  | store (m : Nat)
  | retainParent (m : Nat)
  deriving DecidableEq

structure Acquiring where
  stage : AcquireStage
  target : MsgObject
  buffer : Option Nat
  deriving DecidableEq

/-- The steps of `Release`: the `Add(-1)`, the branch on the parent when that
gave 0, the fields, the pool. -/
inductive ReleaseStage
  | decrement
  | zero (parent : Option Nat)
  | clear
  | put
  deriving DecidableEq

/-- A call of `Release`. `gen` tells how often each object had been recycled when
the thread called `Release`, also for the calls on parents that follow from it;
neither it nor the parent noted in a stage is read by a step. -/
structure Releasing where
  ref : Ref
  stage : ReleaseStage
  gen : Nat → Nat

/-- The calls of `Release` are nested, the innermost one first. -/
structure Holder where
  held : List Held
  acquiring : Option Acquiring
  releasing : List Releasing

def Holder.idle (th : Holder) : Bool := th.acquiring = none ∧ th.releasing = []

structure RefWorld where
  objs : Nat → MsgObject
  pool : List Nat
  nextObj : Nat
  gen : Nat → Nat
  mem : Store
  returned : Nat → Nat
  nextBuf : Nat
  threads : List Holder

/-- What a thread may call. -/
inductive RefCall
  /-- `AcquireMessageRef` on a buffer with these bytes, or on nil. -/
  | acquire (data : Option Bytes)
  /-- `AcquireChildMessageRef` on the `i`-th reference the thread holds. -/
  | child (i : Nat) (frame : Option Slice) (topicOffset : UInt64) (expiresAt : Int64)
  | retain (i : Nat)
  | release (i : Nat)
  deriving DecidableEq

inductive RefLabel
  | call (t : Nat) (c : RefCall)
  /-- The `i`-th reference of thread `t` goes to thread `u`. -/
  | give (t i u : Nat)
  /-- The next step of the thread, with the choice of the pool. -/
  | next (t : Nat) (choice : Option Nat)
  | scribble (b : Nat) (data : Bytes)
  deriving DecidableEq

namespace RefWorld

def bufOf (s : RefWorld) (m : Nat) : Option Bytes :=
  match (s.objs m).frame with
  | some frame => some (s.mem.read frame)
  | none => (s.objs m).buf.map s.mem

def setObj (s : RefWorld) (m : Nat) (o : MsgObject) : RefWorld :=
  { s with objs := Function.update s.objs m o }

def addRef (s : RefWorld) (m : Nat) (n : Int) : RefWorld :=
  s.setObj m { s.objs m with ref := (s.objs m).ref + n }

def getObject (s : RefWorld) (choice : Option Nat) : RefWorld × Nat :=
  match choice with
  | some m =>
    if m ∈ s.pool then ({ s with pool := s.pool.erase m }, m)
    else ({ s with nextObj := s.nextObj + 1 }, s.nextObj)
  | none => ({ s with nextObj := s.nextObj + 1 }, s.nextObj)

def acquireStep (s : RefWorld) (th : Holder) (a : Acquiring) (choice : Option Nat) :
    Option (RefWorld × Holder) :=
  match a.stage with
  | .get =>
    let (s, m) := s.getObject choice
    some (s, { th with acquiring := some { a with stage := .fill m } })
  | .fill m =>
    some (s.setObj m { a.target with ref := (s.objs m).ref },
      { th with acquiring := some { a with stage := .store m } })
  | .store m =>
    let s := s.setObj m { s.objs m with ref := 1 }
    match a.target.parent with
    | none => some (s, { th with held := ⟨⟨m, a.buffer⟩, s.bufOf m⟩ :: th.held, acquiring := none })
    | some _ => some (s, { th with acquiring := some { a with stage := .retainParent m } })
  | .retainParent m =>
    match a.target.parent with
    | none => none
    | some p =>
      let s := s.addRef p 1
      some (s, { th with held := ⟨⟨m, a.buffer⟩, s.bufOf m⟩ :: th.held, acquiring := none })

/-- A step of `Release`, and what replaces the call on the stack. -/
def releaseStep (s : RefWorld) (f : Releasing) : RefWorld × List Releasing :=
  let m := f.ref.obj
  let o := s.objs m
  match f.stage with
  | .decrement =>
    (s.addRef m (-1), if (o.ref - 1) % 2 ^ 32 = 0 then [{ f with stage := .zero o.parent }] else [])
  | .zero _ =>
    match o.parent with
    | some p => (s, [⟨⟨p, f.ref.buffer⟩, .decrement, f.gen⟩, { f with stage := .clear }])
    | none =>
      match o.buf with
      | some b =>
        ({ s.setObj m { o with buf := none } with
            returned := Function.update s.returned b (s.returned b + 1) },
          [{ f with stage := .clear }])
      | none => (s, [{ f with stage := .clear }])
  | .clear =>
    (s.setObj m { o with parent := none, expiresAt := 0, offset := 0 }, [{ f with stage := .put }])
  | .put =>
    ({ s with pool := m :: s.pool, gen := Function.update s.gen m (s.gen m + 1) }, [])

def nextStep (s : RefWorld) (th : Holder) (choice : Option Nat) : Option (RefWorld × Holder) :=
  match th.acquiring, th.releasing with
  | some a, _ => s.acquireStep th a choice
  | none, f :: rest =>
    let (s, fs) := s.releaseStep f
    some (s, { th with releasing := fs ++ rest })
  | none, [] => none

/-- `frame` has to point into the memory of the parent. -/
def FrameIn (buffer : Option Nat) (frame : Option Slice) : Prop :=
  ∀ slice ∈ frame, buffer = some slice.buf

instance (buffer : Option Nat) (frame : Option Slice) : Decidable (FrameIn buffer frame) :=
  inferInstanceAs (Decidable (∀ slice ∈ frame, _))

/-- The first step of a call; `Retain` has no other. -/
def callStep (s : RefWorld) (th : Holder) : RefCall → Option (RefWorld × Holder)
  | .acquire none =>
    some (s, { th with acquiring := some ⟨.get, acquireMessageRef none, none⟩ })
  | .acquire (some bytes) =>
    let b := s.nextBuf
    some ({ s with mem := s.mem.set b bytes, nextBuf := b + 1 },
      { th with acquiring := some ⟨.get, acquireMessageRef (some b), some b⟩ })
  | .child i frame topicOffset expiresAt =>
    match th.held[i]? with
    | none => none
    | some h =>
      let target := acquireChildMessageRef h.ref.obj frame topicOffset expiresAt
      if FrameIn h.ref.buffer frame then
        some (s, { th with acquiring := some ⟨.get, target, h.ref.buffer⟩ })
      else none
  | .retain i =>
    match th.held[i]? with
    | none => none
    | some h => some (s.addRef h.ref.obj 1, { th with held := ⟨h.ref, s.bufOf h.ref.obj⟩ :: th.held })
  | .release i =>
    match th.held[i]? with
    | none => none
    | some h =>
      some (s, { th with
        held := th.held.eraseIdx i
        releasing := [⟨h.ref, .decrement, s.gen⟩] })

def onThread (s : RefWorld) (t : Nat) (f : Holder → Option (RefWorld × Holder)) : Option RefWorld :=
  match s.threads[t]? with
  | none => none
  | some th =>
    match f th with
    | none => none
    | some (s', th') => some { s' with threads := s.threads.set t th' }

/-- A reference changes hands. -/
def giveStep (s : RefWorld) (t i u : Nat) : Option RefWorld :=
  match s.threads[t]? with
  | none => none
  | some th =>
    match th.held[i]? with
    | none => none
    | some h =>
      let threads := s.threads.set t { th with held := th.held.eraseIdx i }
      match threads[u]? with
      | none => none
      | some th' =>
        if th.idle then
          some { s with threads := threads.set u { th' with held := h :: th'.held } }
        else none

def step (s : RefWorld) : RefLabel → Option RefWorld
  | .call t c => s.onThread t fun th => if th.idle then s.callStep th c else none
  | .give t i u => s.giveStep t i u
  | .next t choice => s.onThread t fun th => s.nextStep th choice
  | .scribble b data =>
    if 0 < s.returned b then some { s with mem := s.mem.set b data } else none

def initial (n : Nat) : RefWorld where
  objs := fun _ => ⟨none, none, 0, 0, 0, none⟩
  pool := []
  nextObj := 0
  gen := fun _ => 0
  mem := fun _ => []
  returned := fun _ => 0
  nextBuf := 0
  threads := List.replicate n ⟨[], none, []⟩

end RefWorld

end Aqueduct.Broker.Nested
