import Aqueduct.Lib.Run
import Aqueduct.Lib.Store
import Aqueduct.Protocol.Codec
import Aqueduct.Transport.Mediation

/-!
Who owns the bytes of a queued batch message. The read loop of one stream and
the subscriber writers interleave over an explicit store of buffers: the read
buffer that is compacted, refilled and regrown, and one pooled copy per batch,
owned by the parent `MessageRef`. `PublishBatch` cuts its sub-frames out of the
frame it was given, so a child refers to the read buffer, not to the copy.
Which subscribers a sub-frame is queued for is left open (`route`).
-/

namespace Aqueduct.Transport

open ByteStr Aqueduct.Protocol Aqueduct.Broker

/-- A child `MessageRef` that is queued or held by a writer. `parent` is the
buffer its parent owns, `enqueued` the sub-frame as `PublishBatch` saw it. -/
structure Child where
  slot : Nat
  frame : Slice
  parent : Nat
  enqueued : Bytes
  deriving DecidableEq, Repr

/-- Where the read loop stands: at its head, inside `dispatchFrames` behind
`consumed` bytes (called by `drainAndMaybeGrow` or after a read), or gone. -/
inductive Phase
  | top
  | dispatch (consumed : Nat) (draining : Bool)
  | closed
  deriving DecidableEq, Repr

structure Shared where
  store : Store
  nextBuf : Nat
  /-- The buffer from the read pool, put back when the stream ends. -/
  pooled : Nat
  /-- The current read buffer, of length `len` and filled up to `off`. -/
  buf : Nat
  len : Nat
  off : Nat
  phase : Phase
  total : Int
  queued : List Child
  inHand : List Child
  /-- What writers got from `Buf()`, with the sub-frame as enqueued. -/
  obtained : List (Bytes × Bytes)

namespace Shared

def cap (s : Shared) : Nat := (s.store s.buf).length

def children (s : Shared) : List Child := s.queued ++ s.inHand

/-- `buf[consumed:off]`. -/
def unread (s : Shared) (consumed : Nat) : Bytes := slice (s.store s.buf) consumed (s.off - consumed)

end Shared

inductive AliasLabel
  | read (chunk : Bytes)
  | drain
  | dispatch (route : Nat → List Nat)
  | eof
  | reuse (start : Nat) (bytes : Bytes)
  | fetch (i : Nat)
  | copyOut (i : Nat)
  | dropQueued (i : Nat)
  | dropHeld (i : Nat)

namespace Shared

/-- The children of one batch frame that starts at `consumed`. A sub-frame
that does not parse is skipped. -/
def batchChildren (s : Shared) (consumed : Nat) (frame : Frame) (route : Nat → List Nat) :
    List Child :=
  (parseBatch frame.payload).1.zipIdx.flatMap fun (w, j) =>
    match parseFrame (w.of frame.payload) with
    | .error _ => []
    | .ok _ => (route j).map fun slot =>
      { slot := slot
        frame := ⟨s.buf, consumed + (headerSize + frame.extensions.length + w.start), w.len⟩
        parent := s.nextBuf
        enqueued := w.of frame.payload }

/-- `PublishBatch`: the pooled copy for the parent, then the children. -/
def publishBatch (s : Shared) (consumed : Nat) (frame : Frame) (route : Nat → List Nat) : Shared :=
  { s with
    store := s.store.set s.nextBuf (Router.batchBuf frame)
    nextBuf := s.nextBuf + 1
    queued := s.queued ++ s.batchChildren consumed frame route }

def compaction (s : Shared) (consumed : Nat) : Write := ⟨s.buf, 0, s.unread consumed⟩

def compact (s : Shared) (consumed : Nat) : Shared :=
  { s with store := s.store.write (s.compaction consumed), off := s.off - consumed }

/-- `growBuffer` allocates a new buffer and copies the old one. -/
def grow (s : Shared) (b : Broker) : Shared :=
  let newCap := min (s.cap * 2) b.maxBufSize
  { s with
    store := s.store.set s.nextBuf
      ((s.store s.buf ++ List.replicate (newCap - s.cap) 0).take newCap)
    nextBuf := s.nextBuf + 1
    buf := s.nextBuf
    len := newCap }

/-- The end of `dispatchFrames`, and what `drainAndMaybeGrow` does after it. -/
def finishDispatch (s : Shared) (b : Broker) (consumed : Nat) (draining : Bool) : Shared :=
  let s := s.compact consumed
  if draining ∧ s.off = s.cap then
    if s.cap ≥ b.maxBufSize then { s with phase := .closed } else { s.grow b with phase := .top }
  else { s with phase := .top }

/-- The next frame of the dispatch loop. -/
def nextFrame (s : Shared) (b : Broker) (clientID : Bytes) (consumed : Nat) : Prepared × Int :=
  if consumed < s.off then prepareFrame b clientID (s.unread consumed) s.total
  else (.incomplete, s.total)

/-- The frame is handed to `PublishBatch`, which does not refuse it. -/
def publishesBatch (b : Broker) (stream : Stream) (clientID : Bytes) (frame : Frame) : Bool :=
  Call.publishBatch frame ∈ routeFrame b stream frame clientID ∧ frame.payloadLen ≤ maxPayloadSize

def dispatchStep (s : Shared) (b : Broker) (stream : Stream) (clientID : Bytes) (consumed : Nat)
    (draining : Bool) (route : Nat → List Nat) : Shared :=
  match s.nextFrame b clientID consumed with
  | (.failed _, total) => { s with phase := .closed, total := total }
  | (.incomplete, total) => { s.finishDispatch b consumed draining with total := total }
  | (.ready frame totalLen _ _, total) =>
    let s := if publishesBatch b stream clientID frame then s.publishBatch consumed frame route else s
    { s with phase := .dispatch (consumed + totalLen) draining, total := total }

def readStep (s : Shared) (chunk : Bytes) : Shared :=
  if chunk = [] then s
  else
    { s with
      store := s.store.write ⟨s.buf, s.off, chunk⟩
      off := s.off + chunk.length
      phase := .dispatch 0 false }

/-- Steps of the read loop, of a later user of the pooled read buffer
(`reuse`) and of the writers: fetching a child, reading its bytes with `Buf()`
and dropping one (overflow, expiry, drain). -/
def step (b : Broker) (stream : Stream) (clientID : Bytes) (s : Shared) :
    AliasLabel → Option Shared
  | .read chunk =>
    if s.phase = .top ∧ s.off ≠ s.cap ∧ chunk.length ≤ s.len - s.off then some (s.readStep chunk)
    else none
  | .drain =>
    if s.phase = .top ∧ s.off = s.cap then some { s with phase := .dispatch 0 true } else none
  | .dispatch route =>
    match s.phase with
    | .dispatch consumed draining => some (s.dispatchStep b stream clientID consumed draining route)
    | _ => none
  | .eof => if s.phase = .top then some { s with phase := .closed } else none
  | .reuse start bytes =>
    if s.phase = .closed then some { s with store := s.store.write ⟨s.pooled, start, bytes⟩ }
    else none
  | .fetch i =>
    (s.queued[i]?).map fun c =>
      { s with queued := s.queued.eraseIdx i, inHand := s.inHand ++ [c] }
  | .copyOut i =>
    (s.inHand[i]?).map fun c =>
      { s with
        inHand := s.inHand.eraseIdx i
        obtained := s.obtained ++ [(s.store.read c.frame, c.enqueued)] }
  | .dropQueued i =>
    (s.queued[i]?).map fun _ => { s with queued := s.queued.eraseIdx i }
  | .dropHeld i => (s.inHand[i]?).map fun _ => { s with inHand := s.inHand.eraseIdx i }

/-- What a step copies into an existing buffer. -/
def writes (b : Broker) (clientID : Bytes) (s : Shared) : AliasLabel → List Write
  | .read chunk => if chunk = [] then [] else [⟨s.buf, s.off, chunk⟩]
  | .dispatch _ =>
    match s.phase with
    | .dispatch consumed _ =>
      match s.nextFrame b clientID consumed with
      | (.incomplete, _) => [s.compaction consumed]
      | _ => []
    | _ => []
  | .reuse start bytes => [⟨s.pooled, start, bytes⟩]
  | _ => []

/-- The step overwrites no byte of a child that is still referenced. -/
def Undisturbed (b : Broker) (clientID : Bytes) (s : Shared) (l : AliasLabel) : Prop :=
  ∀ w ∈ writes b clientID s l, ∀ c ∈ s.children, w.Avoids c.frame

instance (b : Broker) (clientID : Bytes) (s : Shared) (l : AliasLabel) :
    Decidable (Undisturbed b clientID s l) :=
  inferInstanceAs (Decidable (∀ w ∈ writes b clientID s l, ∀ c ∈ s.children, w.Avoids c.frame))

/-- A stream that starts: an allocated read buffer and nothing queued. -/
def Started (s : Shared) : Prop :=
  s.buf < s.nextBuf ∧ s.queued = [] ∧ s.inHand = [] ∧ s.obtained = []

/-! ## What a step does -/

/-- What a step that makes the writes `ws` can do: children are the old ones
or new ones cut out of the read buffer, allocated slices keep what they read
unless a write hits them, and writers obtain what a child reads. -/
structure Effect (ws : List Write) (s t : Shared) : Prop where
  children : ∀ c ∈ t.children, c ∈ s.children ∨
    (c.frame.buf = s.buf ∧ c.parent = s.nextBuf ∧ t.store.read c.frame = c.enqueued)
  store : ∀ sl : Slice, sl.buf < s.nextBuf → (∀ w ∈ ws, w.Avoids sl) →
    t.store.read sl = s.store.read sl
  obtained : ∀ o ∈ t.obtained, o ∈ s.obtained ∨
    ∃ c ∈ s.children, o = (s.store.read c.frame, c.enqueued)
  nextBuf : s.nextBuf ≤ t.nextBuf
  buf : t.buf < t.nextBuf

theorem Effect.quiet {ws : List Write} {s t : Shared} (hb : s.buf < s.nextBuf)
    (hstore : t.store = s.store) (hnext : t.nextBuf = s.nextBuf) (hbuf : t.buf = s.buf)
    (hchildren : ∀ c ∈ t.children, c ∈ s.children)
    (hobtained : ∀ o ∈ t.obtained, o ∈ s.obtained ∨
      ∃ c ∈ s.children, o = (s.store.read c.frame, c.enqueued)) : Effect ws s t :=
  ⟨fun c hc => .inl (hchildren c hc), fun sl _ _ => by rw [hstore], hobtained,
    Nat.le_of_eq hnext.symm, by rw [hnext, hbuf]; exact hb⟩

theorem Effect.write {s t : Shared} (hb : s.buf < s.nextBuf) (w : Write)
    (hstore : t.store = s.store.write w) (hnext : t.nextBuf = s.nextBuf) (hbuf : t.buf = s.buf)
    (hchildren : t.children = s.children) (hobtained : t.obtained = s.obtained) :
    Effect [w] s t := by
  refine ⟨fun c hc => .inl (hchildren ▸ hc), ?_, fun o ho => .inl (hobtained ▸ ho),
    Nat.le_of_eq hnext.symm, by rw [hnext, hbuf]; exact hb⟩
  intro sl _ hav
  rw [hstore]
  exact s.store.read_write (hav w List.mem_cons_self)

/-- A child of a batch reads its sub-frame, out of the read buffer. -/
theorem batchChildren_read {s : Shared} {consumed : Nat} {frame : Frame} {route : Nat → List Nat}
    (ha : Accepted (s.unread consumed) frame) {c : Child}
    (hc : c ∈ s.batchChildren consumed frame route) :
    c.frame.buf = s.buf ∧ c.parent = s.nextBuf ∧ s.store.read c.frame = c.enqueued := by
  obtain ⟨⟨w, j⟩, hw, hc⟩ := List.mem_flatMap.mp hc
  have hmem : w ∈ (parseBatch frame.payload).1 :=
    List.mem_of_getElem? (List.mem_zipIdx_iff_getElem?.mp hw)
  have hbound := parseBatch_window hmem
  dsimp only at hc
  split at hc
  · cases hc
  · obtain ⟨slot, -, rfl⟩ := List.mem_map.mp hc
    refine ⟨rfl, rfl, ?_⟩
    have hfit : headerSize + frame.extensions.length + frame.payload.length ≤ s.off - consumed := by
      have h1 := ha.fits
      have h2 := ha.data_length
      have h3 : (s.unread consumed).length ≤ s.off - consumed := List.length_take_le _ _
      omega
    simp only [Store.read, Window.of]
    conv_rhs => rw [ha.payload_eq, slice_slice _ hbound]
    rw [unread, slice_slice _ (by omega)]

variable {b : Broker} {stream : Stream} {clientID : Bytes}

theorem nextFrame_ready {s : Shared} {consumed n : Nat} {frame : Frame} {qs : List AuthzQuery}
    {lg : List Bytes} {t : Int}
    (h : s.nextFrame b clientID consumed = (.ready frame n qs lg, t)) :
    Accepted (s.unread consumed) frame := by
  unfold nextFrame at h
  split at h
  · exact parseFrame_accepted (prepareFrame_ready h).1
  · cases h

theorem publishBatch_effect {s : Shared} (hb : s.buf < s.nextBuf) {consumed : Nat} {frame : Frame}
    {route : Nat → List Nat} (ha : Accepted (s.unread consumed) frame) :
    Effect [] s (s.publishBatch consumed frame route) := by
  refine ⟨?_, ?_, fun o ho => .inl ho, Nat.le_succ _, Nat.lt_succ_of_lt hb⟩
  · intro c hc
    simp only [children, publishBatch, List.mem_append] at hc ⊢
    rcases hc with (hc | hc) | hc
    · exact .inl (.inl hc)
    · obtain ⟨hbuf, hparent, hread⟩ := batchChildren_read ha hc
      exact .inr ⟨hbuf, hparent, (s.store.read_set (hbuf ▸ Nat.ne_of_lt hb)).trans hread⟩
    · exact .inl (.inr hc)
  · intro sl hsl _
    exact s.store.read_set (Nat.ne_of_lt hsl)

/-- Compaction is the only write of `finishDispatch`: growing allocates. -/
theorem finishDispatch_effect {s : Shared} (hb : s.buf < s.nextBuf) {consumed : Nat}
    {draining : Bool} :
    Effect [s.compaction consumed] s (s.finishDispatch b consumed draining) := by
  have hcompact : Effect [s.compaction consumed] s (s.compact consumed) :=
    .write hb _ rfl rfl rfl rfl rfl
  unfold finishDispatch
  dsimp only
  split
  · split
    · exact ⟨hcompact.1, hcompact.2, hcompact.3, hcompact.4, hcompact.5⟩
    · refine ⟨fun c hc => .inl hc, ?_, hcompact.obtained, Nat.le_succ_of_le hcompact.nextBuf,
        Nat.lt_succ_self _⟩
      intro sl hsl hav
      exact (Store.read_set _ (Nat.ne_of_lt hsl)).trans (hcompact.store sl hsl hav)
  · exact ⟨hcompact.1, hcompact.2, hcompact.3, hcompact.4, hcompact.5⟩

theorem dispatchStep_effect {s : Shared} (hb : s.buf < s.nextBuf) {consumed : Nat}
    {draining : Bool} {route : Nat → List Nat} (hp : s.phase = .dispatch consumed draining) :
    Effect (writes b clientID s (.dispatch route)) s
      (s.dispatchStep b stream clientID consumed draining route) := by
  unfold dispatchStep writes
  simp only [hp]
  cases hn : s.nextFrame b clientID consumed with
  | mk prep total =>
    cases prep with
    | failed e => exact .quiet hb rfl rfl rfl (fun _ hc => hc) (fun _ ho => .inl ho)
    | incomplete =>
      have hfin : Effect [s.compaction consumed] s (s.finishDispatch b consumed draining) :=
        finishDispatch_effect hb
      exact ⟨hfin.1, hfin.2, hfin.3, hfin.4, hfin.5⟩
    | ready frame n qs lg =>
      dsimp only
      split
      · have hbatch : Effect [] s (s.publishBatch consumed frame route) :=
          publishBatch_effect hb (nextFrame_ready hn)
        exact ⟨hbatch.1, hbatch.2, hbatch.3, hbatch.4, hbatch.5⟩
      · exact .quiet hb rfl rfl rfl (fun _ hc => hc) (fun _ ho => .inl ho)

theorem step_effect {s t : Shared} {l : AliasLabel} (hb : s.buf < s.nextBuf)
    (hs : step b stream clientID s l = some t) : Effect (writes b clientID s l) s t := by
  cases l with
  | read chunk =>
    simp only [step, Option.ite_none_right_eq_some, Option.some.injEq] at hs
    obtain ⟨-, rfl⟩ := hs
    by_cases hne : chunk = []
    · simp only [readStep, writes, if_pos hne]
      exact .quiet hb rfl rfl rfl (fun _ hc => hc) (fun _ ho => .inl ho)
    · simp only [readStep, writes, if_neg hne]
      exact .write hb _ rfl rfl rfl rfl rfl
  | drain =>
    simp only [step, Option.ite_none_right_eq_some, Option.some.injEq] at hs
    obtain ⟨-, rfl⟩ := hs
    exact .quiet hb rfl rfl rfl (fun _ hc => hc) (fun _ ho => .inl ho)
  | dispatch route =>
    simp only [step] at hs
    split at hs
    · rename_i consumed draining hp
      cases hs
      exact dispatchStep_effect hb hp
    · cases hs
  | eof =>
    simp only [step, Option.ite_none_right_eq_some, Option.some.injEq] at hs
    obtain ⟨-, rfl⟩ := hs
    exact .quiet hb rfl rfl rfl (fun _ hc => hc) (fun _ ho => .inl ho)
  | reuse start bytes =>
    simp only [step, Option.ite_none_right_eq_some, Option.some.injEq] at hs
    obtain ⟨-, rfl⟩ := hs
    exact .write hb _ rfl rfl rfl rfl rfl
  | fetch i =>
    obtain ⟨c, hc, rfl⟩ := Option.map_eq_some_iff.mp hs
    refine .quiet hb rfl rfl rfl ?_ (fun _ ho => .inl ho)
    intro c' hc'
    simp only [children, List.mem_append, List.mem_singleton] at hc' ⊢
    rcases hc' with hc' | hc' | rfl
    · exact .inl (List.mem_of_mem_eraseIdx hc')
    · exact .inr hc'
    · exact .inl (List.mem_of_getElem? hc)
  | copyOut i =>
    obtain ⟨c, hc, rfl⟩ := Option.map_eq_some_iff.mp hs
    refine .quiet hb rfl rfl rfl ?_ ?_
    · intro c' hc'
      simp only [children, List.mem_append] at hc' ⊢
      exact hc'.imp_right List.mem_of_mem_eraseIdx
    · intro o ho
      rcases List.mem_append.mp ho with ho | ho
      · exact .inl ho
      · exact .inr ⟨c, List.mem_append_right _ (List.mem_of_getElem? hc), List.mem_singleton.mp ho⟩
  | dropQueued i =>
    obtain ⟨c, -, rfl⟩ := Option.map_eq_some_iff.mp hs
    refine .quiet hb rfl rfl rfl ?_ (fun _ ho => .inl ho)
    intro c' hc'
    simp only [children, List.mem_append] at hc' ⊢
    exact hc'.imp_left List.mem_of_mem_eraseIdx
  | dropHeld i =>
    obtain ⟨c, -, rfl⟩ := Option.map_eq_some_iff.mp hs
    refine .quiet hb rfl rfl rfl ?_ (fun _ ho => .inl ho)
    intro c' hc'
    simp only [children, List.mem_append] at hc' ⊢
    exact hc'.imp_right List.mem_of_mem_eraseIdx

/-! ## Runs -/

/-- Children lie in allocated buffers, and never in the buffer their parent
owns: that one is allocated after the read buffer they are cut from. -/
structure Placed (s : Shared) : Prop where
  buf : s.buf < s.nextBuf
  allocated : ∀ c ∈ s.children, c.frame.buf < s.nextBuf
  outside : ∀ c ∈ s.children, c.frame.buf < c.parent

theorem step_placed {s t : Shared} {l : AliasLabel} (h : s.Placed)
    (hs : step b stream clientID s l = some t) : t.Placed := by
  have he := step_effect h.buf hs
  refine ⟨he.buf, ?_, ?_⟩
  · intro c hc
    rcases he.children c hc with hc | ⟨hbuf, -, -⟩
    · exact Nat.lt_of_lt_of_le (h.allocated c hc) he.nextBuf
    · exact hbuf ▸ Nat.lt_of_lt_of_le h.buf he.nextBuf
  · intro c hc
    rcases he.children c hc with hc | ⟨hbuf, hparent, -⟩
    · exact h.outside c hc
    · rw [hbuf, hparent]
      exact h.buf

/-- In every run, no child's frame lies in the buffer owned by its parent. -/
theorem child_outside_parent {s t : Shared} {ls : List AliasLabel} (hs : s.Started)
    (hr : Transition.run (step b stream clientID) s ls = some t) :
    ∀ c ∈ t.children, c.frame.buf ≠ c.parent := by
  obtain ⟨hb, hq, hh, -⟩ := hs
  have h0 : s.Placed := ⟨hb, by simp [children, hq, hh], by simp [children, hq, hh]⟩
  have ht := Transition.run_invariant_all (fun _ _ _ => step_placed) h0 hr
  exact fun c hc => Nat.ne_of_lt (ht.outside c hc)

/-- Every child still reads what was enqueued, and so did every writer. -/
structure Intact (s : Shared) : Prop where
  placed : s.Placed
  read : ∀ c ∈ s.children, s.store.read c.frame = c.enqueued
  obtained : ∀ o ∈ s.obtained, o.1 = o.2

theorem step_intact {s t : Shared} {l : AliasLabel} (h : s.Intact)
    (hw : Undisturbed b clientID s l) (hs : step b stream clientID s l = some t) : t.Intact := by
  have he := step_effect h.placed.buf hs
  refine ⟨step_placed h.placed hs, ?_, ?_⟩
  · intro c hc
    rcases he.children c hc with hc | ⟨-, -, hread⟩
    · rw [he.store c.frame (h.placed.allocated c hc) fun w hm => hw w hm c hc]
      exact h.read c hc
    · exact hread
  · intro o ho
    rcases he.obtained o ho with ho | ⟨c, hc, rfl⟩
    · exact h.obtained o ho
    · exact h.read c hc

/-- **Queued batch messages.** In every run whose steps overwrite no byte of a
child that is still referenced, every writer obtains exactly the bytes the
sub-frame had when it was enqueued, and every queued child still reads them. -/
theorem queued_batch_immutable (b : Broker) (stream : Stream) (clientID : Bytes) (s t : Shared)
    (ls : List AliasLabel) (hs : s.Started)
    (hw : Transition.Meets (step b stream clientID) (Undisturbed b clientID) s ls)
    (hr : Transition.run (step b stream clientID) s ls = some t) :
    (∀ o ∈ t.obtained, o.1 = o.2) ∧ ∀ c ∈ t.children, t.store.read c.frame = c.enqueued := by
  obtain ⟨hb, hq, hh, ho⟩ := hs
  have h0 : s.Intact :=
    ⟨⟨hb, by simp [children, hq, hh], by simp [children, hq, hh]⟩,
      by simp [children, hq, hh], by simp [ho]⟩
  have ht := Transition.run_invariant (fun _ _ _ => step_intact) h0 hw hr
  exact ⟨ht.obtained, ht.read⟩

/-! ## One stream that sends a batch -/

/-- A stream with a 64-byte read buffer. -/
def fresh : Shared :=
  ⟨fun _ => List.replicate 64 0, 1, 0, 0, 64, 0, .top, 0, [], [], []⟩

/-- A batch with one publish to `topic`. -/
def batchOf (topic : Bytes) : Bytes :=
  serializeFrame cmdPublishBatch 0 (serializeFrame cmdPublish 0 topic)

/-- The batch is read and dispatched, then the buffer is compacted; nothing is
left over. -/
def batchArrives (topic : Bytes) : List AliasLabel :=
  [.read (batchOf topic), .dispatch fun _ => [0], .dispatch fun _ => []]

theorem prompt_writer_gets_the_batch :
    ∃ t, fresh.Started ∧
      Transition.run (step routedBroker ⟨0, 0⟩ []) fresh
        (batchArrives (ascii "a") ++ [.fetch 0, .copyOut 0]) = some t ∧
      t.obtained.length = 1 ∧ ∀ o ∈ t.obtained, o.1 = o.2 := by
  have hs : fresh.Started := ⟨by decide, rfl, rfl, rfl⟩
  have hrun : (Transition.run (step routedBroker ⟨0, 0⟩ []) fresh
      (batchArrives (ascii "a") ++ [.fetch 0, .copyOut 0])).map (·.obtained.length) =
      some 1 := by decide
  obtain ⟨t, ht, hlen⟩ := Option.map_eq_some_iff.mp hrun
  exact ⟨t, hs, ht, hlen, (queued_batch_immutable _ _ _ fresh t _ hs (by decide) ht).1⟩

/-- The next frame of the same stream overwrites the queued message: the
writer obtains other bytes than were enqueued. -/
theorem queued_batch_overwritten :
    ∃ t, fresh.Started ∧
      Transition.run (step routedBroker ⟨0, 0⟩ []) fresh
        (batchArrives (ascii "a") ++ [.read (batchOf (ascii "b")), .fetch 0, .copyOut 0]) = some t ∧
      ∃ o ∈ t.obtained, o.1 ≠ o.2 := by
  have hrun : (Transition.run (step routedBroker ⟨0, 0⟩ []) fresh
      (batchArrives (ascii "a") ++ [.read (batchOf (ascii "b")), .fetch 0, .copyOut 0])).map
      (·.obtained) = some [(serializeFrame cmdPublish 0 (ascii "b"),
        serializeFrame cmdPublish 0 (ascii "a"))] := by decide
  obtain ⟨t, ht, ho⟩ := Option.map_eq_some_iff.mp hrun
  refine ⟨t, ⟨by decide, rfl, rfl, rfl⟩, ht, _, ho ▸ List.mem_singleton_self _, by decide⟩

end Shared

end Aqueduct.Transport
