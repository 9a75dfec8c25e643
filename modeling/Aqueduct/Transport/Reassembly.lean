import Aqueduct.Lib.Framing
import Aqueduct.Lib.Run
import Aqueduct.Protocol.Codec
import Aqueduct.Transport.LogSizes

/-!
Reassembly of frames from the chunks a stream arrives in. `frameVerdict` says
what the next frame of a stream is without any buffer; `greedyParse` repeats it
over the whole stream. The read loop of `internal/transport/broker.go` with its
compaction and growth routes the same frames, whatever the reads return, as long
as `WriteFrame` does not panic on one of them (`reassembly_ignores_chunks`). The
read buffers come from the pool of `internal/transport/processor.go`, which is
shared by all streams.
-/

namespace Aqueduct.Transport

open ByteStr Framing Aqueduct.Protocol Aqueduct.Broker Aqueduct.Aal

/-! ## The greedy parse -/

/-- The first frame of a stream: oversized frames are refused by their header,
other frames are judged when they are complete. -/
def frameVerdict (b : Broker) (stream : Stream) (clientID bytes : Bytes) :
    Verdict Handled DispatchError :=
  if bytes.length < headerSize then .incomplete
  else
    let totalLen := headerSize + le (slice bytes 6 4)
    if totalLen > b.maxBufSize then .stop .oversizedPayload
    else if bytes.length < totalLen then .incomplete
    else
      match parseFrame bytes with
      | .error e => .stop (.parse e)
      | .ok frame =>
        match authorize b clientID frame with
        | (_, false) => .stop .unauthorized
        | (queries, true) =>
          let logged :=
            if (frame.command = cmdPublish ∨ frame.command = cmdPublishBatch) ∧ b.aal then
              [bytes.take totalLen]
            else []
          .item ⟨frame, queries, logged, routeFrame b stream frame clientID⟩ totalLen

section Verdict

variable {b : Broker} {stream : Stream} {clientID bytes : Bytes}

/-- Everything an item says about the bytes it was cut from. -/
theorem frameVerdict_item {h : Handled} {n : Nat}
    (hv : frameVerdict b stream clientID bytes = .item h n) :
    parseFrame bytes = .ok h.frame ∧ n = headerSize + le (slice bytes 6 4) ∧ n ≤ bytes.length ∧
      h.calls = routeFrame b stream h.frame clientID ∧
      h.logged = if (h.frame.command = cmdPublish ∨ h.frame.command = cmdPublishBatch) ∧ b.aal then
        [bytes.take n] else [] := by
  unfold frameVerdict at hv
  dsimp only at hv
  split at hv
  · cases hv
  split at hv
  · cases hv
  split at hv
  · cases hv
  next hfit =>
  split at hv
  · cases hv
  next frame hp =>
  split at hv
  · cases hv
  cases hv
  exact ⟨hp, rfl, Nat.le_of_not_lt hfit, rfl, rfl⟩

/-- A verdict is final: bytes behind the frame do not change it. -/
theorem frameVerdict_append (hv : frameVerdict b stream clientID bytes ≠ .incomplete)
    (rest : Bytes) :
    frameVerdict b stream clientID (bytes ++ rest) = frameVerdict b stream clientID bytes := by
  have hlen : (bytes ++ rest).length = bytes.length + rest.length := List.length_append
  unfold frameVerdict at hv ⊢
  dsimp only at hv ⊢
  by_cases hh : bytes.length < headerSize
  · rw [if_pos hh] at hv
    exact absurd rfl hv
  have hh' : ¬ (bytes ++ rest).length < headerSize := by omega
  have hten : 10 ≤ bytes.length := Nat.le_of_not_lt hh
  rw [if_neg hh] at hv
  rw [if_neg hh, if_neg hh', slice_append_of_le (i := 6) (by omega)]
  by_cases hbig : headerSize + le (slice bytes 6 4) > b.maxBufSize
  · rw [if_pos hbig, if_pos hbig]
  rw [if_neg hbig] at hv
  rw [if_neg hbig, if_neg hbig]
  by_cases hfit : bytes.length < headerSize + le (slice bytes 6 4)
  · rw [if_pos hfit] at hv
    exact absurd rfl hv
  have hfit' : ¬ (bytes ++ rest).length < headerSize + le (slice bytes 6 4) := by omega
  rw [if_neg hfit, if_neg hfit', parseFrame_append (Nat.le_of_not_lt hh) (Nat.le_of_not_lt hfit),
    List.take_append_of_le_length (Nat.le_of_not_lt hfit)]

/-- What is incomplete is shorter than the largest frame. -/
theorem frameVerdict_incomplete (hmax : headerSize ≤ b.maxBufSize)
    (hv : frameVerdict b stream clientID bytes = .incomplete) : bytes.length < b.maxBufSize := by
  unfold frameVerdict at hv
  dsimp only at hv
  split at hv
  · omega
  split at hv
  · cases hv
  split at hv
  · omega
  split at hv
  · cases hv
  · split at hv <;> cases hv

end Verdict

def frameCutter (b : Broker) (stream : Stream) (clientID : Bytes) :
    Cutter UInt8 Handled DispatchError where
  next := frameVerdict b stream clientID
  next_nil := rfl
  item_length := fun hv => by
    obtain ⟨-, rfl, hle, -⟩ := frameVerdict_item hv
    exact ⟨by unfold headerSize; omega, hle⟩
  item_append := fun hv rest => (frameVerdict_append (by simp [hv]) rest).trans hv
  stop_append := fun hv rest => (frameVerdict_append (by simp [hv]) rest).trans hv

@[simp] theorem frameCutter_next (b : Broker) (stream : Stream) (clientID bytes : Bytes) :
    (frameCutter b stream clientID).next bytes = frameVerdict b stream clientID bytes := rfl

/-- The frames of the stream up to the first that is oversized, unparsable or
denied, or up to a partial one. -/
def greedyParse (b : Broker) (stream : Stream) (clientID bytes : Bytes) :
    List Handled × Except DispatchError Bytes :=
  (frameCutter b stream clientID).drain bytes

/-! ## One pass over the buffer -/

/-- Without compression `prepareFrame` gives the verdict. -/
theorem prepareFrame_verdict {b : Broker} (hmax : headerSize ≤ b.maxBufSize)
    (hc : b.compression = none) (stream : Stream) (clientID unread : Bytes) (total : Int) :
    prepareFrame b clientID unread total =
      (match frameVerdict b stream clientID unread with
        | .incomplete => .incomplete
        | .stop e => .failed e
        | .item h n => .ready h.frame n h.queries h.logged, total) := by
  unfold prepareFrame frameVerdict
  dsimp only
  by_cases hh : unread.length < headerSize
  · rw [if_pos hh, if_pos hh, if_neg (by omega)]
  rw [if_neg hh, if_neg hh]
  have hdecl := payloadLenAt_toNat (Nat.le_of_not_lt hh)
  rw [hdecl]
  by_cases hbig : headerSize + le (slice unread 6 4) > b.maxBufSize
  · rw [if_pos (.inr hbig), if_pos hbig]
  rw [if_neg (by omega), if_neg hbig]
  by_cases hfit : unread.length < headerSize + le (slice unread 6 4)
  · rw [if_pos hfit, if_pos hfit]
  rw [if_neg hfit, if_neg hfit]
  have htake : (unread.take (headerSize + le (slice unread 6 4))).length =
      headerSize + le (slice unread 6 4) := by
    rw [List.length_take]
    omega
  cases hp : parseFrame unread with
  | error e => rfl
  | ok frame =>
    have hplain : decompressFrame b frame total = (.unchanged, total) := by
      simp [decompressFrame, hc]
    simp only [admitFrame, hplain]
    cases hauth : authorize b clientID frame with
    | mk queries allowed =>
      cases allowed with
      | false => rfl
      | true => simp only [htake]

theorem dispatchLoop_drain {b : Broker} (hmax : headerSize ≤ b.maxBufSize)
    (hc : b.compression = none) (stream : Stream) (clientID : Bytes) (fuel : Nat) (unread : Bytes)
    (total : Int) :
    dispatchLoop b stream clientID fuel unread total =
      (((frameCutter b stream clientID).drainLoop fuel unread).1,
        ((frameCutter b stream clientID).drainLoop fuel unread).2, total) := by
  induction fuel generalizing unread with
  | zero => rfl
  | succ fuel ih =>
    unfold dispatchLoop Cutter.drainLoop
    split
    · next hnil =>
      subst hnil
      rfl
    · rw [prepareFrame_verdict hmax hc stream, frameCutter_next]
      cases hv : frameVerdict b stream clientID unread with
      | incomplete => rfl
      | stop e => rfl
      | item h n =>
        dsimp only
        rw [ih, ← (frameVerdict_item hv).2.2.2.1]

theorem dispatchFrames_drain {b : Broker} (hmax : headerSize ≤ b.maxBufSize)
    (hc : b.compression = none) (stream : Stream) (clientID buf : Bytes) (total : Int) :
    dispatchFrames b stream clientID buf total =
      ((greedyParse b stream clientID buf).1, (greedyParse b stream clientID buf).2, total) :=
  dispatchLoop_drain hmax hc stream clientID _ _ _

/-! ## The read loop -/

/-- The read loop with its end: `none` is a stream that was torn down. -/
def readLoop (b : Broker) (stream : Stream) (clientID : Bytes) :
    LoopState → List Bytes → List Handled × Option LoopState
  | st, [] => ([], some st)
  | st, chunk :: chunks =>
    let (hs, st') := beforeRead b stream clientID st
    match st' with
    | none => (hs, none)
    | some st' =>
      match dispatchFrames b stream clientID (st'.data ++ chunk) st'.decompressedBytes with
      | (hs', .error _, _) => (hs ++ hs', none)
      | (hs', .ok data, total) =>
        let (rest, out) :=
          readLoop b stream clientID { st' with data := data, decompressedBytes := total } chunks
        (hs ++ hs' ++ rest, out)

/-- The chunks are what reads can return: not empty, and no longer than the
room in the buffer at that moment. -/
def Reads (b : Broker) (stream : Stream) (clientID : Bytes) : LoopState → List Bytes → Prop
  | _, [] => True
  | st, chunk :: chunks =>
    match (beforeRead b stream clientID st).2 with
    | none => True
    | some st' =>
      chunk ≠ [] ∧ chunk.length ≤ st'.len - st'.data.length ∧
        match dispatchFrames b stream clientID (st'.data ++ chunk) st'.decompressedBytes with
        | (_, .error _, _) => True
        | (_, .ok data, total) =>
          Reads b stream clientID { st' with data := data, decompressedBytes := total } chunks

instance decidableReads (b : Broker) (stream : Stream) (clientID : Bytes) :
    ∀ st chunks, Decidable (Reads b stream clientID st chunks)
  | _, [] => isTrue trivial
  | st, chunk :: chunks =>
    match hst : (beforeRead b stream clientID st).2 with
    | none => isTrue (by simp [Reads, hst])
    | some st' =>
      match hd : dispatchFrames b stream clientID (st'.data ++ chunk) st'.decompressedBytes with
      | (_, .error _, _) =>
        decidable_of_iff (chunk ≠ [] ∧ chunk.length ≤ st'.len - st'.data.length)
          (by simp [Reads, hst, hd])
      | (_, .ok data, total) =>
        have := decidableReads b stream clientID
          { st' with data := data, decompressedBytes := total } chunks
        decidable_of_iff (chunk ≠ [] ∧ chunk.length ≤ st'.len - st'.data.length ∧
            Reads b stream clientID { st' with data := data, decompressedBytes := total } chunks)
          (by simp [Reads, hst, hd])

/-- On possible reads the loop routes what `readLoop` says. -/
theorem runStreamReadLoop_eq {b : Broker} {stream : Stream} {clientID : Bytes} {st : LoopState}
    {chunks : List Bytes} (h : Reads b stream clientID st chunks) :
    runStreamReadLoop b stream clientID st chunks = (readLoop b stream clientID st chunks).1 := by
  induction chunks generalizing st with
  | nil => rfl
  | cons chunk chunks ih =>
    unfold runStreamReadLoop readLoop
    dsimp only
    cases hst : (beforeRead b stream clientID st).2 with
    | none => rfl
    | some st' =>
      simp only [Reads, hst] at h
      obtain ⟨hne, hroom, hrest⟩ := h
      dsimp only
      rw [if_neg (by omega), if_neg hne]
      cases hd : dispatchFrames b stream clientID (st'.data ++ chunk) st'.decompressedBytes with
      | mk hs out =>
        obtain ⟨out, total⟩ := out
        cases out with
        | error e => rfl
        | ok data =>
          simp only [hd] at hrest
          dsimp only
          rw [ih hrest]

/-- Between two reads: the buffer is used to its capacity and holds no
complete frame. -/
structure Ready (b : Broker) (stream : Stream) (clientID : Bytes) (st : LoopState) : Prop where
  partialFrame : frameVerdict b stream clientID st.data = .incomplete
  full : st.len = st.cap
  fits : st.data.length ≤ st.cap
  pos : 0 < st.cap

section Loop

variable {b : Broker} (hmax : headerSize ≤ b.maxBufSize) (hc : b.compression = none)
  {stream : Stream} {clientID : Bytes} {st : LoopState} (hst : Ready b stream clientID st)

include hmax hc hst

/-- Before a read there is room: a full buffer holds a part of a frame that
may still grow, so it is below the limit and is enlarged. -/
theorem Ready.beforeRead_room :
    ∃ st', beforeRead b stream clientID st = ([], some st') ∧ Ready b stream clientID st' ∧
      st'.data = st.data ∧ st'.data.length < st'.len := by
  have hfits := hst.fits
  unfold beforeRead
  by_cases hfull : st.data.length = st.cap
  · have hsmall := frameVerdict_incomplete hmax hst.partialFrame
    have hdrain : greedyParse b stream clientID st.data = ([], .ok st.data) :=
      Cutter.drain_incomplete (c := frameCutter b stream clientID) hst.partialFrame
    have hpos := hst.pos
    rw [if_pos hfull]
    unfold drainAndMaybeGrow
    rw [dispatchFrames_drain hmax hc, hdrain]
    dsimp only
    rw [if_neg (not_not.mpr hfull), if_neg (by omega)]
    refine ⟨_, rfl, ⟨hst.partialFrame, rfl, ?_, ?_⟩, rfl, ?_⟩
    all_goals dsimp only; omega
  · rw [if_neg hfull]
    refine ⟨st, rfl, hst, rfl, ?_⟩
    have hlen := hst.full
    omega

omit hmax hc in
/-- After a read that fits the buffer and whose frames were cut off. -/
theorem Ready.next {chunk data : Bytes} {hs : List Handled}
    (hroom : chunk.length ≤ st.len - st.data.length)
    (hd : (frameCutter b stream clientID).drain (st.data ++ chunk) = (hs, .ok data)) (total : Int) :
    Ready b stream clientID { st with data := data, decompressedBytes := total } := by
  obtain ⟨hincomplete, hsuffix⟩ := Cutter.drain_rest hd
  have hlen := hsuffix.length_le
  refine ⟨hincomplete, hst.full, ?_, hst.pos⟩
  have hfull := hst.full
  have hfits := hst.fits
  rw [List.length_append] at hlen
  dsimp only
  omega

omit hst in
/-- A stream can always be read byte by byte. -/
theorem reads_bytes (bytes : Bytes) {st : LoopState} (hst : Ready b stream clientID st) :
    Reads b stream clientID st (bytes.map fun x => [x]) := by
  induction bytes generalizing st with
  | nil => trivial
  | cons x bytes ih =>
    obtain ⟨st', hbefore, hready, -, hroom⟩ := hst.beforeRead_room hmax hc
    simp only [List.map_cons, Reads, hbefore, dispatchFrames_drain hmax hc]
    refine ⟨List.cons_ne_nil _ _, by rw [List.length_singleton]; omega, ?_⟩
    cases hd : (frameCutter b stream clientID).drain (st'.data ++ [x]) with
    | mk hs out =>
      rw [greedyParse, hd]
      cases out with
      | error e => trivial
      | ok data => exact ih (hready.next (by rw [List.length_singleton]; omega) hd _)

omit hst in
theorem readLoop_feed {chunks : List Bytes} {st : LoopState} (hst : Ready b stream clientID st)
    (h : Reads b stream clientID st chunks) :
    (readLoop b stream clientID st chunks).1 =
        ((frameCutter b stream clientID).feed st.data chunks).1 ∧
      match ((frameCutter b stream clientID).feed st.data chunks).2 with
      | .error _ => (readLoop b stream clientID st chunks).2 = none
      | .ok rest => ∃ st', (readLoop b stream clientID st chunks).2 = some st' ∧ st'.data = rest ∧
          Ready b stream clientID st' := by
  induction chunks generalizing st with
  | nil => exact ⟨rfl, st, rfl, rfl, hst⟩
  | cons chunk chunks ih =>
    obtain ⟨st', hbefore, hready, hdata, -⟩ := hst.beforeRead_room hmax hc
    simp only [Reads, hbefore] at h
    obtain ⟨-, hroom, hrest⟩ := h
    have hdispatch := dispatchFrames_drain hmax hc stream clientID (st'.data ++ chunk)
      st'.decompressedBytes
    unfold readLoop Cutter.feed
    rw [hbefore]
    dsimp only
    rw [hdispatch, ← hdata]
    cases hd : (frameCutter b stream clientID).drain (st'.data ++ chunk) with
    | mk hs out =>
      rw [greedyParse, hd] at hdispatch ⊢
      rw [hdispatch] at hrest
      cases out with
      | error e => exact ⟨rfl, rfl⟩
      | ok data =>
        obtain ⟨h1, h2⟩ := ih (hready.next hroom hd _) hrest
        exact ⟨by simp only [Drained.andThen, h1, List.nil_append], h2⟩

end Loop

/-! ## The buffer pool -/

/-- The capacities of the free buffers and of those that streams read into. A
stream returns the buffer it got, also when it grew another one. -/
structure ReadBufPool where
  free : List Nat
  used : List Nat

/-- Length and capacity of what `GetBuf` makes of a pooled buffer. -/
def getBuf (pooled minCap : Nat) : Nat × Nat :=
  if pooled < minCap then (minCap, minCap) else (minCap, pooled)

/-- A stream starts with free buffer `i` or, when there is none, a new one; a
stream ends; the runtime drops a free buffer. -/
inductive PoolEvent
  | get (i : Nat)
  | put (j : Nat)
  | drop (i : Nat)

namespace ReadBufPool

/-- The buffer `sync.Pool` hands out. -/
def pick (p : ReadBufPool) (i : Nat) : Nat := p.free.getD i defaultReadBufSize

def step (readBufSize : Nat) (p : ReadBufPool) : PoolEvent → Option ReadBufPool
  | .get i => some ⟨p.free.eraseIdx i, p.used ++ [(getBuf (p.pick i) readBufSize).2]⟩
  | .put j => (p.used[j]?).map fun cap =>
    ⟨if cap < defaultReadBufSize then p.free else cap :: p.free, p.used.eraseIdx j⟩
  | .drop i => some ⟨p.free.eraseIdx i, p.used⟩

/-- Buffers have the default capacity or the size that is always asked for. -/
structure Inv (readBufSize : Nat) (p : ReadBufPool) : Prop where
  free : ∀ cap ∈ p.free, cap = defaultReadBufSize ∨ cap = readBufSize
  used : ∀ cap ∈ p.used, cap = readBufSize

theorem Inv.pick {readBufSize : Nat} {p : ReadBufPool} (h : p.Inv readBufSize) (i : Nat) :
    p.pick i = defaultReadBufSize ∨ p.pick i = readBufSize := by
  unfold ReadBufPool.pick
  rw [List.getD_eq_getElem?_getD]
  cases hi : p.free[i]? with
  | none => exact .inl rfl
  | some cap => exact h.free cap (List.mem_of_getElem? hi)

theorem Inv.getBuf_eq {readBufSize : Nat} (hsize : defaultReadBufSize ≤ readBufSize)
    {p : ReadBufPool} (h : p.Inv readBufSize) (i : Nat) :
    getBuf (p.pick i) readBufSize = (readBufSize, readBufSize) := by
  unfold getBuf
  rcases h.pick i with hcap | hcap <;> rw [hcap]
  · split
    · rfl
    · exact Prod.ext rfl (by dsimp only; omega)
  · simp

theorem step_inv {readBufSize : Nat} (hsize : defaultReadBufSize ≤ readBufSize)
    {p p' : ReadBufPool} {e : PoolEvent} (h : p.Inv readBufSize)
    (hs : step readBufSize p e = some p') : p'.Inv readBufSize := by
  cases e with
  | get i =>
    obtain rfl := Option.some.inj hs
    refine ⟨fun cap hm => h.free cap (List.mem_of_mem_eraseIdx hm), fun cap hm => ?_⟩
    rcases List.mem_append.mp hm with hm | hm
    · exact h.used cap hm
    · rw [List.mem_singleton.mp hm, h.getBuf_eq hsize]
  | put j =>
    obtain ⟨cap, hj, rfl⟩ := Option.map_eq_some_iff.mp hs
    have hcap := h.used cap (List.mem_of_getElem? hj)
    refine ⟨fun c hm => ?_, fun c hm => h.used c (List.mem_of_mem_eraseIdx hm)⟩
    dsimp only at hm
    split at hm
    · exact h.free c hm
    · rcases List.mem_cons.mp hm with rfl | hm
      · exact .inr hcap
      · exact h.free c hm
  | drop i =>
    obtain rfl := Option.some.inj hs
    exact ⟨fun cap hm => h.free cap (List.mem_of_mem_eraseIdx hm), h.used⟩

end ReadBufPool

/-- The state `HandleStream` starts the read loop in, with pooled buffer `i`. -/
def startLoop (b : Broker) (p : ReadBufPool) (i : Nat) : LoopState :=
  initialLoop b (getBuf (p.pick i) b.readBufSize).2

section Start

variable {b : Broker} (hread : 1024 ≤ b.readBufSize) {events : List PoolEvent} {pool : ReadBufPool}
  (hpool : Transition.run (ReadBufPool.step b.readBufSize) ⟨[], []⟩ events = some pool)

include hread hpool

/-- Whatever buffers earlier streams left in the pool. -/
theorem startLoop_ready (stream : Stream) (clientID : Bytes) (i : Nat) :
    (startLoop b pool i).data = [] ∧ Ready b stream clientID (startLoop b pool i) := by
  have hinv : pool.Inv b.readBufSize :=
    Transition.run_invariant_all (fun _ _ _ => ReadBufPool.step_inv hread)
      ⟨by simp, by simp⟩ hpool
  have hstart : startLoop b pool i = ⟨[], b.readBufSize, b.readBufSize, 0⟩ := by
    rw [startLoop, hinv.getBuf_eq hread]
    rfl
  rw [hstart]
  exact ⟨rfl, rfl, rfl, Nat.zero_le _, by dsimp only; omega⟩

/-- What the loop hands on, and how it ends. -/
theorem readLoop_reassembles (hmax : headerSize ≤ b.maxBufSize) (hc : b.compression = none)
    {stream : Stream} {clientID : Bytes} {i : Nat} {chunks : List Bytes}
    (h : Reads b stream clientID (startLoop b pool i) chunks) :
    runStreamReadLoop b stream clientID (startLoop b pool i) chunks =
        (greedyParse b stream clientID chunks.flatten).1 ∧
      match (greedyParse b stream clientID chunks.flatten).2 with
      | .error _ => (readLoop b stream clientID (startLoop b pool i) chunks).2 = none
      | .ok rest => ∃ st st',
          (readLoop b stream clientID (startLoop b pool i) chunks).2 = some st ∧ st.data = rest ∧
          beforeRead b stream clientID st = ([], some st') ∧ st'.data.length < st'.len := by
  obtain ⟨hdata, hready⟩ := startLoop_ready hread hpool stream clientID i
  obtain ⟨hframes, hend⟩ := readLoop_feed hmax hc hready h
  have hnext : (frameCutter b stream clientID).next (startLoop b pool i).data = .incomplete := by
    rw [frameCutter_next]
    exact hready.partialFrame
  have hfeed := Cutter.feed_eq hnext chunks
  rw [hfeed, hdata, List.nil_append] at hframes hend
  refine ⟨(runStreamReadLoop_eq h).trans hframes, ?_⟩
  unfold greedyParse
  split
  · next e he =>
    rw [he] at hend
    exact hend
  · next rest hr =>
    rw [hr] at hend
    obtain ⟨st, hst, hdata, hready⟩ := hend
    obtain ⟨st', hbefore, -, -, hroom⟩ := hready.beforeRead_room hmax hc
    exact ⟨st, st', hst, hdata, hbefore, hroom⟩

end Start

/-! ## The log -/

/-- The frames that are routed when their log writes are carried out. A frame is
written before it is routed, and the panic of `WriteFrame` ends the process. -/
def withLog (log : Log) : List Handled → List Handled
  | [] => []
  | h :: hs =>
    match h.logged.foldlM Log.writeFrame log with
    | none => []
    | some log => h :: withLog log hs

/-- The records of the frame fit the buffer of `WriteFrame`. -/
def Handled.Fits (aead : Option Aead) (h : Handled) : Prop :=
  ∀ raw ∈ h.logged, recordLen aead raw ≤ poolBufSize

theorem writeFrames_cases (raws : List Bytes) (log : Log) :
    ((∀ raw ∈ raws, recordLen log.aead raw ≤ poolBufSize) ∧
        ∃ log', raws.foldlM Log.writeFrame log = some log' ∧ log'.aead = log.aead) ∨
      (¬ (∀ raw ∈ raws, recordLen log.aead raw ≤ poolBufSize) ∧
        raws.foldlM Log.writeFrame log = none) := by
  induction raws generalizing log with
  | nil => exact .inl ⟨by simp, log, rfl, rfl⟩
  | cons raw raws ih =>
    rw [List.foldlM_cons, List.forall_mem_cons]
    rcases writeFrame_cases log raw with ⟨hbig, hnone⟩ | ⟨hfits, l', -, hsome, -⟩
    · rw [hnone]
      exact .inr ⟨fun h => Nat.not_lt.mpr h.1 hbig, rfl⟩
    · have haead := writeFrame_aead hsome
      rw [hsome]
      rcases ih l' with ⟨hall, log', hrun, hlog'⟩ | ⟨hnot, hrun⟩
      · exact .inl ⟨⟨hfits, haead ▸ hall⟩, log', hrun, hlog'.trans haead⟩
      · exact .inr ⟨fun h => hnot (haead ▸ h.2), hrun⟩

theorem withLog_eq_iff (log : Log) (hs : List Handled) :
    withLog log hs = hs ↔ ∀ h ∈ hs, h.Fits log.aead := by
  induction hs generalizing log with
  | nil => simp [withLog]
  | cons h hs ih =>
    rw [withLog, List.forall_mem_cons]
    rcases writeFrames_cases h.logged log with ⟨hfits, log', hrun, haead⟩ | ⟨hnot, hrun⟩
    · rw [hrun]
      dsimp only
      rw [List.cons_inj_right, ih, haead]
      exact (and_iff_right hfits).symm
    · rw [hrun]
      exact iff_of_false (by simp) fun hall => hnot hall.1

/-- **Reassembly.** Whatever buffers earlier streams left in the pool and
whatever the reads return, the loop routes the frames of the greedy parse of
the whole stream, tears the stream down when the parse stops at a frame, and
otherwise holds the partial frame and has room for the next read, exactly if the
record of every frame that is logged fits the buffer of `WriteFrame`. -/
theorem reassembly_ignores_chunks (b : Broker) (hread : 1024 ≤ b.readBufSize)
    (hmax : 10 ≤ b.maxBufSize) (hc : b.compression = none) (log : Log) (stream : Stream)
    (clientID : Bytes) (events : List PoolEvent) (pool : ReadBufPool)
    (hpool : Transition.run (ReadBufPool.step b.readBufSize) ⟨[], []⟩ events = some pool) (i : Nat)
    (chunks : List Bytes) (h : Reads b stream clientID (startLoop b pool i) chunks) :
    (withLog log (runStreamReadLoop b stream clientID (startLoop b pool i) chunks) =
        (greedyParse b stream clientID chunks.flatten).1 ∧
      match (greedyParse b stream clientID chunks.flatten).2 with
      | .error _ => (readLoop b stream clientID (startLoop b pool i) chunks).2 = none
      | .ok rest => ∃ st st',
          (readLoop b stream clientID (startLoop b pool i) chunks).2 = some st ∧ st.data = rest ∧
          beforeRead b stream clientID st = ([], some st') ∧ st'.data.length < st'.len) ↔
      ∀ h ∈ (greedyParse b stream clientID chunks.flatten).1, h.Fits log.aead := by
  obtain ⟨hframes, hend⟩ := readLoop_reassembles hread hpool hmax hc h
  rw [hframes, withLog_eq_iff]
  exact and_iff_left hend

/-- An empty log with a cipher. -/
def sealedLog : Log := ⟨[], some plainAead, 5, 0⟩

/-- A publish that arrives in two pieces, the cut inside its header. -/
theorem split_publish_reassembled :
    withLog sealedLog (runStreamReadLoop loggingBroker ⟨0, 0⟩ (ascii "c")
        (startLoop loggingBroker ⟨[], []⟩ 0)
        [(serializeFrame cmdPublish 0 (ascii "t")).take 3,
          (serializeFrame cmdPublish 0 (ascii "t")).drop 3]) =
      (greedyParse loggingBroker ⟨0, 0⟩ (ascii "c") (serializeFrame cmdPublish 0 (ascii "t"))).1 :=
  ((reassembly_ignores_chunks loggingBroker (by decide) (by decide) rfl sealedLog ⟨0, 0⟩ (ascii "c")
    [] ⟨[], []⟩ rfl 0 [(serializeFrame cmdPublish 0 (ascii "t")).take 3,
      (serializeFrame cmdPublish 0 (ascii "t")).drop 3] (by decide)).mpr (by
        unfold Handled.Fits
        decide)).1

theorem panics_of_length {payload : Bytes} (hbytes : payload.length = 65511) :
    ∃ chunks, chunks.flatten = serializeFrame cmdPublish 0 payload ∧
      Reads loggingBroker ⟨0, 0⟩ (ascii "c") (startLoop loggingBroker ⟨[], []⟩ 0) chunks ∧
      (greedyParse loggingBroker ⟨0, 0⟩ (ascii "c") chunks.flatten).1 ≠ [] ∧
      withLog sealedLog (runStreamReadLoop loggingBroker ⟨0, 0⟩ (ascii "c")
        (startLoop loggingBroker ⟨[], []⟩ 0) chunks) = [] := by
  have hlen := serializeFrame_length cmdPublish 0 (show payload.length < 2 ^ 32 by omega)
  rw [hbytes] at hlen
  obtain ⟨n, hready⟩ := prepareFrame_publish (b := loggingBroker) rfl rfl rfl
    payload (by rw [hbytes]; decide) (by omega) (ascii "c") 0 0
  generalize serializeFrame cmdPublish 0 payload = frame at *
  rw [prepareFrame_verdict (by decide) rfl ⟨0, 0⟩] at hready
  obtain ⟨h, m, hv, hlogged⟩ : ∃ h m,
      frameVerdict loggingBroker ⟨0, 0⟩ (ascii "c") frame = .item h m ∧ h.logged = [frame] := by
    cases hv : frameVerdict loggingBroker ⟨0, 0⟩ (ascii "c") frame with
    | incomplete => simp [hv] at hready
    | stop e => simp [hv] at hready
    | item h m =>
      simp only [hv, Prod.mk.injEq, Prepared.ready.injEq] at hready
      exact ⟨h, m, rfl, hready.1.2.2.2⟩
  have hflat : (frame.map fun x => [x]).flatten = frame := by
    simp [← List.flatMap_def]
  have hparse : greedyParse loggingBroker ⟨0, 0⟩ (ascii "c") frame = _ :=
    Cutter.drain_item (c := frameCutter loggingBroker ⟨0, 0⟩ (ascii "c")) hv
  have hpool : Transition.run (ReadBufPool.step loggingBroker.readBufSize) ⟨[], []⟩ [] =
    some ⟨[], []⟩ := rfl
  have hreads := reads_bytes (by decide) rfl frame
    (startLoop_ready (by decide) hpool ⟨0, 0⟩ (ascii "c") 0).2
  have hloop := (readLoop_reassembles (by decide) hpool (by decide) rfl hreads).1
  have hpanic : sealedLog.writeFrame frame = none := by
    rcases writeFrame_cases sealedLog frame with ⟨-, hnone⟩ | ⟨hfits, -⟩
    · exact hnone
    · simp [sealedLog, recordLen, hlen, poolBufSize, headerSize] at hfits
  refine ⟨_, hflat, hreads, ?_, ?_⟩
  · rw [hflat, hparse]
    exact List.cons_ne_nil _ _
  · rw [hloop, hflat, hparse]
    simp [withLog, hlogged, hpanic]

/-- With the default sizes and an encrypted log a publish of 65521 bytes is
admitted, and its record is one byte longer than the buffer of `WriteFrame`: the
process panics before it is routed. -/
theorem large_publish_panics :
    ∃ chunks, chunks.flatten = serializeFrame cmdPublish 0 (List.replicate 65511 97) ∧
      Reads loggingBroker ⟨0, 0⟩ (ascii "c") (startLoop loggingBroker ⟨[], []⟩ 0) chunks ∧
      (greedyParse loggingBroker ⟨0, 0⟩ (ascii "c") chunks.flatten).1 ≠ [] ∧
      withLog sealedLog (runStreamReadLoop loggingBroker ⟨0, 0⟩ (ascii "c")
        (startLoop loggingBroker ⟨[], []⟩ 0) chunks) = [] :=
  panics_of_length List.length_replicate

end Aqueduct.Transport
