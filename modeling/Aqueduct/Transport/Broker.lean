import Aqueduct.Broker.Slots

/-!
The stream side of `internal/transport/broker.go`: the read loop, the frame
gate `prepareFrame` and the dispatchers behind it. What a frame does to the
outside is recorded in a `Handled` entry: the ACL queries and log writes of
`prepareFrame`, then the router and handler calls of `routeFrame`. The read
buffer is kept as its live bytes `buf[:off]` with its length and capacity.
-/

namespace Aqueduct.Transport

open ByteStr Aqueduct.Protocol Aqueduct.Broker

/-- What a `transport.Broker` is configured with. `compression` is the
engine's `Decompress`, `handlers` the commands with a legacy handler. -/
structure Broker where
  hasRouter : Bool
  authz : Option Authz.Engine
  aal : Bool
  handlers : Command → Bool
  compression : Option (Bytes → Nat → Option Bytes)
  readBufSize : Nat
  maxBufSize : Nat
  maxDecompressedPerStream : Int
  /-- The running total of a stream and one more `uint32` fit into an `int64`. -/
  budget_le : maxDecompressedPerStream ≤ 0x7fffffff00000000

def defaultReadBufSize : Nat := 1024
def defaultMaxBufSize : Nat := 65536
def defaultMaxDecompressedPerStream : Int := 16777216

def newBroker : Broker where
  hasRouter := false
  authz := none
  aal := false
  handlers := fun _ => false
  compression := none
  readBufSize := defaultReadBufSize
  maxBufSize := defaultMaxBufSize
  maxDecompressedPerStream := defaultMaxDecompressedPerStream
  budget_le := by decide

def routedBroker : Broker := { newBroker with hasRouter := true }

/-! ## Effects -/

/-- One evaluation of `Engine.Allowed`. -/
structure AuthzQuery where
  clientID : Bytes
  topic : Bytes
  required : Authz.Permission
  answer : Bool
  deriving DecidableEq, Repr

inductive Call
  | subscribe (stream : Stream) (frame : Frame)
  | publishWithClientID (frame : Frame) (clientID : Bytes)
  | publishFromPeer (frame : Frame)
  | publishBatch (frame : Frame)
  | ackOffset (consumerID topic : Bytes) (offset : UInt64)
  | nackByStream (streamID : UInt32) (offset : UInt64)
  | handler (frame : Frame)
  deriving DecidableEq, Repr

/-- A frame that went through `prepareFrame` and then `routeFrame`. -/
structure Handled where
  frame : Frame
  queries : List AuthzQuery
  logged : List Bytes
  calls : List Call
  deriving DecidableEq, Repr

inductive DispatchError
  | oversizedPayload
  | bufferExceeded
  | unauthorized
  | frameDecompressionFailed
  | parse (e : FrameError)
  | panicked
  deriving DecidableEq, Repr

/-! ## The gate -/

def permissionForFrame (cmd : Command) : Authz.Permission :=
  if cmd = cmdPublish ∨ cmd = cmdPublishBatch then Authz.permPublish
  else if cmd = cmdSubscribe then Authz.permSubscribe
  else Authz.permNone

/-- The authorization check of `prepareFrame`: the query it makes, and whether
the frame may go on. -/
def authorize (b : Broker) (clientID : Bytes) (frame : Frame) : List AuthzQuery × Bool :=
  match b.authz with
  | none => ([], true)
  | some e =>
    let requiredPerm := permissionForFrame frame.command
    if requiredPerm ≠ Authz.permNone then
      let topicBytes := extractTopicBytes frame.payload
      let answer := Authz.allowed e clientID topicBytes requiredPerm
      ([⟨clientID, topicBytes, requiredPerm, answer⟩], answer)
    else ([], true)

inductive DecompressResult
  | unchanged
  | decompressed (frame : Frame)
  | failed
  | panicked

/-- `decompressFrame` with the stream's running total of decompressed bytes. -/
def decompressFrame (b : Broker) (frame : Frame) (decompressedBytes : Int) :
    DecompressResult × Int :=
  match b.compression with
  | none => (.unchanged, decompressedBytes)
  | some decompress =>
    match findExtension frame.extensions extCompression with
    | none => (.unchanged, decompressedBytes)
    | some extVal =>
      if extVal.length < extCompressionValueLen then (.unchanged, decompressedBytes)
      else
        let algo := extVal.getD 0 0
        let uncompressedSize := UInt32.ofNat (le (slice extVal 1 4))
        if algo ≠ algoZSTD ∨ uncompressedSize = 0 then (.unchanged, decompressedBytes)
        else if uncompressedSize > UInt32.ofNat b.maxBufSize * 16 then (.failed, decompressedBytes)
        else
          let newTotal := decompressedBytes + uncompressedSize.toNat
          if newTotal > b.maxDecompressedPerStream then (.failed, decompressedBytes)
          else
            match decompress frame.payload uncompressedSize.toNat with
            | none => (.failed, newTotal)
            | some payload =>
              match stripExtension frame.extensions extCompression with
              | none => (.panicked, newTotal)
              | some cleanExt =>
                (.decompressed { frame with
                  payloadLen := uncompressedSize
                  payload := payload
                  extensions := cleanExt }, newTotal)

inductive Prepared
  | incomplete
  | failed (e : DispatchError)
  | ready (frame : Frame) (totalLen : Nat) (queries : List AuthzQuery) (logged : List Bytes)
  deriving DecidableEq, Repr

/-- The checks of `prepareFrame` behind the parser. The frame the source goes
on with is the parsed one: it drops the decompressed frame. The write to the log
is recorded here and carried out where the log is at hand; its panic ends the
stream there. -/
def admitFrame (b : Broker) (clientID : Bytes) (frame : Frame) (raw : Bytes)
    (decompressedBytes : Int) : Prepared × Int :=
  match decompressFrame b frame decompressedBytes with
  | (.failed, total) => (.failed .frameDecompressionFailed, total)
  | (.panicked, total) => (.failed .panicked, total)
  | (_, total) =>
    match authorize b clientID frame with
    | (_, false) => (.failed .unauthorized, total)
    | (queries, true) =>
      let logged :=
        if (frame.command = cmdPublish ∨ frame.command = cmdPublishBatch) ∧ b.aal then [raw]
        else []
      (.ready frame raw.length queries logged, total)

/-- `prepareFrame` on the unread bytes `buf[consumed:off]`. -/
def prepareFrame (b : Broker) (clientID : Bytes) (unread : Bytes) (decompressedBytes : Int) :
    Prepared × Int :=
  if unread.length < headerSize then
    if unread.length > b.maxBufSize then (.failed .bufferExceeded, decompressedBytes)
    else (.incomplete, decompressedBytes)
  else
    let payloadLen := (payloadLenAt unread).toNat
    let totalLen := headerSize + payloadLen
    if payloadLen > b.maxBufSize ∨ totalLen > b.maxBufSize then
      (.failed .oversizedPayload, decompressedBytes)
    else if unread.length < totalLen then (.incomplete, decompressedBytes)
    else
      match parseFrame unread with
      | .error e => (.failed (.parse e), decompressedBytes)
      | .ok frame => admitFrame b clientID frame (unread.take totalLen) decompressedBytes

/-! ## The dispatchers -/

def parseAckPayload (payload : Bytes) : Option (Bytes × Bytes × UInt64) :=
  match split [colon] payload with
  | p0 :: topic :: p2 :: consumerID :: p4 :: offset :: _ =>
    if p0 = ascii "topic" ∧ p2 = ascii "consumer" ∧ p4 = ascii "offset" then
      match parseUint offset with
      | .ok n => some (consumerID, topic, UInt64.ofNat n)
      | .error _ => none
    else none
  | _ => none

def handleForwardedFrame (frame : Frame) : List Call :=
  if opcodeOf frame.command = cmdPublish then [.publishFromPeer frame]
  else if opcodeOf frame.command = cmdPublishBatch then [.publishBatch frame]
  else []

/-- The router calls of a local frame, or `none` when no router opcode
matches. -/
def handleLocalFrame (stream : Stream) (frame : Frame) (clientID : Bytes) : Option (List Call) :=
  let opcode := opcodeOf frame.command
  if opcode = cmdSubscribe then some [.subscribe stream frame]
  else if opcode = cmdPublish then some [.publishWithClientID frame clientID]
  else if opcode = cmdPublishBatch then some [.publishBatch frame]
  else if opcode = cmdAck then
    match parseAckPayload frame.payload with
    | some (consumerID, topic, offset) => some [.ackOffset consumerID topic offset]
    | none => some []
  else if opcode = cmdNack then
    if frame.payload.length < 8 then some []
    else some [.nackByStream stream.key (UInt64.ofNat (le (frame.payload.take 8)))]
  else none

def routeFrame (b : Broker) (stream : Stream) (frame : Frame) (clientID : Bytes) : List Call :=
  let legacy := if b.handlers frame.command then [Call.handler frame] else []
  if b.hasRouter then
    if isForwarded frame.command then handleForwardedFrame frame
    else (handleLocalFrame stream frame clientID).getD legacy
  else legacy

/-- What a frame can lead to: nothing, or one call. -/
inductive Routed (b : Broker) (stream : Stream) (frame : Frame) (clientID : Bytes) :
    List Call → Prop
  | nothing : Routed b stream frame clientID []
  | handler : Routed b stream frame clientID [.handler frame]
  | subscribe (hr : b.hasRouter = true) (hop : opcodeOf frame.command = cmdSubscribe) :
    Routed b stream frame clientID [.subscribe stream frame]
  | publishWithClientID (hr : b.hasRouter = true) (hop : opcodeOf frame.command = cmdPublish) :
    Routed b stream frame clientID [.publishWithClientID frame clientID]
  | publishFromPeer (hr : b.hasRouter = true) (hop : opcodeOf frame.command = cmdPublish) :
    Routed b stream frame clientID [.publishFromPeer frame]
  | publishBatch (hr : b.hasRouter = true) (hop : opcodeOf frame.command = cmdPublishBatch) :
    Routed b stream frame clientID [.publishBatch frame]
  | ackOffset (hr : b.hasRouter = true) (hop : opcodeOf frame.command = cmdAck)
    (consumerID topic : Bytes) (offset : UInt64) :
    Routed b stream frame clientID [.ackOffset consumerID topic offset]
  | nackByStream (hr : b.hasRouter = true) (hop : opcodeOf frame.command = cmdNack)
    (offset : UInt64) : Routed b stream frame clientID [.nackByStream stream.key offset]

section Routed

variable {b : Broker} (stream : Stream) (frame : Frame) (clientID : Bytes)

theorem handleForwardedFrame_routed (hr : b.hasRouter = true) :
    Routed b stream frame clientID (handleForwardedFrame frame) := by
  unfold handleForwardedFrame
  by_cases hpub : opcodeOf frame.command = cmdPublish
  · rw [if_pos hpub]
    exact .publishFromPeer hr hpub
  rw [if_neg hpub]
  by_cases hbatch : opcodeOf frame.command = cmdPublishBatch
  · rw [if_pos hbatch]
    exact .publishBatch hr hbatch
  rw [if_neg hbatch]
  exact .nothing

theorem handleLocalFrame_routed (hr : b.hasRouter = true) {calls : List Call}
    (h : handleLocalFrame stream frame clientID = some calls) :
    Routed b stream frame clientID calls := by
  unfold handleLocalFrame at h
  dsimp only at h
  by_cases hsub : opcodeOf frame.command = cmdSubscribe
  · rw [if_pos hsub] at h
    cases h
    exact .subscribe hr hsub
  rw [if_neg hsub] at h
  by_cases hpub : opcodeOf frame.command = cmdPublish
  · rw [if_pos hpub] at h
    cases h
    exact .publishWithClientID hr hpub
  rw [if_neg hpub] at h
  by_cases hbatch : opcodeOf frame.command = cmdPublishBatch
  · rw [if_pos hbatch] at h
    cases h
    exact .publishBatch hr hbatch
  rw [if_neg hbatch] at h
  by_cases hack : opcodeOf frame.command = cmdAck
  · rw [if_pos hack] at h
    cases hparse : parseAckPayload frame.payload with
    | none =>
      rw [hparse] at h
      cases h
      exact .nothing
    | some ack =>
      rw [hparse] at h
      cases h
      exact .ackOffset hr hack ..
  rw [if_neg hack] at h
  by_cases hnack : opcodeOf frame.command = cmdNack
  · rw [if_pos hnack] at h
    by_cases hshort : frame.payload.length < 8
    · rw [if_pos hshort] at h
      cases h
      exact .nothing
    · rw [if_neg hshort] at h
      cases h
      exact .nackByStream hr hnack _
  rw [if_neg hnack] at h
  cases h

theorem routeFrame_routed (b : Broker) :
    Routed b stream frame clientID (routeFrame b stream frame clientID) := by
  have hlegacy : Routed b stream frame clientID
      (if b.handlers frame.command then [Call.handler frame] else []) := by
    split
    · exact .handler
    · exact .nothing
  unfold routeFrame
  dsimp only
  by_cases hr : b.hasRouter = true
  · rw [if_pos hr]
    by_cases hf : isForwarded frame.command = true
    · rw [if_pos hf]
      exact handleForwardedFrame_routed stream frame clientID hr
    · rw [if_neg hf]
      cases hlocal : handleLocalFrame stream frame clientID with
      | none => exact hlegacy
      | some calls => exact handleLocalFrame_routed stream frame clientID hr hlocal
  · rw [if_neg hr]
    exact hlegacy

theorem routeFrame_calls (b : Broker) :
    routeFrame b stream frame clientID = [] ∨ ∃ c, routeFrame b stream frame clientID = [c] := by
  have hrouted := routeFrame_routed stream frame clientID b
  generalize routeFrame b stream frame clientID = calls at hrouted
  cases hrouted with
  | nothing => exact .inl rfl
  | _ => exact .inr ⟨_, rfl⟩

theorem mem_routeFrame {stream : Stream} {frame : Frame} {clientID : Bytes} {c : Call}
    (h : c ∈ routeFrame b stream frame clientID) : Routed b stream frame clientID [c] := by
  have hrouted := routeFrame_routed stream frame clientID b
  rcases routeFrame_calls stream frame clientID b with hnil | ⟨c', hcall⟩
  · rw [hnil] at h
    cases h
  · rw [hcall] at h hrouted
    rw [List.mem_singleton.mp h]
    exact hrouted

end Routed

/-- What a router call does to the router at the clock `now`. Legacy handlers
do not reach the router. -/
def Call.apply (now : Int64) (r : Router) : Call → Router
  | .subscribe stream frame => (r.subscribe stream frame).1
  | .publishWithClientID frame clientID => (r.publishWithClientID now frame clientID).1
  | .publishFromPeer frame => (r.publishFromPeer now frame).1
  | .publishBatch frame => (r.publishBatch now frame).1
  | .ackOffset consumerID topic offset => r.ackOffset consumerID topic offset
  | .nackByStream streamID offset => r.nackByStream streamID offset
  | .handler _ => r

/-! ## The read loop -/

/-- The frame loop of `dispatchFrames`: handled frames, the bytes left over
or the error, and the decompression total. -/
def dispatchLoop (b : Broker) (stream : Stream) (clientID : Bytes) :
    Nat → Bytes → Int → List Handled × Except DispatchError Bytes × Int
  | 0, unread, total => ([], .ok unread, total)
  | fuel + 1, unread, total =>
    if unread = [] then ([], .ok [], total)
    else
      match prepareFrame b clientID unread total with
      | (.incomplete, total) => ([], .ok unread, total)
      | (.failed e, total) => ([], .error e, total)
      | (.ready frame totalLen queries logged, total) =>
        let (rest, out) := dispatchLoop b stream clientID fuel (unread.drop totalLen) total
        (⟨frame, queries, logged, routeFrame b stream frame clientID⟩ :: rest, out)

def dispatchFrames (b : Broker) (stream : Stream) (clientID : Bytes) (buf : Bytes) (total : Int) :
    List Handled × Except DispatchError Bytes × Int :=
  dispatchLoop b stream clientID buf.length buf total

structure LoopState where
  /-- `buf[:off]`. -/
  data : Bytes
  len : Nat
  cap : Nat
  decompressedBytes : Int
  deriving Repr

/-- What happens before a read when the buffer is at capacity: dispatch, and
grow when that freed nothing. `none` tears the stream down. -/
def drainAndMaybeGrow (b : Broker) (stream : Stream) (clientID : Bytes) (st : LoopState) :
    List Handled × Option LoopState :=
  match dispatchFrames b stream clientID st.data st.decompressedBytes with
  | (hs, .error _, _) => (hs, none)
  | (hs, .ok data, total) =>
    if data.length ≠ st.cap then (hs, some { st with data := data, decompressedBytes := total })
    else if st.cap ≥ b.maxBufSize then (hs, none)
    else
      let newCap := min (st.cap * 2) b.maxBufSize
      (hs, some ⟨data, newCap, newCap, total⟩)

def beforeRead (b : Broker) (stream : Stream) (clientID : Bytes) (st : LoopState) :
    List Handled × Option LoopState :=
  if st.data.length = st.cap then drainAndMaybeGrow b stream clientID st else ([], some st)

/-- The loop over what successive `stream.Read` calls return. A read returns
at most `len(buf[off:])` bytes; a longer list entry is no read and ends the
run. -/
def runStreamReadLoop (b : Broker) (stream : Stream) (clientID : Bytes) :
    LoopState → List Bytes → List Handled
  | _, [] => []
  | st, chunk :: chunks =>
    let (hs, st') := beforeRead b stream clientID st
    match st' with
    | none => hs
    | some st' =>
      if chunk.length > st'.len - st'.data.length then hs
      else if chunk = [] then hs ++ runStreamReadLoop b stream clientID st' chunks
      else
        match dispatchFrames b stream clientID (st'.data ++ chunk) st'.decompressedBytes with
        | (hs', .error _, _) => hs ++ hs'
        | (hs', .ok data, total) =>
          hs ++ hs' ++ runStreamReadLoop b stream clientID
            { st' with data := data, decompressedBytes := total } chunks

/-- The loop state `HandleStream` starts with, when the pool hands out a
buffer of capacity `cap`. -/
def initialLoop (b : Broker) (cap : Nat) : LoopState := ⟨[], b.readBufSize, cap, 0⟩

end Aqueduct.Transport
