import Aqueduct.Broker.Topic
import Aqueduct.Protocol.Frame
import Aqueduct.Quotas

/-!
The router of `internal/broker/router.go`, one call at a time. The per-slot
arrays stay parallel lists as in the source: a notify channel is its pending
token, a cancel function whether it was called, a mutex nothing. Of a
`MessageRef` the queues hold what a writer reads from it: bytes, offset and
expiry. `forwarded` and `enqueued` record the buffers handed to
`PeerForwarder.Forward` and the messages that entered a queue; no function
reads them. Metrics, tracing and the writer goroutines are left out.
-/

namespace Aqueduct.Broker

open ByteStr Protocol

/-- A QUIC stream: streams are numbered within their connection. -/
structure Stream where
  conn : Nat
  streamID : Nat
  deriving DecidableEq, Repr

/-- `uint32(stream.StreamID())`. -/
def Stream.key (s : Stream) : UInt32 := UInt32.ofNat s.streamID

structure Message where
  buf : Bytes
  offset : UInt64
  expiresAt : Int64
  deriving DecidableEq

inductive BackpressurePolicy
  | dropOldest
  | dropNewest
  | disconnect
  deriving DecidableEq, Repr

structure WildcardSub where
  pattern : Bytes
  idx : Nat
  deriving DecidableEq, Repr

structure ConsumerGroup where
  groupID : Bytes
  topic : Bytes
  counter : UInt64
  members : List Nat
  deriving DecidableEq, Repr

/-- A message that entered the queue of slot `idx` at priority `level`. -/
structure Delivery where
  idx : Nat
  level : UInt8
  msg : Message
  deriving DecidableEq

abbrev Queues := UInt8 → List Message

structure Router where
  streamIDs : List UInt32
  streams : List Stream
  topics : List Bytes
  active : List Bool
  queues : List Queues
  notifyChs : List Bool
  subMus : List Unit
  nackChs : List (List UInt64)
  cancels : List Bool
  subGroups : List Bytes
  topicIndex : UInt64 → List Nat
  groups : UInt64 → List ConsumerGroup
  wildcardSubs : List WildcardSub
  topicOffsets : UInt64 → UInt64
  durableOffsets : UInt64 → UInt64
  quotaManager : Option Quotas.Manager
  aalPath : Bytes
  activePeers : Nat
  queueSize : Nat
  policy : BackpressurePolicy
  priorityTTLs : UInt8 → Int64
  compress : Option (Bytes → Option Bytes)
  compressionMinSize : Int
  forwarded : List Bytes
  enqueued : List Delivery

def defaultQueueSize : Nat := 1024

def newRouter : Router where
  streamIDs := []
  streams := []
  topics := []
  active := []
  queues := []
  notifyChs := []
  subMus := []
  nackChs := []
  cancels := []
  subGroups := []
  topicIndex := fun _ => []
  groups := fun _ => []
  wildcardSubs := []
  topicOffsets := fun _ => 0
  durableOffsets := fun _ => 0
  quotaManager := none
  aalPath := []
  activePeers := 0
  queueSize := defaultQueueSize
  policy := .dropOldest
  priorityTTLs := fun _ => 0
  compress := none
  compressionMinSize := 0
  forwarded := []
  enqueued := []

def maxPayloadSize : UInt32 := 1048576

inductive PublishError
  | payloadTooLarge
  | batchTooLarge
  deriving DecidableEq, Repr

def PublishError.text : PublishError → String
  | .payloadTooLarge => "payload exceeds maximum frame size"
  | .batchTooLarge => "batch payload exceeds maximum frame size"

/-- Point update of a Go map. -/
def setKey {α : Type} (m : UInt64 → α) (k : UInt64) (v : α) : UInt64 → α :=
  fun k' => if k' = k then v else m k'

namespace Router

def isActive (r : Router) (idx : Nat) : Bool := r.active.getD idx false

def queueAt (r : Router) (idx : Nat) (level : UInt8) : List Message :=
  (r.queues.getD idx fun _ => []) level

/-! ## Enqueueing -/

/-- What a full queue `q` holds afterwards, whether the new message entered
it, and the slot to disconnect. -/
def handleOverflow (r : Router) (idx : Nat) (q : List Message) (msg : Message) :
    List Message × Bool × Option Nat :=
  match r.policy with
  | .dropOldest =>
    if q.tail.length < r.queueSize then (q.tail ++ [msg], true, none) else (q.tail, false, none)
  | .dropNewest => (q, false, none)
  | .disconnect => (q, false, some idx)

/-- The send of `enqueueToSubscriber` with its overflow branch. -/
def sendOrOverflow (r : Router) (idx : Nat) (q : List Message) (msg : Message) :
    List Message × Bool × Option Nat :=
  if q.length < r.queueSize then (q ++ [msg], true, none) else r.handleOverflow idx q msg

def setQueue (r : Router) (idx : Nat) (level : UInt8) (q : List Message) : Router :=
  { r with queues := r.queues.modify idx fun qs l => if l = level then q else qs l }

def logEnqueued (r : Router) (d : Delivery) (sent : Bool) : Router :=
  if sent then { r with enqueued := r.enqueued ++ [d] } else r

/-- The non-blocking send on the notify channel. -/
def notify (r : Router) (idx : Nat) : Router := { r with notifyChs := r.notifyChs.set idx true }

/-- The level `enqueueToSubscriber` really uses. -/
def clampLevel (p : UInt8) : UInt8 := if p > priorityLow then defaultPriority else p

def enqueueToSubscriber (r : Router) (idx : Nat) (msg : Message) (p : UInt8) :
    Router × Option Nat :=
  let level := clampLevel p
  if idx ≥ r.subMus.length ∨ r.isActive idx = false then (r, none)
  else
    let (q, sent, dc) := r.sendOrOverflow idx (r.queueAt idx level) msg
    (((r.setQueue idx level q).logEnqueued ⟨idx, level, msg⟩ sent).notify idx, dc)

/-! ## Groups, disconnects, offsets -/

def rebuildGroupMembersLocked (r : Router) (cg : ConsumerGroup) : ConsumerGroup :=
  { cg with members := (List.range r.subGroups.length).filter fun i =>
      r.subGroups.getD i [] = cg.groupID ∧ r.isActive i ∧ r.topics.getD i [] = cg.topic }

/-- Rebuilds the groups of slot `idx` after its activity changed. -/
def rebuildGroupsOf (r : Router) (idx : Nat) : Router :=
  let groupID := r.subGroups.getD idx []
  if idx < r.subGroups.length ∧ groupID ≠ [] then
    let topicHash := topicHashKey (r.topics.getD idx [])
    { r with groups := setKey r.groups topicHash ((r.groups topicHash).map fun cg =>
        if cg.groupID = groupID then r.rebuildGroupMembersLocked cg else cg) }
  else r

/-- Clears the live flag, cancels the writer and updates the slot's groups. -/
def deactivate (r : Router) (idx : Nat) : Router :=
  ({ r with active := r.active.set idx false
            cancels := r.cancels.set idx true }).rebuildGroupsOf idx

def disconnectSubscriber (r : Router) (idx : Nat) : Router :=
  if idx < r.active.length ∧ r.isActive idx then r.deactivate idx else r

def nextTopicOffset (r : Router) (topicHash : UInt64) : Router × UInt64 :=
  let v := r.topicOffsets topicHash + 1
  ({ r with topicOffsets := setKey r.topicOffsets topicHash v }, v)

def getTopicOffset (r : Router) (topic : Bytes) : UInt64 := r.topicOffsets (topicHashKey topic)

/-! ## Dispatch loops shared by the publish paths -/

/-- Enqueue to `idx` if it is live, collecting slots to disconnect. -/
def offer (msg : Message) (p : UInt8) (acc : Router × List Nat) (idx : Nat) :
    Router × List Nat :=
  if idx < acc.1.active.length ∧ acc.1.isActive idx then
    let (r, dc) := acc.1.enqueueToSubscriber idx msg p
    (r, acc.2 ++ dc.toList)
  else acc

def dispatchExact (r : Router) (indices : List Nat) (msg : Message) (p : UInt8) :
    Router × List Nat :=
  indices.foldl (offer msg p) (r, [])

def dispatchWildcards (acc : Router × List Nat) (subs : List WildcardSub) (topic : Bytes)
    (msg : Message) (p : UInt8) : Router × List Nat :=
  subs.foldl (fun acc w => if matchWildcard w.pattern topic then offer msg p acc w.idx else acc)
    acc

/-- Round-robin over the groups of a topic; returns the groups with their
counters advanced. -/
def dispatchGroups (acc : Router × List Nat) (msg : Message) (p : UInt8) :
    List ConsumerGroup → List ConsumerGroup × (Router × List Nat)
  | [] => ([], acc)
  | g :: gs =>
    if g.members = [] then
      let (gs', acc') := dispatchGroups acc msg p gs
      (g :: gs', acc')
    else
      let chosenIdx := g.members.getD (g.counter.toNat % g.members.length) 0
      let (gs', acc') := dispatchGroups (offer msg p acc chosenIdx) msg p gs
      ({ g with counter := g.counter + 1 } :: gs', acc')

/-- Exact subscribers, then wildcard subscribers, then consumer groups. -/
def dispatch (r : Router) (topicHash : UInt64) (topic : Bytes) (msg : Message) (p : UInt8) :
    Router × List Nat :=
  let acc := r.dispatchExact (r.topicIndex topicHash) msg p
  let acc := dispatchWildcards acc r.wildcardSubs topic msg p
  let (gs, acc) := dispatchGroups acc msg p (r.groups topicHash)
  ({ acc.1 with groups := setKey acc.1.groups topicHash gs }, acc.2)

/-! ## Publishing -/

/-- Expiry and clean topic of a published frame: a per-priority TTL overrides
the inline one. -/
def expiryAndTopic (r : Router) (now : Int64) (pLevel : UInt8) (payload : Bytes) :
    Int64 × Bytes :=
  if 0 < r.priorityTTLs pLevel then
    (now + r.priorityTTLs pLevel, (parsePublishTopic now payload).2)
  else parsePublishTopic now payload

/-- The bytes subscribers and peers get for a single publish. -/
def publishBuf (frame : Frame) (cleanTopic : Bytes) : Bytes :=
  if frame.hasExtensions then
    serializeFrameWithExtensions cmdPublish 0 frame.extensions cleanTopic
  else serializeFrame cmdPublish 0 cleanTopic

def forward (r : Router) (buf : Bytes) : Router :=
  { r with forwarded := r.forwarded ++ [buf] }

def tryAcquire (r : Router) (clientID : Bytes) : Router × Bool :=
  match r.quotaManager with
  | none => (r, true)
  | some m =>
    let (m', ok) := m.tryAcquire clientID
    ({ r with quotaManager := some m' }, ok)

def disconnectAll (acc : Router × List Nat) : Router :=
  acc.2.foldl disconnectSubscriber acc.1

def publishWithClientID (r : Router) (now : Int64) (frame : Frame) (clientID : Bytes) :
    Router × Option PublishError :=
  if frame.payloadLen > maxPayloadSize then (r, some .payloadTooLarge)
  else
    let (r, ok) := r.tryAcquire clientID
    if ok = false then (r, none)
    else
      let pLevel := frame.priority
      let (expiresAt, cleanTopic) := r.expiryAndTopic now pLevel frame.payload
      let topicHash := topicHashKey cleanTopic
      let (r, msgOffset) := r.nextTopicOffset topicHash
      let hasPeers : Bool := 0 < r.activePeers
      if r.topicIndex topicHash = [] ∧ r.wildcardSubs = [] ∧ hasPeers = false ∧
          r.groups topicHash = [] then (r, none)
      else
        let buf := publishBuf frame cleanTopic
        let r := if hasPeers then r.forward buf else r
        (disconnectAll (r.dispatch topicHash cleanTopic ⟨buf, msgOffset, expiresAt⟩ pLevel), none)

def publish (r : Router) (now : Int64) (frame : Frame) : Router × Option PublishError :=
  r.publishWithClientID now frame []

/-- Publishing without quotas and without peer forwarding. -/
def publishLocal (r : Router) (now : Int64) (frame : Frame) : Router × Option PublishError :=
  if frame.payloadLen > maxPayloadSize then (r, some .payloadTooLarge)
  else
    let pLevel := frame.priority
    let (expiresAt, cleanTopic) := r.expiryAndTopic now pLevel frame.payload
    let topicHash := topicHashKey cleanTopic
    let (r, msgOffset) := r.nextTopicOffset topicHash
    if r.topicIndex topicHash = [] ∧ r.wildcardSubs = [] ∧ r.groups topicHash = [] then (r, none)
    else
      let buf := publishBuf frame cleanTopic
      (disconnectAll (r.dispatch topicHash cleanTopic ⟨buf, msgOffset, expiresAt⟩ pLevel), none)

def publishFromPeer (r : Router) (now : Int64) (frame : Frame) : Router × Option PublishError :=
  r.publishLocal now { frame with command := opcodeOf frame.command }

/-- The callback of `PublishBatch` on one sub-frame. Its expiry is always 0
and its bytes are the sub-frame itself. -/
def publishSub (now : Int64) (acc : Router × List Nat) (subFrame : Bytes) : Router × List Nat :=
  match parseFrame subFrame with
  | .error _ => acc
  | .ok sub =>
    let subTopic := (parsePublishTopic now sub.payload).2
    let subTopicHash := topicHashKey subTopic
    let (r, msgOffset) := acc.1.nextTopicOffset subTopicHash
    if r.topicIndex subTopicHash = [] ∧
        r.wildcardSubs.any (fun w => matchWildcard w.pattern subTopic) = false ∧
        r.groups subTopicHash = [] then (r, acc.2)
    else
      let (r, dcs) := r.dispatch subTopicHash subTopic ⟨subFrame, msgOffset, 0⟩ sub.priority
      (r, acc.2 ++ dcs)

/-- The parent buffer of a batch, also forwarded to peers uncompressed. -/
def batchBuf (frame : Frame) : Bytes :=
  if frame.hasExtensions then
    serializeFrameWithExtensions cmdPublishBatch 0 frame.extensions frame.payload
  else serializeFrame cmdPublishBatch 0 frame.payload

/-- The compressed copy for peers, when compression applies and succeeds. -/
def compressedBuf (r : Router) (frame : Frame) : Option Bytes :=
  match r.compress with
  | none => none
  | some compress =>
    if (frame.payloadLen.toNat : Int) ≥ r.compressionMinSize then
      (compress frame.payload).map fun compressed =>
        serializeFrameWithExtensions cmdPublishBatch 0
          (buildMergedExtensionsWithCompression frame.extensions frame.payloadLen) compressed
    else none

def publishBatch (r : Router) (now : Int64) (frame : Frame) : Router × Option PublishError :=
  if frame.payloadLen > maxPayloadSize then (r, some .batchTooLarge)
  else
    let hasPeers : Bool := 0 < r.activePeers
    let r := disconnectAll ((batchFrames frame.payload).foldl (publishSub now) (r, []))
    if hasPeers then (r.forward ((r.compressedBuf frame).getD (batchBuf frame)), none)
    else (r, none)

end Router

end Aqueduct.Broker
