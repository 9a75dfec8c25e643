import Aqueduct.Broker.Router

/-!
Subscriber slots of `internal/broker/router.go`: registration, close-time
cleanup, NACK routing and acknowledged offsets. A slot is an index into the
parallel arrays; it is found by its 32-bit stream number and is never removed,
only made inactive.
-/

namespace Aqueduct.Broker

open ByteStr Protocol

/-- The arguments of the backfill worker that `Subscribe` starts. -/
structure Backfill where
  topic : Bytes
  consumerID : Bytes
  startOffset : UInt64
  endOffset : UInt64
  idx : Nat
  deriving DecidableEq, Repr

namespace Router

/-! ## Subscribe -/

def appendSlot (r : Router) (stream : Stream) (streamID : UInt32) (spec : SubscriptionSpec) :
    Router :=
  { r with
    streamIDs := r.streamIDs ++ [streamID]
    streams := r.streams ++ [stream]
    topics := r.topics ++ [spec.topic]
    active := r.active ++ [true]
    queues := r.queues ++ [fun _ => []]
    notifyChs := r.notifyChs ++ [false]
    subMus := r.subMus ++ [()]
    nackChs := r.nackChs ++ [[]]
    cancels := r.cancels ++ [false]
    subGroups := r.subGroups ++ [spec.groupID] }

/-- Finds or creates the group of a grouped subscriber and rebuilds its
members. -/
def joinGroup (r : Router) (topicHash : UInt64) (spec : SubscriptionSpec) : Router :=
  let isGroup : ConsumerGroup → Bool := fun g => g.groupID = spec.groupID
  let gs := r.groups topicHash
  let gs := if gs.any isGroup then gs else gs ++ [⟨spec.groupID, spec.topic, 0, []⟩]
  let gs := gs.modify (gs.findIdx isGroup) r.rebuildGroupMembersLocked
  { r with groups := setKey r.groups topicHash gs }

/-- The durable offset of a group: an explicit request is stored, otherwise
the stored one is requested. -/
def groupOffset (r : Router) (spec : SubscriptionSpec) : Router × UInt64 :=
  let groupDurableKey := Authz.combineHashStrings spec.groupID spec.topic
  if spec.isDurable ∨ 0 < spec.requestedOffset then
    if spec.requestedOffset = 0 then (r, r.durableOffsets groupDurableKey)
    else
      ({ r with durableOffsets := setKey r.durableOffsets groupDurableKey spec.requestedOffset },
        spec.requestedOffset)
  else (r, spec.requestedOffset)

def indexTopic (r : Router) (topicHash : UInt64) (idx : Nat) : Router :=
  { r with topicIndex := setKey r.topicIndex topicHash (r.topicIndex topicHash ++ [idx]) }

def indexWildcard (r : Router) (topic : Bytes) (idx : Nat) : Router :=
  if isWildcardTopic topic then { r with wildcardSubs := r.wildcardSubs ++ [⟨topic, idx⟩] } else r

def storeDurable (r : Router) (spec : SubscriptionSpec) : Router :=
  if spec.isDurable ∧ spec.groupID = [] then
    let durableKey := Authz.combineHashStrings spec.consumerID spec.topic
    { r with durableOffsets := setKey r.durableOffsets durableKey spec.requestedOffset }
  else r

/-- The tables of a new slot `idx`, and the offset its backfill starts after. -/
def registerSlot (r : Router) (idx : Nat) (spec : SubscriptionSpec) : Router × UInt64 :=
  let topicHash := topicHashKey spec.topic
  let (r, requestedOffset) :=
    if spec.groupID ≠ [] then (r.joinGroup topicHash spec).groupOffset spec
    else (r.indexTopic topicHash idx, spec.requestedOffset)
  ((r.indexWildcard spec.topic idx).storeDurable spec, requestedOffset)

/-- The slot arrays are filled by `appendSlot` alone. -/
theorem registerSlot_frame (r : Router) (idx : Nat) (spec : SubscriptionSpec) :
    ∃ topicIndex groups wildcardSubs durableOffsets, (r.registerSlot idx spec).1 = { r with
      topicIndex := topicIndex
      groups := groups
      wildcardSubs := wildcardSubs
      durableOffsets := durableOffsets } := by
  have hgroup : ∃ topicIndex groups durableOffsets,
      (if spec.groupID ≠ [] then (r.joinGroup (topicHashKey spec.topic) spec).groupOffset spec
        else (r.indexTopic (topicHashKey spec.topic) idx, spec.requestedOffset)).1 = { r with
      topicIndex := topicIndex
      groups := groups
      durableOffsets := durableOffsets } := by
    split
    · unfold groupOffset
      dsimp only
      split
      · split <;> exact ⟨_, _, _, rfl⟩
      · exact ⟨_, _, _, rfl⟩
    · exact ⟨_, _, _, rfl⟩
  obtain ⟨ti, gs, ds, hg⟩ := hgroup
  unfold registerSlot storeDurable indexWildcard
  dsimp only
  rw [hg]
  split <;> split <;> exact ⟨_, _, _, _, rfl⟩

def subscribe (r : Router) (stream : Stream) (frame : Frame) :
    Router × Except SubscribeError (Option Backfill) :=
  match parseSubscriptionPayload frame.payload with
  | .error e => (r, .error e)
  | .ok spec =>
    let idx := r.streamIDs.length
    let (r, requestedOffset) := (r.appendSlot stream frame.streamID spec).registerSlot idx spec
    let latestOffset := r.getTopicOffset spec.topic
    (r, .ok (if spec.isDurable ∧ requestedOffset < latestOffset ∧ r.aalPath ≠ [] then
      some ⟨spec.topic, spec.consumerID, requestedOffset, latestOffset, idx⟩ else none))

/-- The part of `Subscribe` under the lock. -/
def register (r : Router) (stream : Stream) (streamID : UInt32) (spec : SubscriptionSpec) :
    Router × UInt64 :=
  (r.appendSlot stream streamID spec).registerSlot r.streamIDs.length spec

/-- The part of `Subscribe` behind the lock: the latest offset is read and the
backfill worker started. -/
def startBackfill (r : Router) (spec : SubscriptionSpec) (idx : Nat) (requestedOffset : UInt64) :
    Option Backfill :=
  let latestOffset := r.getTopicOffset spec.topic
  if spec.isDurable ∧ requestedOffset < latestOffset ∧ r.aalPath ≠ [] then
    some ⟨spec.topic, spec.consumerID, requestedOffset, latestOffset, idx⟩
  else none

theorem subscribe_stages {frame : Frame} {spec : SubscriptionSpec}
    (h : parseSubscriptionPayload frame.payload = .ok spec) (r : Router) (stream : Stream) :
    r.subscribe stream frame = ((r.register stream frame.streamID spec).1,
      .ok ((r.register stream frame.streamID spec).1.startBackfill spec r.streamIDs.length
        (r.register stream frame.streamID spec).2)) := by
  rw [subscribe, h]
  rfl

/-- What holds of a router and of one with a new slot holds after `Subscribe`. -/
theorem subscribe_induction {P : Router → Prop} {r : Router} (stream : Stream) (frame : Frame)
    (hsame : P r) (hregister : ∀ spec, P (r.register stream frame.streamID spec).1) :
    P (r.subscribe stream frame).1 := by
  cases hspec : parseSubscriptionPayload frame.payload with
  | error e =>
    rw [subscribe, hspec]
    exact hsame
  | ok spec =>
    rw [subscribe_stages hspec]
    exact hregister spec

theorem register_frame (r : Router) (stream : Stream) (streamID : UInt32)
    (spec : SubscriptionSpec) : ∃ topicIndex groups wildcardSubs durableOffsets,
      (r.register stream streamID spec).1 = { r.appendSlot stream streamID spec with
        topicIndex := topicIndex
        groups := groups
        wildcardSubs := wildcardSubs
        durableOffsets := durableOffsets } :=
  registerSlot_frame _ _ spec

/-! ## Finding slots by number -/

/-- Slot `i` is live and was registered under the number `streamID`. -/
def hasNumber (r : Router) (streamID : UInt32) (i : Nat) : Bool :=
  r.streamIDs.getD i 0 = streamID ∧ r.isActive i

def unsubscribe (r : Router) (streamID : UInt32) : Router :=
  (List.range r.streamIDs.length).foldl
    (fun r i => if r.hasNumber streamID i then r.deactivate i else r) r

/-- The slot whose writer gets a NACK: the first live one with the number. -/
def nackTarget (r : Router) (streamID : UInt32) : Option Nat :=
  (List.range r.streamIDs.length).find? fun i =>
    r.hasNumber streamID i ∧ i < r.nackChs.length

def nackChSize : Nat := 8

/-- The send does not block: a full channel drops the offset. -/
def nackByStream (r : Router) (streamID : UInt32) (offset : UInt64) : Router :=
  match r.nackTarget streamID with
  | none => r
  | some i =>
    let send : List UInt64 → List UInt64 := fun ch =>
      if ch.length < nackChSize then ch ++ [offset] else ch
    { r with nackChs := r.nackChs.modify i send }

/-! ## Acknowledged offsets and shutdown -/

def ackOffset (r : Router) (consumerID topic : Bytes) (offset : UInt64) : Router :=
  let store : Router → Bytes → Router := fun r id =>
    { r with durableOffsets := setKey r.durableOffsets (Authz.combineHashStrings id topic) offset }
  (List.range r.subGroups.length).foldl (fun r i =>
    let groupID := r.subGroups.getD i []
    if groupID ≠ [] ∧ r.topics.getD i [] = topic ∧
        (groupID = consumerID ∨ (r.isActive i ∧ r.subGroups.getD i [] = consumerID)) then
      store r groupID
    else r) (store r consumerID)

def getConsumerOffset (r : Router) (consumerID topic : Bytes) : UInt64 :=
  r.durableOffsets (Authz.combineHashStrings consumerID topic)

def getGroupOffset (r : Router) (groupID topic : Bytes) : UInt64 :=
  r.getConsumerOffset groupID topic

/-- The loop of `AckOffset` looks for groups with the consumer's own name, so it
stores the offset where it is already. -/
theorem ackOffset_eq (r : Router) (consumerID topic : Bytes) (offset : UInt64) :
    r.ackOffset consumerID topic offset = { r with
      durableOffsets :=
        setKey r.durableOffsets (Authz.combineHashStrings consumerID topic) offset } := by
  have htwice : ∀ (m : UInt64 → UInt64) (k v : UInt64), setKey (setKey m k v) k v = setKey m k v := by
    intro m k v
    funext k'
    unfold setKey
    split <;> rfl
  refine List.foldlRecOn (motive := fun r' : Router => r' = { r with
    durableOffsets := setKey r.durableOffsets (Authz.combineHashStrings consumerID topic) offset })
    (List.range r.subGroups.length) _ rfl fun r' hr' i _ => ?_
  subst hr'
  dsimp only
  split
  · next h =>
    have hid : r.subGroups.getD i [] = consumerID := h.2.2.elim id fun hc => hc.2
    rw [hid, htwice]
  · rfl

/-- `Close` leaves the groups as they are. -/
def close (r : Router) : Router :=
  { r with active := r.active.map fun _ => false
           cancels := r.cancels.zipWith (fun c a => c || a) r.active }

end Router

end Aqueduct.Broker
