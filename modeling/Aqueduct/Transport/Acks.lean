import Aqueduct.Broker.FanOut
import Aqueduct.Broker.Payloads
import Aqueduct.Lib.Run
import Aqueduct.Transport.Broker

/-!
Acknowledged offsets. One map holds them, keyed by a hash of a name and a
topic, and the name is a consumer's or a group's. Three writers share it: the
Ack frame, and the individual and the group branch of `Subscribe`. Two of them
store without looking at what is there, and an Ack knows the consumer it comes
from but not the group that consumer works for. An Ack is cut at every `:`, also
at those a topic may have for `Subscribe`.
-/

namespace Aqueduct.Broker.Router

open ByteStr Protocol

/-! ## The writers of the map -/

@[simp] theorem getConsumerOffset_ackOffset (r : Router) (consumerID topic : Bytes)
    (offset : UInt64) (name : Bytes) :
    (r.ackOffset consumerID topic offset).getConsumerOffset name topic =
      if Authz.combineHashStrings name topic = Authz.combineHashStrings consumerID topic then offset
      else r.getConsumerOffset name topic := by
  rw [ackOffset_eq]
  rfl

theorem indexWildcard_durableOffsets (r : Router) (topic : Bytes) (idx : Nat) :
    (r.indexWildcard topic idx).durableOffsets = r.durableOffsets := by
  unfold indexWildcard
  split <;> rfl

section Register

variable (r : Router) (stream : Stream) (streamID : UInt32) {spec : SubscriptionSpec}
  (hdurable : spec.isDurable = true)

include hdurable

/-- A durable group member without an offset of its own starts where the group
is, and leaves the map alone. -/
theorem register_group (hgroup : spec.groupID ≠ []) (hzero : spec.requestedOffset = 0) :
    (r.register stream streamID spec).1.durableOffsets = r.durableOffsets ∧
      (r.register stream streamID spec).2 = r.getGroupOffset spec.groupID spec.topic := by
  have hoffset : ∀ q : Router,
      q.groupOffset spec = (q, q.getGroupOffset spec.groupID spec.topic) := by
    intro q
    rw [groupOffset, if_pos (.inl hdurable), if_pos hzero]
    rfl
  have hstore : ∀ q : Router, q.storeDurable spec = q := fun q => if_neg fun hc => hgroup hc.2
  rw [register, registerSlot]
  dsimp only
  rw [if_pos hgroup, hoffset, hstore]
  exact ⟨indexWildcard_durableOffsets _ _ _, rfl⟩

/-- A durable group member with an offset of its own moves the group there. -/
theorem register_group_offset (hgroup : spec.groupID ≠ []) (hset : spec.requestedOffset ≠ 0) :
    (r.register stream streamID spec).1.getGroupOffset spec.groupID spec.topic =
      spec.requestedOffset := by
  have hoffset : ∀ q : Router, (q.groupOffset spec).1.getGroupOffset spec.groupID spec.topic =
      spec.requestedOffset := by
    intro q
    rw [groupOffset, if_pos (.inl hdurable), if_neg hset]
    exact if_pos rfl
  have hstore : ∀ q : Router, q.storeDurable spec = q := fun q => if_neg fun hc => hgroup hc.2
  rw [register, registerSlot]
  dsimp only
  rw [if_pos hgroup, hstore, getGroupOffset, getConsumerOffset, indexWildcard_durableOffsets]
  exact hoffset _

/-- A durable subscriber without a group overwrites its entry with the offset it
asks for. -/
theorem register_individual (hgroup : spec.groupID = []) :
    (r.register stream streamID spec).1.getConsumerOffset spec.consumerID spec.topic =
      spec.requestedOffset ∧
      (r.register stream streamID spec).2 = spec.requestedOffset := by
  rw [register, registerSlot]
  dsimp only
  rw [if_neg (not_not_intro hgroup), storeDurable, if_pos ⟨hdurable, hgroup⟩]
  exact ⟨if_pos rfl, rfl⟩

end Register

end Aqueduct.Broker.Router

namespace Aqueduct.Transport

open ByteStr Aqueduct.Protocol Aqueduct.Broker

open Router (clientFrame)

/-! ## Frames -/

/-- A frame of a client, up to the router. -/
def handleFrame (b : Broker) (now : Int64) (r : Router) (stream : Stream) (clientID : Bytes)
    (frame : Frame) : Router :=
  (routeFrame b stream frame clientID).foldl (Call.apply now) r

/-- An Ack frame of `consumerID` on `topic`. -/
structure IsAck (frame : Frame) (consumerID topic : Bytes) (offset : UInt64) : Prop where
  isLocal : isForwarded frame.command = false
  opcode : opcodeOf frame.command = cmdAck
  payload : parseAckPayload frame.payload = some (consumerID, topic, offset)

/-- A Subscribe frame with the parsed payload `spec`, for a durable position. -/
structure IsDurable (frame : Frame) (spec : SubscriptionSpec) : Prop where
  isLocal : isForwarded frame.command = false
  opcode : opcodeOf frame.command = cmdSubscribe
  payload : parseSubscriptionPayload frame.payload = .ok spec
  durable : spec.isDurable = true

section Handle

variable {b : Broker} (hb : b.hasRouter = true) (now : Int64) (r : Router) (stream : Stream)
  (clientID : Bytes)

include hb

theorem handleFrame_ack {frame : Frame} {consumerID topic : Bytes} {offset : UInt64}
    (h : IsAck frame consumerID topic offset) :
    handleFrame b now r stream clientID frame = r.ackOffset consumerID topic offset := by
  simp only [handleFrame, routeFrame, handleLocalFrame, hb, h.isLocal, h.opcode, h.payload]
  rfl

theorem handleFrame_subscribe {frame : Frame} {spec : SubscriptionSpec} (h : IsDurable frame spec) :
    handleFrame b now r stream clientID frame = (r.register stream frame.streamID spec).1 := by
  simp only [handleFrame, routeFrame, handleLocalFrame, hb, h.isLocal, h.opcode]
  exact congrArg Prod.fst (Router.subscribe_stages h.payload r stream)

end Handle

/-! ## Stored offsets over time -/

/-- A frame for the position of `name`, a consumer or a group, on `topic`: an
Ack, or a durable subscription that asks for no offset. -/
inductive Update (name topic : Bytes)
  | ack (frame : Frame) (offset : UInt64) (h : IsAck frame name topic offset)
  | resume (frame : Frame) (spec : SubscriptionSpec) (h : IsDurable frame spec)
      (htopic : spec.topic = topic) (hzero : spec.requestedOffset = 0)
      (hname : if spec.groupID = [] then spec.consumerID = name else spec.groupID = name)

namespace Update

variable {name topic : Bytes}

def frame : Update name topic → Frame
  | ack frame .. => frame
  | resume frame .. => frame

/-- Handling the frame does not lower the stored offset, and a subscription
resumes from it. -/
def Keeps (b : Broker) (now : Int64) (r : Router) (stream : Stream) (clientID : Bytes)
    (u : Update name topic) : Prop :=
  r.getConsumerOffset name topic ≤
    (handleFrame b now r stream clientID u.frame).getConsumerOffset name topic ∧
  match u with
  | ack .. => True
  | resume frame spec .. =>
    (r.register stream frame.streamID spec).2 = r.getConsumerOffset name topic

/-- An Ack must not be behind, and a subscriber without a group must have
nothing stored. -/
def Ahead (r : Router) : Update name topic → Prop
  | ack _ offset _ => r.getConsumerOffset name topic ≤ offset
  | resume _ spec .. => spec.groupID = [] → r.getConsumerOffset name topic = 0

theorem keeps_iff_ahead {b : Broker} (hb : b.hasRouter = true) (now : Int64) (r : Router)
    (stream : Stream) (clientID : Bytes) (u : Update name topic) :
    u.Keeps b now r stream clientID ↔ u.Ahead r := by
  cases u with
  | ack frame offset h =>
    dsimp only [Keeps, Ahead, Update.frame]
    rw [handleFrame_ack hb now r stream clientID h, Router.getConsumerOffset_ackOffset, if_pos rfl]
    exact and_iff_left trivial
  | resume frame spec h htopic hzero hname =>
    dsimp only [Keeps, Ahead, Update.frame]
    rw [handleFrame_subscribe hb now r stream clientID h]
    by_cases hgroup : spec.groupID = []
    · rw [if_pos hgroup] at hname
      obtain ⟨hstored, hstart⟩ := r.register_individual stream frame.streamID h.durable hgroup
      rw [hname, htopic] at hstored
      rw [hstored, hstart, hzero]
      constructor
      · rintro ⟨-, heq⟩ -
        exact heq.symm
      · intro heq
        rw [heq hgroup]
        exact ⟨UInt64.le_refl _, rfl⟩
    · rw [if_neg hgroup] at hname
      obtain ⟨hsame, hstart⟩ := r.register_group stream frame.streamID h.durable hgroup hzero
      rw [hname, htopic] at hstart
      rw [hstart, Router.getConsumerOffset, Router.getConsumerOffset, hsame]
      exact iff_of_true ⟨UInt64.le_refl _, rfl⟩ fun hc => absurd hc hgroup

/-- A client's frame for the position, with the time, the stream and the client. -/
abbrev Event (name topic : Bytes) := (Int64 × Stream × Bytes) × Update name topic

def handle (b : Broker) (r : Router) (e : Event name topic) : Option Router :=
  some (handleFrame b e.1.1 r e.1.2.1 e.1.2.2 e.2.frame)

/-- Along every run of such frames the stored offset only grows. -/
theorem offset_grows {b : Broker} (hb : b.hasRouter = true) {r r' : Router}
    {es : List (Event name topic)} (hahead : Transition.Meets (handle b) (fun r e => e.2.Ahead r) r es)
    (hrun : Transition.run (handle b) r es = some r') :
    r.getConsumerOffset name topic ≤ r'.getConsumerOffset name topic := by
  refine Transition.run_invariant (I := fun t => r.getConsumerOffset name topic ≤
    t.getConsumerOffset name topic) ?_ (UInt64.le_refl _) hahead hrun
  rintro t ⟨⟨now, stream, clientID⟩, u⟩ t' hle ht hstep
  obtain rfl := Option.some.inj hstep
  exact UInt64.le_trans hle ((keeps_iff_ahead hb now t stream clientID u).mpr ht).1

end Update

/-- **Acknowledged offsets.** An offset is kept exactly if an Ack is not behind
it and no durable subscription without a group starts over. -/
theorem acked_offset_kept_iff {b : Broker} (hb : b.hasRouter = true) (now : Int64) (r : Router)
    (stream : Stream) (clientID : Bytes) {name topic : Bytes} (u : Update name topic) :
    u.Keeps b now r stream clientID ↔ u.Ahead r :=
  Update.keeps_iff_ahead hb now r stream clientID u

def routerAfter (frames : List Frame) : Router :=
  frames.foldl (fun r frame => handleFrame routedBroker 0 r ⟨0, 4⟩ [] frame) newRouter

/-- A member of group `g` on `t` comes back. -/
def memberReturns : Update (ascii "g") (ascii "t") :=
  .resume (clientFrame cmdSubscribe 4 "topic:t:group:g:durable:c")
    ⟨ascii "t", true, ascii "c", 0, ascii "g"⟩ ⟨by decide, by decide, by decide +kernel, rfl⟩ rfl rfl
    (by decide)

/-- A group that has acknowledged 5 keeps it when a member joins again. -/
theorem group_member_resumes :
    memberReturns.Keeps routedBroker 0
      (routerAfter [clientFrame cmdAck 4 "topic:t:consumer:g:offset:5"]) ⟨0, 4⟩ [] :=
  (acked_offset_kept_iff rfl ..).mpr fun hnil => absurd hnil (by decide)

/-- An Ack of 3 after an Ack of 5 lowers the offset, and a durable subscription
without an offset sets it to 0. -/
theorem late_ack_lowers_offset :
    (routerAfter [clientFrame cmdAck 4 "topic:t:consumer:c:offset:5"]).getConsumerOffset (ascii "c")
        (ascii "t") = 5 ∧
      (routerAfter [clientFrame cmdAck 4 "topic:t:consumer:c:offset:5",
        clientFrame cmdAck 4 "topic:t:consumer:c:offset:3"]).getConsumerOffset (ascii "c")
          (ascii "t") = 3 ∧
      (routerAfter [clientFrame cmdAck 4 "topic:t:consumer:c:offset:5",
        clientFrame cmdSubscribe 4 "topic:t:durable:c"]).getConsumerOffset (ascii "c")
          (ascii "t") = 0 := by
  decide +kernel

/-! ## Members and their group -/

/-- The group's offset is at least `offset`, and so is where a durable member
that asks for no offset starts. -/
def GroupReached (r : Router) (groupID topic : Bytes) (offset : UInt64) : Prop :=
  offset ≤ r.getGroupOffset groupID topic ∧
    ∀ stream streamID spec, spec.groupID = groupID → spec.topic = topic → spec.isDurable = true →
      spec.requestedOffset = 0 → offset ≤ (r.register stream streamID spec).2

/-- **Group offsets.** After a durable member was registered and anything else
happened, an Ack of the member's consumer reaches the group exactly if consumer
and group share a key or the group was there already. -/
theorem member_ack_reaches_group_iff {b : Broker} (hb : b.hasRouter = true) (now now' : Int64)
    (r₀ : Router) (stream stream' : Stream) (clientID clientID' : Bytes) {sub : Frame}
    {spec : SubscriptionSpec} (_hsub : IsDurable sub spec) (hgroup : spec.groupID ≠ [])
    (later : List Router.Action) {ack : Frame} {offset : UInt64}
    (hack : IsAck ack spec.consumerID spec.topic offset) :
    let r := later.foldl Router.act (handleFrame b now r₀ stream clientID sub)
    GroupReached (handleFrame b now' r stream' clientID' ack) spec.groupID spec.topic offset ↔
      Authz.combineHashStrings spec.groupID spec.topic =
          Authz.combineHashStrings spec.consumerID spec.topic ∨
        offset ≤ r.getGroupOffset spec.groupID spec.topic := by
  intro r
  have hoffset : (r.ackOffset spec.consumerID spec.topic offset).getGroupOffset spec.groupID
      spec.topic = if Authz.combineHashStrings spec.groupID spec.topic =
        Authz.combineHashStrings spec.consumerID spec.topic then offset
      else r.getGroupOffset spec.groupID spec.topic :=
    Router.getConsumerOffset_ackOffset ..
  have hreached : offset ≤ (r.ackOffset spec.consumerID spec.topic offset).getGroupOffset
      spec.groupID spec.topic ↔ Authz.combineHashStrings spec.groupID spec.topic =
        Authz.combineHashStrings spec.consumerID spec.topic ∨
      offset ≤ r.getGroupOffset spec.groupID spec.topic := by
    rw [hoffset]
    split
    · next hkey => exact iff_of_true (UInt64.le_refl _) (.inl hkey)
    · next hkey => exact (or_iff_right hkey).symm
  rw [handleFrame_ack hb now' r stream' clientID' hack, ← hreached]
  refine ⟨And.left, fun h => ⟨h, ?_⟩⟩
  intro stream'' streamID spec' hgroup' htopic' hdurable' hzero'
  obtain ⟨-, hstart⟩ := (r.ackOffset spec.consumerID spec.topic offset).register_group stream''
    streamID hdurable' (hgroup' ▸ hgroup) hzero'
  rw [hstart, hgroup', htopic']
  exact h

/-- A consumer named like its group. -/
theorem namesake_ack_reaches_group :
    GroupReached (routerAfter [clientFrame cmdSubscribe 4 "topic:t:group:g:durable:g:0",
      clientFrame cmdAck 4 "topic:t:consumer:g:offset:5"]) (ascii "g") (ascii "t") 5 := by
  have hsub : IsDurable (clientFrame cmdSubscribe 4 "topic:t:group:g:durable:g:0")
      ⟨ascii "t", true, ascii "g", 0, ascii "g"⟩ := ⟨by decide, by decide, by decide +kernel, rfl⟩
  have hack : IsAck (clientFrame cmdAck 4 "topic:t:consumer:g:offset:5") (ascii "g") (ascii "t") 5 :=
    ⟨by decide, by decide, by decide +kernel⟩
  exact (member_ack_reaches_group_iff (b := routedBroker) rfl 0 0 newRouter ⟨0, 4⟩ ⟨0, 4⟩ [] [] hsub
    (by decide) [] hack).mpr (.inl rfl)

/-- Consumer `c` of group `g` acknowledges 5: its own offset moves, the group's
stays 0. -/
theorem member_ack_misses_group :
    (routerAfter [clientFrame cmdSubscribe 4 "topic:t:group:g:durable:c:0",
        clientFrame cmdAck 4 "topic:t:consumer:c:offset:5"]).getConsumerOffset (ascii "c")
          (ascii "t") = 5 ∧
      (routerAfter [clientFrame cmdSubscribe 4 "topic:t:group:g:durable:c:0",
        clientFrame cmdAck 4 "topic:t:consumer:c:offset:5"]).getGroupOffset (ascii "g")
          (ascii "t") = 0 := by
  decide +kernel

/-! ## Acks as written -/

def ackPayload (topic consumerID : Bytes) (offset : UInt64) : Bytes :=
  prefixTopic ++ (topic ++ (ascii ":consumer:" ++ (consumerID ++
    (ascii ":offset:" ++ decimal offset.toNat))))

def ackFrame (streamID : UInt32) (topic consumerID : Bytes) (offset : UInt64) : Frame :=
  let payload := ackPayload topic consumerID offset
  ⟨cmdAck, streamID, UInt32.ofNat payload.length, payload, []⟩

section Written

variable {topic consumerID : Bytes} (hc : colon ∉ consumerID)

include hc

/-- Only the topic is cut further than meant. -/
theorem split_ackPayload (offset : UInt64) :
    split [colon] (ackPayload topic consumerID offset) = ascii "topic" :: (topic.splitOn colon ++
      [ascii "consumer", consumerID, ascii "offset", decimal offset.toNat]) := by
  have hshape : ackPayload topic consumerID offset = ascii "topic" ++ colon :: (topic ++ colon ::
      (ascii "consumer" ++ colon :: (consumerID ++ colon ::
        (ascii "offset" ++ colon :: decimal offset.toNat)))) := rfl
  rw [hshape, split_byte, List.splitOn_append_cons_self_of_not_mem (by decide),
    List.splitOn_append_cons_self, List.splitOn_append_cons_self_of_not_mem (by decide),
    List.splitOn_append_cons_self_of_not_mem hc,
    List.splitOn_append_cons_self_of_not_mem (by decide),
    List.splitOn_eq_singleton (colon_not_mem_decimal _)]

theorem parseAckPayload_plain (ht : colon ∉ topic) (offset : UInt64) :
    parseAckPayload (ackPayload topic consumerID offset) = some (consumerID, topic, offset) := by
  have hsplit : split [colon] (ackPayload topic consumerID offset) = _ := split_ackPayload hc offset
  rw [List.splitOn_eq_singleton ht] at hsplit
  rw [parseAckPayload, hsplit]
  dsimp only [List.singleton_append]
  rw [if_pos ⟨rfl, rfl, rfl⟩, parseUint_decimal offset.toNat_lt]
  exact congrArg (fun o => some (consumerID, topic, o)) UInt64.ofNat_toNat

omit hc in
theorem parseAckPayload_topic {payload c t : Bytes} {o : UInt64}
    (h : parseAckPayload payload = some (c, t, o)) : (split [colon] payload)[1]? = some t := by
  unfold parseAckPayload at h
  split at h
  · next p0 topic p2 consumerID p4 offset more hsplit =>
    rw [hsplit]
    split at h
    · split at h
      · cases h
        rfl
      · cases h
    · cases h
  · cases h

/-- With a `:` in the topic, what is read ends before the offset, and it names
another topic. -/
theorem parseAckPayload_colon (ht : colon ∈ topic) :
    (∀ offset offset', parseAckPayload (ackPayload topic consumerID offset) =
        parseAckPayload (ackPayload topic consumerID offset')) ∧
      ∀ offset c o, parseAckPayload (ackPayload topic consumerID offset) ≠ some (c, topic, o) := by
  obtain ⟨first, rest, rfl, hfirst⟩ := List.eq_append_cons_of_mem ht
  obtain ⟨second, more, hmore⟩ := List.exists_cons_of_ne_nil (List.splitOn_ne_nil colon rest)
  have hsplit : ∀ offset, split [colon] (ackPayload (first ++ colon :: rest) consumerID offset) =
      ascii "topic" :: first :: second :: (more ++
        [ascii "consumer", consumerID, ascii "offset", decimal offset.toNat]) := by
    intro offset
    rw [split_ackPayload hc, List.splitOn_append_cons_self_of_not_mem hfirst, hmore]
    rfl
  constructor
  · intro offset offset'
    unfold parseAckPayload
    rw [hsplit, hsplit]
    -- at least four fields follow, so the sixth one is not the offset
    rcases more with - | ⟨c, - | ⟨p, - | ⟨o, more⟩⟩⟩
    all_goals rfl
  · intro offset c o hread
    have htopic := parseAckPayload_topic hread
    rw [hsplit, List.getElem?_cons_succ, List.getElem?_cons_zero, Option.some.injEq] at htopic
    have hlen := congrArg List.length htopic
    rw [List.length_append, List.length_cons] at hlen
    omega

end Written

/-- The name a durable subscription keeps its position under. -/
def positionName (spec : SubscriptionSpec) : Bytes :=
  if spec.groupID = [] then spec.consumerID else spec.groupID

/-- The subscription itself stores the offset it asks for there. -/
theorem handleFrame_position {b : Broker} (hb : b.hasRouter = true) (now : Int64) (r : Router)
    (stream : Stream) (clientID : Bytes) {sub : Frame} {spec : SubscriptionSpec}
    (hsub : IsDurable sub spec) (h : spec.groupID = [] ∨ spec.requestedOffset ≠ 0) :
    (handleFrame b now r stream clientID sub).getConsumerOffset (positionName spec) spec.topic =
      spec.requestedOffset := by
  rw [handleFrame_subscribe hb now r stream clientID hsub, positionName]
  by_cases hgroup : spec.groupID = []
  · rw [if_pos hgroup]
    exact (r.register_individual stream sub.streamID hsub.durable hgroup).1
  · rw [if_neg hgroup]
    exact r.register_group_offset stream sub.streamID hsub.durable hgroup (h.resolve_left hgroup)

theorem handleFrame_ackFrame {b : Broker} (hb : b.hasRouter = true) (now : Int64) (r : Router)
    (stream : Stream) (clientID : Bytes) (streamID : UInt32) (topic consumerID : Bytes)
    (offset : UInt64) :
    handleFrame b now r stream clientID (ackFrame streamID topic consumerID offset) =
      match parseAckPayload (ackPayload topic consumerID offset) with
      | some (consumerID, topic, offset) => r.ackOffset consumerID topic offset
      | none => r := by
  have hlocal : isForwarded cmdAck = false := by decide
  have hopcode : opcodeOf cmdAck = cmdAck := by decide
  simp only [handleFrame, routeFrame, handleLocalFrame, ackFrame, hb, hlocal, hopcode]
  cases parseAckPayload (ackPayload topic consumerID offset) <;> rfl

/-- The position and the consumer's own share their key. -/
theorem positionName_key_iff (spec : SubscriptionSpec) :
    Authz.combineHashStrings (positionName spec) spec.topic =
        Authz.combineHashStrings spec.consumerID spec.topic ↔
      spec.groupID = [] ∨ Authz.combineHashStrings spec.groupID spec.topic =
        Authz.combineHashStrings spec.consumerID spec.topic := by
  unfold positionName
  by_cases hgroup : spec.groupID = []
  · rw [if_pos hgroup]
    exact iff_of_true rfl (.inl hgroup)
  · rw [if_neg hgroup]
    exact (or_iff_right hgroup).symm

/-- An Ack for a topic without `:` stores its offset under the consumer. -/
theorem getConsumerOffset_ackFrame {b : Broker} (hb : b.hasRouter = true) (now : Int64) (r : Router)
    (stream : Stream) (clientID : Bytes) (streamID : UInt32) {topic consumerID : Bytes}
    (hc : colon ∉ consumerID) (ht : colon ∉ topic) (name : Bytes) (offset : UInt64) :
    (handleFrame b now r stream clientID
        (ackFrame streamID topic consumerID offset)).getConsumerOffset name topic =
      if Authz.combineHashStrings name topic = Authz.combineHashStrings consumerID topic then offset
      else r.getConsumerOffset name topic := by
  rw [handleFrame_ackFrame hb, parseAckPayload_plain hc ht]
  exact Router.getConsumerOffset_ackOffset ..

/-- **Acks and subscriptions.** A durable subscription stores the offset it asks
for at its position. An Ack for it is read as written exactly if the topic has
no `:`, and moves that position exactly if, besides, the position is the
consumer's own or shares its key. -/
theorem ack_reaches_subscription_iff {b : Broker} (hb : b.hasRouter = true) (now now' : Int64)
    (r : Router) (stream stream' : Stream) (clientID clientID' : Bytes) (streamID : UInt32)
    {sub : Frame} {spec : SubscriptionSpec} (hsub : IsDurable sub spec)
    (hc : colon ∉ spec.consumerID) :
    (spec.groupID = [] ∨ spec.requestedOffset ≠ 0 →
      (handleFrame b now r stream clientID sub).getConsumerOffset (positionName spec) spec.topic =
        spec.requestedOffset) ∧
    ((∀ offset, parseAckPayload (ackPayload spec.topic spec.consumerID offset) =
        some (spec.consumerID, spec.topic, offset)) ↔ colon ∉ spec.topic) ∧
      ((∀ offset, (handleFrame b now' (handleFrame b now r stream clientID sub) stream' clientID'
          (ackFrame streamID spec.topic spec.consumerID offset)).getConsumerOffset
            (positionName spec) spec.topic = offset) ↔
        colon ∉ spec.topic ∧ (spec.groupID = [] ∨
          Authz.combineHashStrings spec.groupID spec.topic =
            Authz.combineHashStrings spec.consumerID spec.topic)) := by
  refine ⟨handleFrame_position hb now r stream clientID hsub, ?_⟩
  by_cases ht : colon ∈ spec.topic
  · obtain ⟨hsame, hother⟩ := parseAckPayload_colon hc ht
    refine ⟨iff_of_false (fun hall => hother 0 _ _ (hall 0)) (not_not_intro ht),
      iff_of_false (fun hall => ?_) fun hplain => hplain.1 ht⟩
    have hzero := hall 0
    rw [handleFrame_ackFrame hb, hsame 0 1, ← handleFrame_ackFrame hb, hall 1] at hzero
    exact absurd hzero (by decide)
  · have hstored := getConsumerOffset_ackFrame hb now' (handleFrame b now r stream clientID sub)
      stream' clientID' streamID hc ht (positionName spec)
    refine ⟨iff_of_true (parseAckPayload_plain hc ht) ht, ?_⟩
    rw [and_iff_right ht, ← positionName_key_iff]
    constructor
    · intro hall
      by_contra hdiffers
      have hzero := (hstored 0).symm.trans (hall 0)
      have hone := (hstored 1).symm.trans (hall 1)
      rw [if_neg hdiffers] at hzero hone
      exact absurd (hzero.symm.trans hone) (by decide)
    · intro hsame offset
      rw [hstored, if_pos hsame]

/-- A durable subscriber of `t` acknowledges 5. -/
theorem plain_topic_acknowledged :
    (routerAfter [clientFrame cmdSubscribe 4 "topic:t:durable:c:2",
      ackFrame 4 (ascii "t") (ascii "c") 5]).getConsumerOffset (ascii "c") (ascii "t") = 5 := by
  have hsub : IsDurable (clientFrame cmdSubscribe 4 "topic:t:durable:c:2")
      ⟨ascii "t", true, ascii "c", 2, []⟩ := ⟨by decide, by decide, by decide +kernel, rfl⟩
  exact (ack_reaches_subscription_iff (b := routedBroker) rfl 0 0 newRouter ⟨0, 4⟩ ⟨0, 4⟩ [] [] 4
    hsub (by decide)).2.2.mpr ⟨by decide, .inl rfl⟩ 5

/-- The durable subscription to `a:b` is stored under `a:b`; its Ack is not
read at all. -/
theorem colon_topic_not_acknowledged :
    (routerAfter [clientFrame cmdSubscribe 4 "topic:a:b:durable:c:2"]).getConsumerOffset (ascii "c")
        (ascii "a:b") = 2 ∧
      parseAckPayload (ascii "topic:a:b:consumer:c:offset:5") = none ∧
      (routerAfter [clientFrame cmdSubscribe 4 "topic:a:b:durable:c:2",
        clientFrame cmdAck 4 "topic:a:b:consumer:c:offset:5"]).getConsumerOffset (ascii "c")
          (ascii "a:b") = 2 := by
  decide +kernel

end Aqueduct.Transport
