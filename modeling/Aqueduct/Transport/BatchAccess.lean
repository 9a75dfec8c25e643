import Aqueduct.Broker.Sound
import Aqueduct.Transport.Mediation

/-!
Batches and the ACL. The gate asks once per frame, for a batch about its whole
payload read as a topic name, while `PublishBatch` routes every sub-frame to the
topic inside it. `batch_topics_allowed_iff` says which batches keep to the
topics their sender may publish to, whoever is subscribed.
-/

namespace Aqueduct.Broker.Router

open ByteStr Protocol

/-- The messages that a batch puts into queues. -/
def batchDeliveries (r : Router) (now : Int64) (frame : Frame) : List Delivery :=
  (r.publishBatch now frame).1.enqueued.drop r.enqueued.length

theorem mem_batchDeliveries {r : Router} {now : Int64} {frame : Frame} {d : Delivery}
    (h : d ∈ r.batchDeliveries now frame) :
    d.msg.buf ∈ batchFrames frame.payload ∧ ∃ sub, parseFrame d.msg.buf = .ok sub := by
  obtain ⟨ds, he, hds⟩ := publishBatch_enqueuedBy r now frame
  rw [batchDeliveries, he, List.drop_left] at h
  exact hds d h

/-! ## A subscriber of everything -/

/-- Slot 0 is live, subscribed to `#`, and never refuses a message. -/
structure CatchAll (r : Router) : Prop where
  sound : r.Sound
  active : r.active = [true]
  wildcard : ⟨[byteHash], 0⟩ ∈ r.wildcardSubs
  policy : r.policy = .dropOldest
  room : 0 < r.queueSize

theorem matchWildcard_hash (topic : Bytes) : matchWildcard [byteHash] topic = true := by
  unfold matchWildcard
  split
  · rfl
  · simp [matchLevels]

/-- With `PolicyDropOldest` and room for one message every send succeeds. -/
theorem sendOrOverflow_dropOldest {r : Router} {q : List Message} (hp : r.policy = .dropOldest)
    (hr : 0 < r.queueSize) (hq : q.length ≤ r.queueSize) (idx : Nat) (msg : Message) :
    (r.sendOrOverflow idx q msg).2.1 = true := by
  unfold sendOrOverflow
  split
  · rfl
  · have htail : q.tail.length < r.queueSize := by
      rw [List.length_tail]
      omega
    simp only [handleOverflow, hp, htail, ↓reduceIte]

theorem CatchAll.enqueue {r : Router} (h : CatchAll r) (msg : Message) (p : UInt8) :
    CatchAll (r.enqueueToSubscriber 0 msg p).1 ∧
      (r.enqueueToSubscriber 0 msg p).1.enqueued = r.enqueued ++ [⟨0, clampLevel p, msg⟩] := by
  have hlive : r.isActive 0 = true := by simp [isActive, h.active]
  have hsent := sendOrOverflow_dropOldest h.policy h.room
    (h.sound.capacity 0 (clampLevel p)) 0 msg
  constructor
  · have hsound := enqueue_sound h.sound hlive msg p
    obtain ⟨_, _, _, -, heq⟩ := enqueueToSubscriber_frame r 0 msg p
    rw [heq] at hsound ⊢
    exact ⟨hsound, h.active, h.wildcard, h.policy, h.room⟩
  · rw [enqueueToSubscriber_live h.sound hlive]
    simp only [hsent]
    rfl

theorem CatchAll.offer {acc : Router × List Nat} (h : CatchAll acc.1) (msg : Message) (p : UInt8)
    (idx : Nat) : CatchAll (offer msg p acc idx).1 := by
  unfold Router.offer
  split
  · next hidx =>
    obtain rfl : idx = 0 := by
      have hlt := hidx.1
      simp only [h.active, List.length_singleton] at hlt
      omega
    exact (h.enqueue msg p).1
  · exact h

theorem CatchAll.offer_foldl {a : Router × List Nat} (h : CatchAll a.1) (msg : Message)
    (p : UInt8) (ts : List Nat) : CatchAll (ts.foldl (Router.offer msg p) a).1 := by
  induction ts generalizing a with
  | nil => exact h
  | cons t ts ih => exact ih (h.offer msg p t)

/-- Offering to slot 0 among others enqueues the message. -/
theorem CatchAll.mem_offer_foldl {a : Router × List Nat} (h : CatchAll a.1) (msg : Message)
    (p : UInt8) {ts : List Nat} (ht : 0 ∈ ts) :
    ⟨0, clampLevel p, msg⟩ ∈ (ts.foldl (Router.offer msg p) a).1.enqueued := by
  obtain ⟨pre, post, rfl⟩ := List.append_of_mem ht
  rw [List.foldl_append, List.foldl_cons]
  have hpre := h.offer_foldl msg p pre
  generalize pre.foldl (Router.offer msg p) a = acc' at hpre
  have hzero : (Router.offer msg p acc' 0).1.enqueued =
      acc'.1.enqueued ++ [⟨0, clampLevel p, msg⟩] := by
    have hlive : 0 < acc'.1.active.length ∧ acc'.1.isActive 0 = true := by
      simp [isActive, hpre.active]
    simp only [Router.offer, hlive.1, hlive.2, and_self, ↓reduceIte]
    exact (hpre.enqueue msg p).2
  obtain ⟨ds, hds, -⟩ := foldl_enqueuedBy (Router.offer msg p) post
    (fun acc idx _ => offer_enqueuedBy msg p acc idx) (Router.offer msg p acc' 0)
  rw [hds, hzero]
  simp

theorem CatchAll.nextTopicOffset {r : Router} (h : CatchAll r) (topicHash : UInt64) :
    CatchAll (r.nextTopicOffset topicHash).1 :=
  ⟨h.sound.nextTopicOffset topicHash, h.active, h.wildcard, h.policy, h.room⟩

theorem CatchAll.dispatch {r : Router} (h : CatchAll r) (topicHash : UInt64) (topic : Bytes)
    (msg : Message) (p : UInt8) :
    CatchAll (r.dispatch topicHash topic msg p).1 ∧
      ⟨0, clampLevel p, msg⟩ ∈ (r.dispatch topicHash topic msg p).1.enqueued := by
  have hmem : 0 ∈ r.targets topicHash topic := by
    have hw : 0 ∈ (r.wildcardSubs.filter fun w => matchWildcard w.pattern topic).map (·.idx) :=
      List.mem_map.mpr ⟨⟨[byteHash], 0⟩, by simp [h.wildcard, matchWildcard_hash], rfl⟩
    simp [targets, hw]
  have hsound := (dispatch_steady h.sound topicHash topic msg p).sound
  rw [dispatch_eq] at hsound ⊢
  have hfold := CatchAll.offer_foldl (a := (r, [])) h msg p (r.targets topicHash topic)
  exact ⟨⟨hsound, hfold.active, hfold.wildcard, hfold.policy, hfold.room⟩,
    CatchAll.mem_offer_foldl (a := (r, [])) h msg p hmem⟩

theorem CatchAll.publishSub {acc : Router × List Nat} (h : CatchAll acc.1) (now : Int64)
    (subFrame : Bytes) :
    CatchAll (publishSub now acc subFrame).1 ∧ ∀ sub, parseFrame subFrame = .ok sub →
      ∃ d ∈ (Router.publishSub now acc subFrame).1.enqueued, d.msg.buf = subFrame := by
  unfold Router.publishSub
  split
  · next e he => exact ⟨h, fun sub hsub => by rw [he] at hsub; cases hsub⟩
  · next sub _ =>
    dsimp only
    have hnext := h.nextTopicOffset (topicHashKey (parsePublishTopic now sub.payload).2)
    split
    · next hnone =>
      have hany := List.any_eq_false.mp hnone.2.1 ⟨[byteHash], 0⟩ hnext.wildcard
      exact absurd (matchWildcard_hash _) hany
    · have hd := fun msg => hnext.dispatch (topicHashKey (parsePublishTopic now sub.payload).2)
        (parsePublishTopic now sub.payload).2 msg sub.priority
      exact ⟨(hd _).1, fun _ _ => ⟨_, (hd _).2, rfl⟩⟩

theorem CatchAll.mem_batchDeliveries {r : Router} (h : CatchAll r) (he : r.enqueued = [])
    (now : Int64) {frame : Frame} (hlen : ¬ frame.payloadLen > maxPayloadSize) {b : Bytes}
    (hb : b ∈ batchFrames frame.payload) {sub : Frame} (hsub : parseFrame b = .ok sub) :
    ∃ d ∈ r.batchDeliveries now frame, d.msg.buf = b := by
  have hloop : ∀ (bs : List Bytes) (acc : Router × List Nat), CatchAll acc.1 → b ∈ bs →
      ∃ d ∈ (bs.foldl (Router.publishSub now) acc).1.enqueued, d.msg.buf = b := by
    intro bs
    induction bs with
    | nil => intro acc _ hm; cases hm
    | cons c bs ih =>
      intro acc hacc hm
      rw [List.foldl_cons]
      obtain ⟨hnext, henq⟩ := hacc.publishSub now c
      rcases List.mem_cons.mp hm with rfl | hm
      · obtain ⟨d, hd, hbuf⟩ := henq sub hsub
        obtain ⟨ds, hds, -⟩ := foldl_enqueuedBy (P := fun _ => True) (Router.publishSub now) bs
          (fun acc a _ => (publishSub_enqueuedBy now acc a).mono fun _ _ => trivial)
          (Router.publishSub now acc b)
        exact ⟨d, by rw [hds]; exact List.mem_append_left _ hd, hbuf⟩
      · exact ih _ hnext hm
  obtain ⟨d, hd, hbuf⟩ := hloop (batchFrames frame.payload) (r, []) h hb
  refine ⟨d, ?_, hbuf⟩
  rw [batchDeliveries, he]
  unfold publishBatch
  rw [if_neg hlen]
  dsimp only
  rw [← disconnectAll_enqueued] at hd
  split <;> exact hd

def monitored : Router :=
  (newRouter.subscribe ⟨0, 0⟩ ⟨cmdSubscribe, 0, 7, ascii "topic:#", []⟩).1

theorem monitored_catchAll : CatchAll monitored :=
  ⟨subscribe_sound newRouter_sound _ _, by decide, by decide, by decide, by decide⟩

end Aqueduct.Broker.Router

namespace Aqueduct.Transport

open ByteStr Aqueduct.Protocol Aqueduct.Broker

/-! ## Routers that a broker builds -/

/-- Routers built from an empty one, whatever its options, by router calls and
by streams that close. -/
inductive Built : Router → Prop
  | empty {r : Router} (hsubs : r.subMus = []) (hactive : r.active = []) (hqueues : r.queues = []) :
      Built r
  | call {r : Router} (now : Int64) (c : Call) (h : Built r) : Built (c.apply now r)
  | closed {r : Router} (streamID : UInt32) (h : Built r) : Built (r.unsubscribe streamID)

theorem Call.apply_sound {r : Router} (h : r.Sound) (now : Int64) (c : Call) :
    (c.apply now r).Sound := by
  cases c with
  | subscribe stream frame => exact Router.subscribe_sound h stream frame
  | publishWithClientID frame clientID => exact Router.publishWithClientID_sound h now frame clientID
  | publishFromPeer frame => exact Router.publishLocal_sound h now _
  | publishBatch frame => exact Router.publishBatch_sound h now frame
  | ackOffset consumerID topic offset => exact Router.ackOffset_sound h consumerID topic offset
  | nackByStream streamID offset => exact Router.nackByStream_sound h streamID offset
  | handler frame => exact h

theorem Built.sound {r : Router} (h : Built r) : r.Sound := by
  induction h with
  | empty hsubs hactive hqueues => exact Router.sound_of_empty hsubs hactive hqueues
  | call now c _ ih => exact c.apply_sound ih now
  | closed streamID _ ih => exact Router.unsubscribe_sound ih streamID

/-! ## Which batches keep to their sender's topics -/

/-- The client may publish to the topic inside the sub-frame. -/
def SubAllowed (e : Authz.Engine) (clientID : Bytes) (now : Int64) (b : Bytes) : Prop :=
  ∃ sub, parseFrame b = .ok sub ∧
    Authz.allowed e clientID (parsePublishTopic now sub.payload).2 Authz.permPublish = true

theorem authorize_batch {b : Broker} {e : Authz.Engine} (he : b.authz = some e)
    {frame : Frame} (hcmd : frame.command = cmdPublishBatch) (clientID : Bytes) :
    (authorize b clientID frame).2 =
      Authz.allowed e clientID (extractTopicBytes frame.payload) Authz.permPublish := by
  have hperm : permissionForFrame frame.command = Authz.permPublish := by
    rw [hcmd]
    decide
  simp only [authorize, he, hperm]
  rfl

/-- Whatever the router holds, an authorised batch only publishes where its
sender may, if and only if it is too large, refused, or all its well-formed
sub-frames are allowed one by one. -/
theorem batch_topics_allowed_iff (b : Broker) (e : Authz.Engine) (he : b.authz = some e)
    (clientID : Bytes) (frame : Frame) (hcmd : frame.command = cmdPublishBatch) (now : Int64) :
    ((authorize b clientID frame).2 = true → ∀ r : Router, ∀ d ∈ r.batchDeliveries now frame,
        SubAllowed e clientID now d.msg.buf) ↔
      (frame.payloadLen > maxPayloadSize ∨
        Authz.allowed e clientID (extractTopicBytes frame.payload) Authz.permPublish = false ∨
        ∀ s ∈ batchFrames frame.payload, ∀ sub, parseFrame s = .ok sub →
          Authz.allowed e clientID (parsePublishTopic now sub.payload).2 Authz.permPublish = true) := by
  rw [authorize_batch he hcmd]
  constructor
  · intro h
    by_cases hlen : frame.payloadLen > maxPayloadSize
    · exact .inl hlen
    · cases hauth : Authz.allowed e clientID (extractTopicBytes frame.payload) Authz.permPublish with
      | false => exact .inr (.inl rfl)
      | true =>
        refine .inr (.inr fun s hs sub hsub => ?_)
        -- a subscriber of everything receives the sub-frame
        obtain ⟨d, hd, rfl⟩ := Router.monitored_catchAll.mem_batchDeliveries rfl now hlen
          hs hsub
        obtain ⟨sub', hsub', hallowed⟩ := h hauth Router.monitored d hd
        rw [hsub] at hsub'
        cases hsub'
        exact hallowed
  · rintro hcond hauth r d hd
    obtain ⟨hmem, sub, hsub⟩ := Router.mem_batchDeliveries hd
    rcases hcond with hlen | hdenied | hall
    · have hnone : r.batchDeliveries now frame = [] := by
        simp [Router.batchDeliveries, Router.publishBatch, hlen]
      rw [hnone] at hd
      cases hd
    · rw [hauth] at hdenied
      cases hdenied
    · exact ⟨sub, hsub, hall _ hmem sub hsub⟩

/-- Everybody may publish everywhere, except that `mallory` may only subscribe
to `secret`. -/
def secretReadOnly : Authz.Engine :=
  ((Authz.newBuilder Authz.permPublish).allow (ascii "mallory") (ascii "secret")
    Authz.permSubscribe).build

/-- A batch with one publish. -/
def batchOf (topic : Bytes) : Frame :=
  let payload := serializeFrame cmdPublish 0 topic
  ⟨cmdPublishBatch, 0, UInt32.ofNat payload.length, payload, []⟩

theorem news_batch_allowed :
    (authorize (guardedBroker secretReadOnly) (ascii "mallory") (batchOf (ascii "news"))).2 = true ∧
      ∀ r : Router, ∀ d ∈ r.batchDeliveries 0 (batchOf (ascii "news")),
        SubAllowed secretReadOnly (ascii "mallory") 0 d.msg.buf := by
  have hauth : (authorize (guardedBroker secretReadOnly) (ascii "mallory")
      (batchOf (ascii "news"))).2 = true := by decide
  refine ⟨hauth, (batch_topics_allowed_iff (guardedBroker secretReadOnly) secretReadOnly rfl
    (ascii "mallory") (batchOf (ascii "news")) rfl 0).mpr (.inr (.inr ?_)) hauth⟩
  have hframes : batchFrames (batchOf (ascii "news")).payload =
      [serializeFrame cmdPublish 0 (ascii "news")] := by decide
  have hparse : parseFrame (serializeFrame cmdPublish 0 (ascii "news")) =
      .ok ⟨cmdPublish, 0, 4, ascii "news", []⟩ := by decide
  intro s hs sub hsub
  rw [hframes, List.mem_singleton] at hs
  rw [hs, hparse] at hsub
  cases hsub
  decide

/-- The gate reads the payload of a batch as one topic that no rule names, so
`mallory` publishes to `secret`. -/
theorem batch_smuggles_topic :
    ¬ ∀ (b : Broker) (e : Authz.Engine), b.authz = some e → ∀ (clientID : Bytes) (frame : Frame),
      frame.command = cmdPublishBatch → ∀ now, (authorize b clientID frame).2 = true →
        ∀ r : Router, ∀ d ∈ r.batchDeliveries now frame, SubAllowed e clientID now d.msg.buf := by
  intro h
  have hauth : (authorize (guardedBroker secretReadOnly) (ascii "mallory")
      (batchOf (ascii "secret"))).2 = true := by decide
  have hparse : parseFrame (serializeFrame cmdPublish 0 (ascii "secret")) =
      .ok ⟨cmdPublish, 0, 6, ascii "secret", []⟩ := by decide
  have hd : (⟨0, 2, ⟨serializeFrame cmdPublish 0 (ascii "secret"), 1, 0⟩⟩ : Delivery) ∈
      Router.monitored.batchDeliveries 0 (batchOf (ascii "secret")) := by decide
  obtain ⟨sub, hsub, hallowed⟩ := h (guardedBroker secretReadOnly) secretReadOnly rfl
    (ascii "mallory") (batchOf (ascii "secret")) rfl 0 hauth Router.monitored _ hd
  rw [hparse] at hsub
  cases hsub
  exact absurd hallowed (by decide)

end Aqueduct.Transport
