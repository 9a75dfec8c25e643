import Aqueduct.Broker.Reachable

/-!
The topic counters. Every publish path takes the next offset of a message's
topic before it looks for subscribers, so the counters after a call depend only
on the topics the call names.
-/

namespace Aqueduct.Broker

open ByteStr Protocol

/-- Counters after one more message under each of these keys. -/
def countAll (offsets : UInt64 → UInt64) (keys : List UInt64) : UInt64 → UInt64 :=
  keys.foldl (fun offs k => setKey offs k (offs k + 1)) offsets

theorem countAll_append (offsets : UInt64 → UInt64) (ks ls : List UInt64) :
    countAll offsets (ks ++ ls) = countAll (countAll offsets ks) ls :=
  List.foldl_append

/-- The clock decides when a message expires, not where it goes. -/
theorem parsePublishTopic_now (now now' : Int64) (payload : Bytes) :
    (parsePublishTopic now payload).2 = (parsePublishTopic now' payload).2 := by
  have httl : (parseTTL now payload).2 = (parseTTL now' payload).2 := by
    unfold parseTTL
    split
    · split
      · split
        · split <;> rfl
        · rfl
      · rfl
    · rfl
  rw [parsePublishTopic_eq, parsePublishTopic_eq, httl]

namespace Router

/-- The key a published frame is counted under. -/
def topicKey (f : Frame) : UInt64 := topicHashKey (topicOf 0 f)

theorem topicKey_eq (now : Int64) (f : Frame) : topicHashKey (topicOf now f) = topicKey f :=
  congrArg topicHashKey (parsePublishTopic_now now 0 f.payload)

/-- `r'` has counted `keys` since `r`, and takes no quotas either. -/
structure Counted (r r' : Router) (keys : List UInt64) : Prop where
  offsets : r'.topicOffsets = countAll r.topicOffsets keys
  quotas : r'.quotaManager = r.quotaManager

theorem Counted.refl (r : Router) : Counted r r [] := ⟨rfl, rfl⟩

theorem Counted.trans {r r' r'' : Router} {ks ls : List UInt64} (h : Counted r r' ks)
    (h' : Counted r' r'' ls) : Counted r r'' (ks ++ ls) :=
  ⟨by rw [h'.offsets, h.offsets, countAll_append], h'.quotas.trans h.quotas⟩

theorem Counted.of_eq {r r' : Router} (ho : r'.topicOffsets = r.topicOffsets)
    (hq : r'.quotaManager = r.quotaManager) : Counted r r' [] :=
  ⟨ho, hq⟩

theorem counted_next (r : Router) (k : UInt64) : Counted r (r.nextTopicOffset k).1 [k] :=
  ⟨rfl, rfl⟩

theorem counted_forward (r : Router) (buf : Bytes) : Counted r (r.forward buf) [] := ⟨rfl, rfl⟩

/-! ## One call -/

theorem dispatch_frame (r : Router) (topicHash : UInt64) (topic : Bytes) (msg : Message)
    (p : UInt8) : ∃ qs ns es gs, (r.dispatch topicHash topic msg p).1 =
      { r with queues := qs, notifyChs := ns, enqueued := es, groups := gs } := by
  obtain ⟨qs, ns, es, hframe⟩ := foldl_offer_frame msg p (r.targets topicHash topic) (r, [])
  rw [dispatch_eq]
  dsimp only
  rw [hframe]
  exact ⟨qs, ns, es, _, rfl⟩

/-- Dispatching and disconnecting count nothing and forward nothing. -/
theorem dispatch_counted (r : Router) (topicHash : UInt64) (topic : Bytes) (msg : Message)
    (p : UInt8) : Counted r (r.dispatch topicHash topic msg p).1 [] := by
  obtain ⟨_, _, _, _, hframe⟩ := dispatch_frame r topicHash topic msg p
  rw [hframe]
  exact .of_eq rfl rfl

theorem disconnectAll_counted (acc : Router × List Nat) : Counted acc.1 (disconnectAll acc) [] := by
  obtain ⟨_, _, _, -, hframe⟩ := disconnectAll_frame acc
  rw [hframe]
  exact .of_eq rfl rfl

/-- What a frame within the size limit is counted under. -/
def publishKeys (f : Frame) : List UInt64 :=
  if f.payloadLen > maxPayloadSize then [] else [topicKey f]

theorem publishWithClientID_counted {r : Router} (hq : r.quotaManager = none) (now : Int64)
    (f : Frame) (clientID : Bytes) :
    Counted r (r.publishWithClientID now f clientID).1 (publishKeys f) := by
  have hacquire : r.tryAcquire clientID = (r, true) := by simp [tryAcquire, hq]
  unfold publishWithClientID publishKeys
  split
  · exact .refl r
  rw [hacquire]
  dsimp only
  rw [expiryAndTopic_topic, if_neg (by decide), ← topicKey_eq now f]
  have hnext := counted_next r (topicHashKey (topicOf now f))
  split
  · exact hnext
  · split
    · exact hnext.trans ((counted_forward _ _).trans
        ((dispatch_counted _ _ _ _ _).trans (disconnectAll_counted _)))
    · exact hnext.trans ((dispatch_counted _ _ _ _ _).trans (disconnectAll_counted _))

theorem publishWithClientID_ok {f : Frame} (h : ¬ f.payloadLen > maxPayloadSize) (r : Router)
    (now : Int64) (clientID : Bytes) : (r.publishWithClientID now f clientID).2 = none := by
  unfold publishWithClientID
  rw [if_neg h]
  dsimp only
  split
  · rfl
  · split <;> rfl

theorem publishLocal_counted (r : Router) (now : Int64) (f : Frame) :
    Counted r (r.publishLocal now f).1 (publishKeys f) := by
  unfold publishLocal publishKeys
  split
  · exact .refl r
  dsimp only
  rw [expiryAndTopic_topic, ← topicKey_eq now f]
  have hnext := counted_next r (topicHashKey (topicOf now f))
  split
  · exact hnext
  · exact hnext.trans ((dispatch_counted _ _ _ _ _).trans (disconnectAll_counted _))

/-- The key of a sub-frame, if it parses. -/
def subKey (subFrame : Bytes) : Option UInt64 :=
  match parseFrame subFrame with
  | .error _ => none
  | .ok sub => some (topicKey sub)

theorem publishSub_counted (now : Int64) (acc : Router × List Nat) (subFrame : Bytes) :
    Counted acc.1 (publishSub now acc subFrame).1 (subKey subFrame).toList := by
  unfold publishSub subKey
  cases parseFrame subFrame with
  | error e => exact .refl _
  | ok sub =>
    dsimp only
    rw [← topicKey_eq now sub]
    have hnext := counted_next acc.1 (topicHashKey (topicOf now sub))
    split
    · exact hnext
    · exact hnext.trans (dispatch_counted _ _ _ _ _)

theorem foldl_publishSub_counted (now : Int64) (subs : List Bytes) (acc : Router × List Nat) :
    Counted acc.1 (subs.foldl (publishSub now) acc).1 (subs.filterMap subKey) := by
  induction subs generalizing acc with
  | nil => exact .refl _
  | cons b subs ih =>
    have hstep := (publishSub_counted now acc b).trans (ih (publishSub now acc b))
    rw [List.foldl_cons, List.filterMap_cons]
    cases hk : subKey b with
    | none =>
      rw [hk] at hstep
      exact hstep
    | some k =>
      rw [hk] at hstep
      exact hstep

def batchKeys (f : Frame) : List UInt64 :=
  if f.payloadLen > maxPayloadSize then [] else (batchFrames f.payload).filterMap subKey

theorem publishBatch_counted (r : Router) (now : Int64) (f : Frame) :
    Counted r (r.publishBatch now f).1 (batchKeys f) := by
  have hloop := (foldl_publishSub_counted now (batchFrames f.payload) (r, [])).trans
    (disconnectAll_counted _)
  rw [List.append_nil] at hloop
  unfold publishBatch batchKeys
  split
  · exact .refl r
  dsimp only
  split
  · exact ⟨hloop.offsets, hloop.quotas⟩
  · exact hloop

theorem subscribe_counted (r : Router) (stream : Stream) (f : Frame) :
    Counted r (r.subscribe stream f).1 [] := by
  refine subscribe_induction (P := (Counted r · [])) stream f (.refl r) fun spec => ?_
  obtain ⟨_, _, _, _, hframe⟩ := register_frame r stream f.streamID spec
  rw [hframe]
  exact .of_eq rfl rfl

theorem ackOffset_counted (r : Router) (consumerID topic : Bytes) (offset : UInt64) :
    Counted r (r.ackOffset consumerID topic offset) [] := by
  refine List.foldlRecOn _ _ (motive := fun s => Counted r s []) (.of_eq rfl rfl) fun s hs i _ => ?_
  dsimp only
  split
  · exact ⟨hs.offsets, hs.quotas⟩
  · exact hs

theorem nackByStream_counted (r : Router) (streamID : UInt32) (offset : UInt64) :
    Counted r (r.nackByStream streamID offset) [] := by
  unfold nackByStream
  split <;> exact .of_eq rfl rfl

end Router

end Aqueduct.Broker
