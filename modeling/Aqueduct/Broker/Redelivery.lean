import Aqueduct.Broker.Writer

/-!
What a NACK does. The frame cache keeps the topic of the subscription and not
the message, and the retry goes through `Publish` like any message: to every
slot and group of that topic, to matching patterns, past the quota of the empty
client id and to the peers. `Targetable` is what has to hold for the retry to
be a copy of the message for its subscriber and for nobody else.
-/

namespace Aqueduct.Broker

open ByteStr Protocol Router

/-! ## The frame cache -/

namespace Writer

/-- What a writer is after delivering messages, each at its time. -/
def deliverAll (w : Writer) (ms : List (Int64 × Message)) : Writer :=
  ms.foldl (fun w d => (w.deliver d.1 d.2).1) w

/-- The cache holds the topic of the subscription only. -/
def CachesTopic (topic : Bytes) (w : Writer) : Prop :=
  w.topic = topic ∧ ∀ offset topicName, w.frameCache offset = some topicName → topicName = topic

theorem CachesTopic.evictOldest {topic : Bytes} {w : Writer} (h : w.CachesTopic topic) :
    w.evictOldest.CachesTopic topic := by
  unfold Writer.evictOldest
  split
  · exact h
  · refine ⟨h.1, fun offset topicName hcache => ?_⟩
    dsimp only [setKey] at hcache
    split at hcache
    · cases hcache
    · exact h.2 offset topicName hcache

theorem CachesTopic.storeFrame {topic : Bytes} {w : Writer} (h : w.CachesTopic topic)
    (offset : UInt64) : (w.storeFrame offset topic).CachesTopic topic := by
  unfold Writer.storeFrame
  split
  · exact h
  · have hroom : (if defaultNackCacheSize ≤ w.frameCacheKeys.length then w.evictOldest
        else w).CachesTopic topic := by
      split
      · exact h.evictOldest
      · exact h
    refine ⟨hroom.1, fun offset' topicName hcache => ?_⟩
    dsimp only [setKey] at hcache
    split at hcache
    · exact (Option.some.inj hcache).symm
    · exact hroom.2 offset' topicName hcache

theorem CachesTopic.deliver {topic : Bytes} {w : Writer} (h : w.CachesTopic topic) (now : Int64)
    (m : Message) : (w.deliver now m).1.CachesTopic topic := by
  rcases w.deliver_cases now m with ⟨-, hdeliver⟩ | ⟨-, hdeliver⟩
  · rw [hdeliver]
    exact h
  · rw [hdeliver, h.1]
    exact h.storeFrame _

theorem CachesTopic.deliverAll {topic : Bytes} {w : Writer} (h : w.CachesTopic topic)
    (ms : List (Int64 × Message)) : (w.deliverAll ms).CachesTopic topic :=
  List.foldlRecOn _ _ (motive := CachesTopic topic) h fun _ hw d _ => hw.deliver d.1 d.2

theorem cachesTopic_new (topic groupID : Bytes) : (Writer.new topic groupID).CachesTopic topic :=
  ⟨rfl, fun _ _ h => by cases h⟩

end Writer

/-! ## The retry -/

theorem findExtension_retryExt (offset : UInt64) (typ : ExtensionType) :
    findExtension (retryExt offset) typ =
      if extRetryOffset = typ then some (toLE 8 offset.toNat) else none := rfl

theorem retryOffset_retryExt (offset : UInt64) : retryOffset (retryExt offset) = some offset := by
  have hlen : (toLE 8 offset.toNat).length = 8 := toLE_length 8 _
  rw [retryOffset, findExtension_retryExt, if_pos rfl]
  simp [hlen, List.take_of_length_le, le_toLE 8 _ offset.toNat_lt]

/-- What the writer of slot `idx` publishes when it is to deliver `offset` again. -/
def retry (r : Router) (idx : Nat) (offset : UInt64) : Publication :=
  .client [] (retryFrame (r.topicAt idx) offset)

/-- `m'` is `m` again: the same payload, the same extensions apart from the
retry entry, and the offset it was delivered with. -/
def CopyOf (m m' : Message) (offset : UInt64) : Prop :=
  ∃ f f', parseFrame m.buf = .ok f ∧ parseFrame m'.buf = .ok f' ∧ f'.payload = f.payload ∧
    (∀ typ ≠ extRetryOffset, findExtension f'.extensions typ = findExtension f.extensions typ) ∧
    deliveryOffset m' = offset

/-- Slot `idx` got one copy of `m`, nobody else got anything, peers neither. -/
def Targeted (r r' : Router) (idx : Nat) (m : Message) (offset : UInt64) : Prop :=
  r'.forwarded = r.forwarded ∧ (∃ m', received r r' idx = [m'] ∧ CopyOf m m' offset) ∧
    ∀ j ≠ idx, received r r' j = []

/-- Message `m` was delivered to the live slot `idx` with `offset`, which its
writer still has in the cache. -/
structure Redeliverable (r : Router) (idx : Nat) (w : Writer) (m : Message) (f : Frame)
    (offset : UInt64) : Prop where
  live : r.isActive idx = true
  size : (r.topicAt idx).length < 2 ^ 32
  delivered : ∃ ms, w = (Writer.new (r.topicAt idx) (r.groupAt idx)).deliverAll ms ∧
    ∃ now, (now, m) ∈ ms ∧ m.isExpired now = false
  frame : parseFrame m.buf = .ok f
  sentAs : deliveryOffset m = offset
  cached : (w.frameCache offset).isSome = true

/-- The retry reaches slot `idx` once and nobody else, and its bytes say what
the message said. -/
structure Targetable (r : Router) (now : Int64) (idx : Nat) (f : Frame) (offset : UInt64) :
    Prop where
  accepted : (retry r idx offset).Accepted r
  peers : r.activePeers = 0
  once : (r.targets (topicHashKey ((retry r idx offset).topic now))
    ((retry r idx offset).topic now)).count idx = 1
  others : ∀ j ≠ idx, r.isActive j = true →
    (r.targets (topicHashKey ((retry r idx offset).topic now))
      ((retry r idx offset).topic now)).count j = 0
  room : (r.queueAt idx (retry r idx offset).level).length < r.queueSize
  payload : f.payload = (retry r idx offset).topic now
  extensions : ∀ typ ≠ extRetryOffset, findExtension f.extensions typ = none

/-- Every live slot has room for each time the retry is offered to it. -/
def RoomForRetry (r : Router) (now : Int64) (idx : Nat) (offset : UInt64) : Prop :=
  ∀ j, r.isActive j = true → (r.queueAt j (retry r idx offset).level).length +
    (r.targets (topicHashKey ((retry r idx offset).topic now))
      ((retry r idx offset).topic now)).count j ≤ r.queueSize

theorem handleNack_retry {r : Router} {idx : Nat} {w : Writer} {m : Message} {f : Frame}
    {offset : UInt64} (hd : Redeliverable r idx w m f offset) (now : Int64) {n : Nacks}
    (hleft : (n.counters (topicHashKey (r.topicAt idx), offset) + 1).toInt < n.maxRetries) :
    (w.handleNack now n r offset).2 = r.act ((retry r idx offset).action now) := by
  obtain ⟨ms, rfl, -⟩ := hd.delivered
  obtain ⟨topicName, hcache⟩ := Option.isSome_iff_exists.mp hd.cached
  have hcaches := (Writer.cachesTopic_new (r.topicAt idx) (r.groupAt idx)).deliverAll ms
  rw [hcaches.2 offset topicName hcache] at hcache
  rw [Writer.handleNack_router, Writer.nackFrame, hcache, Option.map_some, if_pos hleft]
  rfl

/-! ## Who gets the retry -/

theorem foldl_offer_live (msg : Message) (p : UInt8) (ts : List Nat) (a : Router × List Nat) :
    EnqueuedBy (fun d => a.1.isActive d.idx = true) a.1 (ts.foldl (offer msg p) a).1 := by
  induction ts generalizing a with
  | nil => exact .of_eq rfl
  | cons t ts ih =>
    obtain ⟨_, _, _, hframe⟩ := offer_frame msg p a t
    have hactive : ∀ i, (offer msg p a t).1.isActive i = a.1.isActive i := fun i => by rw [hframe]; rfl
    have hrest := ih (offer msg p a t)
    simp only [hactive] at hrest
    refine EnqueuedBy.trans ?_ hrest
    rcases offer_cases msg p a t with ⟨hlive, -⟩ | ⟨-, heq⟩
    · refine EnqueuedBy.mono (fun d (hd : d.idx = t) => ?_) (offer_enqueuedBy_slot msg p a t)
      rw [hd]
      exact hlive
    · rw [heq]
      exact .of_eq rfl

theorem received_dead {r : Router} (now : Int64) {pub : Publication} (h : pub.Accepted r) {j : Nat}
    (hdead : r.isActive j = false) : received r (r.act (pub.action now)) j = [] := by
  obtain ⟨qm, offs, fw, hact⟩ := act_dispatch now h
  obtain ⟨ds, hds, hlive⟩ := foldl_offer_live (pub.message r now) pub.frame.priority
    (r.targets (topicHashKey (pub.topic now)) (pub.topic now))
    ({ r with quotaManager := qm, topicOffsets := offs, forwarded := fw }, [])
  rw [received, hact, dispatch_eq]
  have hdrop : (r.enqueued ++ ds).drop r.enqueued.length = ds := List.drop_left
  refine (congrArg (fun es => messagesFor j (es.drop r.enqueued.length)) hds).trans ?_
  dsimp only
  rw [hdrop, messagesFor, List.filter_eq_nil_iff.mpr, List.map_nil]
  intro d hd hj
  have htrue : r.isActive d.idx = true := hlive d hd
  rw [of_decide_eq_true hj] at htrue
  cases hdead.symm.trans htrue

theorem retry_forwarded (r : Router) (now : Int64) (idx : Nat) (offset : UInt64) :
    (r.act ((retry r idx offset).action now)).forwarded = r.forwarded ↔
      ¬ ((retry r idx offset).Accepted r ∧ 0 < r.activePeers) := by
  rw [retry, Publication.action, act, publishWithClientID_forwarded]
  split
  · next hc => exact iff_of_false (by simp) (not_not_intro hc)
  · next hc => exact iff_of_true (List.append_nil _) hc

/-- A retry that is not accepted reaches nobody. -/
theorem retry_rejected {r : Router} {now : Int64} {idx : Nat} {offset : UInt64}
    (h : ¬ (retry r idx offset).Accepted r) (j : Nat) :
    received r (r.act ((retry r idx offset).action now)) j = [] := by
  have hnumber : ∃ qm, (retry r idx offset).number now r =
      ({ r with quotaManager := qm }, none) := by
    rw [retry, Publication.number]
    split
    · exact ⟨r.quotaManager, rfl⟩
    · next hlen =>
      obtain ⟨qm, hacquire⟩ := tryAcquire_frame r []
      have hok : (r.tryAcquire []).2 = false := Bool.eq_false_iff.mpr fun hok => h ⟨hlen, hok⟩
      rw [hacquire, hok]
      exact ⟨qm, rfl⟩
  obtain ⟨qm, hnumber⟩ := hnumber
  have hsame : (r.act ((retry r idx offset).action now)).enqueued = r.enqueued := by
    rw [retry, Publication.action, act, publishWithClientID_both, disconnectAll_enqueued]
    rw [retry] at hnumber
    rw [Publication.both, hnumber]
  rw [received, hsame, List.drop_length]
  rfl

theorem retry_message {r : Router} {now : Int64} {idx : Nat} {offset : UInt64}
    (hsize : (r.topicAt idx).length < 2 ^ 32) (h : (retry r idx offset).Accepted r) :
    ∃ f', parseFrame ((retry r idx offset).message r now).buf = .ok f' ∧
      f'.payload = (retry r idx offset).topic now ∧ f'.extensions = retryExt offset ∧
      deliveryOffset ((retry r idx offset).message r now) = offset := by
  have htopic := topicOf_length_le now (retryFrame (r.topicAt idx) offset)
  have hlen : (r.topicAt idx).length ≤ 1048576 := by
    have hle := UInt32.le_iff_toNat_le.mp (UInt32.not_lt.mp h.1)
    rw [retryFrame, UInt32.toNat_ofNat', Nat.mod_eq_of_lt hsize] at hle
    exact hle
  have hblock : ExtBlock (retryExt offset) := ⟨rfl, show 10 ≤ 1024 by decide⟩
  have hext : (retryExt offset).length = 12 := rfl
  have hfits : (retryExt offset).length + (topicOf now (retryFrame (r.topicAt idx) offset)).length <
      2 ^ 32 := by
    have hpayload : (retryFrame (r.topicAt idx) offset).payload = r.topicAt idx := rfl
    rw [hpayload] at htopic
    omega
  have hacc := serializeFrameWithExtensions_accepted (show KnownOpcode cmdPublish by decide) 0 hblock
    hfits
  have hbuf : ((retry r idx offset).message r now).buf = serializeFrameWithExtensions cmdPublish 0
      (retryExt offset) (topicOf now (retryFrame (r.topicAt idx) offset)) := rfl
  refine ⟨_, hbuf ▸ hacc.parseFrame_eq, rfl, rfl, ?_⟩
  rw [deliveryOffset_frame (hbuf ▸ hacc), retryOffset_retryExt]
  rfl

/-- **NACK redelivery.** With retries left a NACK of a cached message enqueues
one copy of it for its subscriber, and nothing else anywhere, if the retry is
targetable; where the queues have room for everything the retry is offered to,
only then. -/
theorem nack_targeted_iff {r : Router} (hr : Reachable r) {idx : Nat} {w : Writer} {m : Message}
    {f : Frame} {offset : UInt64} (hd : Redeliverable r idx w m f offset) (now : Int64) {n : Nacks}
    (hleft : (n.counters (topicHashKey (r.topicAt idx), offset) + 1).toInt < n.maxRetries) :
    (Targetable r now idx f offset →
        Targeted r (w.handleNack now n r offset).2 idx m offset) ∧
      (RoomForRetry r now idx offset → Targeted r (w.handleNack now n r offset).2 idx m offset →
        Targetable r now idx f offset) := by
  rw [handleNack_retry hd now hleft]
  constructor
  · intro h
    obtain ⟨f', hf', hpayload, hext, hoffset⟩ := @retry_message r now idx offset hd.size h.accepted
    refine ⟨(retry_forwarded r now idx offset).mpr fun hc => ?_, ⟨_, ?_, f, f', hd.frame, hf',
      hpayload.trans h.payload.symm, fun typ htyp => ?_, hoffset⟩, fun j hj => ?_⟩
    · exact Nat.ne_of_gt hc.2 h.peers
    · rw [received_eq hr.sound now h.accepted hd.live (by rw [h.once]; exact h.room), h.once]
      rfl
    · rw [hext, findExtension_retryExt, if_neg (Ne.symm htyp), h.extensions typ htyp]
    · cases hlive : r.isActive j with
      | false => exact received_dead now h.accepted hlive
      | true =>
        have hcount := h.others j hj hlive
        rw [received_eq hr.sound now h.accepted hlive
          (by rw [hcount]; exact hr.sound.capacity j _), hcount]
        rfl
  · rintro hroom ⟨hforward, ⟨m', hm', f₁, f', hf₁, hf', hpayload, hext, -⟩, hothers⟩
    have haccepted : (retry r idx offset).Accepted r := by
      by_contra hrejected
      rw [retry_rejected hrejected] at hm'
      cases hm'
    obtain ⟨f'', hf'', hpayload'', hext'', -⟩ := @retry_message r now idx offset hd.size haccepted
    rw [received_eq hr.sound now haccepted hd.live (hroom idx hd.live)] at hm'
    have honce := congrArg List.length hm'
    rw [List.length_replicate, List.length_singleton] at honce
    rw [honce] at hm'
    cases hm'
    cases hf₁.symm.trans hd.frame
    cases hf''.symm.trans hf'
    refine ⟨haccepted, ?_, honce, fun j hj hlive => ?_, ?_, ?_, fun typ htyp => ?_⟩
    · by_contra hpeers
      exact (retry_forwarded r now idx offset).mp hforward ⟨haccepted, Nat.pos_of_ne_zero hpeers⟩
    · have hnone := hothers j hj
      rw [received_eq hr.sound now haccepted hlive (hroom j hlive)] at hnone
      exact (List.replicate_eq_nil_iff _).mp hnone
    · have hone := hroom idx hd.live
      rw [honce] at hone
      exact hone
    · rw [← hpayload, hpayload'']
    · rw [← hext typ htyp, hext'', findExtension_retryExt, if_neg (Ne.symm htyp)]

/-- The first message on `t` in the queue of its subscribers. -/
def firstMessage : Message := ⟨serializeFrame cmdPublish 0 (ascii "t"), 1, 0⟩

/-- A router whose subscribers got the first message on `t`. -/
def afterFirst (payloads : List String) : Router :=
  (smallRouter payloads).act ((publishOf "t").action 0)

/-- The writer of a subscriber of `t` that delivered the first message. -/
def firstWriter : Writer := (Writer.new (ascii "t") []).deliverAll [(0, firstMessage)]

theorem redeliverable_first {payloads : List String} (htopic : (afterFirst payloads).topicAt 0 = ascii "t")
    (hgroup : (afterFirst payloads).groupAt 0 = []) (hlive : (afterFirst payloads).isActive 0 = true) :
    Redeliverable (afterFirst payloads) 0 firstWriter firstMessage (clientFrame cmdPublish 0 "t") 1 where
  live := hlive
  size := by
    rw [htopic]
    decide
  delivered := ⟨[(0, firstMessage)], by rw [htopic, hgroup]; rfl, 0, List.mem_singleton.mpr rfl, rfl⟩
  frame := by decide
  sentAs := by decide
  cached := by decide

/-- The only subscriber of `t`. -/
theorem lone_subscriber_gets_the_copy :
    Targeted (afterFirst ["topic:t"])
      (firstWriter.handleNack 0 (Nacks.new defaultMaxRetries) (afterFirst ["topic:t"]) 1).2 0
      firstMessage 1 := by
  have hd : Redeliverable (afterFirst ["topic:t"]) 0 firstWriter firstMessage
      (clientFrame cmdPublish 0 "t") 1 :=
    redeliverable_first (by decide +kernel) (by decide +kernel) (by decide +kernel)
  refine (nack_targeted_iff (.act _ (smallRouter_reachable _)) hd 0 (by decide)).1
    ⟨⟨by decide +kernel, rfl⟩, by decide +kernel, by decide +kernel, fun j hj hlive => ?_,
      by decide +kernel, by decide +kernel, fun _ _ => rfl⟩
  have hlt : j < 1 := isActive_lt hlive
  omega

/-- Of two subscribers of `t` one sends a NACK: the other one gets the message
again as well. -/
theorem bystander_gets_the_retry :
    Reachable (afterFirst ["topic:t", "topic:t"]) ∧
      Redeliverable (afterFirst ["topic:t", "topic:t"]) 0 firstWriter firstMessage
        (clientFrame cmdPublish 0 "t") 1 ∧
      ¬ Targeted (afterFirst ["topic:t", "topic:t"])
        (firstWriter.handleNack 0 (Nacks.new defaultMaxRetries)
          (afterFirst ["topic:t", "topic:t"]) 1).2 0 firstMessage 1 := by
  have hother : (received (afterFirst ["topic:t", "topic:t"])
      (firstWriter.handleNack 0 (Nacks.new defaultMaxRetries)
        (afterFirst ["topic:t", "topic:t"]) 1).2 1).map deliveryOffset = [1] := by
    decide +kernel
  refine ⟨.act _ (smallRouter_reachable _),
    redeliverable_first (by decide +kernel) (by decide +kernel) (by decide +kernel), ?_⟩
  rintro ⟨-, -, hothers⟩
  rw [hothers 1 (by decide)] at hother
  cases hother

end Aqueduct.Broker
