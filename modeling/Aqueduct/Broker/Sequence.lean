import Aqueduct.Broker.Batch

/-!
`PublishBatch` on a list of publish frames against `Publish` on each of them.
`LocalState` is what subscribers, offsets, groups and quotas can observe. The
two runs put messages of the same frames, with the same offsets, into the same
queues; a batch delivers the bytes it was sent where `Publish` serialises the
frame again.
-/

namespace Aqueduct.Broker

open ByteStr Protocol

/-- The bytes of one well-formed publish frame. -/
structure PublishFrame where
  wire : Bytes
  frame : Frame
  whole : WholeFrame wire frame
  opcode : opcodeOf frame.command = cmdPublish

theorem PublishFrame.payload_le (x : PublishFrame) : x.frame.payload.length ≤ x.wire.length := by
  have hdata := x.whole.accepted.data_length
  have hsize := x.whole.accepted.size_eq
  have hwire := x.whole.2
  omega

/-- Contents of every queue, topic offsets, round-robin counters and quota
tokens. -/
structure LocalState where
  queues : List Queues
  topicOffsets : UInt64 → UInt64
  counters : UInt64 → List UInt64
  tokens : Option ((Bytes → Option Int) × Option Int)

namespace Router

def localState (r : Router) : LocalState where
  queues := r.queues
  topicOffsets := r.topicOffsets
  counters := fun topicHash => (r.groups topicHash).map (·.counter)
  tokens := r.quotaManager.map (·.tokens)

def publishAll (r : Router) (now : Int64) (xs : List PublishFrame) : Router :=
  xs.foldl (fun r x => (r.publish now x.frame).1) r

/-- The batch frame around the concatenation of the frames. -/
def batchFrame (streamID : UInt32) (extensions : Bytes) (xs : List PublishFrame) : Frame where
  command := cmdPublishBatch
  streamID := streamID
  payloadLen := UInt32.ofNat (xs.map (·.wire)).flatten.length
  payload := (xs.map (·.wire)).flatten
  extensions := extensions

def batchAll (r : Router) (now : Int64) (xs : List PublishFrame) : Router :=
  disconnectAll ((xs.map (·.wire)).foldl (publishSub now) (r, []))

/-! ## Sizes -/

def totalSize (xs : List PublishFrame) : Nat := (xs.map (·.wire)).flatten.length

theorem wire_le_total {xs : List PublishFrame} {x : PublishFrame} (hx : x ∈ xs) :
    x.wire.length ≤ totalSize xs := by
  exact (List.sublist_flatten_of_mem (List.mem_map_of_mem hx)).length_le

theorem payloadLen_le {xs : List PublishFrame} (h : totalSize xs ≤ maxPayloadSize.toNat)
    {x : PublishFrame} (hx : x ∈ xs) : ¬ x.frame.payloadLen > maxPayloadSize := by
  intro hgt
  have hlt : maxPayloadSize.toNat < x.frame.payloadLen.toNat := UInt32.lt_iff_toNat_lt.mp hgt
  rw [x.whole.accepted.payloadLen] at hlt
  have hpay := x.payload_le
  have hwire := wire_le_total hx
  omega

theorem batchFrame_payloadLen_le {xs : List PublishFrame}
    (h : totalSize xs ≤ maxPayloadSize.toNat) (streamID : UInt32) (extensions : Bytes) :
    ¬ (batchFrame streamID extensions xs).payloadLen > maxPayloadSize := by
  intro hgt
  have hlt := UInt32.lt_iff_toNat_lt.mp hgt
  have hmod : (UInt32.ofNat (totalSize xs)).toNat ≤ totalSize xs := by
    rw [UInt32.toNat_ofNat']
    exact Nat.mod_le _ _
  exact absurd (Nat.le_trans hmod h) (Nat.not_le.mpr hlt)

/-- A batch cuts its payload back into the frames. -/
theorem publishBatch_localState {xs : List PublishFrame}
    (h : totalSize xs ≤ maxPayloadSize.toNat) (r : Router) (now : Int64) (streamID : UInt32)
    (extensions : Bytes) :
    (r.publishBatch now (batchFrame streamID extensions xs)).1.localState =
      (r.batchAll now xs).localState := by
  have hcut : batchFrames (batchFrame streamID extensions xs).payload = xs.map (·.wire) := by
    refine (parseBatch_flatten fun b hb => ?_).1
    obtain ⟨x, -, rfl⟩ := List.mem_map.mp hb
    exact ⟨x.frame, x.whole⟩
  unfold publishBatch
  rw [if_neg (batchFrame_payloadLen_le h streamID extensions), hcut]
  dsimp only
  split <;> rfl

theorem batchAll_cons (r : Router) (now : Int64) (x : PublishFrame) (xs : List PublishFrame) :
    r.batchAll now (x :: xs) = disconnectAll ((xs.map (·.wire)).foldl (publishSub now)
      (r.route now x.frame x.wire 0)) := by
  rw [batchAll, List.map_cons, List.foldl_cons, publishSub_eq x.whole.1, List.nil_append]

/-! ## The two runs in step -/

/-- Along the one-by-one run every publish gets its token, and nobody is
disconnected before the last one. -/
def Smooth (now : Int64) : Router → List PublishFrame → Prop
  | _, [] => True
  | r, x :: xs =>
    (r.tryAcquire []).2 = true ∧ (xs ≠ [] → r.Calm now x.frame) ∧
      Smooth now (r.publish now x.frame).1 xs

/-- Two queued messages that stand for the same publish: one message that was
there before, or one of the frames, as it came in the batch and as `Publish`
serialises it. A frame without a TTL has the same expiry in both. -/
def SamePublish (r : Router) (now : Int64) (xs : List PublishFrame) (m m' : Message) : Prop :=
  m = m' ∨ ∃ x ∈ xs, m.offset = m'.offset ∧ m.buf = x.wire ∧
    m'.buf = publishBuf x.frame (topicOf now x.frame) ∧
    ((r.expiryAndTopic now x.frame.priority x.frame.payload).1 = 0 → m.expiresAt = m'.expiresAt)

/-- The one-by-one run keeps step with the batch loop: the frames still to come
are among all of them, and the TTLs do not change on the way. -/
theorem batchAll_mirrors {r : Router} {now : Int64} {all : List PublishFrame}
    (xs : List PublishFrame) :
    ∀ b s : Router, b.Sound → Mirrors (r.SamePublish now all) b s →
      b.priorityTTLs = r.priorityTTLs → Smooth now s xs → (∀ x ∈ xs, x ∈ all) →
      (∀ x ∈ xs, ¬ x.frame.payloadLen > maxPayloadSize) →
      Mirrors (r.SamePublish now all) (b.batchAll now xs) (s.publishAll now xs) := by
  induction xs with
  | nil =>
    intro b s _ h _ _ _ _
    exact h
  | cons x xs ih =>
    intro b s hb h httl hsmooth hall hlen
    obtain ⟨hgrant, hcalm, hrest⟩ := hsmooth
    have hexp := expiryAndTopic_congr (h.priorityTTLs.trans httl) now x.frame.priority
      x.frame.payload
    have hQ : ∀ off, r.SamePublish now all ⟨x.wire, off, 0⟩
        ⟨publishBuf x.frame (topicOf now x.frame), off,
          (s.expiryAndTopic now x.frame.priority x.frame.payload).1⟩ := by
      intro off
      rw [hexp]
      exact .inr ⟨x, hall x (by simp), rfl, rfl, rfl, fun hzero => hzero.symm⟩
    have hpub := h.publish hb hgrant (hlen x (by simp)) hQ
    rw [batchAll_cons]
    by_cases hxs : xs = []
    · subst hxs
      exact hpub
    · -- nobody is disconnected yet, so the loop goes on from the same router
      rw [route_calm_eq hb (h.calm (hcalm hxs))] at hpub ⊢
      have hsteady := route_steady hb now x.frame x.wire 0
      have httl' := (route_sameTables b now x.frame x.wire 0).priorityTTLs_eq.trans httl
      exact ih _ _ hsteady.sound hpub httl' hrest (fun y hy => hall y (by simp [hy]))
        fun y hy => hlen y (by simp [hy])

/-! ## Quota tokens -/

theorem disconnectAll_quotaManager (acc : Router × List Nat) :
    (disconnectAll acc).quotaManager = acc.1.quotaManager := by
  obtain ⟨_, _, _, -, heq⟩ := disconnectAll_frame acc
  rw [heq]

theorem batchAll_quotaManager {r : Router} (hr : r.Sound) (now : Int64) (xs : List PublishFrame) :
    (r.batchAll now xs).quotaManager = r.quotaManager := by
  rw [batchAll, disconnectAll_quotaManager, List.foldl_map]
  refine (List.foldlRecOn xs (fun acc x => publishSub now acc x.wire) (b := (r, []))
    (motive := fun acc => acc.1.Sound ∧ acc.1.quotaManager = r.quotaManager) ⟨hr, rfl⟩ ?_).2
  intro acc ⟨hsound, hquota⟩ x _
  rw [publishSub_eq x.whole.1]
  have hsteady := route_steady hsound now x.frame x.wire 0
  exact ⟨hsteady.sound, hsteady.control.quotaManager.trans hquota⟩

theorem publish_quotaManager {r : Router} (hr : r.Sound) {f : Frame}
    (hlen : ¬ f.payloadLen > maxPayloadSize) (now : Int64) :
    (r.publish now f).1.quotaManager = (r.tryAcquire []).1.quotaManager := by
  have hacquire : (r.tryAcquire []).1.Sound :=
    ((Mirrors.refl (Q := (· = ·)) (fun m => rfl) r).tryAcquire []).sound hr
  unfold publish publishWithClientID
  rw [if_neg hlen]
  dsimp only
  generalize (r.tryAcquire []).1 = s at hacquire
  split
  · rfl
  · split
    · rfl
    · rw [disconnectAll_quotaManager]
      have hdispatch : ∀ (q : Router) (h : UInt64) (t : Bytes) (msg : Message), q.Sound →
          (q.dispatch h t msg f.priority).1.quotaManager = q.quotaManager :=
        fun q h t msg hq => (dispatch_steady hq h t msg f.priority).control.quotaManager
      rw [hdispatch]
      · split <;> rfl
      · have hnext := hacquire.nextTopicOffset
          (topicHashKey (s.expiryAndTopic now f.priority f.payload).2)
        split
        · exact hnext.congr rfl rfl rfl rfl
        · exact hnext

/-- Without a bucket for client "" the one-by-one run takes no token either. -/
theorem publishAll_quotaManager {now : Int64} (xs : List PublishFrame) {r : Router} (hr : r.Sound)
    (hq : r.Unlimited) (hlen : ∀ x ∈ xs, ¬ x.frame.payloadLen > maxPayloadSize) :
    (r.publishAll now xs).quotaManager = r.quotaManager := by
  induction xs generalizing r with
  | nil => rfl
  | cons x xs ih =>
    have hone : (r.publish now x.frame).1.quotaManager = r.quotaManager := by
      rw [publish_quotaManager hr (hlen x (by simp)), tryAcquire_unlimited hq]
    have hrest := ih (publishWithClientID_sound hr now x.frame [])
      (fun m hm => hq m (hone.symm.trans hm)) fun y hy => hlen y (by simp [hy])
    exact hrest.trans hone

/-! ## The whole local state -/

/-- Local states that agree up to `Q` on queued messages, quotas apart. -/
structure Matches (Q : Message → Message → Prop) (a b : LocalState) : Prop where
  slots : a.queues.length = b.queues.length
  queues : ∀ idx level, List.Forall₂ Q ((a.queues.getD idx fun _ => []) level)
    ((b.queues.getD idx fun _ => []) level)
  topicOffsets : a.topicOffsets = b.topicOffsets
  counters : a.counters = b.counters

theorem Mirrors.matches {Q : Message → Message → Prop} {b s : Router} (h : Mirrors Q b s) :
    Matches Q b.localState s.localState := by
  obtain ⟨qs, es, fw, qm, rfl, hlen, hq⟩ := h
  exact ⟨hlen.symm, hq, rfl, rfl⟩

/-- If every publish gets its token, a batch leaves the local state that
publishing its frames one by one leaves, up to the form in which each frame is
queued; the tokens agree if client "" has no bucket. -/
theorem batch_follows_sequence (r : Router) (hr : r.Sound) (now : Int64) (streamID : UInt32)
    (extensions : Bytes) (xs : List PublishFrame) (hsize : totalSize xs ≤ maxPayloadSize.toNat)
    (hsmooth : Smooth now r xs) :
    Matches (r.SamePublish now xs)
        (r.publishBatch now (batchFrame streamID extensions xs)).1.localState
        (r.publishAll now xs).localState ∧
      (r.Unlimited → (r.publishBatch now (batchFrame streamID extensions xs)).1.localState.tokens =
        (r.publishAll now xs).localState.tokens) := by
  have hlen : ∀ x ∈ xs, ¬ x.frame.payloadLen > maxPayloadSize := fun x hx => payloadLen_le hsize hx
  rw [publishBatch_localState hsize]
  constructor
  · exact (batchAll_mirrors xs r r hr (.refl (fun _ => .inl rfl) r) rfl hsmooth
      (fun _ hx => hx) hlen).matches
  · intro hq
    simp only [localState, batchAll_quotaManager hr, publishAll_quotaManager xs hr hq hlen]

/-! ## Two frames of a client -/

/-- A publish frame of a client, with its stream id and payload as given. -/
def clientPublish (streamID : UInt32) (payload : Bytes)
    (h : WholeFrame (serializeFrame cmdPublish streamID payload)
      ⟨cmdPublish, streamID, UInt32.ofNat payload.length, payload, []⟩) : PublishFrame where
  wire := serializeFrame cmdPublish streamID payload
  frame := ⟨cmdPublish, streamID, UInt32.ofNat payload.length, payload, []⟩
  whole := h
  opcode := (by decide : opcodeOf cmdPublish = cmdPublish)

def plainPublish : PublishFrame := clientPublish 0 (ascii "a") (by unfold WholeFrame; decide)

def numberedPublish : PublishFrame := clientPublish 1 (ascii "a") (by unfold WholeFrame; decide)

def subscribedToA : Router :=
  (newRouter.subscribe ⟨0, 0⟩ ⟨cmdSubscribe, 0, 7, ascii "topic:a", []⟩).1

theorem subscribedToA_sound : subscribedToA.Sound := subscribe_sound newRouter_sound _ _

theorem numbered_batch_follows_sequence :
    subscribedToA.Sound ∧ Smooth 0 subscribedToA [plainPublish, numberedPublish] ∧
      Matches (subscribedToA.SamePublish 0 [plainPublish, numberedPublish])
        (subscribedToA.publishBatch 0
          (batchFrame 0 [] [plainPublish, numberedPublish])).1.localState
        (subscribedToA.publishAll 0 [plainPublish, numberedPublish]).localState := by
  have hsmooth : Smooth 0 subscribedToA [plainPublish, numberedPublish] :=
    ⟨by decide, fun _ hp => absurd hp (by decide), by decide, fun hne => absurd rfl hne, trivial⟩
  exact ⟨subscribedToA_sound, hsmooth, (batch_follows_sequence subscribedToA subscribedToA_sound
    0 0 [] [plainPublish, numberedPublish] (by decide) hsmooth).1⟩

/-- A batch delivers the stream id of its sub-frame, a single publish stream
id 0. -/
theorem batch_differs_from_sequence :
    ¬ ∀ (r : Router), r.Sound → ∀ (now : Int64) (streamID : UInt32) (extensions : Bytes)
      (xs : List PublishFrame), totalSize xs ≤ maxPayloadSize.toNat →
        (r.publishBatch now (batchFrame streamID extensions xs)).1.localState =
          (r.publishAll now xs).localState := by
  intro h
  have hsame := h subscribedToA subscribedToA_sound 0 0 [] [numberedPublish] (by decide)
  have hqueue := congrArg (fun s : LocalState => (s.queues.getD 0 fun _ => []) priorityNormal) hsame
  exact absurd hqueue (by decide)

end Router

end Aqueduct.Broker
