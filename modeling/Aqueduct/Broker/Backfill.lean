import Aqueduct.Aal
import Aqueduct.Broker.Counters
import Aqueduct.Broker.FanOut

/-!
The backfill worker of a durable subscription, `runBackfillWorker`. It reads
the log again and numbers the publish records of the topic by counting them;
the ones between the requested offset and the latest one at subscribe time go
into the slot's queue. The two halves of a publish path are what it interleaves
with.
-/

namespace Aqueduct.Broker

open ByteStr Protocol Aqueduct.Aal

inductive BackfillFault
  | cancelled
  deriving DecidableEq, Repr

def BackfillFault.text : BackfillFault → String
  | .cancelled => "backfill cancelled"

namespace Router

/-! ## The worker -/

/-- The callback of the worker. Its state is the router and the number of the
last record of the topic. -/
def backfillRecord (now : Int64) (cancelled : Bool) (w : Backfill) (st : Router × UInt64)
    (frameBytes : Bytes) : (Router × UInt64) × Option BackfillFault :=
  if cancelled then (st, some .cancelled)
  else
    match parseFrame frameBytes with
    | .error _ => (st, none)
    | .ok frame =>
      if frame.command = cmdPublish then
        let (tExp, cleanTopic) := parsePublishTopic now frame.payload
        if cleanTopic = w.topic then
          let currentMsgOffset := st.2 + 1
          if w.startOffset < currentMsgOffset ∧ currentMsgOffset ≤ w.endOffset then
            let msg := ⟨serializeFrame cmdPublish 0 cleanTopic, currentMsgOffset, tExp⟩
            let (r, dc) := st.1.enqueueToSubscriber w.idx msg priorityNormal
            ((disconnectAll (r, dc.toList), currentMsgOffset), none)
          else ((st.1, currentMsgOffset), none)
        else (st, none)
      else (st, none)

/-- The callback with the clock and the cancellation as record `i` finds them. -/
def backfillHandler (clock : Nat → Int64) (cancelled : Nat → Bool) (w : Backfill)
    (st : (Router × UInt64) × Nat) (frameBytes : Bytes) :
    ((Router × UInt64) × Nat) × Option BackfillFault :=
  let (st', fault) := backfillRecord (clock st.2) (cancelled st.2) w st.1 frameBytes
  ((st', st.2 + 1), fault)

def runBackfillWorker (newGCM : Bytes → Aead) (key : Bytes) (clock : Nat → Int64)
    (cancelled : Nat → Bool) (w : Backfill) (pick : Nat → Nat) (fuel : Nat) (file : Option Bytes)
    (r : Router) : Option (Replayed ((Router × UInt64) × Nat) BackfillFault) :=
  if r.aalPath = [] then some ⟨((r, 0), 0), 0, none⟩
  else replay newGCM key (backfillHandler clock cancelled w) pick fuel file ((r, 0), 0)

/-- A record the worker counts for `topic`. -/
def isPublishOf (topic frameBytes : Bytes) : Bool :=
  match parseFrame frameBytes with
  | .error _ => false
  | .ok frame => frame.command = cmdPublish ∧ (parsePublishTopic 0 frame.payload).2 = topic

theorem backfillRecord_other {w : Backfill} {frameBytes : Bytes}
    (h : isPublishOf w.topic frameBytes = false) (now : Int64) (st : Router × UInt64) :
    backfillRecord now false w st frameBytes = (st, none) := by
  unfold isPublishOf at h
  unfold backfillRecord
  rw [if_neg (by decide)]
  cases hparse : parseFrame frameBytes with
  | error e => rfl
  | ok frame =>
    rw [hparse] at h
    dsimp only at h ⊢
    split
    · next hcmd =>
      rw [parsePublishTopic_now now 0]
      rw [if_neg]
      intro htopic
      simp [hcmd, htopic] at h
    · rfl

theorem backfillRecord_publish {w : Backfill} {frameBytes : Bytes}
    (h : isPublishOf w.topic frameBytes = true) (now : Int64) (st : Router × UInt64) :
    ∃ tExp, backfillRecord now false w st frameBytes =
      if w.startOffset < st.2 + 1 ∧ st.2 + 1 ≤ w.endOffset then
        let (r, dc) := st.1.enqueueToSubscriber w.idx
          ⟨serializeFrame cmdPublish 0 w.topic, st.2 + 1, tExp⟩ priorityNormal
        ((disconnectAll (r, dc.toList), st.2 + 1), none)
      else ((st.1, st.2 + 1), none) := by
  unfold isPublishOf at h
  unfold backfillRecord
  rw [if_neg (by decide)]
  cases hparse : parseFrame frameBytes with
  | error e =>
    rw [hparse] at h
    cases h
  | ok frame =>
    rw [hparse] at h
    obtain ⟨hcmd, htopic⟩ := of_decide_eq_true h
    have hnow : (parsePublishTopic now frame.payload).2 = w.topic :=
      (parsePublishTopic_now now 0 frame.payload).trans htopic
    refine ⟨(parsePublishTopic now frame.payload).1, ?_⟩
    dsimp only
    rw [if_pos hcmd, if_pos hnow, hnow]

theorem backfillRecord_ok (now : Int64) (w : Backfill) (st : Router × UInt64)
    (frameBytes : Bytes) : (backfillRecord now false w st frameBytes).2 = none := by
  cases h : isPublishOf w.topic frameBytes with
  | false => rw [backfillRecord_other h]
  | true =>
    obtain ⟨tExp, heq⟩ := backfillRecord_publish h now st
    rw [heq]
    split <;> rfl

/-- On a file of whole records the worker handles record after record, however
the file is read. -/
theorem runBackfillWorker_records {newGCM : Bytes → Aead} {key : Bytes} {gcm : Option Aead}
    (hgcm : cipherFor newGCM key = .ok gcm) {items : List (Bytes × Bytes)}
    (hitems : ∀ p ∈ items, (recordCutter gcm).Whole p.1 (some p.2) ∧ p.1.length ≤ replayBufSize)
    (clock : Nat → Int64) {cancelled : Nat → Bool} (hcancel : ∀ i, cancelled i = false)
    (w : Backfill) (pick : Nat → Nat) {fuel : Nat}
    (hfuel : (items.map (·.1)).flatten.length < fuel) {r : Router} (hpath : r.aalPath ≠ []) :
    runBackfillWorker newGCM key clock cancelled w pick fuel (some (items.map (·.1)).flatten) r =
      some ⟨handleAll (backfillHandler clock cancelled w) ((r, 0), 0) (items.map (·.2)),
        items.length, none⟩ := by
  rw [runBackfillWorker, if_neg hpath]
  refine replay_records hgcm hitems (fun st raw _ => ?_) pick hfuel _
  rw [backfillHandler, hcancel]
  exact backfillRecord_ok (clock st.2) w st.1 raw

/-! ## What the worker's send brings -/

theorem enqueue_received {r : Router} (hr : r.Sound) {idx : Nat} (hlive : r.isActive idx = true)
    {p : UInt8} (hroom : (r.queueAt idx (clampLevel p)).length < r.queueSize) (msg : Message) :
    received r (r.enqueueToSubscriber idx msg p).1 idx = [msg] ∧
      (r.enqueueToSubscriber idx msg p).2 = none := by
  rw [enqueueToSubscriber_live hr hlive, sendOrOverflow, if_pos hroom]
  refine ⟨?_, rfl⟩
  show messagesFor idx ((r.enqueued ++ [(⟨idx, clampLevel p, msg⟩ : Delivery)]).drop
    r.enqueued.length) = [msg]
  rw [List.drop_left]
  simp [messagesFor]

theorem evolves_backfillRecord (now : Int64) (cancelled : Bool) (w : Backfill)
    (st : Router × UInt64) (frameBytes : Bytes) :
    st.1.Evolves (backfillRecord now cancelled w st frameBytes).1.1 := by
  cases cancelled with
  | true => exact .refl _
  | false =>
    cases h : isPublishOf w.topic frameBytes with
    | false =>
      rw [backfillRecord_other h]
      exact .refl _
    | true =>
      obtain ⟨tExp, heq⟩ := backfillRecord_publish h now st
      rw [heq]
      split
      · dsimp only
        generalize hdc : (st.1.enqueueToSubscriber w.idx
          ⟨serializeFrame cmdPublish 0 w.topic, st.2 + 1, tExp⟩ priorityNormal).2 = dc
        have henqueue := evolves_act st.1
          (.backfill w.idx ⟨serializeFrame cmdPublish 0 w.topic, st.2 + 1, tExp⟩)
        cases dc with
        | none => exact henqueue
        | some i => exact henqueue.trans (evolves_act _ (.disconnect i))
      · exact .refl _

/-! ## What the halves of a publish path change -/

theorem evolves_of_frame {r r' : Router} (hids : r'.streamIDs = r.streamIDs)
    (hactive : r'.active = r.active) (htopics : r'.topics = r.topics)
    (hgroups : r'.subGroups = r.subGroups) (hindex : r'.topicIndex = r.topicIndex)
    (hwild : r'.wildcardSubs = r.wildcardSubs) (hcgs : r'.groups = r.groups)
    (hlocks : r'.subMus = r.subMus) (hqueues : r'.queues = r.queues)
    (hsize : r'.queueSize = r.queueSize) : r.Evolves r' :=
  ⟨.of_eq htopics hgroups, fun h => h.congr hlocks (by rw [hactive]) hqueues hsize,
    fun h => h.congr hids hactive htopics hgroups hindex hwild hcgs⟩

theorem counter_lt {c : UInt64} (h : c + 1 ≠ 0) : c < c + 1 := by
  have hne : c.toNat + 1 ≠ 2 ^ 64 := fun hwrap => h (by
    rw [← UInt64.toNat_inj, UInt64.toNat_add, UInt64.toNat_one, hwrap]
    rfl)
  have hlt := c.toNat_lt
  rw [UInt64.lt_iff_toNat_lt, UInt64.toNat_add, UInt64.toNat_one, Nat.mod_eq_of_lt (by omega)]
  omega

/-- The first half drops the message or gives it the next number of its topic. -/
theorem number_frame (now : Int64) (r : Router) (pub : Publication) : ∃ qm,
    pub.number now r = ({ r with quotaManager := qm }, none) ∨
      pub.number now r = ({ r with
          quotaManager := qm
          topicOffsets := setKey r.topicOffsets (topicHashKey (pub.topic now))
            (r.topicOffsets (topicHashKey (pub.topic now)) + 1) },
        some (r.topicOffsets (topicHashKey (pub.topic now)) + 1)) := by
  cases pub with
  | client clientID f =>
    obtain ⟨qm, hacquire⟩ := tryAcquire_frame r clientID
    rw [Publication.number]
    split
    · exact ⟨r.quotaManager, .inl rfl⟩
    · cases hok : (r.tryAcquire clientID).2 with
      | false =>
        rw [hacquire, hok]
        exact ⟨qm, .inl rfl⟩
      | true =>
        rw [hacquire, hok]
        exact ⟨qm, .inr rfl⟩
  | peer f =>
    rw [Publication.number]
    split
    · exact ⟨r.quotaManager, .inl rfl⟩
    · exact ⟨r.quotaManager, .inr rfl⟩
  | batched subFrame f => exact ⟨r.quotaManager, .inr rfl⟩

/-- A publish path queues nothing but the message of its first half. -/
theorem both_enqueuedBy (now : Int64) (r : Router) (pub : Publication) :
    EnqueuedBy (fun d => ∃ qm offs n, (pub.number now r).2 = some n ∧
      d.msg = pub.messageAt { r with quotaManager := qm, topicOffsets := offs } now n) r
      (disconnectAll (pub.both now r)) := by
  refine EnqueuedBy.trans ?_ (.of_eq (disconnectAll_enqueued _))
  rw [Publication.both]
  obtain ⟨qm, hnum | hnum⟩ := number_frame now r pub
  · rw [hnum]
    exact .of_eq rfl
  · rw [hnum]
    obtain ⟨ds, hds, hmsg⟩ := send_enqueuedBy { r with quotaManager := qm, topicOffsets := _ } now
      (r.topicOffsets (topicHashKey (pub.topic now)) + 1) pub
    exact ⟨ds, hds, fun d hd => ⟨qm, _, _, rfl, hmsg d hd⟩⟩

theorem number_cases (now : Int64) (r : Router) (pub : Publication) :
    ∃ r', r.Evolves r' ∧
      (pub.number now r = (r', none) ∧ r'.topicOffsets = r.topicOffsets ∨
        pub.number now r = (r', some (r.topicOffsets (topicHashKey (pub.topic now)) + 1)) ∧
          r'.topicOffsets = setKey r.topicOffsets (topicHashKey (pub.topic now))
            (r.topicOffsets (topicHashKey (pub.topic now)) + 1)) := by
  have hevolves : ∀ qm offs, r.Evolves { r with quotaManager := qm, topicOffsets := offs } :=
    fun qm offs => evolves_of_frame rfl rfl rfl rfl rfl rfl rfl rfl rfl rfl
  obtain ⟨qm, h | h⟩ := number_frame now r pub
  · exact ⟨_, hevolves qm r.topicOffsets, .inl ⟨h, rfl⟩⟩
  · exact ⟨_, hevolves qm _, .inr ⟨h, rfl⟩⟩

theorem evolves_dispatch (r : Router) (topicHash : UInt64) (topic : Bytes) (msg : Message)
    (p : UInt8) : r.Evolves (r.dispatch topicHash topic msg p).1 :=
  ⟨(dispatch_sameTables r topicHash topic msg p).grows,
    fun h => (dispatch_steady h topicHash topic msg p).sound,
    fun h => h.dispatch topicHash topic msg p⟩

theorem evolves_send (now : Int64) (r : Router) (msgOffset : UInt64) (pub : Publication) :
    r.Evolves (pub.send now r msgOffset).1 ∧
      (pub.send now r msgOffset).1.topicOffsets = r.topicOffsets := by
  rcases send_cases r now msgOffset pub with ⟨hsend, -⟩ | ⟨fw, hsend⟩
  · rw [hsend]
    exact ⟨.refl _, rfl⟩
  · have hforward : r.Evolves { r with forwarded := fw } :=
      evolves_of_frame rfl rfl rfl rfl rfl rfl rfl rfl rfl rfl
    rw [hsend]
    exact ⟨hforward.trans (evolves_dispatch _ _ _ _ _), (dispatch_counted _ _ _ _ _).offsets⟩

end Router

end Aqueduct.Broker
