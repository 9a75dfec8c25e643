import Mathlib.Data.List.Nodup
import Aqueduct.Broker.Reachable

/-!
How many copies of a message each slot gets. A message is offered to the slots
of the hash index, of the wildcard list and of the consumer groups one after
the other, and no loop looks at what another one did. With the tables of a
reachable router the copies can be counted slot by slot.
-/

namespace Aqueduct.Broker.Router

open ByteStr Protocol

/-! ## Counting offers -/

theorem offer_enqueuedBy_slot (msg : Message) (p : UInt8) (acc : Router × List Nat) (idx : Nat) :
    EnqueuedBy (fun d => d.idx = idx) acc.1 (offer msg p acc idx).1 := by
  rcases offer_cases msg p acc idx with ⟨-, heq⟩ | ⟨-, heq⟩
  · rw [heq]
    unfold enqueueToSubscriber
    dsimp only
    split
    · exact .of_eq rfl
    · simp only [logEnqueued]
      split
      · exact ⟨[⟨idx, clampLevel p, msg⟩], rfl, by simp⟩
      · exact .of_eq rfl
  · rw [heq]
    exact .of_eq rfl

theorem offer_room {acc : Router × List Nat} (hr : acc.1.Sound) {idx : Nat}
    (hlive : acc.1.isActive idx = true) {p : UInt8}
    (hroom : (acc.1.queueAt idx (clampLevel p)).length < acc.1.queueSize) (msg : Message) :
    (offer msg p acc idx).1.enqueued = acc.1.enqueued ++ [⟨idx, clampLevel p, msg⟩] ∧
      (offer msg p acc idx).1.queueAt idx (clampLevel p) =
        acc.1.queueAt idx (clampLevel p) ++ [msg] := by
  rcases offer_cases msg p acc idx with ⟨-, heq⟩ | ⟨hdead, -⟩
  · rw [heq]
    constructor
    · rw [enqueueToSubscriber_live hr hlive]
      simp only [sendOrOverflow, if_pos hroom]
      rfl
    · rw [enqueue_queueAt hr hlive, if_pos ⟨rfl, rfl⟩, sendOrOverflow, if_pos hroom]
  · rw [hlive] at hdead
    cases hdead

theorem offer_other {acc : Router × List Nat} (hr : acc.1.Sound) {t idx : Nat} (hne : idx ≠ t)
    (msg : Message) (p level : UInt8) :
    (offer msg p acc t).1.queueAt idx level = acc.1.queueAt idx level := by
  rcases offer_cases msg p acc t with ⟨hlive, heq⟩ | ⟨-, heq⟩
  · rw [heq, enqueue_queueAt hr hlive, if_neg fun hc => hne hc.1]
  · rw [heq]

/-- What slot `idx` got of a list of deliveries. -/
def messagesFor (idx : Nat) (ds : List Delivery) : List Message :=
  (ds.filter fun d => d.idx = idx).map (·.msg)

theorem messagesFor_append (idx : Nat) (ds es : List Delivery) :
    messagesFor idx (ds ++ es) = messagesFor idx ds ++ messagesFor idx es := by
  simp [messagesFor]

theorem messagesFor_other {idx t : Nat} (hne : idx ≠ t) {ds : List Delivery}
    (h : ∀ d ∈ ds, d.idx = t) : messagesFor idx ds = [] := by
  have hnil : ds.filter (fun d => d.idx = idx) = [] := by
    refine List.filter_eq_nil_iff.mpr fun d hd => ?_
    rw [h d hd]
    simpa using Ne.symm hne
  rw [messagesFor, hnil]
  rfl

/-- A live slot with room for all its offers gets each of them. -/
theorem foldl_offer_received (msg : Message) (p : UInt8) {idx : Nat} (ts : List Nat)
    (acc : Router × List Nat) (hr : acc.1.Sound) (hlive : acc.1.isActive idx = true)
    (hroom : (acc.1.queueAt idx (clampLevel p)).length + ts.count idx ≤ acc.1.queueSize) :
    ∃ ds, (ts.foldl (offer msg p) acc).1.enqueued = acc.1.enqueued ++ ds ∧
      messagesFor idx ds = List.replicate (ts.count idx) msg := by
  induction ts generalizing acc with
  | nil => exact ⟨[], by simp, rfl⟩
  | cons t ts ih =>
    have hsteady := offer_steady hr msg p t
    have hlive' : (offer msg p acc t).1.isActive idx = true := by
      rw [isActive, hsteady.active]
      exact hlive
    rw [List.foldl_cons]
    by_cases ht : idx = t
    · subst ht
      rw [List.count_cons_self] at hroom ⊢
      obtain ⟨hlog, hqueue⟩ := offer_room (p := p) hr hlive (by omega) msg
      obtain ⟨ds, hds, hms⟩ := ih _ hsteady.sound hlive' (by
        rw [hqueue, hsteady.control.queueSize, List.length_append, List.length_singleton]
        omega)
      refine ⟨⟨idx, clampLevel p, msg⟩ :: ds, by rw [hds, hlog]; simp, ?_⟩
      rw [List.replicate_succ, ← hms]
      simp [messagesFor]
    · rw [List.count_cons_of_ne (Ne.symm ht)] at hroom ⊢
      obtain ⟨es, hlog, hes⟩ := offer_enqueuedBy_slot msg p acc t
      obtain ⟨ds, hds, hms⟩ := ih _ hsteady.sound hlive' (by
        rw [offer_other hr ht, hsteady.control.queueSize]
        exact hroom)
      refine ⟨es ++ ds, by rw [hds, hlog, List.append_assoc], ?_⟩
      rw [messagesFor_append, messagesFor_other ht hes, hms]
      rfl

/-! ## Publications -/

/-- A message on its way into a router: from a client, from a peer, or as a
sub-frame of a batch. -/
inductive Publication
  | client (clientID : Bytes) (frame : Frame)
  | peer (frame : Frame)
  | batched (subFrame : Bytes) (frame : Frame)

namespace Publication

def frame : Publication → Frame
  | client _ f => f
  | peer f => f
  | batched _ f => f

def action (now : Int64) : Publication → Action
  | client clientID f => .publish now f clientID
  | peer f => .publishFromPeer now f
  | batched subFrame _ => .publishSub now subFrame

/-- The router takes the message: it is not too large, the client has a token,
the sub-frame parses. -/
def Accepted (r : Router) : Publication → Prop
  | client clientID f => ¬ f.payloadLen > maxPayloadSize ∧ (r.tryAcquire clientID).2 = true
  | peer f => ¬ f.payloadLen > maxPayloadSize
  | batched subFrame f => parseFrame subFrame = .ok f

def topic (now : Int64) (pub : Publication) : Bytes := topicOf now pub.frame

def level (pub : Publication) : UInt8 := clampLevel pub.frame.priority

def messageAt (r : Router) (now : Int64) (msgOffset : UInt64) : Publication → Message
  | client _ f | peer f =>
    ⟨publishBuf f (topicOf now f), msgOffset, (r.expiryAndTopic now f.priority f.payload).1⟩
  | batched subFrame _ => ⟨subFrame, msgOffset, 0⟩

def message (r : Router) (now : Int64) (pub : Publication) : Message :=
  let offset := r.topicOffsets (topicHashKey (pub.topic now)) + 1
  match pub with
  | client _ f | peer f =>
    ⟨publishBuf f (topicOf now f), offset, (r.expiryAndTopic now f.priority f.payload).1⟩
  | batched subFrame _ => ⟨subFrame, offset, 0⟩

/-! ## The two halves of a publish path

Between them the goroutine holds no lock. -/

/-- The checks and the message's number, none for a message that is dropped. -/
def number (now : Int64) (r : Router) : Publication → Router × Option UInt64
  | client clientID f =>
    if f.payloadLen > maxPayloadSize then (r, none)
    else
      let (r, ok) := r.tryAcquire clientID
      if ok = false then (r, none)
      else
        let (r, msgOffset) := r.nextTopicOffset (topicHashKey (topicOf now f))
        (r, some msgOffset)
  | peer f =>
    if f.payloadLen > maxPayloadSize then (r, none)
    else
      let (r, msgOffset) := r.nextTopicOffset (topicHashKey (topicOf now f))
      (r, some msgOffset)
  | batched _ f =>
    let (r, msgOffset) := r.nextTopicOffset (topicHashKey (topicOf now f))
    (r, some msgOffset)

/-- The section under the read lock: forwarding and dispatch. -/
def send (now : Int64) (r : Router) (msgOffset : UInt64) (pub : Publication) :
    Router × List Nat :=
  match pub with
  | client _ f =>
    let topicHash := topicHashKey (topicOf now f)
    let hasPeers : Bool := 0 < r.activePeers
    if r.topicIndex topicHash = [] ∧ r.wildcardSubs = [] ∧ hasPeers = false ∧
        r.groups topicHash = [] then (r, [])
    else
      let msg := pub.messageAt r now msgOffset
      let r := if hasPeers then r.forward msg.buf else r
      r.dispatch topicHash (topicOf now f) msg f.priority
  | peer f =>
    let topicHash := topicHashKey (topicOf now f)
    if r.topicIndex topicHash = [] ∧ r.wildcardSubs = [] ∧ r.groups topicHash = [] then (r, [])
    else r.dispatch topicHash (topicOf now f) (pub.messageAt r now msgOffset) f.priority
  | batched _ f =>
    let topicHash := topicHashKey (topicOf now f)
    if r.topicIndex topicHash = [] ∧
        r.wildcardSubs.any (fun w => matchWildcard w.pattern (topicOf now f)) = false ∧
        r.groups topicHash = [] then (r, [])
    else r.dispatch topicHash (topicOf now f) (pub.messageAt r now msgOffset) f.priority

def both (now : Int64) (r : Router) (pub : Publication) : Router × List Nat :=
  match pub.number now r with
  | (r, none) => (r, [])
  | (r, some msgOffset) => pub.send now r msgOffset

end Publication

theorem expiryAndTopic_eq (r : Router) (now : Int64) (f : Frame) :
    r.expiryAndTopic now f.priority f.payload =
      ((r.expiryAndTopic now f.priority f.payload).1, topicOf now f) :=
  Prod.ext rfl (expiryAndTopic_topic r now f.priority f.payload)

theorem publishWithClientID_both (r : Router) (now : Int64) (f : Frame) (clientID : Bytes) :
    (r.publishWithClientID now f clientID).1 =
      disconnectAll ((Publication.client clientID f).both now r) := by
  unfold publishWithClientID Publication.both Publication.number
  by_cases hlen : f.payloadLen > maxPayloadSize
  · simp only [if_pos hlen]
    rfl
  · simp only [if_neg hlen]
    generalize r.tryAcquire clientID = q
    obtain ⟨q, ok⟩ := q
    cases ok with
    | false => rfl
    | true =>
      have htrue : ¬ true = false := by decide
      dsimp only
      rw [expiryAndTopic_eq, if_neg htrue, if_neg htrue]
      dsimp only [Publication.send]
      split
      · rfl
      · split <;> rfl

theorem publishFromPeer_both (r : Router) (now : Int64) (f : Frame) :
    (r.publishFromPeer now f).1 = disconnectAll ((Publication.peer f).both now r) := by
  have hexp : r.expiryAndTopic now ({ f with command := opcodeOf f.command } : Frame).priority
      f.payload = ((r.expiryAndTopic now f.priority f.payload).1, topicOf now f) :=
    expiryAndTopic_eq r now f
  unfold publishFromPeer publishLocal Publication.both Publication.number
  by_cases hlen : f.payloadLen > maxPayloadSize
  · simp only [if_pos hlen]
    rfl
  · simp only [if_neg hlen]
    rw [hexp]
    dsimp only [Publication.send]
    split <;> rfl

theorem publishSub_both {subFrame : Bytes} {f : Frame} (h : parseFrame subFrame = .ok f)
    (now : Int64) (acc : Router × List Nat) :
    publishSub now acc subFrame = (((Publication.batched subFrame f).both now acc.1).1,
      acc.2 ++ ((Publication.batched subFrame f).both now acc.1).2) := by
  have htopic : (parsePublishTopic now f.payload).2 = topicOf now f := rfl
  unfold publishSub Publication.both Publication.number
  rw [h]
  simp only [Publication.send, htopic]
  split
  · rw [List.append_nil]
  · rfl

theorem dispatch_enqueued_of_empty {r : Router} {topicHash : UInt64} (topic : Bytes)
    (hindex : r.topicIndex topicHash = [])
    (hwild : r.wildcardSubs.filter (fun w => matchWildcard w.pattern topic) = [])
    (hgroups : r.groups topicHash = []) (msg : Message) (p : UInt8) :
    (r.dispatch topicHash topic msg p).1.enqueued = r.enqueued := by
  have htargets : r.targets topicHash topic = [] := by
    simp only [targets, hindex, hwild, hgroups]
    rfl
  rw [dispatch_nobody htargets hgroups]

/-- The second half is one dispatch of the message, on a router that differs in
forwarded buffers only, or nothing when nobody is there. -/
theorem send_cases (r : Router) (now : Int64) (msgOffset : UInt64) (pub : Publication) :
    (pub.send now r msgOffset = (r, []) ∧ r.topicIndex (topicHashKey (pub.topic now)) = [] ∧
        (r.wildcardSubs.filter fun w => matchWildcard w.pattern (pub.topic now)) = [] ∧
        r.groups (topicHashKey (pub.topic now)) = []) ∨
      ∃ fw, pub.send now r msgOffset =
        { r with forwarded := fw }.dispatch (topicHashKey (pub.topic now)) (pub.topic now)
          (pub.messageAt r now msgOffset) pub.frame.priority := by
  cases pub with
  | client clientID f =>
    dsimp only [Publication.send]
    split
    · next hnone =>
      obtain ⟨hindex, hwild, -, hgroups⟩ := hnone
      exact .inl ⟨rfl, hindex, by rw [hwild]; rfl, hgroups⟩
    · right
      split
      · exact ⟨_, rfl⟩
      · exact ⟨r.forwarded, rfl⟩
  | peer f =>
    dsimp only [Publication.send]
    split
    · next hnone =>
      obtain ⟨hindex, hwild, hgroups⟩ := hnone
      exact .inl ⟨rfl, hindex, by rw [hwild]; rfl, hgroups⟩
    · exact .inr ⟨r.forwarded, rfl⟩
  | batched subFrame f =>
    dsimp only [Publication.send]
    split
    · next hnone =>
      obtain ⟨hindex, hwild, hgroups⟩ := hnone
      exact .inl ⟨rfl, hindex, List.filter_eq_nil_iff.mpr (List.any_eq_false.mp hwild), hgroups⟩
    · exact .inr ⟨r.forwarded, rfl⟩

theorem send_dispatch (r : Router) (now : Int64) (msgOffset : UInt64) (pub : Publication) :
    ∃ fw, (pub.send now r msgOffset).1.enqueued =
      ({ r with forwarded := fw }.dispatch (topicHashKey (pub.topic now)) (pub.topic now)
        (pub.messageAt r now msgOffset) pub.frame.priority).1.enqueued := by
  rcases send_cases r now msgOffset pub with ⟨hsend, hindex, hwild, hgroups⟩ | ⟨fw, hsend⟩
  · rw [hsend]
    exact ⟨r.forwarded, (dispatch_enqueued_of_empty _ hindex hwild hgroups _ _).symm⟩
  · exact ⟨fw, by rw [hsend]⟩

theorem send_enqueuedBy (r : Router) (now : Int64) (msgOffset : UInt64) (pub : Publication) :
    EnqueuedBy (·.msg = pub.messageAt r now msgOffset) r (pub.send now r msgOffset).1 := by
  obtain ⟨fw, hsend⟩ := send_dispatch r now msgOffset pub
  have hdispatch : EnqueuedBy (·.msg = pub.messageAt r now msgOffset) r
      ({ r with forwarded := fw }.dispatch (topicHashKey (pub.topic now)) (pub.topic now)
        (pub.messageAt r now msgOffset) pub.frame.priority).1 :=
    dispatch_enqueuedBy { r with forwarded := fw } _ _ _ _
  exact hdispatch.trans (.of_eq hsend)

/-- An accepted message takes the next number; only tokens and counters change. -/
theorem number_accepted {r : Router} (now : Int64) {pub : Publication} (h : pub.Accepted r) :
    ∃ qm offs, pub.number now r = ({ r with quotaManager := qm, topicOffsets := offs },
      some (r.topicOffsets (topicHashKey (pub.topic now)) + 1)) := by
  cases pub with
  | client clientID f =>
    obtain ⟨hlen, hgrant⟩ := h
    obtain ⟨qm, hacquire⟩ := tryAcquire_frame r clientID
    rw [hgrant] at hacquire
    rw [Publication.number, if_neg hlen, hacquire]
    exact ⟨qm, _, rfl⟩
  | peer f =>
    rw [Publication.number, if_neg h]
    exact ⟨_, _, rfl⟩
  | batched subFrame f => exact ⟨_, _, rfl⟩

/-- Every path comes down to one dispatch of the message, on a router that
differs in tokens, counters and forwarded buffers only. -/
theorem act_dispatch {r : Router} (now : Int64) {pub : Publication} (h : pub.Accepted r) :
    ∃ qm offs fw, (r.act (pub.action now)).enqueued =
      ({ r with quotaManager := qm, topicOffsets := offs, forwarded := fw }.dispatch
        (topicHashKey (pub.topic now)) (pub.topic now) (pub.message r now)
        pub.frame.priority).1.enqueued := by
  obtain ⟨qm, offs, hnumber⟩ := number_accepted now h
  have hboth : (r.act (pub.action now)).enqueued = (pub.both now r).1.enqueued := by
    cases pub with
    | client clientID f =>
      rw [Publication.action, act, publishWithClientID_both, disconnectAll_enqueued]
    | peer f => rw [Publication.action, act, publishFromPeer_both, disconnectAll_enqueued]
    | batched subFrame f => rw [Publication.action, act, publishSub_both h]
  rw [hboth, Publication.both, hnumber]
  obtain ⟨fw, hsend⟩ := send_dispatch { r with quotaManager := qm, topicOffsets := offs } now
    (r.topicOffsets (topicHashKey (pub.topic now)) + 1) pub
  refine ⟨qm, offs, fw, hsend.trans ?_⟩
  cases pub <;> rfl

/-- The messages slot `idx` got between two states. -/
def received (r r' : Router) (idx : Nat) : List Message :=
  messagesFor idx (r'.enqueued.drop r.enqueued.length)

/-- A live slot with room gets one copy for each time the tables list it. -/
theorem dispatch_received {r : Router} (hr : r.Sound) (topicHash : UInt64) (topic : Bytes)
    (msg : Message) (p : UInt8) {idx : Nat} (hlive : r.isActive idx = true)
    (hroom : (r.queueAt idx (clampLevel p)).length + (r.targets topicHash topic).count idx ≤
      r.queueSize) :
    received r (r.dispatch topicHash topic msg p).1 idx =
      List.replicate ((r.targets topicHash topic).count idx) msg := by
  obtain ⟨ds, hds, hms⟩ := foldl_offer_received msg p (r.targets topicHash topic) (r, []) hr hlive
    hroom
  rw [received, dispatch_eq, ← hms]
  refine congrArg (messagesFor idx) ?_
  exact (congrArg (List.drop _) hds).trans List.drop_left

theorem send_received {r : Router} (hr : r.Sound) (now : Int64) (msgOffset : UInt64)
    (pub : Publication) {idx : Nat} (hlive : r.isActive idx = true)
    (hroom : (r.queueAt idx pub.level).length +
      (r.targets (topicHashKey (pub.topic now)) (pub.topic now)).count idx ≤ r.queueSize) :
    received r (pub.send now r msgOffset).1 idx = List.replicate
      ((r.targets (topicHashKey (pub.topic now)) (pub.topic now)).count idx)
      (pub.messageAt r now msgOffset) := by
  obtain ⟨fw, hsend⟩ := send_dispatch r now msgOffset pub
  have hsound : { r with forwarded := fw }.Sound := hr.congr rfl rfl rfl rfl
  rw [received, hsend]
  exact dispatch_received hsound _ _ _ _ hlive hroom

theorem received_eq {r : Router} (hr : r.Sound) (now : Int64) {pub : Publication}
    (h : pub.Accepted r) {idx : Nat} (hlive : r.isActive idx = true)
    (hroom : (r.queueAt idx pub.level).length +
      (r.targets (topicHashKey (pub.topic now)) (pub.topic now)).count idx ≤ r.queueSize) :
    received r (r.act (pub.action now)) idx = List.replicate
      ((r.targets (topicHashKey (pub.topic now)) (pub.topic now)).count idx)
      (pub.message r now) := by
  obtain ⟨qm, offs, fw, hact⟩ := act_dispatch now h
  have hsound : { r with quotaManager := qm, topicOffsets := offs, forwarded := fw }.Sound :=
    hr.congr rfl rfl rfl rfl
  rw [received, hact]
  exact dispatch_received hsound _ _ _ _ hlive hroom

/-! ## The tables, slot by slot -/

/-- `topicHashKey` tells the topics apart. -/
def CollisionFree (topics : List Bytes) : Prop :=
  ∀ a ∈ topics, ∀ b ∈ topics, topicHashKey a = topicHashKey b → a = b

instance (topics : List Bytes) : Decidable (CollisionFree topics) :=
  inferInstanceAs (Decidable (∀ a ∈ topics, ∀ b ∈ topics, _))

/-- A subscription to `filter` covers `topic`. -/
def Covers (filter topic : Bytes) : Prop :=
  filter = topic ∨ (isWildcardTopic filter = true ∧ matchWildcard filter topic = true)

instance (filter topic : Bytes) : Decidable (Covers filter topic) :=
  inferInstanceAs (Decidable (_ ∨ _))

theorem topicAt_mem {r : Router} (h : r.Indexed) {idx : Nat} (hlt : idx < r.active.length) :
    r.topicAt idx ∈ r.topics := by
  rw [topicAt, List.getD_eq_getElem?_getD, List.getElem?_eq_getElem (by rw [h.topics]; exact hlt)]
  exact List.getElem_mem _

theorem count_filter_range {n idx : Nat} (hlt : idx < n) (p : Nat → Bool) :
    ((List.range n).filter p).count idx = if p idx then 1 else 0 := by
  split
  · next hp =>
    rw [List.count_filter hp]
    exact List.count_eq_one_of_mem List.nodup_range (List.mem_range.mpr hlt)
  · next hp =>
    refine List.count_eq_zero.mpr fun hm => hp ?_
    exact (List.mem_filter.mp hm).2

theorem count_topicIndex {r : Router} (h : r.Indexed) {idx : Nat} (hlt : idx < r.active.length)
    (topicHash : UInt64) : (r.topicIndex topicHash).count idx =
      if r.groupAt idx = [] ∧ topicHashKey (r.topicAt idx) = topicHash then 1 else 0 := by
  rw [h.topicIndex, count_filter_range hlt]
  simp only [decide_eq_true_eq]

theorem wildcard_slots {r : Router} (h : r.Indexed) (topic : Bytes) :
    (r.wildcardSubs.filter fun w => matchWildcard w.pattern topic).map (·.idx) =
      (List.range r.active.length).filter fun i =>
        isWildcardTopic (r.topicAt i) && matchWildcard (r.topicAt i) topic := by
  rw [h.wildcardSubs, List.filter_map, List.map_map, List.filter_filter]
  refine (List.map_id _).trans (List.filter_congr fun i _ => ?_)
  exact Bool.and_comm _ _

theorem count_wildcards {r : Router} (h : r.Indexed) {idx : Nat} (hlt : idx < r.active.length)
    (topic : Bytes) :
    ((r.wildcardSubs.filter fun w => matchWildcard w.pattern topic).map (·.idx)).count idx =
      if isWildcardTopic (r.topicAt idx) ∧ matchWildcard (r.topicAt idx) topic then 1 else 0 := by
  rw [wildcard_slots h, count_filter_range hlt]
  simp only [Bool.and_eq_true]

theorem groupPick_mem {g : ConsumerGroup} {idx : Nat} (h : groupPick g = some idx) :
    idx ∈ g.members := by
  unfold groupPick at h
  split at h
  · cases h
  · next hne =>
    have hpos : 0 < g.members.length := List.length_pos_of_ne_nil hne
    have hlt := Nat.mod_lt g.counter.toNat hpos
    rw [List.getD_eq_getElem?_getD, List.getElem?_eq_getElem hlt, Option.some.injEq] at h
    rw [← h]
    exact List.getElem_mem _

theorem pick_group {r : Router} (h : r.Indexed) {topicHash : UInt64} {g : ConsumerGroup}
    (hg : g ∈ r.groups topicHash) {idx : Nat} (hpick : groupPick g = some idx) :
    r.groupAt idx = g.groupID ∧ topicHashKey (r.topicAt idx) = topicHash := by
  have hok := h.groups _ g hg
  obtain ⟨hid, htopic⟩ := hok.members idx (groupPick_mem hpick)
  exact ⟨hid, by rw [htopic, hok.hash]⟩

theorem count_picks_zero {r : Router} (h : r.Indexed) {topicHash : UInt64} {idx : Nat}
    (hnone : r.groupAt idx = [] ∨ topicHashKey (r.topicAt idx) ≠ topicHash) :
    ((r.groups topicHash).filterMap groupPick).count idx = 0 := by
  refine List.count_eq_zero.mpr fun hm => ?_
  obtain ⟨g, hg, hpick⟩ := List.mem_filterMap.mp hm
  obtain ⟨hid, hhash⟩ := pick_group h hg hpick
  rcases hnone with hnone | hnone
  · exact (h.groups _ g hg).named (hid.symm.trans hnone)
  · exact hnone hhash

theorem count_targets {r : Router} (h : r.Indexed) {idx : Nat} (hlt : idx < r.active.length)
    (topicHash : UInt64) (topic : Bytes) :
    (r.targets topicHash topic).count idx =
      (if r.groupAt idx = [] ∧ topicHashKey (r.topicAt idx) = topicHash then 1 else 0) +
      ((if isWildcardTopic (r.topicAt idx) ∧ matchWildcard (r.topicAt idx) topic then 1 else 0) +
        ((r.groups topicHash).filterMap groupPick).count idx) := by
  rw [targets, List.count_append, List.count_append, count_topicIndex h hlt, count_wildcards h hlt]

theorem matchWildcard_self (topic : Bytes) : matchWildcard topic topic = true := by
  simp [matchWildcard]

/-! ## Slots without a group -/

section Individual

variable {r : Router} {idx : Nat} {topic : Bytes}

/-- A slot whose pattern is in the bucket of the published topic is found twice
if the pattern matches. -/
theorem count_targets_twice (h : r.Indexed) (hlt : idx < r.active.length)
    (hgroup : r.groupAt idx = []) (hhash : topicHashKey (r.topicAt idx) = topicHashKey topic)
    (hwild : isWildcardTopic (r.topicAt idx) = true)
    (hmatch : matchWildcard (r.topicAt idx) topic = true) :
    (r.targets (topicHashKey topic) topic).count idx = 2 := by
  rw [count_targets h hlt, count_picks_zero h (.inl hgroup), if_pos ⟨hgroup, hhash⟩,
    if_pos ⟨hwild, hmatch⟩]

/-- Any other slot is found once or not at all. -/
theorem count_targets_once (h : r.Indexed) (hlt : idx < r.active.length)
    (hgroup : r.groupAt idx = [])
    (hpattern : ¬ (isWildcardTopic (r.topicAt idx) = true ∧
      topicHashKey (r.topicAt idx) = topicHashKey topic))
    (hown : topicHashKey (r.topicAt idx) = topicHashKey topic → r.topicAt idx = topic) :
    (r.targets (topicHashKey topic) topic).count idx =
      if Covers (r.topicAt idx) topic then 1 else 0 := by
  rw [count_targets h hlt, count_picks_zero h (.inl hgroup)]
  by_cases hhash : topicHashKey (r.topicAt idx) = topicHashKey topic
  · have hcovers : Covers (r.topicAt idx) topic := .inl (hown hhash)
    rw [if_pos ⟨hgroup, hhash⟩, if_neg fun hc => hpattern ⟨hc.1, hhash⟩, if_pos hcovers]
  · have hne : r.topicAt idx ≠ topic := fun heq => hhash (by rw [heq])
    have hcovers : Covers (r.topicAt idx) topic ↔
        isWildcardTopic (r.topicAt idx) = true ∧ matchWildcard (r.topicAt idx) topic = true :=
      or_iff_right hne
    simp only [hcovers, hhash, and_false, ↓reduceIte, Nat.zero_add, Nat.add_zero]

end Individual

/-- Every live slot without a group gets the message once if its subscription
covers the topic, and nothing otherwise. -/
def ExactFanOut (r : Router) (now : Int64) (pub : Publication) : Prop :=
  ∀ idx, r.isActive idx = true → r.groupAt idx = [] →
    received r (r.act (pub.action now)) idx =
      if Covers (r.topicAt idx) (pub.topic now) then [pub.message r now] else []

/-- No live slot without a group is subscribed to a pattern that is, byte for
byte, the published topic. -/
def NoLiteralPattern (r : Router) (topic : Bytes) : Prop :=
  ∀ idx, r.isActive idx = true → r.groupAt idx = [] →
    ¬ (isWildcardTopic (r.topicAt idx) = true ∧ r.topicAt idx = topic)

/-- Every live slot's queue for the level has room for `n` more messages. -/
def RoomFor (r : Router) (level : UInt8) (n : Nat) : Prop :=
  ∀ idx, r.isActive idx = true → (r.queueAt idx level).length + n ≤ r.queueSize

/-- **Fan-out.** In every reachable router fan-out is exact unless the topic is
literally the pattern of a live slot: that slot is found through the hash index
and through the wildcard list. -/
theorem fan_out_exact_iff {r : Router} (hr : Reachable r) (now : Int64) (pub : Publication)
    (h : pub.Accepted r) (hfree : CollisionFree (pub.topic now :: r.topics))
    (hroom : r.RoomFor pub.level 1) :
    (r.NoLiteralPattern (pub.topic now) → r.ExactFanOut now pub) ∧
      (r.RoomFor pub.level 2 → (r.ExactFanOut now pub ↔ r.NoLiteralPattern (pub.topic now))) := by
  have hown : ∀ idx, r.isActive idx = true →
      topicHashKey (r.topicAt idx) = topicHashKey (pub.topic now) →
      r.topicAt idx = pub.topic now := by
    intro idx hlive
    exact hfree _ (List.mem_cons_of_mem _ (topicAt_mem hr.indexed (isActive_lt hlive))) _ (by simp)
  have hexact : r.NoLiteralPattern (pub.topic now) → r.ExactFanOut now pub := by
    intro hliteral idx hlive hgroup
    have hcount := count_targets_once hr.indexed (isActive_lt hlive) hgroup
      (fun hc => hliteral idx hlive hgroup ⟨hc.1, hown idx hlive hc.2⟩) (hown idx hlive)
    have hone := hroom idx hlive
    rw [received_eq hr.sound now h hlive (by rw [hcount]; split <;> omega), hcount]
    split <;> rfl
  refine ⟨hexact, fun htwo => ⟨fun hfan idx hlive hgroup hlit => ?_, hexact⟩⟩
  have hcount := count_targets_twice hr.indexed (isActive_lt hlive) hgroup (by rw [hlit.2]) hlit.1
    (by rw [hlit.2]; exact matchWildcard_self _)
  have hgot := received_eq hr.sound now h hlive (by rw [hcount]; exact htwo idx hlive)
  rw [hfan idx hlive hgroup, if_pos (.inl hlit.2), hcount] at hgot
  simp [List.replicate] at hgot

/-- A frame without extensions, as a client sends it. -/
def clientFrame (command : Command) (streamID : UInt32) (payload : String) : Frame :=
  ⟨command, streamID, UInt32.ofNat (ascii payload).length, ascii payload, []⟩

def smallOptions : Options := ⟨none, [], 0, 4, .dropNewest, fun _ => 0, none, 0⟩

/-- A router with room for four messages per queue and these subscriptions. -/
def smallRouter (payloads : List String) : Router :=
  (payloads.map fun s => Action.subscribe ⟨0, 0⟩ (clientFrame cmdSubscribe 4 s)).foldl act
    (newRouterWith smallOptions)

theorem smallRouter_reachable (payloads : List String) : Reachable (smallRouter payloads) :=
  List.foldlRecOn _ _ (motive := Reachable) (.new _) fun _ hr a _ => .act a hr

def publishOf (payload : String) : Publication := .client [] (clientFrame cmdPublish 0 payload)

theorem roomFor_of_slots {r : Router} {level : UInt8} {n : Nat}
    (h : ∀ idx < r.active.length, (r.queueAt idx level).length + n ≤ r.queueSize) :
    r.RoomFor level n :=
  fun idx hlive => h idx (isActive_lt hlive)

/-- A plain and a wildcard subscriber of `a/b`, and one of another topic. -/
theorem two_covered_slots_get_one_copy :
    ExactFanOut (smallRouter ["topic:a/b", "topic:a/#", "topic:c"]) 0 (publishOf "topic:a/b") := by
  refine (fan_out_exact_iff (smallRouter_reachable _) 0 (publishOf "topic:a/b") ⟨by decide, rfl⟩
    (by decide +kernel) (roomFor_of_slots (by decide +kernel))).1 fun idx hlive _ => ?_
  have hslots : ∀ idx < 3,
      ¬ (isWildcardTopic ((smallRouter ["topic:a/b", "topic:a/#", "topic:c"]).topicAt idx) = true ∧
        (smallRouter ["topic:a/b", "topic:a/#", "topic:c"]).topicAt idx =
          (publishOf "topic:a/b").topic 0) := by
    decide +kernel
  exact hslots idx (isActive_lt hlive)

/-- A message on the topic `a/#` enters the queue of the subscriber of the
pattern `a/#` twice. -/
theorem literal_pattern_delivered_twice :
    Reachable (smallRouter ["topic:a/#"]) ∧ (publishOf "a/#").Accepted (smallRouter ["topic:a/#"]) ∧
      CollisionFree ((publishOf "a/#").topic 0 :: (smallRouter ["topic:a/#"]).topics) ∧
      (smallRouter ["topic:a/#"]).RoomFor (publishOf "a/#").level 2 ∧
      received (smallRouter ["topic:a/#"])
          ((smallRouter ["topic:a/#"]).act ((publishOf "a/#").action 0)) 0 =
        [⟨serializeFrame cmdPublish 0 (ascii "a/#"), 1, 0⟩,
          ⟨serializeFrame cmdPublish 0 (ascii "a/#"), 1, 0⟩] :=
  ⟨smallRouter_reachable _, ⟨by decide, rfl⟩, by decide +kernel,
    roomFor_of_slots (by decide +kernel), by decide +kernel⟩

/-! ## Consumer groups -/

theorem countP_of_key {α β : Type} (key : α → β) (p : α → Bool) {as : List α}
    (hnodup : (as.map key).Nodup) {a : α} (ha : a ∈ as)
    (hkey : ∀ b ∈ as, p b = true → key b = key a) : as.countP p = if p a then 1 else 0 := by
  obtain ⟨pre, post, rfl⟩ := List.append_of_mem ha
  rw [List.map_append, List.map_cons, List.nodup_append, List.nodup_cons] at hnodup
  obtain ⟨-, ⟨hpost, -⟩, hpre⟩ := hnodup
  have hzero : pre.countP p = 0 := by
    refine List.countP_eq_zero.mpr fun b hb hp => ?_
    exact hpre _ (List.mem_map_of_mem hb) _ List.mem_cons_self (hkey b (by simp [hb]) hp)
  have hzero' : post.countP p = 0 := by
    refine List.countP_eq_zero.mpr fun b hb hp => hpost ?_
    rw [← hkey b (by simp [hb]) hp]
    exact List.mem_map_of_mem hb
  rw [List.countP_append, List.countP_cons, hzero, hzero']
  simp

section Group

variable {r : Router} {groupID topic : Bytes}

/-- The group of a live member picks one live member per message on its topic. -/
theorem group_picks_one (h : r.Indexed) (hfree : CollisionFree (topic :: r.topics))
    (hid : groupID ≠ []) (hmember : ∃ i, r.LiveMember groupID topic i) :
    ∃ m, r.LiveMember groupID topic m ∧ ∀ j, r.LiveMember groupID topic j →
      ((r.groups (topicHashKey topic)).filterMap groupPick).count j = if j = m then 1 else 0 := by
  obtain ⟨i, hi⟩ := hmember
  obtain ⟨cg, hcg, hcid⟩ := h.covered i (isActive_lt hi.1) (by rw [hi.2.1]; exact hid)
  rw [hi.2.1] at hcid
  rw [hi.2.2] at hcg
  have hok := h.groups _ cg hcg
  have hct : cg.topic = topic :=
    hfree _ (List.mem_cons_of_mem _ hok.topic) _ (by simp) hok.hash
  have hmembers := hok.current ⟨i, by rw [hcid, hct]; exact hi⟩
  have hlive : ∀ j, j ∈ cg.members ↔ r.LiveMember groupID topic j := by
    intro j
    rw [hmembers, mem_rebuild h, hcid, hct]
  have hpick : ∃ m, groupPick cg = some m := by
    refine ⟨_, if_neg fun hnil => ?_⟩
    have hmem := (hlive i).mpr hi
    rw [hnil] at hmem
    cases hmem
  obtain ⟨m, hm⟩ := hpick
  refine ⟨m, (hlive m).mp (groupPick_mem hm), fun j hj => ?_⟩
  rw [List.count_filterMap, countP_of_key (·.groupID) _ (h.nodup _) hcg, hm]
  · by_cases hjm : j = m
    · simp [hjm]
    · simp [hjm, Ne.symm hjm]
  · intro g hg hp
    rw [← (pick_group h hg (beq_iff_eq.mp hp)).1, hj.2.1, hcid]

/-- Through its group a member is offered the message when it is picked, through
the wildcard list whenever its filter is a pattern that matches. -/
theorem count_targets_member (h : r.Indexed) (hid : groupID ≠ []) {filter : Bytes} {j : Nat}
    (hj : r.LiveMember groupID filter j) :
    (r.targets (topicHashKey topic) topic).count j =
      (if isWildcardTopic filter ∧ matchWildcard filter topic then 1 else 0) +
        ((r.groups (topicHashKey topic)).filterMap groupPick).count j := by
  have hgroup : ¬ (r.groupAt j = [] ∧ topicHashKey (r.topicAt j) = topicHashKey topic) := by
    rw [hj.2.1]
    exact fun hc => hid hc.1
  rw [count_targets h (isActive_lt hj.1), if_neg hgroup, hj.2.2, Nat.zero_add]

end Group

/-- One live member of the group got the message, once, and the others did not. -/
def OneCopy (r : Router) (now : Int64) (pub : Publication) (groupID filter : Bytes) : Prop :=
  ∃ m, r.LiveMember groupID filter m ∧ ∀ j, r.LiveMember groupID filter j →
    received r (r.act (pub.action now)) j = if j = m then [pub.message r now] else []

/-- The filter is no pattern, or it is not itself the published topic and the
group has a single live member. -/
def SingleCopyGroup (r : Router) (groupID filter topic : Bytes) : Prop :=
  isWildcardTopic filter = false ∨
    (filter ≠ topic ∧ ∃ m, ∀ j, r.LiveMember groupID filter j ↔ j = m)

/-- The tables offer the message to one live member of the group, once. -/
def OneOffer (r : Router) (groupID filter topic : Bytes) : Prop :=
  ∃ m, r.LiveMember groupID filter m ∧ ∀ j, r.LiveMember groupID filter j →
    (r.targets (topicHashKey topic) topic).count j = if j = m then 1 else 0

section Offers

variable {r : Router} {groupID filter topic : Bytes} (h : r.Indexed)
  (hfree : CollisionFree (topic :: r.topics))

include h hfree

/-- A group whose filter is not the topic picks nobody. -/
theorem count_picks_other (hne : filter ≠ topic) {j : Nat} (hj : r.LiveMember groupID filter j) :
    ((r.groups (topicHashKey topic)).filterMap groupPick).count j = 0 := by
  refine count_picks_zero h (.inr fun hhash => hne ?_)
  have hmem := topicAt_mem h (isActive_lt hj.1)
  rw [hj.2.2] at hmem hhash
  exact hfree _ (List.mem_cons_of_mem _ hmem) _ (by simp) hhash

theorem count_targets_member_le (hid : groupID ≠ []) {j : Nat}
    (hj : r.LiveMember groupID filter j) :
    (r.targets (topicHashKey topic) topic).count j ≤ 2 := by
  have hpick : ((r.groups (topicHashKey topic)).filterMap groupPick).count j ≤ 1 := by
    by_cases heq : filter = topic
    · subst heq
      obtain ⟨m, -, hpicks⟩ := group_picks_one h hfree hid ⟨j, hj⟩
      rw [hpicks j hj]
      split <;> omega
    · rw [count_picks_other h hfree heq hj]
      omega
  rw [count_targets_member h hid hj]
  split <;> omega

theorem oneOffer_of_single (hid : groupID ≠ []) (hmember : ∃ i, r.LiveMember groupID filter i)
    (hcovers : Covers filter topic) (hsingle : r.SingleCopyGroup groupID filter topic) :
    r.OneOffer groupID filter topic := by
  rcases hsingle with hplain | ⟨hne, m, hm⟩
  · have heq : filter = topic := by
      rcases hcovers with heq | ⟨hwild, -⟩
      · exact heq
      · rw [hplain] at hwild
        cases hwild
    subst heq
    obtain ⟨m, hm, hpicks⟩ := group_picks_one h hfree hid hmember
    refine ⟨m, hm, fun j hj => ?_⟩
    rw [count_targets_member h hid hj, if_neg (by simp [hplain]), Nat.zero_add, hpicks j hj]
  · have hwild := hcovers.resolve_left hne
    refine ⟨m, (hm m).mpr rfl, fun j hj => ?_⟩
    rw [count_targets_member h hid hj, if_pos hwild, count_picks_other h hfree hne hj,
      if_pos ((hm j).mp hj)]

theorem single_of_oneOffer (hid : groupID ≠ []) (hcovers : Covers filter topic)
    (hoffer : r.OneOffer groupID filter topic) : r.SingleCopyGroup groupID filter topic := by
  obtain ⟨m, hm, hoffers⟩ := hoffer
  unfold SingleCopyGroup
  by_cases hplain : isWildcardTopic filter = false
  · exact .inl hplain
  right
  have hpattern : isWildcardTopic filter = true ∧ matchWildcard filter topic = true := by
    rcases hcovers with heq | hwild
    · exact ⟨by simpa using hplain, by rw [heq]; exact matchWildcard_self _⟩
    · exact hwild
  -- the wildcard list alone offers it to every member
  have hcopies := fun j hj => (count_targets_member h hid hj).symm.trans (hoffers j hj)
  simp only [if_pos hpattern] at hcopies
  constructor
  · rintro rfl
    obtain ⟨m', hm', hpicks⟩ := group_picks_one h hfree hid ⟨m, hm⟩
    have hdouble := hcopies m' hm'
    rw [hpicks m' hm', if_pos rfl] at hdouble
    split at hdouble <;> omega
  · refine ⟨m, fun j => ⟨fun hj => ?_, fun heq => heq ▸ hm⟩⟩
    by_contra hne
    have hj' := hcopies j hj
    rw [if_neg hne] at hj'
    omega

end Offers

/-- **Consumer groups.** A group with a plain filter gets one copy. The members
of a group with a pattern are all in the wildcard list, so each of them gets
one, and the group's own pick adds another when the topic is the pattern. -/
theorem group_one_copy_iff {r : Router} (hr : Reachable r) (now : Int64) (pub : Publication)
    (h : pub.Accepted r) (hfree : CollisionFree (pub.topic now :: r.topics))
    (hroom : r.RoomFor pub.level 1) {groupID filter : Bytes} (hid : groupID ≠ [])
    (hmember : ∃ i, r.LiveMember groupID filter i) (hcovers : Covers filter (pub.topic now)) :
    (r.SingleCopyGroup groupID filter (pub.topic now) → r.OneCopy now pub groupID filter) ∧
      (r.RoomFor pub.level 2 → (r.OneCopy now pub groupID filter ↔
        r.SingleCopyGroup groupID filter (pub.topic now))) := by
  have hone : r.SingleCopyGroup groupID filter (pub.topic now) →
      r.OneCopy now pub groupID filter := by
    intro hsingle
    obtain ⟨m, hm, hoffers⟩ := oneOffer_of_single hr.indexed hfree hid hmember hcovers hsingle
    refine ⟨m, hm, fun j hj => ?_⟩
    have hspace := hroom j hj.1
    rw [received_eq hr.sound now h hj.1 (by rw [hoffers j hj]; split <;> omega), hoffers j hj]
    split <;> rfl
  refine ⟨hone, fun htwo => ⟨fun hcopy => ?_, hone⟩⟩
  obtain ⟨m, hm, hall⟩ := hcopy
  refine single_of_oneOffer hr.indexed hfree hid hcovers ⟨m, hm, fun j hj => ?_⟩
  -- with room for two the copies are as many as the offers
  have hle := count_targets_member_le hr.indexed hfree hid hj
  have hspace := htwo j hj.1
  have hgot := received_eq hr.sound now h hj.1 (by omega)
  rw [hall j hj] at hgot
  have hlen := congrArg List.length hgot
  rw [List.length_replicate] at hlen
  rw [← hlen]
  split <;> rfl

/-- Two members of group `g` on the plain topic `t`. -/
theorem plain_group_gets_one_copy :
    OneCopy (smallRouter ["topic:t:group:g", "topic:t:group:g"]) 0 (publishOf "t") (ascii "g")
      (ascii "t") :=
  (group_one_copy_iff (smallRouter_reachable _) 0 (publishOf "t") ⟨by decide, rfl⟩
    (by decide +kernel) (roomFor_of_slots (by decide +kernel)) (by decide)
    ⟨0, by decide +kernel⟩ (.inl rfl)).1 (.inl (by decide))

/-- Two members of group `g` on the pattern `a/#` both get the message on `a/b`. -/
theorem wildcard_group_gets_two_copies :
    Reachable (smallRouter ["topic:a/#:group:g", "topic:a/#:group:g"]) ∧
      CollisionFree ((publishOf "a/b").topic 0 ::
        (smallRouter ["topic:a/#:group:g", "topic:a/#:group:g"]).topics) ∧
      (smallRouter ["topic:a/#:group:g", "topic:a/#:group:g"]).RoomFor (publishOf "a/b").level 2 ∧
      [0, 1].map (received (smallRouter ["topic:a/#:group:g", "topic:a/#:group:g"])
          ((smallRouter ["topic:a/#:group:g", "topic:a/#:group:g"]).act
            ((publishOf "a/b").action 0))) =
        [[⟨serializeFrame cmdPublish 0 (ascii "a/b"), 1, 0⟩],
          [⟨serializeFrame cmdPublish 0 (ascii "a/b"), 1, 0⟩]] :=
  ⟨smallRouter_reachable _, by decide +kernel, roomFor_of_slots (by decide +kernel),
    by decide +kernel⟩

end Aqueduct.Broker.Router
