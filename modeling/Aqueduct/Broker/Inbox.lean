import Aqueduct.Broker.Service
import Aqueduct.Lib.Unwinding

/-!
One subscriber of the service. An individual subscription is an inbox of its
own: it takes the messages of the topics its filter covers and is moved by no
other call. So what a subscriber fetches from the router does not depend on
other topics, on other subscribers, or on how fast those read.
-/

namespace Aqueduct.Broker

open ByteStr Protocol Router

/-! ## The inbox -/

/-- Of the numbers only those of covered topics are kept. -/
structure Inbox where
  live : Bool
  mailbox : UInt8 → List Message
  numbers : Bytes → UInt64

namespace Inbox

section Step

variable (o : Options) (filter : Bytes) (streamID : UInt32) (idx : Nat)

/-- How often a message of `topic` comes to a subscription to `filter`: once
for the topic itself and once for a pattern that matches. -/
def copies (topic : Bytes) : Nat :=
  (if filter = topic then 1 else 0) +
    if isWildcardTopic filter && matchWildcard filter topic then 1 else 0

/-- One copy of a message; the flag says that the subscription ends. -/
def receive (msg : Message) (p : UInt8) (v : Inbox × Bool) : Inbox × Bool :=
  if v.1.live then
    ({ v.1 with mailbox := fun l =>
        if l = clampLevel p then Service.put o (v.1.mailbox (clampLevel p)) msg else v.1.mailbox l },
      v.2 || decide (Service.Ends o (v.1.mailbox (clampLevel p))))
  else v

def take (v : Inbox × Bool) (topic : Bytes) (p : UInt8) (buf : Bytes) (exp : Int64) :
    Inbox × Bool :=
  if Covers filter topic then
    let number := v.1.numbers topic + 1
    (receive o ⟨buf, number, exp⟩ p)^[copies filter topic]
      ({ v.1 with numbers := Function.update v.1.numbers topic number }, v.2)
  else v

def stop (v : Inbox) : Inbox := { v with live := false }

def settle (v : Inbox × Bool) : Inbox := if v.2 then v.1.stop else v.1

def takeFrame (v : Inbox) (now : Int64) (frame : Frame) : Inbox :=
  if frame.payloadLen > maxPayloadSize then v
  else settle (take o filter (v, false) (topicOf now frame) frame.priority
    (publishBuf frame (topicOf now frame)) (Service.expiry o now frame))

def takeSub (now : Int64) (v : Inbox × Bool) (subFrame : Bytes) : Inbox × Bool :=
  match parseFrame subFrame with
  | .error _ => v
  | .ok f => take o filter v (topicOf now f) f.priority subFrame 0

def takeBatch (v : Inbox) (now : Int64) (frame : Frame) : Inbox :=
  if frame.payloadLen > maxPayloadSize then v
  else settle ((batchFrames frame.payload).foldl (takeSub o filter now) (v, false))

/-- The inbox after a call, and the message that a fetch takes from it. -/
def step (v : Inbox) : Action → Inbox × Option (Option Message)
  | .unsubscribe number => (if number = streamID then v.stop else v, none)
  | .publish now frame _ | .publishFromPeer now frame => (takeFrame o filter v now frame, none)
  | .publishBatch now frame => (takeBatch o filter v now frame, none)
  | .publishSub now subFrame => ((takeSub o filter now (v, false) subFrame).1, none)
  | .disconnect i => (if i = idx then v.stop else v, none)
  | .close => (v.stop, none)
  | .backfill i msg =>
    (if i = idx then (receive o msg priorityNormal (v, false)).1 else v, none)
  | .fetch i level =>
    if i = idx then
      ({ v with mailbox := fun l => if l = level then (v.mailbox level).tail else v.mailbox l },
        some (v.mailbox level).head?)
    else (v, none)
  | .drain i => (if i = idx then { v with mailbox := fun _ => [] } else v, none)
  | .subscribe _ _ | .ackOffset _ _ _ | .nack _ _ | .peers _ => (v, none)

/-- The calls that can move the inbox. -/
def concerns : Action → Bool
  | .unsubscribe number => number = streamID
  | .publish now frame _ | .publishFromPeer now frame => Covers filter (topicOf now frame)
  | .publishBatch now frame =>
    ((batchFrames frame.payload).flatMap (subTopics now)).any fun t => Covers filter t
  | .publishSub now subFrame => (subTopics now subFrame).any fun t => Covers filter t
  | .disconnect i | .backfill i _ | .fetch i _ | .drain i => i = idx
  | .close => true
  | .subscribe _ _ | .ackOffset _ _ _ | .nack _ _ | .peers _ => false

variable {o filter streamID idx}

theorem takeSub_other {now : Int64} {subFrame : Bytes}
    (h : (subTopics now subFrame).any (fun t => Covers filter t) = false) (v : Inbox × Bool) :
    takeSub o filter now v subFrame = v := by
  unfold takeSub
  unfold subTopics at h
  cases hparse : parseFrame subFrame with
  | error e => rfl
  | ok f =>
    rw [hparse] at h
    have hnot : ¬ Covers filter (topicOf now f) := by simpa using h
    exact if_neg hnot

/-- Other calls leave the inbox as it is. -/
theorem step_other (v : Inbox) {a : Action} (h : concerns filter streamID idx a = false) :
    step o filter streamID idx v a = (v, none) := by
  cases a with
  | unsubscribe number => rw [step, if_neg (of_decide_eq_false h)]
  | publish now frame clientID | publishFromPeer now frame =>
    rw [step, takeFrame, take, if_neg (of_decide_eq_false h)]
    exact congrArg (·, none) (ite_self v)
  | publishBatch now frame =>
    have hfold : (batchFrames frame.payload).foldl (takeSub o filter now) (v, false) = (v, false) := by
      refine List.foldlRecOn (motive := fun w => w = (v, false)) _ _ rfl fun w hw b hb => ?_
      rw [hw]
      refine takeSub_other (List.any_eq_false.mpr fun t ht => ?_) _
      exact List.any_eq_false.mp h t (List.mem_flatMap.mpr ⟨b, hb, ht⟩)
    rw [step, takeBatch, hfold]
    exact congrArg (·, none) (ite_self v)
  | publishSub now subFrame => rw [step, takeSub_other h]
  | disconnect i | backfill i msg | drain i => rw [step, if_neg (of_decide_eq_false h)]
  | fetch i level => rw [step, if_neg (of_decide_eq_false h)]
  | close => cases h
  | subscribe stream frame | ackOffset consumerID topic offset | nack number offset | peers n => rfl

/-- So calls that do not concern it can be left out. -/
theorem respects : Unwinding.Respects (step o filter streamID idx) (concerns filter streamID idx)
    (fun _ => True) id where
  keeps := fun _ _ _ => trivial
  hidden := fun v a _ ha => by rw [step_other v ha]; exact ⟨rfl, rfl⟩
  visible := fun v w a hvw _ => by
    obtain rfl : v = w := hvw
    exact ⟨rfl, rfl⟩

end Step

end Inbox

/-! ## The service seen by one subscriber -/

namespace Service

section Seen

variable {o : Options} {filter : Bytes} {streamID : UInt32} {idx : Nat} {s : Service}

/-- Subscription `idx` is an individual one, and only the number of peers can
differ from the options `o`. -/
structure Hosts (o : Options) (filter : Bytes) (streamID : UInt32) (idx : Nat) (s : Service) :
    Prop where
  options : ∃ n, s.options = { o with activePeers := n }
  slot : ∃ live, s.subs[idx]? = some ⟨filter, [], streamID, live⟩

def inbox (filter : Bytes) (idx : Nat) (s : Service) : Inbox :=
  ⟨s.isLive idx, s.mailbox idx, fun t => if Covers filter t then s.numbers t else 0⟩

/-- The same in the middle of a publish: whether the subscription is to end. -/
def watch (filter : Bytes) (idx : Nat) (acc : Service × List Nat) : Inbox × Bool :=
  (acc.1.inbox filter idx, decide (idx ∈ acc.2))

theorem Hosts.put (h : s.Hosts o filter streamID idx) (q : List Message) (msg : Message) :
    Service.put s.options q msg = Service.put o q msg ∧ (Ends s.options q ↔ Ends o q) := by
  obtain ⟨n, hn⟩ := h.options
  rw [hn]
  exact ⟨rfl, Iff.rfl⟩

theorem Hosts.of_mailbox (h : s.Hosts o filter streamID idx) {s' : Service}
    (hsubs : s'.subs = s.subs) (hoptions : s'.options = s.options) :
    s'.Hosts o filter streamID idx :=
  ⟨hoptions ▸ h.options, hsubs ▸ h.slot⟩

theorem deliver_frame (msg : Message) (p : UInt8) (acc : Service × List Nat) (i : Nat) :
    (deliver msg p acc i).1.subs = acc.1.subs ∧
      (deliver msg p acc i).1.options = acc.1.options := by
  unfold deliver setMailbox
  split <;> exact ⟨rfl, rfl⟩

theorem watch_deliver {x : Service × List Nat} (h : x.1.Hosts o filter streamID idx)
    (msg : Message) (p : UInt8) (i : Nat) :
    watch filter idx (deliver msg p x i) =
      if i = idx then Inbox.receive o msg p (watch filter idx x) else watch filter idx x := by
  obtain ⟨hput, hends⟩ := h.put (x.1.mailbox idx (clampLevel p)) msg
  unfold deliver
  by_cases hi : i = idx
  · subst hi
    rw [if_pos rfl]
    unfold Inbox.receive watch
    by_cases hlive : x.1.isLive i = true
    · rw [if_pos hlive, if_pos (show (x.1.inbox filter i).live = true from hlive)]
      refine Prod.ext ?_ ?_
      · dsimp only [inbox, setMailbox]
        rw [← hput]
        simp [isLive]
      · change decide (i ∈ x.2 ++ _) =
          (decide (i ∈ x.2) || decide (Ends o (x.1.mailbox i (clampLevel p))))
        by_cases hfull : Ends o (x.1.mailbox i (clampLevel p))
        · simp [hfull, hends.mpr hfull]
        · simp [hfull, mt hends.mp hfull]
    · rw [if_neg hlive, if_neg (show ¬ (x.1.inbox filter i).live = true from hlive)]
  · rw [if_neg hi]
    split
    · unfold watch inbox setMailbox isLive
      refine Prod.ext ?_ ?_
      · simp [Ne.symm hi]
      · refine decide_eq_decide.mpr ?_
        rw [List.mem_append]
        split <;> simp [Ne.symm hi]
    · rfl

theorem watch_foldl (msg : Message) (p : UInt8) (ts : List Nat) {x : Service × List Nat}
    (h : x.1.Hosts o filter streamID idx) :
    watch filter idx (ts.foldl (deliver msg p) x) =
      (Inbox.receive o msg p)^[ts.count idx] (watch filter idx x) := by
  induction ts generalizing x with
  | nil => rfl
  | cons t ts ih =>
    obtain ⟨hsubs, hoptions⟩ := deliver_frame msg p x t
    rw [List.foldl_cons, ih (h.of_mailbox hsubs hoptions), watch_deliver h, List.count_cons]
    by_cases ht : t = idx
    · simp [ht]
    · simp [ht]

theorem slots_count {u : Subscription} (hu : s.subs[idx]? = some u) (p : Subscription → Bool) :
    (s.slots p).count idx = if p u then 1 else 0 := by
  have hlt : idx < s.subs.length := (List.getElem?_eq_some_iff.mp hu).1
  rw [slots, count_filter_range hlt, hu]
  rfl

theorem pick_mem {topic groupID : Bytes} {i : Nat} (h : s.pick topic groupID = some i) :
    i ∈ s.members groupID topic := by
  unfold pick at h
  dsimp only at h
  split at h
  · cases h
  · next hne =>
    cases h
    have hlt := Nat.mod_lt (s.turns groupID topic).toNat (List.length_pos_iff.mpr hne)
    rw [List.getD_eq_getElem?_getD, List.getElem?_eq_getElem hlt]
    exact List.getElem_mem hlt

theorem addressees_count (h : s.Hosts o filter streamID idx) (topic : Bytes) :
    (s.addressees topic).count idx = Inbox.copies filter topic := by
  obtain ⟨live, hu⟩ := h.slot
  have hpicks : ((s.groupsOn topic).filterMap (s.pick topic)).count idx = 0 := by
    refine List.count_eq_zero.mpr fun hmem => ?_
    obtain ⟨g, hg, hpick⟩ := List.mem_filterMap.mp hmem
    obtain ⟨v, hv, rfl⟩ := List.mem_map.mp (List.mem_eraseDups.mp hg)
    have hnamed := (of_decide_eq_true (List.mem_filter.mp hv).2).1
    have hin := (List.mem_filter.mp (pick_mem hpick)).2
    rw [hu, Option.any_some] at hin
    exact hnamed (of_decide_eq_true hin).2.1.symm
  rw [addressees, List.count_append, List.count_append, slots_count hu, slots_count hu, hpicks]
  simp [Inbox.copies]

theorem copies_eq_zero {topic : Bytes} (h : ¬ Covers filter topic) :
    Inbox.copies filter topic = 0 := by
  unfold Covers at h
  unfold Inbox.copies
  simp_all

theorem foldl_deliver_ended (msg : Message) (p : UInt8) (ts : List Nat) (s : Service)
    (ended : List Nat) : ts.foldl (deliver msg p) (s, ended) =
      ((ts.foldl (deliver msg p) (s, [])).1, ended ++ (ts.foldl (deliver msg p) (s, [])).2) := by
  induction ts generalizing s ended with
  | nil => simp
  | cons t ts ih =>
    have hone : deliver msg p (s, ended) t =
        ((deliver msg p (s, []) t).1, ended ++ (deliver msg p (s, []) t).2) := by
      unfold deliver
      split <;> simp
    rw [List.foldl_cons, List.foldl_cons, hone, ih, ih _ (deliver msg p (s, []) t).2]
    simp

theorem inbox_number (s : Service) (topic : Bytes) :
    (s.number topic).inbox filter idx =
      if Covers filter topic then
        { s.inbox filter idx with
          numbers := Function.update (s.inbox filter idx).numbers topic (s.numbers topic + 1) }
      else s.inbox filter idx := by
  unfold inbox number
  split
  · next hcovers =>
    refine congrArg (Inbox.mk _ _) (funext fun t => ?_)
    by_cases ht : t = topic
    · subst ht
      simp [hcovers]
    · simp [ht]
  · next hnot =>
    refine congrArg (Inbox.mk _ _) (funext fun t => ?_)
    by_cases ht : t = topic
    · subst ht
      simp [hnot]
    · simp [ht]

/-- A message for somebody else is not noticed, and a covered one comes as it
would alone. -/
theorem watch_post {x : Service × List Nat} (h : x.1.Hosts o filter streamID idx)
    (topic : Bytes) (p : UInt8) (buf : Bytes) (exp : Int64) :
    watch filter idx ((x.1.post topic p buf exp).1,
        x.2 ++ (x.1.post topic p buf exp).2) =
      Inbox.take o filter (watch filter idx x) topic p buf exp := by
  have hnumber : (x.1.number topic).Hosts o filter streamID idx := h.of_mailbox rfl rfl
  have hfold := watch_foldl ⟨buf, x.1.numbers topic + 1, exp⟩ p
    ((x.1.number topic).addressees topic) (x := (x.1.number topic, x.2)) hnumber
  rw [foldl_deliver_ended, addressees_count hnumber] at hfold
  refine Eq.trans hfold ?_
  unfold Inbox.take watch
  dsimp only
  rw [inbox_number]
  by_cases hcovers : Covers filter topic
  · have hlast : (x.1.inbox filter idx).numbers topic = x.1.numbers topic := if_pos hcovers
    rw [if_pos hcovers, if_pos hcovers, hlast]
  · rw [if_neg hcovers, if_neg hcovers, copies_eq_zero hcovers]
    rfl

theorem isLive_leave (s : Service) (i : Nat) :
    (s.leave i).isLive idx = (s.isLive idx && decide (idx ≠ i)) := by
  unfold isLive leave
  dsimp only
  rw [List.getElem?_modify]
  by_cases hi : i = idx
  · subst hi
    cases s.subs[i]? <;> simp
  · simp [hi, Ne.symm hi]

theorem inbox_leaveAll (acc : Service × List Nat) :
    (leaveAll acc).inbox filter idx = Inbox.settle (watch filter idx acc) := by
  have hfold : ∀ (is : List Nat) (s : Service), (is.foldl leave s).inbox filter idx =
      Inbox.settle (s.inbox filter idx, decide (idx ∈ is)) := by
    intro is
    induction is with
    | nil => exact fun s => rfl
    | cons i is ih =>
      intro s
      rw [List.foldl_cons, ih]
      unfold Inbox.settle Inbox.stop inbox
      rw [isLive_leave]
      by_cases hi : idx = i
      · subst hi
        by_cases hmem : idx ∈ is <;> simp [hmem, leave]
      · by_cases hmem : idx ∈ is <;> simp [hi, hmem, leave]
  exact hfold acc.2 acc.1

/-! ## Every call -/

theorem Hosts.leave (h : s.Hosts o filter streamID idx) (i : Nat) :
    (s.leave i).Hosts o filter streamID idx := by
  obtain ⟨live, hu⟩ := h.slot
  refine ⟨h.options, if i = idx then false else live, ?_⟩
  rw [Service.leave, List.getElem?_modify, hu]
  split <;> rfl

theorem Hosts.leaveAll {acc : Service × List Nat} (h : acc.1.Hosts o filter streamID idx) :
    (leaveAll acc).Hosts o filter streamID idx :=
  List.foldlRecOn _ _ (motive := Hosts o filter streamID idx) h fun _ hs i _ => hs.leave i

theorem Hosts.post (h : s.Hosts o filter streamID idx) (topic : Bytes) (p : UInt8) (buf : Bytes)
    (exp : Int64) : (s.post topic p buf exp).1.Hosts o filter streamID idx := by
  obtain ⟨m, hm⟩ := foldl_deliver_frame ⟨buf, s.numbers topic + 1, exp⟩ p
    ((s.number topic).addressees topic) (s.number topic, [])
  have hframe : (s.post topic p buf exp).1.subs = s.subs ∧
      (s.post topic p buf exp).1.options = s.options := by
    dsimp only [Service.post, Service.dispatch]
    rw [hm]
    exact ⟨rfl, rfl⟩
  exact h.of_mailbox hframe.1 hframe.2

/-- In the middle of a batch the subscriber sees `v`. -/
structure Shows (o : Options) (filter : Bytes) (streamID : UInt32) (idx : Nat)
    (x : Service × List Nat) (v : Inbox × Bool) : Prop where
  hosts : x.1.Hosts o filter streamID idx
  watch : watch filter idx x = v

theorem Shows.postSub {x : Service × List Nat} {v : Inbox × Bool}
    (h : Shows o filter streamID idx x v) (now : Int64) (subFrame : Bytes) :
    Shows o filter streamID idx (postSub now x subFrame)
      (Inbox.takeSub o filter now v subFrame) := by
  obtain ⟨h, rfl⟩ := h
  unfold Service.postSub Inbox.takeSub
  cases parseFrame subFrame with
  | error e => exact ⟨h, rfl⟩
  | ok f => exact ⟨h.post _ _ _ _, watch_post h _ _ _ _⟩

theorem Hosts.postFrame (h : s.Hosts o filter streamID idx) (now : Int64) (f : Frame) :
    (s.postFrame now f).Hosts o filter streamID idx ∧
      (s.postFrame now f).inbox filter idx = Inbox.settle (Inbox.take o filter
        (s.inbox filter idx, false) (topicOf now f) f.priority (publishBuf f (topicOf now f))
        (expiry o now f)) := by
  have hexp : expiry s.options now f = expiry o now f := by
    obtain ⟨n, hn⟩ := h.options
    rw [hn]
    rfl
  refine ⟨(h.post _ _ _ _).leaveAll, ?_⟩
  rw [Service.postFrame, inbox_leaveAll, hexp]
  exact congrArg Inbox.settle (watch_post (x := (s, [])) h _ _ _ _)

theorem Hosts.of_slot (h : s.Hosts o filter streamID idx) {subs : List Subscription} {live : Bool}
    (hslot : subs[idx]? = some ⟨filter, [], streamID, live⟩) :
    { s with subs := subs }.Hosts o filter streamID idx ∧
      { s with subs := subs }.inbox filter idx = { s.inbox filter idx with live := live } := by
  refine ⟨⟨h.options, live, hslot⟩, ?_⟩
  unfold inbox isLive
  dsimp only
  rw [hslot]
  rfl

theorem Hosts.isLive_eq {live : Bool} (hu : s.subs[idx]? = some ⟨filter, [], streamID, live⟩) :
    s.isLive idx = live := by
  rw [isLive, hu]
  rfl

theorem Hosts.subscribe (h : s.Hosts o filter streamID idx) (frame : Frame) :
    (s.subscribe frame).1.Hosts o filter streamID idx ∧
      (s.subscribe frame).1.inbox filter idx = s.inbox filter idx := by
  obtain ⟨live, hu⟩ := h.slot
  unfold Service.subscribe
  split
  · exact ⟨h, rfl⟩
  · next spec _ =>
    have hkept : (s.subs ++ [⟨spec.topic, spec.groupID, frame.streamID, true⟩])[idx]? =
        some ⟨filter, [], streamID, live⟩ :=
      (List.getElem?_append_left (List.getElem?_eq_some_iff.mp hu).1).trans hu
    refine ⟨(h.of_slot hkept).1, (h.of_slot hkept).2.trans ?_⟩
    rw [← isLive_eq hu]
    rfl

theorem Hosts.unsubscribe (h : s.Hosts o filter streamID idx) (number : UInt32) :
    (s.unsubscribe number).Hosts o filter streamID idx ∧
      (s.unsubscribe number).inbox filter idx =
        if number = streamID then (s.inbox filter idx).stop else s.inbox filter idx := by
  obtain ⟨live, hu⟩ := h.slot
  have hslot : (s.unsubscribe number).subs[idx]? =
      some ⟨filter, [], streamID, if number = streamID then false else live⟩ := by
    rw [Service.unsubscribe, List.getElem?_map, hu, Option.map_some]
    by_cases hn : number = streamID
    · simp [hn]
    · simp [hn, Ne.symm hn]
  refine ⟨(h.of_slot hslot).1, (h.of_slot hslot).2.trans ?_⟩
  split
  · rfl
  · rw [← isLive_eq hu]
    rfl

theorem Hosts.tryAcquire (h : s.Hosts o filter streamID idx) (hq : o.quotaManager = none)
    (clientID : Bytes) : s.tryAcquire clientID = (s, true) := by
  obtain ⟨n, hn⟩ := h.options
  unfold Service.tryAcquire
  rw [hn, hq]

theorem Hosts.publishBatch (h : s.Hosts o filter streamID idx) (now : Int64) (frame : Frame) :
    (s.publishBatch now frame).1.Hosts o filter streamID idx ∧
      (s.publishBatch now frame).1.inbox filter idx =
        Inbox.takeBatch o filter (s.inbox filter idx) now frame := by
  obtain ⟨hall, hwatch⟩ : Shows o filter streamID idx
      ((batchFrames frame.payload).foldl (postSub now) (s, []))
      ((batchFrames frame.payload).foldl (Inbox.takeSub o filter now)
        (Service.watch filter idx (s, []))) :=
    List.foldl_rel ⟨h, rfl⟩ fun b _ _ _ hxv => hxv.postSub now b
  unfold Service.publishBatch Inbox.takeBatch
  split
  · exact ⟨h, rfl⟩
  · refine ⟨hall.leaveAll, ?_⟩
    dsimp only
    rw [inbox_leaveAll, hwatch]
    rfl

/-- The service moves the inbox as the inbox moves alone. -/
theorem Hosts.step (h : s.Hosts o filter streamID idx) (hq : o.quotaManager = none) (a : Action) :
    (s.step a).1.Hosts o filter streamID idx ∧
      (s.step a).1.inbox filter idx =
        (Inbox.step o filter streamID idx (s.inbox filter idx) a).1 := by
  cases a with
  | subscribe stream frame => exact h.subscribe frame
  | unsubscribe number => exact h.unsubscribe number
  | publish now frame clientID =>
    dsimp only [Service.step, Service.publish, Inbox.step, Inbox.takeFrame]
    rw [h.tryAcquire hq]
    split
    · exact ⟨h, rfl⟩
    · exact h.postFrame now frame
  | publishFromPeer now frame =>
    dsimp only [Service.step, Service.publishFromPeer, Inbox.step, Inbox.takeFrame]
    split
    · exact ⟨h, rfl⟩
    · exact h.postFrame now frame
  | publishBatch now frame => exact h.publishBatch now frame
  | publishSub now subFrame =>
    obtain ⟨hnext, hwatch⟩ := Shows.postSub (x := (s, [])) ⟨h, rfl⟩ now subFrame
    exact ⟨hnext, congrArg Prod.fst hwatch⟩
  | disconnect i =>
    refine ⟨h.leave i, (inbox_leaveAll (s, [i])).trans ?_⟩
    unfold Inbox.settle watch
    by_cases hi : i = idx
    · simp [hi, Inbox.step]
    · simp [hi, Ne.symm hi, Inbox.step]
  | ackOffset consumerID topic offset | nack number offset => exact ⟨h, rfl⟩
  | close =>
    obtain ⟨live, hu⟩ := h.slot
    refine h.of_slot ?_
    rw [List.getElem?_map, hu]
    rfl
  | backfill i msg =>
    obtain ⟨hsubs, hoptions⟩ := deliver_frame msg priorityNormal (s, []) i
    have hwatch := watch_deliver (x := (s, [])) h msg priorityNormal i
    refine ⟨h.of_mailbox hsubs hoptions, (congrArg Prod.fst hwatch).trans ?_⟩
    dsimp only [Inbox.step]
    split <;> rfl
  | fetch i level =>
    refine ⟨h.of_mailbox rfl rfl, ?_⟩
    by_cases hi : i = idx
    · subst hi
      simp [Service.step, Inbox.step, inbox, setMailbox, isLive]
    · simp [Service.step, Inbox.step, inbox, setMailbox, isLive, hi, Ne.symm hi]
  | drain i =>
    refine ⟨h.of_mailbox rfl rfl, ?_⟩
    by_cases hi : i = idx
    · subst hi
      simp [Service.step, Inbox.step, inbox, isLive]
    · simp [Service.step, Inbox.step, inbox, isLive, hi, Ne.symm hi]
  | peers n =>
    obtain ⟨m, hm⟩ := h.options
    refine ⟨⟨⟨n, ?_⟩, h.slot⟩, rfl⟩
    dsimp only [Service.step]
    rw [hm]

end Seen

end Service

/-! ## The router seen by one subscriber -/

namespace Router

/-- The router, observed by the writer of slot `idx`. -/
def shown (idx : Nat) (r : Router) (a : Action) : Router × Option (Option Message) :=
  (r.act a, match a with
    | .fetch i level => if i = idx then some (r.queueAt idx level).head? else none
    | _ => none)

/-- The calls that can matter to slot `idx`. -/
def concerns (r : Router) (idx : Nat) (a : Action) : Bool :=
  Inbox.concerns (r.topicAt idx) (r.streamIDs.getD idx 0) idx a

theorem implements_run {U : List Bytes} (hfree : CollisionFree U) (o : Options) {as : List Action}
    (hopen : ∀ a ∈ as, a ≠ .close) (hknown : ∀ a ∈ as, ∀ t ∈ a.topics, t ∈ U) :
    ∃ s, Implements U (as.foldl act (newRouterWith o)) s := by
  refine List.foldlRecOn as act (motive := fun r => ∃ s, Implements U r s)
    ⟨_, newRouterWith_implements U o⟩ fun r hr a ha => ?_
  obtain ⟨s, hs⟩ := hr
  exact ⟨_, (hs.step hfree (hopen a ha) (hknown a ha)).1⟩

theorem Implements.hosts {U : List Bytes} {r : Router} {s : Service} (h : Implements U r s)
    {idx : Nat} (hslot : idx < r.active.length) (hind : r.groupAt idx = []) :
    s.Hosts r.options (r.topicAt idx) (r.streamIDs.getD idx 0) idx := by
  refine ⟨⟨r.activePeers, h.options⟩, r.isActive idx, ?_⟩
  rw [h.subs, subscriptions_getElem?, if_pos hslot, subscription, hind]

/-- Seen by the writer of a slot, the router is the inbox of that slot. -/
theorem shown_inbox {U : List Bytes} (hfree : CollisionFree U) {o : Options}
    (hq : o.quotaManager = none) {filter : Bytes} {streamID : UInt32} {idx : Nat} {r : Router}
    {s : Service} (h : Implements U r s) (hosts : s.Hosts o filter streamID idx)
    {as : List Action} (hopen : ∀ a ∈ as, a ≠ .close ∧ ∀ t ∈ a.topics, t ∈ U) :
    Unwinding.observe (shown idx) r as =
      Unwinding.observe (Inbox.step o filter streamID idx) (s.inbox filter idx) as := by
  refine Unwinding.observe_simulates (p := fun a => a ≠ .close ∧ ∀ t ∈ a.topics, t ∈ U)
    (R := fun r v => ∃ s, Implements U r s ∧ s.Hosts o filter streamID idx ∧
      s.inbox filter idx = v) ?_ ⟨s, h, hosts, rfl⟩ hopen
  rintro r v a ⟨hne, hknown⟩ ⟨s, h, hosts, rfl⟩
  obtain ⟨hnext, hinbox⟩ := hosts.step hq a
  refine ⟨⟨_, (h.step hfree hne hknown).1, hnext, hinbox⟩, ?_⟩
  cases a with
  | fetch i level =>
    dsimp only [shown, Inbox.step]
    by_cases hi : i = idx
    · rw [if_pos hi, if_pos hi, ← h.mailbox]
      rfl
    · rw [if_neg hi, if_neg hi]
  | _ => rfl

/-- **A subscriber is served on its own.** Whatever else is called in between,
on other topics, by other subscribers fast or slow, by groups or by peers: two
continuations of a run that agree on the calls which concern an individual
subscription let its writer fetch the same messages. Without quotas, since
publishers of one client share its tokens across topics. -/
theorem fetches_isolated (o : Options) {pre as bs : List Action} {r : Router}
    (hr : r = pre.foldl act (newRouterWith o)) (hopen : ∀ a ∈ pre ++ (as ++ bs), a ≠ .close)
    (hfree : CollisionFree ((pre ++ (as ++ bs)).flatMap Action.topics))
    (hquota : r.quotaManager = none) {idx : Nat} (hslot : idx < r.active.length)
    (hind : r.groupAt idx = [])
    (hsame : as.filter (r.concerns idx) = bs.filter (r.concerns idx)) :
    Unwinding.observe (shown idx) r as = Unwinding.observe (shown idx) r bs := by
  have hknown : ∀ a ∈ pre ++ (as ++ bs), ∀ t ∈ a.topics,
      t ∈ (pre ++ (as ++ bs)).flatMap Action.topics :=
    fun a ha t ht => List.mem_flatMap.mpr ⟨a, ha, ht⟩
  obtain ⟨s, hs⟩ : ∃ s, Implements ((pre ++ (as ++ bs)).flatMap Action.topics) r s := by
    rw [hr]
    exact implements_run hfree o (fun a ha => hopen a (List.mem_append_left _ ha))
      fun a ha => hknown a (List.mem_append_left _ ha)
  have hosts := hs.hosts hslot hind
  have hall : ∀ cs, (∀ a ∈ cs, a ∈ as ++ bs) → Unwinding.observe (shown idx) r cs =
      Unwinding.observe (Inbox.step r.options (r.topicAt idx) (r.streamIDs.getD idx 0) idx)
        (s.inbox (r.topicAt idx) idx) cs := fun cs hcs =>
    shown_inbox hfree hquota hs hosts fun a ha =>
      ⟨hopen a (List.mem_append_right _ (hcs a ha)), hknown a (List.mem_append_right _ (hcs a ha))⟩
  rw [hall as fun a ha => List.mem_append_left _ ha, hall bs fun a ha => List.mem_append_right _ ha]
  exact Inbox.respects.observe_eq trivial hsame

/-- A subscriber of `a`, with and without a stalled subscriber of `b`. -/
theorem fetches_isolated_small :
    Unwinding.observe (shown 0) (smallRouter ["topic:a"])
        [.publish 0 (clientFrame cmdPublish 0 "a") [], .fetch 0 2] =
      Unwinding.observe (shown 0) (smallRouter ["topic:a"])
        [.subscribe ⟨0, 8⟩ (clientFrame cmdSubscribe 8 "topic:b"),
          .publish 0 (clientFrame cmdPublish 0 "b") [],
          .publish 0 (clientFrame cmdPublish 0 "a") [], .disconnect 1, .fetch 0 2] := by
  have hrouter : smallRouter ["topic:a"] =
      [Action.subscribe ⟨0, 0⟩ (clientFrame cmdSubscribe 4 "topic:a")].foldl act
        (newRouterWith smallOptions) := rfl
  refine fetches_isolated smallOptions hrouter (fun a ha => ?_)
    (by decide +kernel) rfl (by decide) rfl rfl
  rintro rfl
  simp at ha

end Router

end Aqueduct.Broker
