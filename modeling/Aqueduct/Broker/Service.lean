import Aqueduct.Broker.Fairness
import Aqueduct.Lib.Machine
import Mathlib.Data.List.DropRight

/-!
What the router is for: a publish/subscribe service that knows subscriptions
by the names of their topics and groups. It has no hash, no index, no wildcard
list and no snapshot of a group; who gets a message is read off the list of
subscriptions each time. The router answers every sequence of calls as the
service does, as long as `topicHashKey` separates the topics in use.
-/

namespace Aqueduct.Broker

open ByteStr Protocol Router

/-! ## The service -/

structure Subscription where
  topic : Bytes
  groupID : Bytes
  streamID : UInt32
  live : Bool
  deriving DecidableEq, Repr

/-- The subscriptions in the order they were made, a mailbox per subscription
and level, the last number given on a topic and the turns a group has taken. -/
structure Service where
  subs : List Subscription
  mailbox : Nat → UInt8 → List Message
  numbers : Bytes → UInt64
  turns : Bytes → Bytes → UInt64
  options : Options

/-- What a caller or a writer gets back. -/
inductive Reply
  | subscribed (error : Option SubscribeError)
  | published (error : Option PublishError) (forwarded : List Bytes)
  | fetched (msg : Option Message)
  | done
  deriving DecidableEq

namespace Service

def new (o : Options) : Service := ⟨[], fun _ _ => [], fun _ => 0, fun _ _ => 0, o⟩

def slots (s : Service) (p : Subscription → Bool) : List Nat :=
  (List.range s.subs.length).filter fun i => s.subs[i]?.any p

def isLive (s : Service) (idx : Nat) : Bool := s.subs[idx]?.any (·.live)

def members (s : Service) (groupID topic : Bytes) : List Nat :=
  s.slots fun u => u.live ∧ u.groupID = groupID ∧ u.topic = topic

/-- The groups of a topic, in the order of their first subscription. -/
def groupsOn (s : Service) (topic : Bytes) : List Bytes :=
  ((s.subs.filter fun u => u.groupID ≠ [] ∧ u.topic = topic).map (·.groupID)).eraseDups

/-- The member whose turn it is. -/
def pick (s : Service) (topic groupID : Bytes) : Option Nat :=
  let ms := s.members groupID topic
  if ms = [] then none else some (ms.getD ((s.turns groupID topic).toNat % ms.length) 0)

/-- Who gets a message: individual subscriptions to its topic, patterns that
match it, and one member of each group on it. -/
def addressees (s : Service) (topic : Bytes) : List Nat :=
  s.slots (fun u => u.groupID = [] ∧ u.topic = topic) ++
    (s.slots (fun u => isWildcardTopic u.topic && matchWildcard u.topic topic) ++
      (s.groupsOn topic).filterMap (s.pick topic))

/-- A mailbox after a message: the newest or the oldest that fit. -/
def put (o : Options) (q : List Message) (msg : Message) : List Message :=
  match o.policy with
  | .dropOldest => (q ++ [msg]).rtake o.queueSize
  | .dropNewest | .disconnect => (q ++ [msg]).take o.queueSize

def Ends (o : Options) (q : List Message) : Prop :=
  o.policy = .disconnect ∧ o.queueSize ≤ q.length

instance (o : Options) (q : List Message) : Decidable (Ends o q) :=
  inferInstanceAs (Decidable (_ ∧ _))

def setMailbox (s : Service) (idx : Nat) (level : UInt8) (q : List Message) : Service :=
  { s with mailbox := fun i l => if i = idx ∧ l = level then q else s.mailbox i l }

/-- A message for one subscription; collects those that end. -/
def deliver (msg : Message) (p : UInt8) (acc : Service × List Nat) (idx : Nat) :
    Service × List Nat :=
  if acc.1.isLive idx then
    let q := acc.1.mailbox idx (clampLevel p)
    (acc.1.setMailbox idx (clampLevel p) (put acc.1.options q msg),
      acc.2 ++ if Ends acc.1.options q then [idx] else [])
  else acc

def leave (s : Service) (idx : Nat) : Service :=
  { s with subs := s.subs.modify idx fun u => { u with live := false } }

def leaveAll (acc : Service × List Nat) : Service := acc.2.foldl leave acc.1

/-- A message goes to its addressees, and every group with a member uses up a
turn. -/
def dispatch (s : Service) (topic : Bytes) (msg : Message) (p : UInt8) : Service × List Nat :=
  let acc := (s.addressees topic).foldl (deliver msg p) (s, [])
  ({ acc.1 with turns := fun g t =>
      if t = topic ∧ (s.groupsOn topic).contains g ∧ s.members g topic ≠ [] then s.turns g t + 1
      else s.turns g t }, acc.2)

def number (s : Service) (topic : Bytes) : Service :=
  { s with numbers := Function.update s.numbers topic (s.numbers topic + 1) }

/-- A message takes the next number of its topic. -/
def post (s : Service) (topic : Bytes) (p : UInt8) (buf : Bytes) (exp : Int64) :
    Service × List Nat :=
  (s.number topic).dispatch topic ⟨buf, s.numbers topic + 1, exp⟩ p

def tryAcquire (s : Service) (clientID : Bytes) : Service × Bool :=
  match s.options.quotaManager with
  | none => (s, true)
  | some m =>
    ({ s with options := { s.options with quotaManager := some (m.tryAcquire clientID).1 } },
      (m.tryAcquire clientID).2)

/-- The expiry of a message, by the options of a router. -/
def expiry (o : Options) (now : Int64) (frame : Frame) : Int64 :=
  ((newRouterWith o).expiryAndTopic now frame.priority frame.payload).1

def forwarding (o : Options) (buf : Bytes) : List Bytes := if 0 < o.activePeers then [buf] else []

/-- The message of a frame from a client or from a peer. -/
def postFrame (s : Service) (now : Int64) (frame : Frame) : Service :=
  leaveAll (s.post (topicOf now frame) frame.priority (publishBuf frame (topicOf now frame))
    (expiry s.options now frame))

def publish (s : Service) (now : Int64) (frame : Frame) (clientID : Bytes) : Service × Reply :=
  if frame.payloadLen > maxPayloadSize then (s, .published (some .payloadTooLarge) [])
  else
    let (s, ok) := s.tryAcquire clientID
    if ok = false then (s, .published none [])
    else (s.postFrame now frame,
      .published none (forwarding s.options (publishBuf frame (topicOf now frame))))

def publishFromPeer (s : Service) (now : Int64) (frame : Frame) : Service × Reply :=
  if frame.payloadLen > maxPayloadSize then (s, .published (some .payloadTooLarge) [])
  else (s.postFrame now frame, .published none [])

def postSub (now : Int64) (acc : Service × List Nat) (subFrame : Bytes) : Service × List Nat :=
  match parseFrame subFrame with
  | .error _ => acc
  | .ok f =>
    let (s, ended) := acc.1.post (topicOf now f) f.priority subFrame 0
    (s, acc.2 ++ ended)

def publishBatch (s : Service) (now : Int64) (frame : Frame) : Service × Reply :=
  if frame.payloadLen > maxPayloadSize then (s, .published (some .batchTooLarge) [])
  else (leaveAll ((batchFrames frame.payload).foldl (postSub now) (s, [])),
    .published none (forwarding s.options
      (((newRouterWith s.options).compressedBuf frame).getD (batchBuf frame))))

def join (s : Service) (streamID : UInt32) (spec : SubscriptionSpec) : Service :=
  { s with subs := s.subs ++ [⟨spec.topic, spec.groupID, streamID, true⟩] }

def subscribe (s : Service) (frame : Frame) : Service × Reply :=
  match parseSubscriptionPayload frame.payload with
  | .error e => (s, .subscribed (some e))
  | .ok spec => (s.join frame.streamID spec, .subscribed none)

def unsubscribe (s : Service) (streamID : UInt32) : Service :=
  { s with subs := s.subs.map fun u => if u.streamID = streamID then { u with live := false } else u }

def step (s : Service) : Action → Service × Reply
  | .subscribe _ frame => s.subscribe frame
  | .unsubscribe streamID => (s.unsubscribe streamID, .done)
  | .publish now frame clientID => s.publish now frame clientID
  | .publishFromPeer now frame => s.publishFromPeer now frame
  | .publishBatch now frame => s.publishBatch now frame
  | .publishSub now subFrame => ((postSub now (s, []) subFrame).1, .done)
  | .disconnect idx => (s.leave idx, .done)
  | .ackOffset _ _ _ | .nack _ _ => (s, .done)
  | .close => ({ s with subs := s.subs.map fun u => { u with live := false } }, .done)
  | .backfill idx msg => ((deliver msg priorityNormal (s, []) idx).1, .done)
  | .fetch idx level =>
    (s.setMailbox idx level (s.mailbox idx level).tail, .fetched (s.mailbox idx level).head?)
  | .drain idx => ({ s with mailbox := fun i l => if i = idx then [] else s.mailbox i l }, .done)
  | .peers n => ({ s with options := { s.options with activePeers := n } }, .done)

end Service

namespace Router

def reply (r : Router) (a : Action) : Router × Reply :=
  (r.act a, match a with
    | .subscribe stream frame =>
      .subscribed (match (r.subscribe stream frame).2 with
        | .error e => some e
        | .ok _ => none)
    | .publish now frame clientID =>
      .published (r.publishWithClientID now frame clientID).2
        ((r.act a).forwarded.drop r.forwarded.length)
    | .publishFromPeer now frame =>
      .published (r.publishFromPeer now frame).2 ((r.act a).forwarded.drop r.forwarded.length)
    | .publishBatch now frame =>
      .published (r.publishBatch now frame).2 ((r.act a).forwarded.drop r.forwarded.length)
    | .fetch idx level => .fetched (r.queueAt idx level).head?
    | _ => .done)

/-! ## The relation -/

def subscription (r : Router) (idx : Nat) : Subscription :=
  ⟨r.topicAt idx, r.groupAt idx, r.streamIDs.getD idx 0, r.isActive idx⟩

/-- The slot arrays read as subscriptions. -/
def subscriptions (r : Router) : List Subscription :=
  (List.range r.active.length).map r.subscription

/-- The options a router was made with, as they are now. -/
def options (r : Router) : Options :=
  ⟨r.quotaManager, r.aalPath, r.activePeers, r.queueSize, r.policy, r.priorityTTLs, r.compress,
    r.compressionMinSize⟩

/-- The router holds the state of the service, for the topics of `U`. -/
structure Implements (U : List Bytes) (r : Router) (s : Service) : Prop where
  sound : r.Sound
  current : r.Current
  known : ∀ t ∈ r.topics, t ∈ U
  subs : s.subs = r.subscriptions
  mailbox : ∀ idx level, s.mailbox idx level = r.queueAt idx level
  numbers : ∀ t ∈ U, s.numbers t = r.topicOffsets (topicHashKey t)
  groups : ∀ t ∈ U, (r.groups (topicHashKey t)).map (fun g => (g.groupID, g.counter)) =
    (s.groupsOn t).map fun g => (g, s.turns g t)
  fresh : ∀ t ∈ U, ∀ g, g ∉ s.groupsOn t → s.turns g t = 0
  options : s.options = r.options

/-- The same in the middle of a publish, with the subscriptions that are to end. -/
structure Agree (U : List Bytes) (x : Router × List Nat) (y : Service × List Nat) : Prop where
  state : Implements U x.1 y.1
  ended : x.2 = y.2

theorem subscriptions_getElem? (r : Router) (idx : Nat) :
    r.subscriptions[idx]? = if idx < r.active.length then some (r.subscription idx) else none := by
  rw [subscriptions, List.getElem?_map]
  split
  · next hlt => simp [hlt]
  · next hge => simp [Nat.le_of_not_lt hge]

theorem newRouterWith_implements (U : List Bytes) (o : Options) :
    Implements U (newRouterWith o) (Service.new o) where
  sound := sound_of_empty rfl rfl rfl
  current := Publishers.newRouterWith_current o
  known := fun _ ht => absurd ht List.not_mem_nil
  subs := rfl
  mailbox := fun _ _ => rfl
  numbers := fun _ _ => rfl
  groups := fun _ _ => rfl
  fresh := fun _ _ _ _ => rfl
  options := rfl

section Implements

variable {U : List Bytes} {r : Router} {s : Service} (h : Implements U r s)

include h

theorem Implements.slots (p : Subscription → Bool) :
    s.slots p = (List.range r.active.length).filter fun i => p (r.subscription i) := by
  have hlen : s.subs.length = r.active.length := by simp [h.subs, subscriptions]
  rw [Service.slots, hlen]
  refine List.filter_congr fun i hi => ?_
  rw [h.subs, subscriptions_getElem?, if_pos (List.mem_range.mp hi), Option.any_some]

theorem Implements.isLive (idx : Nat) : s.isLive idx = r.isActive idx := by
  rw [Service.isLive, h.subs, subscriptions_getElem?]
  split
  · rfl
  · next hge => simp [Router.isActive, Nat.le_of_not_lt hge]

theorem Implements.members (groupID topic : Bytes) :
    s.members groupID topic = r.liveSlots groupID topic :=
  h.slots _

/-- Another state with the same subscriptions and groups. -/
theorem Implements.restate {r' : Router} {s' : Service} (hsound : r'.Sound) (hlight : Light r r')
    (hgroups : r'.groups = r.groups) (hsubs : s'.subs = s.subs) (hturns : s'.turns = s.turns)
    (hmailbox : ∀ idx level, s'.mailbox idx level = r'.queueAt idx level)
    (hnumbers : ∀ t ∈ U, s'.numbers t = r'.topicOffsets (topicHashKey t))
    (hoptions : s'.options = r'.options) : Implements U r' s' where
  sound := hsound
  current := h.current.light hlight
  known := by
    rw [hlight.topics]
    exact h.known
  subs := by
    have hslot : r'.subscription = r.subscription := by
      funext idx
      simp only [subscription, isActive, topicAt, groupAt, hlight.active, hlight.topics,
        hlight.subGroups, hlight.streamIDs]
    rw [hsubs, h.subs, subscriptions, subscriptions, hlight.active, hslot]
  mailbox := hmailbox
  numbers := hnumbers
  groups := by
    rw [hgroups]
    simp only [Service.groupsOn, hsubs, hturns]
    exact h.groups
  fresh := by
    simp only [Service.groupsOn, hsubs, hturns]
    exact h.fresh
  options := hoptions

/-! ## Messages -/

theorem Implements.forward (buf : Bytes) : Implements U (r.forward buf) s :=
  h.restate (h.sound.forward buf) ⟨rfl, rfl, rfl, rfl, rfl, rfl, fun _ => rfl⟩ rfl rfl rfl h.mailbox
    h.numbers h.options

theorem Implements.tryAcquire (clientID : Bytes) :
    Implements U (r.tryAcquire clientID).1 (s.tryAcquire clientID).1 ∧
      (r.tryAcquire clientID).2 = (s.tryAcquire clientID).2 := by
  have hsound := h.sound.tryAcquire clientID
  have hmanager : s.options.quotaManager = r.quotaManager := by rw [h.options]; rfl
  unfold Router.tryAcquire at hsound ⊢
  unfold Service.tryAcquire
  rw [hmanager]
  cases hqm : r.quotaManager with
  | none => exact ⟨h, rfl⟩
  | some m =>
    rw [hqm] at hsound
    refine ⟨h.restate hsound ⟨rfl, rfl, rfl, rfl, rfl, rfl, fun _ => rfl⟩ rfl rfl rfl h.mailbox
      h.numbers ?_, rfl⟩
    dsimp only
    rw [h.options]
    rfl

end Implements

theorem sendOrOverflow_put {r : Router} {q : List Message} (hcap : q.length ≤ r.queueSize)
    (idx : Nat) (msg : Message) :
    (r.sendOrOverflow idx q msg).1 = Service.put r.options q msg ∧
      (r.sendOrOverflow idx q msg).2.2.toList =
        if Service.Ends r.options q then [idx] else [] := by
  unfold sendOrOverflow Service.put Service.Ends options
  by_cases hroom : q.length < r.queueSize
  · have hall : (q ++ [msg]).take r.queueSize = q ++ [msg] := by
      refine List.take_of_length_le ?_
      rw [List.length_append, List.length_singleton]
      exact hroom
    have hlast : (q ++ [msg]).rtake r.queueSize = q ++ [msg] := by
      simp [List.rtake, Nat.sub_eq_zero_of_le (show q.length + 1 ≤ r.queueSize from hroom)]
    cases hpolicy : r.policy <;> simp [hroom, hall, hlast]
  · have hfull : q.length = r.queueSize := by omega
    have htake : (q ++ [msg]).take r.queueSize = q := by
      rw [← hfull, List.take_left]
    have hlast : (q ++ [msg]).rtake r.queueSize =
        if q.tail.length < r.queueSize then q.tail ++ [msg] else q.tail := by
      have hdrop : (q ++ [msg]).rtake r.queueSize = (q ++ [msg]).tail := by
        simp [List.rtake, ← hfull]
      rw [hdrop]
      cases q with
      | nil => simp [← hfull]
      | cons m ms => simp [← hfull]
    rw [if_neg hroom]
    unfold handleOverflow
    cases hpolicy : r.policy with
    | dropOldest =>
      dsimp only
      rw [hlast]
      split <;> exact ⟨rfl, rfl⟩
    | dropNewest => simp [htake]
    | disconnect => simp [htake, hfull]

theorem Agree.offer {U : List Bytes} {x : Router × List Nat} {y : Service × List Nat}
    (hxy : Agree U x y) (msg : Message) (p : UInt8) (idx : Nat) :
    Agree U (Router.offer msg p x idx) (Service.deliver msg p y idx) := by
  obtain ⟨r, ended⟩ := x
  obtain ⟨s, ended'⟩ := y
  obtain ⟨h, rfl⟩ : Implements U r s ∧ ended = ended' := ⟨hxy.state, hxy.ended⟩
  unfold Service.deliver
  rw [h.isLive]
  rcases offer_cases msg p (r, ended) idx with ⟨hlive, heq⟩ | ⟨hdead, heq⟩
  · obtain ⟨hput, hends⟩ := sendOrOverflow_put (h.sound.capacity idx (clampLevel p)) idx msg
    obtain ⟨qs, ns, es, -, hframe⟩ := enqueueToSubscriber_frame r idx msg p
    have hlight : Light r (r.enqueueToSubscriber idx msg p).1 := by
      rw [hframe]
      exact ⟨rfl, rfl, rfl, rfl, rfl, rfl, fun _ => rfl⟩
    have hqueue := enqueue_queueAt h.sound hlive msg p
    rw [heq, if_pos hlive]
    refine ⟨h.restate (enqueue_sound h.sound hlive msg p) hlight (by rw [hframe]) rfl rfl ?_
      (by rw [hframe]; exact h.numbers) (by rw [hframe]; exact h.options), ?_⟩
    · intro i l
      rw [hqueue, hput, ← h.options, ← h.mailbox, ← h.mailbox]
      rfl
    · dsimp only
      rw [enqueueToSubscriber_live h.sound hlive, h.mailbox, h.options]
      exact congrArg (ended ++ ·) hends
  · rw [heq, if_neg (by simp [show r.isActive idx = false from hdead])]
    exact hxy

section Dispatch

variable {U : List Bytes} {r : Router} {s : Service} (h : Implements U r s)

include h

theorem Implements.ids {t : Bytes} (ht : t ∈ U) :
    (r.groups (topicHashKey t)).map (·.groupID) = s.groupsOn t := by
  have hfst := congrArg (List.map Prod.fst) (h.groups t ht)
  simpa only [List.map_map, Function.comp_def, List.map_id'] using hfst

theorem Implements.counter {t : Bytes} (ht : t ∈ U) {g : ConsumerGroup}
    (hg : g ∈ r.groups (topicHashKey t)) :
    g.groupID ∈ s.groupsOn t ∧ g.counter = s.turns g.groupID t := by
  have hmem : (g.groupID, g.counter) ∈ (s.groupsOn t).map fun g => (g, s.turns g t) := by
    rw [← h.groups t ht]
    exact List.mem_map_of_mem hg
  obtain ⟨g', hg', heq⟩ := List.mem_map.mp hmem
  obtain ⟨rfl, hcounter⟩ := Prod.mk.inj heq
  exact ⟨hg', hcounter.symm⟩

variable (hfree : CollisionFree U)

include hfree

/-- The groups in the bucket of a known topic are the groups on it. -/
theorem Implements.group_topic {t : Bytes} (ht : t ∈ U) {g : ConsumerGroup}
    (hg : g ∈ r.groups (topicHashKey t)) : g.topic = t := by
  have hok := h.current.indexed.groups _ g hg
  exact hfree _ (h.known _ hok.topic) _ ht hok.hash

theorem Implements.group_members {t : Bytes} (ht : t ∈ U) {g : ConsumerGroup}
    (hg : g ∈ r.groups (topicHashKey t)) : g.members = s.members g.groupID t := by
  rw [h.members, h.current.members _ g hg, rebuild_members h.current.indexed,
    h.group_topic hfree ht hg]

/-- The tables lead to the addressees. -/
theorem Implements.targets {t : Bytes} (ht : t ∈ U) :
    r.targets (topicHashKey t) t = s.addressees t := by
  have hindexed := h.current.indexed
  have hpick : (r.groups (topicHashKey t)).filterMap groupPick =
      (s.groupsOn t).filterMap (s.pick t) := by
    rw [← h.ids ht, List.filterMap_map]
    refine List.filterMap_congr fun g hg => ?_
    unfold groupPick Service.pick
    rw [Function.comp, h.group_members hfree ht hg, (h.counter ht hg).2]
  unfold Router.targets Service.addressees
  rw [hpick, wildcard_slots hindexed, h.slots, h.slots, hindexed.topicIndex]
  congr 1
  refine List.filter_congr fun i hi => decide_eq_decide.mpr (and_congr_right fun _ => ?_)
  have hmem := h.known _ (topicAt_mem hindexed (List.mem_range.mp hi))
  exact ⟨hfree _ hmem _ ht, fun heq => congrArg topicHashKey heq⟩

/-- One message moves the counters of the groups as it moves the turns. -/
theorem Implements.advance {topic : Bytes} (ht : topic ∈ U) :
    Implements U
      { r with
        groups := setKey r.groups (topicHashKey topic)
          ((r.groups (topicHashKey topic)).map groupAdvance) }
      { s with
        turns := fun g t =>
          if t = topic ∧ (s.groupsOn topic).contains g ∧ s.members g topic ≠ [] then s.turns g t + 1
          else s.turns g t } where
  sound := ⟨h.sound.locks, h.sound.slots, h.sound.capacity⟩
  current := by
    refine h.current.light ⟨rfl, rfl, rfl, rfl, rfl, rfl, fun k => ?_⟩
    dsimp only [setKey]
    split
    · next hk =>
      rw [hk, List.map_map]
      exact List.map_congr_left fun g _ => frozen_groupAdvance g
    · rfl
  known := h.known
  subs := h.subs
  mailbox := h.mailbox
  numbers := h.numbers
  groups := by
    intro t htU
    change List.map _ (if topicHashKey t = topicHashKey topic then _ else _) = (s.groupsOn t).map _
    by_cases htopic : t = topic
    · subst htopic
      have hstep : ((r.groups (topicHashKey t)).map groupAdvance).map
          (fun g => (g.groupID, g.counter)) =
          ((r.groups (topicHashKey t)).map fun g => (g.groupID, g.counter)).map
            fun x => (x.1, if s.members x.1 t ≠ [] then x.2 + 1 else x.2) := by
        rw [List.map_map, List.map_map]
        refine List.map_congr_left fun g hg => ?_
        dsimp only [Function.comp, groupAdvance]
        rw [← h.group_members hfree ht hg]
        split <;> simp_all
      rw [if_pos rfl, hstep, h.groups t ht, List.map_map]
      refine List.map_congr_left fun g hg => ?_
      simp [hg]
    · have hhash : topicHashKey t ≠ topicHashKey topic := fun heq => htopic (hfree _ htU _ ht heq)
      rw [if_neg hhash]
      simp only [htopic, false_and, if_false]
      exact h.groups t htU
  fresh := by
    intro t htU g hg
    have hnot : ¬ (t = topic ∧ (s.groupsOn topic).contains g ∧ s.members g topic ≠ []) := by
      rintro ⟨rfl, hmem, -⟩
      exact hg (List.contains_iff_mem.mp hmem)
    dsimp only
    rw [if_neg hnot]
    exact h.fresh t htU g hg
  options := h.options

theorem Implements.number {topic : Bytes} (ht : topic ∈ U) :
    Implements U (r.nextTopicOffset (topicHashKey topic)).1 (s.number topic) ∧
      (r.nextTopicOffset (topicHashKey topic)).2 = s.numbers topic + 1 := by
  refine ⟨h.restate (h.sound.nextTopicOffset _) ⟨rfl, rfl, rfl, rfl, rfl, rfl, fun _ => rfl⟩ rfl rfl
    rfl h.mailbox (fun t htU => ?_) h.options, ?_⟩
  · dsimp only [Service.number, nextTopicOffset, setKey]
    by_cases htopic : t = topic
    · rw [htopic, if_pos rfl, Function.update_self, h.numbers topic ht]
    · have hhash : topicHashKey t ≠ topicHashKey topic := fun heq => htopic (hfree _ htU _ ht heq)
      rw [Function.update_of_ne htopic, if_neg hhash]
      exact h.numbers t htU
  · rw [h.numbers topic ht]
    rfl

end Dispatch

theorem foldl_deliver_frame (msg : Message) (p : UInt8) (ts : List Nat)
    (acc : Service × List Nat) :
    ∃ m, (ts.foldl (Service.deliver msg p) acc).1 = { acc.1 with mailbox := m } := by
  refine List.foldlRecOn ts _ (motive := fun acc' : Service × List Nat =>
    ∃ m, acc'.1 = { acc.1 with mailbox := m }) ⟨_, rfl⟩ fun acc' hacc t _ => ?_
  obtain ⟨m, hm⟩ := hacc
  unfold Service.deliver Service.setMailbox
  split
  · exact ⟨_, by rw [hm]⟩
  · exact ⟨m, hm⟩

section Publish

variable {U : List Bytes} (hfree : CollisionFree U) {r : Router} {s : Service}
  (h : Implements U r s)

include hfree h

theorem Implements.dispatch {topic : Bytes} (ht : topic ∈ U) (msg : Message) (p : UInt8) :
    Agree U (r.dispatch (topicHashKey topic) topic msg p) (s.dispatch topic msg p) := by
  obtain ⟨hfold, hended⟩ : Agree U ((s.addressees topic).foldl (Router.offer msg p) (r, []))
      ((s.addressees topic).foldl (Service.deliver msg p) (s, [])) :=
    List.foldl_rel ⟨h, rfl⟩ fun t _ _ _ hxy => hxy.offer msg p t
  obtain ⟨qs, ns, es, hframe⟩ := foldl_offer_frame msg p (s.addressees topic) (r, [])
  obtain ⟨m, hm⟩ := foldl_deliver_frame msg p (s.addressees topic) (s, [])
  rw [dispatch_eq, h.targets hfree ht]
  refine ⟨?_, hended⟩
  have hadvance := hfold.advance hfree ht
  rw [hm] at hadvance
  dsimp only [Service.dispatch]
  rw [hm]
  rw [hframe] at hadvance ⊢
  exact hadvance

end Publish

/-! ## Subscriptions that end -/

theorem groupsOn_congr {s s' : Service}
    (h : s'.subs.map (fun u => (u.groupID, u.topic)) = s.subs.map fun u => (u.groupID, u.topic))
    (t : Bytes) : s'.groupsOn t = s.groupsOn t := by
  have hnames : ∀ s : Service, s.groupsOn t = (((s.subs.map fun u => (u.groupID, u.topic)).filter
      fun k => k.1 ≠ [] ∧ k.2 = t).map Prod.fst).eraseDups := by
    intro s
    rw [Service.groupsOn, List.filter_map, List.map_map]
    rfl
  rw [hnames, hnames, h]

theorem leave_names (s : Service) (idx : Nat) :
    (s.leave idx).subs.map (fun u => (u.groupID, u.topic)) =
      s.subs.map fun u => (u.groupID, u.topic) := by
  refine List.ext_getElem? fun i => ?_
  rw [Service.leave, List.getElem?_map, List.getElem?_map, List.getElem?_modify]
  cases s.subs[i]? with
  | none => rfl
  | some u => by_cases hi : idx = i <;> simp [hi]

section Leave

variable {U : List Bytes} {r : Router} {s : Service} (h : Implements U r s)

include h

theorem Implements.leave (idx : Nat) : Implements U (r.deactivate idx) (s.leave idx) := by
  have hcurrent := h.current.deactivate idx
  have hgroups := deactivate_groups h.current.indexed idx
  obtain ⟨gs, hframe⟩ := deactivate_frame r idx
  have hsound : (r.deactivate idx).Sound := by
    rw [hframe]
    exact h.sound.congr rfl List.length_set rfl rfl
  refine ⟨hsound, hcurrent, ?_, ?_, ?_, ?_, ?_, ?_, ?_⟩
  · rw [hframe]
    exact h.known
  · have hlen : (r.deactivate idx).active.length = r.active.length := by
      rw [hframe]
      exact List.length_set
    have hslot : ∀ i, (r.deactivate idx).subscription i =
        { r.subscription i with live := r.isActive i && decide (i ≠ idx) } := by
      intro i
      rw [← isActive_set r idx i (r.cancels.set idx true), hframe]
      rfl
    refine List.ext_getElem? fun i => ?_
    rw [Service.leave, List.getElem?_modify, h.subs, subscriptions_getElem?, subscriptions_getElem?,
      hlen, hslot]
    by_cases hi : idx = i
    · by_cases hlt : i < r.active.length <;> simp [hi, hlt]
    · by_cases hlt : i < r.active.length <;> simp [hi, Ne.symm hi, hlt, subscription]
  · rw [hframe]
    exact h.mailbox
  · rw [hframe]
    exact h.numbers
  · intro t ht
    rw [hgroups, groupsOn_congr (leave_names s idx), List.map_map]
    refine Eq.trans (List.map_congr_left fun g _ => ?_) (h.groups t ht)
    dsimp only [Function.comp]
    split <;> rfl
  · intro t ht g hg
    rw [groupsOn_congr (leave_names s idx)] at hg
    exact h.fresh t ht g hg
  · rw [hframe]
    exact h.options

theorem Implements.leave_dead {idx : Nat} (hdead : r.isActive idx = false) : s.leave idx = s := by
  have hsubs : (s.leave idx).subs = s.subs := by
    refine List.ext_getElem? fun i => ?_
    rw [Service.leave, List.getElem?_modify, h.subs, subscriptions_getElem?]
    by_cases hi : idx = i
    · subst hi
      by_cases hlt : idx < r.active.length <;> simp [hlt, subscription, hdead]
    · simp [hi]
  rw [Service.leave] at hsubs ⊢
  exact congrArg (fun subs => { s with subs := subs }) hsubs

theorem Implements.disconnectSubscriber (idx : Nat) :
    Implements U (r.disconnectSubscriber idx) (s.leave idx) := by
  unfold Router.disconnectSubscriber
  split
  · exact h.leave idx
  · next hnot =>
    have hdead : r.isActive idx = false := by
      by_contra hlive
      exact hnot ⟨isActive_lt (by simpa using hlive), by simpa using hlive⟩
    rw [h.leave_dead hdead]
    exact h

end Leave

theorem Agree.leaveAll {U : List Bytes} {x : Router × List Nat} {y : Service × List Nat}
    (h : Agree U x y) : Implements U (Router.disconnectAll x) (Service.leaveAll y) := by
  unfold Router.disconnectAll Service.leaveAll
  rw [← h.ended]
  exact List.foldl_rel h.state fun i _ _ _ hrs => hrs.disconnectSubscriber i

/-! ## Publishing -/

theorem disconnectAll_nobody {r : Router} {topicHash : UInt64} (topic : Bytes)
    (hindex : r.topicIndex topicHash = []) (hwild : r.wildcardSubs = [])
    (hgroups : r.groups topicHash = []) (msg : Message) (p : UInt8) :
    disconnectAll (r.dispatch topicHash topic msg p) = r := by
  have htargets : r.targets topicHash topic = [] := by
    simp only [targets, hindex, hwild, hgroups]
    rfl
  rw [dispatch_nobody htargets hgroups]
  rfl

/-- A frame that was let through, with its buffer forwarded if there are peers. -/
def routeFrame (r : Router) (now : Int64) (f : Frame) (forwards : Bool) : Router :=
  let topic := topicOf now f
  let buf := publishBuf f topic
  let (q, msgOffset) := r.nextTopicOffset (topicHashKey topic)
  disconnectAll ((if forwards then q.forward buf else q).dispatch (topicHashKey topic) topic
    ⟨buf, msgOffset, (r.expiryAndTopic now f.priority f.payload).1⟩ f.priority)

theorem publishWithClientID_routeFrame {r : Router} {f : Frame}
    (hlen : ¬ f.payloadLen > maxPayloadSize) {clientID : Bytes}
    (hok : (r.tryAcquire clientID).2 = true) (now : Int64) :
    r.publishWithClientID now f clientID =
      ((r.tryAcquire clientID).1.routeFrame now f (0 < r.activePeers), none) := by
  have hpeers : (r.tryAcquire clientID).1.activePeers = r.activePeers := by
    obtain ⟨qm, hframe⟩ := tryAcquire_frame r clientID
    rw [hframe]
  unfold publishWithClientID
  rw [if_neg hlen]
  dsimp only
  rw [hok, if_neg (by decide), ← hpeers]
  generalize (r.tryAcquire clientID).1 = q
  rw [expiryAndTopic_eq]
  dsimp only [routeFrame]
  split
  · next hnone =>
    obtain ⟨hindex, hwild, hpeers, hgroups⟩ := hnone
    have hno : decide (0 < q.activePeers) = false := hpeers
    rw [hno]
    exact congrArg (·, none) (disconnectAll_nobody _ hindex hwild hgroups _ _).symm
  · rfl

theorem publishFromPeer_routeFrame {r : Router} {f : Frame}
    (hlen : ¬ f.payloadLen > maxPayloadSize) (now : Int64) :
    r.publishFromPeer now f = (r.routeFrame now f false, none) := by
  have hexp : r.expiryAndTopic now ({ f with command := opcodeOf f.command } : Frame).priority
      f.payload = ((r.expiryAndTopic now f.priority f.payload).1, topicOf now f) :=
    expiryAndTopic_eq r now f
  unfold publishFromPeer publishLocal
  rw [if_neg hlen]
  dsimp only
  rw [hexp]
  dsimp only [routeFrame]
  split
  · next hnone =>
    obtain ⟨hindex, hwild, hgroups⟩ := hnone
    exact congrArg (·, none) (disconnectAll_nobody _ hindex hwild hgroups _ _).symm
  · rfl

theorem routeFrame_forwarded (r : Router) (now : Int64) (f : Frame) (forwards : Bool) :
    (r.routeFrame now f forwards).forwarded.drop r.forwarded.length =
      if forwards then [publishBuf f (topicOf now f)] else [] := by
  unfold routeFrame
  dsimp only
  rw [(disconnectAll_sameTables _).forwarded_eq, (dispatch_sameTables _ _ _ _ _).forwarded_eq]
  cases forwards with
  | true => exact List.drop_left
  | false => exact List.drop_length

section Publish

variable {U : List Bytes} (hfree : CollisionFree U) {r : Router} {s : Service}
  (h : Implements U r s)

include hfree h

theorem Implements.routeFrame {now : Int64} {f : Frame} (ht : topicOf now f ∈ U)
    (forwards : Bool) : Implements U (r.routeFrame now f forwards) (s.postFrame now f) := by
  obtain ⟨hnumber, hoffset⟩ := h.number hfree ht
  have hready : Implements U (if forwards then
      (r.nextTopicOffset (topicHashKey (topicOf now f))).1.forward (publishBuf f (topicOf now f))
      else (r.nextTopicOffset (topicHashKey (topicOf now f))).1) (s.number (topicOf now f)) := by
    cases forwards with
    | true => exact hnumber.forward _
    | false => exact hnumber
  have hexp : Service.expiry s.options now f = (r.expiryAndTopic now f.priority f.payload).1 := by
    rw [h.options]
    rfl
  unfold Router.routeFrame
  dsimp only
  rw [hoffset, ← hexp]
  exact (hready.dispatch hfree ht _ _).leaveAll

theorem Implements.publish {now : Int64} {f : Frame} (clientID : Bytes)
    (ht : topicOf now f ∈ U) :
    Implements U (r.publishWithClientID now f clientID).1 (s.publish now f clientID).1 ∧
      Reply.published (r.publishWithClientID now f clientID).2
          ((r.publishWithClientID now f clientID).1.forwarded.drop r.forwarded.length) =
        (s.publish now f clientID).2 := by
  obtain ⟨hacquire, hgrant⟩ := h.tryAcquire clientID
  obtain ⟨qm, hframe⟩ := tryAcquire_frame r clientID
  have hforwarded : (r.tryAcquire clientID).1.forwarded = r.forwarded := by rw [hframe]
  have hpeers : (r.tryAcquire clientID).1.activePeers = r.activePeers := by rw [hframe]
  unfold Service.publish
  by_cases hlen : f.payloadLen > maxPayloadSize
  · rw [if_pos hlen, publishWithClientID, if_pos hlen]
    exact ⟨h, by simp⟩
  · rw [if_neg hlen]
    dsimp only
    cases hok : (r.tryAcquire clientID).2 with
    | false =>
      rw [publishWithClientID, if_neg hlen]
      dsimp only
      rw [hok, ← hgrant, hok, if_pos rfl, if_pos rfl, hforwarded]
      exact ⟨hacquire, by simp⟩
    | true =>
      rw [publishWithClientID_routeFrame hlen hok, ← hgrant, hok, if_neg (by decide)]
      refine ⟨hacquire.routeFrame hfree ht _, ?_⟩
      dsimp only
      rw [← hforwarded, routeFrame_forwarded, Service.forwarding, hacquire.options]
      simp [Router.options, hpeers]

theorem Implements.publishFromPeer {now : Int64} {f : Frame} (ht : topicOf now f ∈ U) :
    Implements U (r.publishFromPeer now f).1 (s.publishFromPeer now f).1 ∧
      Reply.published (r.publishFromPeer now f).2
          ((r.publishFromPeer now f).1.forwarded.drop r.forwarded.length) =
        (s.publishFromPeer now f).2 := by
  unfold Service.publishFromPeer
  by_cases hlen : f.payloadLen > maxPayloadSize
  · rw [if_pos hlen, Router.publishFromPeer, publishLocal, if_pos hlen]
    exact ⟨h, by simp⟩
  · rw [if_neg hlen, publishFromPeer_routeFrame hlen]
    refine ⟨h.routeFrame hfree ht _, ?_⟩
    dsimp only
    rw [routeFrame_forwarded]
    rfl

theorem Implements.route {now : Int64} {f : Frame} (ht : topicOf now f ∈ U) (buf : Bytes)
    (exp : Int64) :
    Agree U (r.route now f buf exp) (s.post (topicOf now f) f.priority buf exp) := by
  obtain ⟨hnumber, hoffset⟩ := h.number hfree ht
  unfold Router.route Service.post
  dsimp only
  rw [hoffset]
  exact hnumber.dispatch hfree ht _ _

end Publish

def subTopics (now : Int64) (subFrame : Bytes) : List Bytes :=
  match parseFrame subFrame with
  | .error _ => []
  | .ok f => [topicOf now f]

def Action.topics : Action → List Bytes
  | .subscribe _ frame =>
    match parseSubscriptionPayload frame.payload with
    | .error _ => []
    | .ok spec => [spec.topic]
  | .publish now frame _ | .publishFromPeer now frame => [topicOf now frame]
  | .publishBatch now frame => (batchFrames frame.payload).flatMap (subTopics now)
  | .publishSub now subFrame => subTopics now subFrame
  | _ => []

section Batch

variable {U : List Bytes} (hfree : CollisionFree U)

include hfree

theorem Agree.publishSub {x : Router × List Nat} {y : Service × List Nat} (h : Agree U x y)
    {now : Int64} {subFrame : Bytes} (ht : ∀ t ∈ subTopics now subFrame, t ∈ U) :
    Agree U (Router.publishSub now x subFrame) (Service.postSub now y subFrame) := by
  unfold Service.postSub
  cases hparse : parseFrame subFrame with
  | error e =>
    rw [Router.publishSub, hparse]
    exact h
  | ok f =>
    rw [publishSub_eq hparse]
    have hknown : topicOf now f ∈ U := ht _ (by simp [subTopics, hparse])
    obtain ⟨hroute, hdcs⟩ := h.state.route hfree hknown subFrame 0
    exact ⟨hroute, by rw [h.ended, hdcs]⟩

theorem Implements.publishBatch {r : Router} {s : Service} (h : Implements U r s) {now : Int64}
    {f : Frame} (ht : ∀ t ∈ (batchFrames f.payload).flatMap (subTopics now), t ∈ U) :
    Implements U (r.publishBatch now f).1 (s.publishBatch now f).1 ∧
      Reply.published (r.publishBatch now f).2
          ((r.publishBatch now f).1.forwarded.drop r.forwarded.length) =
        (s.publishBatch now f).2 := by
  have htables := batchLoop_sameTables r now f.payload
  have hfold : Agree U ((batchFrames f.payload).foldl (Router.publishSub now) (r, []))
      ((batchFrames f.payload).foldl (Service.postSub now) (s, [])) :=
    List.foldl_rel ⟨h, rfl⟩ fun b hb _ _ hxy =>
      hxy.publishSub hfree fun t hm => ht t (List.mem_flatMap.mpr ⟨b, hb, hm⟩)
  have hall := hfold.leaveAll
  unfold Router.publishBatch Service.publishBatch
  by_cases hlen : f.payloadLen > maxPayloadSize
  · rw [if_pos hlen, if_pos hlen]
    exact ⟨h, by simp⟩
  · rw [if_neg hlen, if_neg hlen]
    have hpeers : s.options.activePeers = r.activePeers := by
      rw [h.options]
      rfl
    have hcompressed : (newRouterWith s.options).compressedBuf f = (Router.disconnectAll
        ((batchFrames f.payload).foldl (Router.publishSub now) (r, []))).compressedBuf f := by
      obtain ⟨_, _, _, _, _, _, _, _, -, heq⟩ := htables
      rw [heq, h.options]
      rfl
    dsimp only [Service.forwarding]
    rw [hpeers, hcompressed]
    by_cases hany : 0 < r.activePeers
    · rw [if_pos (decide_eq_true hany), if_pos hany]
      refine ⟨hall.forward _, ?_⟩
      dsimp only [Router.forward]
      rw [htables.forwarded_eq, List.drop_left]
    · rw [if_neg (by simpa using hany), if_neg hany]
      refine ⟨hall, ?_⟩
      dsimp only
      rw [htables.forwarded_eq, List.drop_length]

end Batch

/-! ## Subscribing -/

theorem eraseDups_concat {α : Type} [BEq α] [LawfulBEq α] (as : List α) (a : α) :
    (as ++ [a]).eraseDups = if a ∈ as.eraseDups then as.eraseDups else as.eraseDups ++ [a] := by
  rw [List.eraseDups_append]
  by_cases ha : a ∈ as
  · simp [ha, List.removeAll]
  · simp [ha, List.removeAll, List.eraseDups_cons]

theorem join_names (s : Service) (streamID : UInt32) (spec : SubscriptionSpec) (t : Bytes) :
    (s.join streamID spec).groupsOn t =
      if spec.groupID ≠ [] ∧ spec.topic = t ∧ spec.groupID ∉ s.groupsOn t then
        s.groupsOn t ++ [spec.groupID]
      else s.groupsOn t := by
  unfold Service.groupsOn Service.join
  rw [List.filter_append, List.map_append]
  by_cases hjoin : spec.groupID ≠ [] ∧ spec.topic = t
  · rw [List.filter_cons_of_pos (by simpa using hjoin), List.filter_nil, List.map_singleton,
      eraseDups_concat]
    split <;> simp_all
  · rw [List.filter_cons_of_neg (by simpa using hjoin), if_neg fun hc => hjoin ⟨hc.1, hc.2.1⟩]
    simp

theorem withGroup_counters (gs : List ConsumerGroup) (spec : SubscriptionSpec) :
    (withGroup gs spec).map (fun g => (g.groupID, g.counter)) =
      gs.map (fun g => (g.groupID, g.counter)) ++
        if spec.groupID ∈ gs.map (·.groupID) then [] else [(spec.groupID, 0)] := by
  have hany : (gs.any fun g => g.groupID = spec.groupID) = true ↔
      spec.groupID ∈ gs.map (·.groupID) := by
    simp
  unfold withGroup
  by_cases hmem : spec.groupID ∈ gs.map (·.groupID)
  · rw [if_pos (hany.mpr hmem), if_pos hmem, List.append_nil]
  · rw [if_neg fun hc => hmem (hany.mp hc), if_neg hmem, List.map_append]
    rfl

section Register

variable {U : List Bytes} {r : Router} {s : Service} (h : Implements U r s)

include h

variable (hfree : CollisionFree U) (stream : Stream) (streamID : UInt32) {spec : SubscriptionSpec}
  (ht : spec.topic ∈ U)

include hfree ht

/-- A new member enters its group, with the turns the group has taken. -/
theorem Implements.register_counters {t : Bytes} (htU : t ∈ U) :
    ((r.register stream streamID spec).1.groups (topicHashKey t)).map
        (fun g => (g.groupID, g.counter)) =
      ((s.join streamID spec).groupsOn t).map fun g => (g, s.turns g t) := by
  rw [register_groups h.current.indexed, join_names]
  by_cases hjoin : spec.groupID ≠ [] ∧ spec.topic = t
  · obtain ⟨hgroup, rfl⟩ := hjoin
    rw [if_pos ⟨hgroup, rfl⟩, List.map_map]
    have hkeep : ∀ gs : List ConsumerGroup, gs.map ((fun g => (g.groupID, g.counter)) ∘ fun g =>
        if g.groupID = spec.groupID then
          (r.register stream streamID spec).1.rebuildGroupMembersLocked g else g) =
        gs.map fun g => (g.groupID, g.counter) := by
      intro gs
      refine List.map_congr_left fun g _ => ?_
      dsimp only [Function.comp]
      split <;> rfl
    rw [hkeep, withGroup_counters, h.ids ht, h.groups _ ht]
    by_cases hold : spec.groupID ∈ s.groupsOn spec.topic
    · rw [if_pos hold, List.append_nil, if_neg fun hc => hc.2.2 hold]
    · rw [if_neg hold, if_pos ⟨hgroup, rfl, hold⟩, List.map_append, List.map_singleton,
        h.fresh _ ht _ hold]
  · have hother : ¬ (spec.groupID ≠ [] ∧ topicHashKey spec.topic = topicHashKey t) := fun hc =>
      hjoin ⟨hc.1, hfree _ ht _ htU hc.2⟩
    rw [if_neg hother, if_neg fun hc => hjoin ⟨hc.1, hc.2.1⟩]
    exact h.groups t htU

theorem Implements.register :
    Implements U (r.register stream streamID spec).1 (s.join streamID spec) := by
  have hindexed := h.current.indexed
  obtain ⟨ti, gs, ws, ds, hframe⟩ := register_frame r stream streamID spec
  refine ⟨register_sound h.sound stream streamID spec, h.current.register stream streamID spec, ?_,
    ?_, ?_, ?_, fun t htU => h.register_counters hfree stream streamID ht htU, ?_, ?_⟩
  · rw [hframe]
    intro t hmem
    rcases List.mem_append.mp hmem with hold | hnew
    · exact h.known t hold
    · rw [List.mem_singleton.mp hnew]
      exact ht
  · have hlen : (r.register stream streamID spec).1.active.length = r.active.length + 1 := by
      rw [hframe]
      simp [appendSlot]
    have hslot : ∀ i, (r.register stream streamID spec).1.subscription i =
        if i = r.active.length then ⟨spec.topic, spec.groupID, streamID, true⟩
        else r.subscription i := by
      intro i
      have hids : (r.streamIDs ++ [streamID]).getD i 0 =
          if i = r.active.length then streamID else r.streamIDs.getD i 0 := by
        rw [getD_concat, hindexed.streamIDs]
      rw [hframe]
      change Subscription.mk ((r.appendSlot stream streamID spec).topicAt i)
        ((r.appendSlot stream streamID spec).groupAt i) ((r.streamIDs ++ [streamID]).getD i 0)
        ((r.appendSlot stream streamID spec).isActive i) = _
      rw [hindexed.topicAt_append, hindexed.groupAt_append, isActive_append, hids]
      split <;> rfl
    rw [Service.join, h.subs, subscriptions, subscriptions, hlen, List.range_succ, List.map_append,
      List.map_singleton, hslot, if_pos rfl]
    refine congrArg (· ++ _) (List.map_congr_left fun i hi => ?_)
    rw [hslot, if_neg (Nat.ne_of_lt (List.mem_range.mp hi))]
  · intro idx level
    rw [hframe]
    refine (h.mailbox idx level).trans ?_
    simp only [queueAt, appendSlot]
    rw [getD_concat]
    split
    · next heq => rw [heq, List.getD_eq_getElem?_getD, List.getElem?_eq_none (Nat.le_refl _)]; rfl
    · rfl
  · rw [hframe]
    exact h.numbers
  · intro t htU g hg
    rw [join_names] at hg
    refine h.fresh t htU g fun hold => hg ?_
    split
    · exact List.mem_append_left _ hold
    · exact hold
  · rw [hframe]
    exact h.options

end Register

/-! ## Unsubscribing -/

theorem foldl_modify_range {α : Type} (f : α → α) (as : List α) (k i : Nat) :
    ((List.range k).foldl (fun l j => l.modify j f) as)[i]? =
      as[i]?.map fun a => if i < k then f a else a := by
  induction k with
  | zero => simp
  | succ k ih =>
    rw [List.range_succ, List.foldl_append, List.foldl_cons, List.foldl_nil, List.getElem?_modify, ih]
    cases as[i]? with
    | none => rfl
    | some a =>
      by_cases hk : k = i
      · simp [hk]
      · have hlt : i < k + 1 ↔ i < k := by omega
        simp [hk, hlt]

/-- What `Unsubscribe` does to one subscription. -/
def unnumber (streamID : UInt32) (u : Subscription) : Subscription :=
  if u.streamID = streamID then { u with live := false } else u

theorem Implements.unsubscribe_slot {U : List Bytes} {r : Router} {s : Service}
    (h : Implements U r s) (streamID : UInt32) (idx : Nat) :
    Implements U (if r.hasNumber streamID idx then r.deactivate idx else r)
      { s with subs := s.subs.modify idx (unnumber streamID) } := by
  have hsubs : ∀ f : Subscription → Subscription,
      (idx < r.active.length → f (r.subscription idx) = unnumber streamID (r.subscription idx)) →
      s.subs.modify idx f = s.subs.modify idx (unnumber streamID) := by
    intro f hf
    refine List.ext_getElem? fun i => ?_
    rw [List.getElem?_modify, List.getElem?_modify, h.subs, subscriptions_getElem?]
    by_cases hi : idx = i
    · subst hi
      by_cases hlt : idx < r.active.length <;> simp [hlt, hf]
    · simp [hi]
  split
  · next hnumber =>
    have hcond := of_decide_eq_true hnumber
    have hends : idx < r.active.length → { r.subscription idx with live := false } =
        unnumber streamID (r.subscription idx) := fun _ => (if_pos hcond.1).symm
    rw [← hsubs (fun u => { u with live := false }) hends]
    exact h.leave idx
  · next hother =>
    have hsame : s.subs.modify idx (unnumber streamID) = s.subs := by
      rw [← hsubs id fun _ => ?_, List.modify_id]
      unfold unnumber
      split
      · next heq =>
        have hdead : r.isActive idx = false := by
          by_contra hlive
          exact hother (decide_eq_true ⟨heq, by simpa using hlive⟩)
        simp [subscription, hdead]
      · rfl
    rw [hsame]
    exact h

theorem Implements.unsubscribe {U : List Bytes} {r : Router} {s : Service} (h : Implements U r s)
    (streamID : UInt32) : Implements U (r.unsubscribe streamID) (s.unsubscribe streamID) := by
  have hfold : ∀ is : List Nat,
      Implements U (is.foldl (fun r i => if r.hasNumber streamID i then r.deactivate i else r) r)
        { s with subs := is.foldl (fun l j => l.modify j (unnumber streamID)) s.subs } := fun is =>
    List.foldl_rel (r := fun r subs => Implements U r { s with subs := subs }) h
      fun i _ _ _ hrs => hrs.unsubscribe_slot streamID i
  have hlen : r.streamIDs.length = s.subs.length := by
    rw [h.subs, h.current.indexed.streamIDs]
    simp [subscriptions]
  have hall : (List.range s.subs.length).foldl (fun l j => l.modify j (unnumber streamID)) s.subs =
      s.subs.map (unnumber streamID) := by
    refine List.ext_getElem? fun i => ?_
    rw [foldl_modify_range, List.getElem?_map]
    by_cases hlt : i < s.subs.length
    · simp [hlt]
    · simp [Nat.le_of_not_lt hlt]
  have hrange := hfold (List.range r.streamIDs.length)
  rw [hlen, hall] at hrange
  rw [Router.unsubscribe, hlen]
  exact hrange

/-! ## Runs -/

section Step

variable {U : List Bytes} {r : Router} {s : Service} (h : Implements U r s)

include h

theorem Implements.fetch (idx : Nat) (level : UInt8) :
    Implements U (r.act (.fetch idx level))
      (s.setMailbox idx level (s.mailbox idx level).tail) := by
  refine h.restate (h.sound.act _) ⟨rfl, rfl, rfl, rfl, rfl, rfl, fun _ => rfl⟩ rfl rfl rfl ?_
    h.numbers h.options
  intro i l
  dsimp only [Service.setMailbox]
  rw [h.mailbox, h.mailbox]
  by_cases hlt : idx < r.queues.length
  · rw [Router.act, queueAt_setQueue_of_lt hlt]
  · have hnone : r.queues[idx]? = none := List.getElem?_eq_none (Nat.le_of_not_lt hlt)
    simp only [Router.act, setQueue, queueAt, List.getD_eq_getElem?_getD, List.getElem?_modify]
    by_cases hi : i = idx
    · simp [hi, hnone]
    · simp [hi, Ne.symm hi]

theorem Implements.drain (idx : Nat) :
    Implements U (r.act (.drain idx))
      { s with mailbox := fun i l => if i = idx then [] else s.mailbox i l } := by
  refine h.restate (h.sound.act _) ⟨rfl, rfl, rfl, rfl, rfl, rfl, fun _ => rfl⟩ rfl rfl rfl ?_
    h.numbers h.options
  intro i l
  dsimp only
  rw [h.mailbox]
  simp only [Router.act, queueAt, List.getD_eq_getElem?_getD, List.getElem?_modify]
  by_cases hi : i = idx
  · subst hi
    cases r.queues[i]? <;> simp
  · simp [hi, Ne.symm hi]

theorem Implements.backfill (idx : Nat) (msg : Message) :
    Implements U (r.act (.backfill idx msg)) (Service.deliver msg priorityNormal (s, []) idx).1 := by
  have hoffer := (Agree.offer (x := (r, [])) (y := (s, [])) ⟨h, rfl⟩ msg priorityNormal idx).1
  rcases offer_cases msg priorityNormal (r, []) idx with ⟨-, heq⟩ | ⟨hdead, heq⟩
  · rw [heq] at hoffer
    exact hoffer
  · rw [heq] at hoffer
    rw [Router.act, enqueueToSubscriber, if_pos (.inr hdead)]
    exact hoffer

theorem Implements.subscribe (hfree : CollisionFree U) (stream : Stream) (frame : Frame)
    (ht : ∀ t ∈ (Action.subscribe stream frame).topics, t ∈ U) :
    Implements U (r.reply (.subscribe stream frame)).1 (s.subscribe frame).1 ∧
      (r.reply (.subscribe stream frame)).2 = (s.subscribe frame).2 := by
  unfold reply Service.subscribe
  cases hspec : parseSubscriptionPayload frame.payload with
  | error e =>
    simp only [Router.act, Router.subscribe, hspec]
    exact ⟨h, trivial⟩
  | ok spec =>
    have hknown : spec.topic ∈ U := ht _ (by simp [Action.topics, hspec])
    simp only [Router.act, subscribe_stages hspec]
    exact ⟨h.register hfree stream frame.streamID hknown, trivial⟩

/-- Calls that touch neither slots, tables, queues nor numbers. -/
theorem Implements.quiet {r' : Router} (hsound : r'.Sound) (hlight : Light r r')
    (hgroups : r'.groups = r.groups) (hqueues : r'.queues = r.queues)
    (hoffsets : r'.topicOffsets = r.topicOffsets) (hoptions : r'.options = r.options) :
    Implements U r' s := by
  refine h.restate hsound hlight hgroups rfl rfl ?_ ?_ (h.options.trans hoptions.symm)
  · intro idx level
    rw [queueAt, hqueues]
    exact h.mailbox idx level
  · rw [hoffsets]
    exact h.numbers

theorem Implements.ackOffset (consumerID topic : Bytes) (offset : UInt64) :
    Implements U (r.ackOffset consumerID topic offset) s := by
  have hsound := ackOffset_sound h.sound consumerID topic offset
  rw [ackOffset_eq] at hsound ⊢
  exact h.quiet hsound ⟨rfl, rfl, rfl, rfl, rfl, rfl, fun _ => rfl⟩ rfl rfl rfl rfl

theorem Implements.nackByStream (streamID : UInt32) (offset : UInt64) :
    Implements U (r.nackByStream streamID offset) s := by
  have hsound := nackByStream_sound h.sound streamID offset
  unfold Router.nackByStream at hsound ⊢
  split
  · exact h
  · next hslot =>
    rw [hslot] at hsound
    exact h.quiet hsound ⟨rfl, rfl, rfl, rfl, rfl, rfl, fun _ => rfl⟩ rfl rfl rfl rfl

theorem Implements.peers (n : Nat) : Implements U { r with activePeers := n }
    { s with options := { s.options with activePeers := n } } := by
  refine h.restate (h.sound.congr rfl rfl rfl rfl) ⟨rfl, rfl, rfl, rfl, rfl, rfl, fun _ => rfl⟩ rfl
    rfl rfl h.mailbox h.numbers ?_
  rw [h.options]
  rfl

/-- One call, until the router is closed. -/
theorem Implements.step (hfree : CollisionFree U) {a : Action} (hopen : a ≠ .close)
    (ht : ∀ t ∈ a.topics, t ∈ U) :
    Implements U (r.reply a).1 (s.step a).1 ∧ (r.reply a).2 = (s.step a).2 := by
  cases a with
  | subscribe stream frame => exact h.subscribe hfree stream frame ht
  | unsubscribe streamID => exact ⟨h.unsubscribe streamID, rfl⟩
  | publish now frame clientID => exact h.publish hfree clientID (ht _ List.mem_cons_self)
  | publishFromPeer now frame => exact h.publishFromPeer hfree (ht _ List.mem_cons_self)
  | publishBatch now frame => exact h.publishBatch hfree ht
  | publishSub now subFrame =>
    exact ⟨(Agree.publishSub hfree (x := (r, [])) (y := (s, [])) ⟨h, rfl⟩ ht).1, rfl⟩
  | disconnect idx => exact ⟨h.disconnectSubscriber idx, rfl⟩
  | ackOffset consumerID topic offset => exact ⟨h.ackOffset consumerID topic offset, rfl⟩
  | nack streamID offset => exact ⟨h.nackByStream streamID offset, rfl⟩
  | close => exact absurd rfl hopen
  | backfill idx msg => exact ⟨h.backfill idx msg, rfl⟩
  | fetch idx level =>
    refine ⟨h.fetch idx level, ?_⟩
    dsimp only [reply, Service.step]
    rw [h.mailbox]
  | drain idx => exact ⟨h.drain idx, rfl⟩
  | peers n => exact ⟨h.peers n, rfl⟩

end Step

/-- **The router is a publish/subscribe service.** Whatever is called, in any
order, until `Close`: as long as the topics in use have different hashes, every
message fetched, every error and every buffer for peers is the one the service
gives, which knows topics and groups by name alone. -/
theorem router_refines_service (o : Options) {as : List Action}
    (hfree : CollisionFree (as.flatMap Action.topics)) (hopen : ∀ a ∈ as, a ≠ .close) :
    (Machine.run reply (newRouterWith o) as).2 = (Machine.run Service.step (.new o) as).2 := by
  refine (Machine.run_simulates_of_mem (R := Implements (as.flatMap Action.topics))
    (p := fun a => a ∈ as) (fun r s a ha h => ?_) (newRouterWith_implements _ o)
    fun a ha => ha).2
  exact h.step hfree (hopen a ha) fun t ht => List.mem_flatMap.mpr ⟨a, ha, ht⟩

/-- Two members of a group and a pattern, and a message for them. -/
def groupAndPattern : List Action :=
  [.subscribe ⟨0, 4⟩ (clientFrame cmdSubscribe 4 "topic:a/b:group:g"),
    .subscribe ⟨0, 8⟩ (clientFrame cmdSubscribe 8 "topic:a/b:group:g"),
    .subscribe ⟨0, 12⟩ (clientFrame cmdSubscribe 12 "topic:a/+"),
    .unsubscribe 4, .publish 0 (clientFrame cmdPublish 0 "a/b") [], .fetch 1 2, .fetch 2 2]

theorem group_and_pattern_served :
    CollisionFree (groupAndPattern.flatMap Action.topics) ∧
      (Machine.run reply (newRouterWith smallOptions) groupAndPattern).2 =
        (Machine.run Service.step (.new smallOptions) groupAndPattern).2 := by
  have hfree : CollisionFree (groupAndPattern.flatMap Action.topics) := by decide +kernel
  refine ⟨hfree, router_refines_service smallOptions hfree fun a ha => ?_⟩
  rintro rfl
  simp [groupAndPattern] at ha

end Router

end Aqueduct.Broker
