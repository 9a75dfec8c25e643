import Aqueduct.Broker.Tables

/-!
Reachable routers. A router starts empty with any options; then its users call
it and its own goroutines fetch, drain and backfill. Every such action keeps
the tables `Indexed` and the arrays `Sound`.
-/

namespace Aqueduct.Broker.Router

open ByteStr Protocol

variable {r : Router}

/-! ## Publishing -/

theorem offer_frame (msg : Message) (p : UInt8) (acc : Router × List Nat) (idx : Nat) :
    ∃ qs ns es, (offer msg p acc idx).1 =
      { acc.1 with queues := qs, notifyChs := ns, enqueued := es } := by
  rcases offer_cases msg p acc idx with ⟨-, heq⟩ | ⟨-, heq⟩
  · obtain ⟨qs, ns, es, -, hframe⟩ := enqueueToSubscriber_frame acc.1 idx msg p
    exact ⟨qs, ns, es, by rw [heq, hframe]⟩
  · exact ⟨_, _, _, by rw [heq]⟩

theorem foldl_offer_frame (msg : Message) (p : UInt8) (ts : List Nat) (acc : Router × List Nat) :
    ∃ qs ns es, (ts.foldl (offer msg p) acc).1 =
      { acc.1 with queues := qs, notifyChs := ns, enqueued := es } := by
  induction ts generalizing acc with
  | nil => exact ⟨_, _, _, rfl⟩
  | cons t ts ih =>
    obtain ⟨qs, ns, es, hrest⟩ := ih (offer msg p acc t)
    obtain ⟨_, _, _, hfirst⟩ := offer_frame msg p acc t
    exact ⟨qs, ns, es, by rw [List.foldl_cons, hrest, hfirst]⟩

theorem Indexed.dispatch (h : r.Indexed) (topicHash : UInt64) (topic : Bytes) (msg : Message)
    (p : UInt8) : (r.dispatch topicHash topic msg p).1.Indexed := by
  obtain ⟨qs, ns, es, hframe⟩ := foldl_offer_frame msg p (r.targets topicHash topic) (r, [])
  rw [dispatch_eq]
  dsimp only
  rw [hframe]
  exact (h.advance topicHash).congr rfl rfl rfl rfl rfl rfl rfl

theorem Indexed.disconnectSubscriber (h : r.Indexed) (idx : Nat) :
    (r.disconnectSubscriber idx).Indexed := by
  unfold Router.disconnectSubscriber
  split
  · exact h.deactivate idx
  · exact h

theorem Indexed.nextTopicOffset (h : r.Indexed) (topicHash : UInt64) :
    (r.nextTopicOffset topicHash).1.Indexed :=
  h.congr rfl rfl rfl rfl rfl rfl rfl

theorem Indexed.tryAcquire (h : r.Indexed) (clientID : Bytes) :
    (r.tryAcquire clientID).1.Indexed := by
  obtain ⟨qm, hacquire⟩ := tryAcquire_frame r clientID
  rw [hacquire]
  exact h.congr rfl rfl rfl rfl rfl rfl rfl

theorem indexed_kept : KeptByDispatch Indexed where
  tryAcquire := Indexed.tryAcquire
  nextTopicOffset := Indexed.nextTopicOffset
  dispatch := Indexed.dispatch
  disconnectSubscriber := Indexed.disconnectSubscriber

theorem Indexed.forward (h : r.Indexed) (buf : Bytes) : (r.forward buf).Indexed :=
  h.congr rfl rfl rfl rfl rfl rfl rfl

/-! ## The other calls -/

theorem Indexed.unsubscribe (h : r.Indexed) (streamID : UInt32) :
    (r.unsubscribe streamID).Indexed := by
  refine List.foldlRecOn _ _ (motive := Indexed) h fun s hs i _ => ?_
  split
  · exact hs.deactivate i
  · exact hs

theorem Indexed.ackOffset (h : r.Indexed) (consumerID topic : Bytes) (offset : UInt64) :
    (r.ackOffset consumerID topic offset).Indexed := by
  refine List.foldlRecOn _ _ (motive := Indexed) (h.congr rfl rfl rfl rfl rfl rfl rfl)
    fun s hs i _ => ?_
  dsimp only
  split
  · exact hs.congr rfl rfl rfl rfl rfl rfl rfl
  · exact hs

theorem Indexed.nackByStream (h : r.Indexed) (streamID : UInt32) (offset : UInt64) :
    (r.nackByStream streamID offset).Indexed := by
  unfold Router.nackByStream
  split
  · exact h
  · exact h.congr rfl rfl rfl rfl rfl rfl rfl

theorem isActive_close (r : Router) (idx : Nat) : r.close.isActive idx = false := by
  simp only [isActive, close, List.getD_eq_getElem?_getD, List.getElem?_map]
  cases r.active[idx]? <;> rfl

theorem Indexed.close (h : r.Indexed) : r.close.Indexed := by
  have hlen : r.close.active.length = r.active.length := List.length_map ..
  refine ⟨h.streamIDs.trans hlen.symm, h.topics.trans hlen.symm, h.subGroups.trans hlen.symm,
    fun k => ?_, ?_, fun k cg hcg => ?_, h.nodup, ?_⟩
  · rw [hlen]
    exact h.topicIndex k
  · rw [hlen]
    exact h.wildcardSubs
  · have hok := h.groups k cg hcg
    refine ⟨hok.named, hok.hash, hok.topic, hok.members, ?_⟩
    rintro ⟨i, hi, -⟩
    rw [isActive_close] at hi
    cases hi
  · rw [hlen]
    exact h.covered

/-! ## Reachable routers -/

structure Options where
  quotaManager : Option Quotas.Manager
  aalPath : Bytes
  activePeers : Nat
  queueSize : Nat
  policy : BackpressurePolicy
  priorityTTLs : UInt8 → Int64
  compress : Option (Bytes → Option Bytes)
  compressionMinSize : Int

def newRouterWith (o : Options) : Router :=
  { newRouter with
    quotaManager := o.quotaManager
    aalPath := o.aalPath
    activePeers := o.activePeers
    queueSize := o.queueSize
    policy := o.policy
    priorityTTLs := o.priorityTTLs
    compress := o.compress
    compressionMinSize := o.compressionMinSize }

/-- What can happen to a router: the calls of its users, and the steps of its
own goroutines. -/
inductive Action
  | subscribe (stream : Stream) (frame : Frame)
  | unsubscribe (streamID : UInt32)
  | publish (now : Int64) (frame : Frame) (clientID : Bytes)
  | publishFromPeer (now : Int64) (frame : Frame)
  | publishBatch (now : Int64) (frame : Frame)
  /-- One sub-frame of a batch; the batch disconnects slow consumers later. -/
  | publishSub (now : Int64) (subFrame : Bytes)
  | disconnect (idx : Nat)
  | ackOffset (consumerID topic : Bytes) (offset : UInt64)
  | nack (streamID : UInt32) (offset : UInt64)
  | close
  /-- A backfill worker enqueues. -/
  | backfill (idx : Nat) (msg : Message)
  /-- A writer takes a message from a queue. -/
  | fetch (idx : Nat) (level : UInt8)
  /-- A writer ends and drops what is queued. -/
  | drain (idx : Nat)
  /-- The number of active peers changes. -/
  | peers (n : Nat)

def act (r : Router) : Action → Router
  | .subscribe stream frame => (r.subscribe stream frame).1
  | .unsubscribe streamID => r.unsubscribe streamID
  | .publish now frame clientID => (r.publishWithClientID now frame clientID).1
  | .publishFromPeer now frame => (r.publishFromPeer now frame).1
  | .publishBatch now frame => (r.publishBatch now frame).1
  | .publishSub now subFrame => (publishSub now (r, []) subFrame).1
  | .disconnect idx => r.disconnectSubscriber idx
  | .ackOffset consumerID topic offset => r.ackOffset consumerID topic offset
  | .nack streamID offset => r.nackByStream streamID offset
  | .close => r.close
  | .backfill idx msg => (r.enqueueToSubscriber idx msg priorityNormal).1
  | .fetch idx level => r.setQueue idx level (r.queueAt idx level).tail
  | .drain idx => { r with queues := r.queues.modify idx fun _ _ => [] }
  | .peers n => { r with activePeers := n }

inductive Reachable : Router → Prop
  | new (o : Options) : Reachable (newRouterWith o)
  | act {r : Router} (a : Action) : Reachable r → Reachable (r.act a)

theorem newRouterWith_indexed (o : Options) : (newRouterWith o).Indexed := by
  refine ⟨rfl, rfl, rfl, fun _ => rfl, rfl, fun h cg hcg => ?_, fun _ => List.nodup_nil, ?_⟩
  · cases hcg
  · intro i hi
    cases hi

theorem Indexed.act (h : r.Indexed) (a : Action) : (r.act a).Indexed := by
  cases a with
  | subscribe stream frame => exact h.subscribe stream frame
  | unsubscribe streamID => exact h.unsubscribe streamID
  | publish now frame clientID =>
    exact indexed_kept.publishWithClientID Indexed.forward h now frame clientID
  | publishFromPeer now frame => exact indexed_kept.publishLocal h now _
  | publishBatch now frame => exact indexed_kept.publishBatch Indexed.forward h now frame
  | publishSub now subFrame =>
    refine indexed_kept.publishSub ?_ now subFrame
    exact h
  | disconnect idx => exact h.disconnectSubscriber idx
  | ackOffset consumerID topic offset => exact h.ackOffset consumerID topic offset
  | nack streamID offset => exact h.nackByStream streamID offset
  | close => exact h.close
  | backfill idx msg =>
    obtain ⟨_, _, _, -, hframe⟩ := enqueueToSubscriber_frame r idx msg priorityNormal
    rw [Router.act, hframe]
    exact h.congr rfl rfl rfl rfl rfl rfl rfl
  | fetch idx level => exact h.congr rfl rfl rfl rfl rfl rfl rfl
  | drain idx => exact h.congr rfl rfl rfl rfl rfl rfl rfl
  | peers n => exact h.congr rfl rfl rfl rfl rfl rfl rfl

theorem Sound.modify (h : r.Sound) {idx : Nat} {f : Queues → Queues}
    (hf : ∀ level, (f (r.queues.getD idx fun _ => []) level).length ≤ r.queueSize) :
    { r with queues := r.queues.modify idx f }.Sound := by
  refine ⟨h.locks, (List.length_modify ..).trans h.slots, fun i level => ?_⟩
  have hcap := h.capacity i level
  simp only [queueAt, List.getD_eq_getElem?_getD, List.getElem?_modify] at hcap hf ⊢
  by_cases hi : idx = i
  · subst hi
    cases hq : r.queues[idx]? with
    | none => simp
    | some qs => simpa [hq] using hf level
  · simpa [hi] using hcap

theorem Sound.act (h : r.Sound) (a : Action) : (r.act a).Sound := by
  cases a with
  | subscribe stream frame => exact subscribe_sound h stream frame
  | unsubscribe streamID => exact unsubscribe_sound h streamID
  | publish now frame clientID => exact publishWithClientID_sound h now frame clientID
  | publishFromPeer now frame => exact publishLocal_sound h now _
  | publishBatch now frame => exact publishBatch_sound h now frame
  | publishSub now subFrame =>
    refine publishSub_sound ?_ now subFrame
    exact h
  | disconnect idx => exact h.disconnectSubscriber idx
  | ackOffset consumerID topic offset => exact ackOffset_sound h consumerID topic offset
  | nack streamID offset => exact nackByStream_sound h streamID offset
  | close => exact h.congr rfl (List.length_map ..) rfl rfl
  | backfill idx msg =>
    cases hlive : r.isActive idx with
    | true => exact enqueue_sound h hlive msg priorityNormal
    | false =>
      rw [Router.act, enqueueToSubscriber, if_pos (.inr hlive)]
      exact h
  | fetch idx level =>
    refine h.modify fun l => ?_
    have hcap := h.capacity idx level
    split
    · rw [List.length_tail]
      omega
    · exact h.capacity idx l
  | drain idx => exact h.modify fun _ => Nat.zero_le _
  | peers n => exact h.congr rfl rfl rfl rfl

theorem Reachable.sound (h : Reachable r) : r.Sound := by
  induction h with
  | new o => exact sound_of_empty rfl rfl rfl
  | act a _ ih => exact ih.act a

theorem Reachable.indexed (h : Reachable r) : r.Indexed := by
  induction h with
  | new o => exact newRouterWith_indexed o
  | act a _ ih => exact ih.act a

/-! ## Slots over time -/

/-- Slots are only ever appended: each keeps its topic and its group. -/
structure Grows (r r' : Router) : Prop where
  topics : r.topics <+: r'.topics
  subGroups : r.subGroups <+: r'.subGroups

theorem Grows.of_eq {r' : Router} (ht : r'.topics = r.topics) (hg : r'.subGroups = r.subGroups) :
    Grows r r' :=
  ⟨ht ▸ List.prefix_rfl, hg ▸ List.prefix_rfl⟩

theorem Grows.trans {r' r'' : Router} (h : Grows r r') (h' : Grows r' r'') : Grows r r'' :=
  ⟨h.topics.trans h'.topics, h.subGroups.trans h'.subGroups⟩

theorem SameTables.grows {r' : Router} (h : SameTables r r') : Grows r r' := by
  obtain ⟨_, _, _, _, _, _, _, _, -, rfl⟩ := h
  exact .of_eq rfl rfl

theorem register_grows (r : Router) (stream : Stream) (streamID : UInt32)
    (spec : SubscriptionSpec) : Grows r (r.register stream streamID spec).1 := by
  obtain ⟨_, _, _, _, h⟩ := register_frame r stream streamID spec
  rw [h]
  exact ⟨List.prefix_append .., List.prefix_append ..⟩

theorem subscribe_grows (r : Router) (stream : Stream) (frame : Frame) :
    Grows r (r.subscribe stream frame).1 :=
  subscribe_induction (P := Grows r) stream frame (.of_eq rfl rfl) fun spec =>
    register_grows r stream frame.streamID spec

theorem grows_act (r : Router) (a : Action) : Grows r (r.act a) := by
  cases a with
  | subscribe stream frame => exact subscribe_grows r stream frame
  | unsubscribe streamID =>
    refine List.foldlRecOn _ _ (motive := Grows r) (.of_eq rfl rfl) fun s hs i _ => ?_
    split
    · exact hs.trans (deactivate_sameTables s i).grows
    · exact hs
  | publish now frame clientID =>
    obtain ⟨fw, h⟩ := publishWithClientID_sameTables r now frame clientID
    exact ⟨h.grows.topics, h.grows.subGroups⟩
  | publishFromPeer now frame => exact (publishLocal_sameTables r now _).grows
  | publishBatch now frame =>
    obtain ⟨fw, h⟩ := publishBatch_sameTables r now frame
    exact ⟨h.grows.topics, h.grows.subGroups⟩
  | publishSub now subFrame => exact (publishSub_sameTables now (r, []) subFrame).grows
  | disconnect idx => exact (disconnectSubscriber_sameTables r idx).grows
  | ackOffset consumerID topic offset =>
    refine List.foldlRecOn _ _ (motive := Grows r) (.of_eq rfl rfl) fun s hs i _ => ?_
    dsimp only
    split
    · exact hs.trans (.of_eq rfl rfl)
    · exact hs
  | nack streamID offset =>
    rw [act, nackByStream]
    split <;> exact .of_eq rfl rfl
  | close => exact .of_eq rfl rfl
  | backfill idx msg => exact (enqueueToSubscriber_sameTables r idx msg priorityNormal).grows
  | fetch idx level => exact .of_eq rfl rfl
  | drain idx => exact .of_eq rfl rfl
  | peers n => exact .of_eq rfl rfl

theorem getD_of_prefix {α : Type} {as bs : List α} (h : as <+: bs) {i : Nat} (hi : i < as.length)
    (d : α) : bs.getD i d = as.getD i d := by
  obtain ⟨cs, rfl⟩ := h
  rw [List.getD_eq_getElem?_getD, List.getD_eq_getElem?_getD, List.getElem?_append_left hi]

theorem Grows.topicAt {r' : Router} (h : Grows r r') (hr : r.Indexed) {idx : Nat}
    (hidx : idx < r.active.length) : r'.topicAt idx = r.topicAt idx :=
  getD_of_prefix h.topics (by rw [hr.topics]; exact hidx) _

theorem Grows.groupAt {r' : Router} (h : Grows r r') (hr : r.Indexed) {idx : Nat}
    (hidx : idx < r.active.length) : r'.groupAt idx = r.groupAt idx :=
  getD_of_prefix h.subGroups (by rw [hr.subGroups]; exact hidx) _

/-- What a router keeps through every step. -/
structure Evolves (r r' : Router) : Prop where
  grows : Grows r r'
  sound : r.Sound → r'.Sound
  indexed : r.Indexed → r'.Indexed

theorem Evolves.refl (r : Router) : Evolves r r := ⟨.of_eq rfl rfl, id, id⟩

theorem Evolves.trans {r' r'' : Router} (h : Evolves r r') (h' : Evolves r' r'') : Evolves r r'' :=
  ⟨h.grows.trans h'.grows, h'.sound ∘ h.sound, h'.indexed ∘ h.indexed⟩

theorem evolves_act (r : Router) (a : Action) : Evolves r (r.act a) :=
  ⟨grows_act r a, fun h => h.act a, fun h => h.act a⟩

theorem evolves_register (r : Router) (stream : Stream) (streamID : UInt32)
    (spec : SubscriptionSpec) : Evolves r (r.register stream streamID spec).1 :=
  ⟨register_grows r stream streamID spec, fun h => register_sound h stream streamID spec,
    fun h => h.register stream streamID spec⟩

/-- Slot `idx` is an individual subscription to `filter`, live or not. -/
structure Individual (r : Router) (idx : Nat) (filter : Bytes) : Prop where
  sound : r.Sound
  indexed : r.Indexed
  slot : idx < r.active.length
  topic : r.topicAt idx = filter
  group : r.groupAt idx = []

theorem Individual.evolves {r' : Router} {idx : Nat} {filter : Bytes} (h : Individual r idx filter)
    (he : Evolves r r') : Individual r' idx filter where
  sound := he.sound h.sound
  indexed := he.indexed h.indexed
  slot := by
    have hle := he.grows.topics.length_le
    rw [h.indexed.topics, (he.indexed h.indexed).topics] at hle
    exact Nat.lt_of_lt_of_le h.slot hle
  topic := (he.grows.topicAt h.indexed h.slot).trans h.topic
  group := (he.grows.groupAt h.indexed h.slot).trans h.group

theorem individual_register (hs : r.Sound) (hi : r.Indexed) (stream : Stream) (streamID : UInt32)
    {spec : SubscriptionSpec} (hgroup : spec.groupID = []) :
    Individual (r.register stream streamID spec).1 r.streamIDs.length spec.topic ∧
      (r.register stream streamID spec).2 = spec.requestedOffset := by
  obtain ⟨_, _, _, _, heq⟩ := register_frame r stream streamID spec
  refine ⟨⟨register_sound hs .., hi.register .., ?_, ?_, ?_⟩, ?_⟩
  · rw [heq, hi.streamIDs]
    simp [appendSlot]
  · rw [heq, hi.streamIDs]
    exact (hi.topicAt_append stream streamID spec _).trans (if_pos rfl)
  · rw [heq, hi.streamIDs]
    exact ((hi.groupAt_append stream streamID spec _).trans (if_pos rfl)).trans hgroup
  · simp [register, registerSlot, hgroup]

end Aqueduct.Broker.Router
