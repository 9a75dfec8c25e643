import Aqueduct.Broker.Router

/-!
What publishing does to a router. `SameTables` bounds it: every publish path
keeps the slot arrays that `Subscribe` fills and the routing tables, and only
queues, counters and live flags move. `dispatch_eq` reduces the three dispatch
loops to one fold of `offer` over the slots they visit, and `EnqueuedBy` says
which messages the folds put into queues.
-/

namespace Aqueduct.Broker

open ByteStr Protocol

namespace Router

/-! ## The tables that publishing keeps -/

/-- Live flags that were only cleared. -/
def Shrinks (old new : List Bool) : Prop :=
  new.length = old.length ∧ ∀ i, new.getD i false = true → old.getD i false = true

theorem Shrinks.refl (l : List Bool) : Shrinks l l := ⟨rfl, fun _ h => h⟩

theorem Shrinks.trans {a b c : List Bool} (h : Shrinks a b) (h' : Shrinks b c) : Shrinks a c :=
  ⟨h'.1.trans h.1, fun i hi => h.2 i (h'.2 i hi)⟩

theorem Shrinks.clear (l : List Bool) (idx : Nat) : Shrinks l (l.set idx false) := by
  refine ⟨List.length_set, ?_⟩
  intro i hi
  rw [List.getD_eq_getElem?_getD, List.getElem?_set] at hi
  split at hi
  · split at hi <;> cases hi
  · exact hi

/-- `r'` differs from `r` at most in live flags that were cleared, cancel
handles, queues, notifications, groups, topic offsets, quota tokens and the
enqueue log. -/
def SameTables (r r' : Router) : Prop :=
  ∃ active cancels queues notifyChs groups topicOffsets quotaManager enqueued,
    Shrinks r.active active ∧ r' = { r with
      active := active
      cancels := cancels
      queues := queues
      notifyChs := notifyChs
      groups := groups
      topicOffsets := topicOffsets
      quotaManager := quotaManager
      enqueued := enqueued }

theorem SameTables.refl (r : Router) : SameTables r r := ⟨_, _, _, _, _, _, _, _, .refl _, rfl⟩

theorem SameTables.trans {r r' r'' : Router} (h : SameTables r r') (h' : SameTables r' r'') :
    SameTables r r'' := by
  obtain ⟨_, _, _, _, _, _, _, _, ha, rfl⟩ := h
  obtain ⟨_, _, _, _, _, _, _, _, ha', rfl⟩ := h'
  exact ⟨_, _, _, _, _, _, _, _, ha.trans ha', rfl⟩

theorem SameTables.withForwarded {r r' : Router} (h : SameTables r r') (forwarded : List Bytes) :
    SameTables { r with forwarded := forwarded } { r' with forwarded := forwarded } := by
  obtain ⟨_, _, _, _, _, _, _, _, ha, rfl⟩ := h
  exact ⟨_, _, _, _, _, _, _, _, ha, rfl⟩

section Fields

variable {r r' : Router} (h : SameTables r r')

include h

theorem SameTables.forwarded_eq : r'.forwarded = r.forwarded := by
  obtain ⟨_, _, _, _, _, _, _, _, -, rfl⟩ := h
  rfl

theorem SameTables.priorityTTLs_eq : r'.priorityTTLs = r.priorityTTLs := by
  obtain ⟨_, _, _, _, _, _, _, _, -, rfl⟩ := h
  rfl

theorem SameTables.streamIDs_eq : r'.streamIDs = r.streamIDs := by
  obtain ⟨_, _, _, _, _, _, _, _, -, rfl⟩ := h
  rfl

theorem SameTables.streams_eq : r'.streams = r.streams := by
  obtain ⟨_, _, _, _, _, _, _, _, -, rfl⟩ := h
  rfl

theorem SameTables.active_shrinks : Shrinks r.active r'.active := by
  obtain ⟨_, _, _, _, _, _, _, _, ha, rfl⟩ := h
  exact ha

end Fields

theorem enqueueToSubscriber_sameTables (r : Router) (idx : Nat) (msg : Message) (p : UInt8) :
    SameTables r (r.enqueueToSubscriber idx msg p).1 := by
  unfold enqueueToSubscriber
  dsimp only
  split
  · exact .refl r
  · cases h : (r.sendOrOverflow idx (r.queueAt idx (clampLevel p)) msg).2.1 <;>
      simp only [logEnqueued] <;> exact ⟨_, _, _, _, _, _, _, _, .refl _, rfl⟩

theorem offer_sameTables (msg : Message) (p : UInt8) (acc : Router × List Nat) (idx : Nat) :
    SameTables acc.1 (offer msg p acc idx).1 := by
  unfold offer
  split
  · exact enqueueToSubscriber_sameTables acc.1 idx msg p
  · exact .refl _

theorem foldl_sameTables {α β : Type} (f : Router × β → α → Router × β)
    (hf : ∀ acc a, SameTables acc.1 (f acc a).1) (as : List α) (acc : Router × β) :
    SameTables acc.1 (as.foldl f acc).1 := by
  induction as generalizing acc with
  | nil => exact .refl _
  | cons a as ih => exact (hf acc a).trans (ih _)

theorem deactivate_sameTables (r : Router) (idx : Nat) : SameTables r (r.deactivate idx) := by
  unfold deactivate rebuildGroupsOf
  dsimp only
  split <;> exact ⟨_, _, _, _, _, _, _, _, .clear _ idx, rfl⟩

theorem disconnectSubscriber_sameTables (r : Router) (idx : Nat) :
    SameTables r (r.disconnectSubscriber idx) := by
  unfold disconnectSubscriber
  split
  · exact deactivate_sameTables r idx
  · exact .refl r

theorem disconnectAll_sameTables (acc : Router × List Nat) :
    SameTables acc.1 (disconnectAll acc) := by
  unfold disconnectAll
  generalize acc.1 = r
  induction acc.2 generalizing r with
  | nil => exact .refl r
  | cons i is ih => exact (disconnectSubscriber_sameTables r i).trans (ih _)

/-! ## Dispatch as one fold -/

/-- The slot a group picks, if it has members. -/
def groupPick (g : ConsumerGroup) : Option Nat :=
  if g.members = [] then none else some (g.members.getD (g.counter.toNat % g.members.length) 0)

/-- A group after one message. -/
def groupAdvance (g : ConsumerGroup) : ConsumerGroup :=
  if g.members = [] then g else { g with counter := g.counter + 1 }

/-- The slots a message for `topic` is offered to, in order. -/
def targets (r : Router) (topicHash : UInt64) (topic : Bytes) : List Nat :=
  r.topicIndex topicHash ++
    ((r.wildcardSubs.filter fun w => matchWildcard w.pattern topic).map (·.idx) ++
      (r.groups topicHash).filterMap groupPick)

theorem dispatchWildcards_eq (acc : Router × List Nat) (subs : List WildcardSub) (topic : Bytes)
    (msg : Message) (p : UInt8) :
    dispatchWildcards acc subs topic msg p =
      ((subs.filter fun w => matchWildcard w.pattern topic).map (·.idx)).foldl (offer msg p) acc := by
  rw [dispatchWildcards, List.foldl_map, List.foldl_filter]

theorem dispatchGroups_eq (acc : Router × List Nat) (msg : Message) (p : UInt8)
    (gs : List ConsumerGroup) :
    dispatchGroups acc msg p gs =
      (gs.map groupAdvance, (gs.filterMap groupPick).foldl (offer msg p) acc) := by
  induction gs generalizing acc with
  | nil => rfl
  | cons g gs ih =>
    by_cases hg : g.members = []
    · simp [dispatchGroups, groupPick, groupAdvance, hg, ih]
    · simp [dispatchGroups, groupPick, groupAdvance, hg, ih]

/-- The three dispatch loops offer the message to `targets` in order and
advance the groups of the topic. -/
theorem dispatch_eq (r : Router) (topicHash : UInt64) (topic : Bytes) (msg : Message) (p : UInt8) :
    r.dispatch topicHash topic msg p =
      (let acc := (r.targets topicHash topic).foldl (offer msg p) (r, [])
       let gs := (r.groups topicHash).map groupAdvance
       ({ acc.1 with groups := setKey acc.1.groups topicHash gs }, acc.2)) := by
  simp only [dispatch, dispatchGroups_eq, dispatchWildcards_eq, dispatchExact, targets,
    List.foldl_append]

theorem dispatch_sameTables (r : Router) (topicHash : UInt64) (topic : Bytes) (msg : Message)
    (p : UInt8) : SameTables r (r.dispatch topicHash topic msg p).1 := by
  rw [dispatch_eq]
  exact (foldl_sameTables (offer msg p) (offer_sameTables msg p) _ (r, [])).trans
    ⟨_, _, _, _, _, _, _, _, .refl _, rfl⟩

/-! ## What enters the queues -/

/-- Since `r`, only deliveries that satisfy `P` were enqueued. -/
def EnqueuedBy (P : Delivery → Prop) (r r' : Router) : Prop :=
  ∃ ds, r'.enqueued = r.enqueued ++ ds ∧ ∀ d ∈ ds, P d

theorem EnqueuedBy.of_eq {P : Delivery → Prop} {r r' : Router} (h : r'.enqueued = r.enqueued) :
    EnqueuedBy P r r' :=
  ⟨[], by simp [h], by simp⟩

theorem EnqueuedBy.trans {P : Delivery → Prop} {r r' r'' : Router} (h : EnqueuedBy P r r')
    (h' : EnqueuedBy P r' r'') : EnqueuedBy P r r'' := by
  obtain ⟨ds, he, hd⟩ := h
  obtain ⟨ds', he', hd'⟩ := h'
  refine ⟨ds ++ ds', by rw [he', he, List.append_assoc], fun d hm => ?_⟩
  rcases List.mem_append.mp hm with hm | hm
  exacts [hd d hm, hd' d hm]

theorem EnqueuedBy.mono {P Q : Delivery → Prop} {r r' : Router} (hPQ : ∀ d, P d → Q d)
    (h : EnqueuedBy P r r') : EnqueuedBy Q r r' := by
  obtain ⟨ds, he, hd⟩ := h
  exact ⟨ds, he, fun d hm => hPQ d (hd d hm)⟩

theorem enqueueToSubscriber_enqueuedBy (r : Router) (idx : Nat) (msg : Message) (p : UInt8) :
    EnqueuedBy (·.msg = msg) r (r.enqueueToSubscriber idx msg p).1 := by
  unfold enqueueToSubscriber
  dsimp only
  split
  · exact .of_eq rfl
  · simp only [logEnqueued]
    split
    · exact ⟨[⟨idx, clampLevel p, msg⟩], rfl, by simp⟩
    · exact .of_eq rfl

theorem offer_enqueuedBy (msg : Message) (p : UInt8) (acc : Router × List Nat) (idx : Nat) :
    EnqueuedBy (·.msg = msg) acc.1 (offer msg p acc idx).1 := by
  unfold offer
  split
  · exact enqueueToSubscriber_enqueuedBy acc.1 idx msg p
  · exact .of_eq rfl

theorem foldl_enqueuedBy {α β : Type} {P : Delivery → Prop} (f : Router × β → α → Router × β)
    (as : List α) (hf : ∀ acc, ∀ a ∈ as, EnqueuedBy P acc.1 (f acc a).1) (acc : Router × β) :
    EnqueuedBy P acc.1 (as.foldl f acc).1 := by
  induction as generalizing acc with
  | nil => exact .of_eq rfl
  | cons a as ih =>
    exact (hf acc a (by simp)).trans (ih (fun acc b hb => hf acc b (by simp [hb])) _)

theorem dispatch_enqueuedBy (r : Router) (topicHash : UInt64) (topic : Bytes) (msg : Message)
    (p : UInt8) : EnqueuedBy (·.msg = msg) r (r.dispatch topicHash topic msg p).1 := by
  rw [dispatch_eq]
  exact foldl_enqueuedBy (offer msg p) _ (fun acc a _ => offer_enqueuedBy msg p acc a) (r, [])

theorem disconnectSubscriber_enqueued (r : Router) (idx : Nat) :
    (r.disconnectSubscriber idx).enqueued = r.enqueued := by
  unfold disconnectSubscriber deactivate rebuildGroupsOf
  split
  · dsimp only
    split <;> rfl
  · rfl

theorem disconnectAll_enqueued (acc : Router × List Nat) :
    (disconnectAll acc).enqueued = acc.1.enqueued := by
  unfold disconnectAll
  generalize acc.1 = r
  induction acc.2 generalizing r with
  | nil => rfl
  | cons i is ih => rw [List.foldl_cons, ih, disconnectSubscriber_enqueued]

/-- A sub-frame enqueues itself, and only when it parses. -/
theorem publishSub_enqueuedBy (now : Int64) (acc : Router × List Nat) (subFrame : Bytes) :
    EnqueuedBy (fun d => d.msg.buf = subFrame ∧ ∃ sub, parseFrame subFrame = .ok sub) acc.1
      (publishSub now acc subFrame).1 := by
  unfold publishSub
  split
  · exact .of_eq rfl
  · next sub hsub =>
    dsimp only
    split
    · exact .of_eq rfl
    · refine (dispatch_enqueuedBy _ _ _ _ _).mono fun d hd => ?_
      exact ⟨by rw [hd], sub, hsub⟩

theorem publishBatch_enqueuedBy (r : Router) (now : Int64) (frame : Frame) :
    EnqueuedBy (fun d => d.msg.buf ∈ batchFrames frame.payload ∧
      ∃ sub, parseFrame d.msg.buf = .ok sub) r (r.publishBatch now frame).1 := by
  have hloop : EnqueuedBy (fun d => d.msg.buf ∈ batchFrames frame.payload ∧
      ∃ sub, parseFrame d.msg.buf = .ok sub) r
      ((batchFrames frame.payload).foldl (publishSub now) (r, [])).1 := by
    refine foldl_enqueuedBy (publishSub now) _ (fun acc b hb => ?_) (r, [])
    refine (publishSub_enqueuedBy now acc b).mono fun d hd => ?_
    obtain ⟨rfl, hsub⟩ := hd
    exact ⟨hb, hsub⟩
  unfold publishBatch
  split
  · exact .of_eq rfl
  · dsimp only
    split <;> exact hloop.trans (.of_eq (disconnectAll_enqueued _))

/-! ## The publish paths -/

theorem nextTopicOffset_sameTables (r : Router) (topicHash : UInt64) :
    SameTables r (r.nextTopicOffset topicHash).1 :=
  ⟨_, _, _, _, _, _, _, _, .refl _, rfl⟩

theorem tryAcquire_frame (r : Router) (clientID : Bytes) :
    ∃ qm, r.tryAcquire clientID = ({ r with quotaManager := qm }, (r.tryAcquire clientID).2) := by
  unfold tryAcquire
  split <;> exact ⟨_, rfl⟩

theorem tryAcquire_sameTables (r : Router) (clientID : Bytes) :
    SameTables r (r.tryAcquire clientID).1 := by
  obtain ⟨qm, hacquire⟩ := tryAcquire_frame r clientID
  rw [hacquire]
  exact ⟨_, _, _, _, _, _, _, _, .refl _, rfl⟩

/-- `P` outlives every stage of the publish paths but forwarding. -/
structure KeptByDispatch (P : Router → Prop) : Prop where
  tryAcquire : ∀ {r}, P r → ∀ clientID, P (r.tryAcquire clientID).1
  nextTopicOffset : ∀ {r}, P r → ∀ topicHash, P (r.nextTopicOffset topicHash).1
  dispatch : ∀ {r}, P r → ∀ topicHash topic msg p, P (r.dispatch topicHash topic msg p).1
  disconnectSubscriber : ∀ {r}, P r → ∀ idx, P (r.disconnectSubscriber idx)

namespace KeptByDispatch

variable {P : Router → Prop} (k : KeptByDispatch P)

include k

theorem disconnectAll {acc : Router × List Nat} (h : P acc.1) : P (disconnectAll acc) :=
  List.foldlRecOn acc.2 _ (motive := P) h fun _ hr i _ => k.disconnectSubscriber hr i

theorem publishLocal {r : Router} (h : P r) (now : Int64) (frame : Frame) :
    P (r.publishLocal now frame).1 := by
  unfold Router.publishLocal
  split
  · exact h
  dsimp only
  split
  · exact k.nextTopicOffset h _
  · exact k.disconnectAll (k.dispatch (k.nextTopicOffset h _) _ _ _ _)

theorem publishSub {acc : Router × List Nat} (h : P acc.1) (now : Int64) (subFrame : Bytes) :
    P (publishSub now acc subFrame).1 := by
  unfold Router.publishSub
  split
  · exact h
  dsimp only
  split
  · exact k.nextTopicOffset h _
  · exact k.dispatch (k.nextTopicOffset h _) _ _ _ _

/-- What happens to the router before a batch is forwarded. -/
theorem batchLoop {r : Router} (h : P r) (now : Int64) (payload : Bytes) :
    P (Router.disconnectAll ((batchFrames payload).foldl (Router.publishSub now) (r, []))) :=
  k.disconnectAll (List.foldlRecOn (batchFrames payload) (Router.publishSub now) (b := (r, []))
    (motive := fun acc => P acc.1) h fun _ hacc b _ => k.publishSub hacc now b)

variable (hforward : ∀ {r}, P r → ∀ buf, P (r.forward buf))

include hforward

theorem publishBatch {r : Router} (h : P r) (now : Int64) (frame : Frame) :
    P (r.publishBatch now frame).1 := by
  have hloop := k.batchLoop h now frame.payload
  unfold Router.publishBatch
  split
  · exact h
  dsimp only
  split
  · exact hforward hloop _
  · exact hloop

theorem publishWithClientID {r : Router} (h : P r) (now : Int64) (frame : Frame)
    (clientID : Bytes) : P (r.publishWithClientID now frame clientID).1 := by
  unfold Router.publishWithClientID
  split
  · exact h
  dsimp only
  have hacquire := k.tryAcquire h clientID
  split
  · exact hacquire
  have hnext := k.nextTopicOffset hacquire (topicHashKey
    ((r.tryAcquire clientID).1.expiryAndTopic now frame.priority frame.payload).2)
  split
  · exact hnext
  · refine k.disconnectAll (k.dispatch ?_ _ _ _ _)
    split
    · exact hforward hnext _
    · exact hnext

end KeptByDispatch

theorem sameTables_kept (r : Router) : KeptByDispatch (SameTables r) where
  tryAcquire h clientID := h.trans (tryAcquire_sameTables _ clientID)
  nextTopicOffset h topicHash := h.trans (nextTopicOffset_sameTables _ topicHash)
  dispatch h topicHash topic msg p := h.trans (dispatch_sameTables _ topicHash topic msg p)
  disconnectSubscriber h idx := h.trans (disconnectSubscriber_sameTables _ idx)

/-- The same up to what was forwarded. -/
theorem sameTables_kept_forwarding (r : Router) :
    KeptByDispatch fun r' => ∃ fw, SameTables { r with forwarded := fw } r' where
  tryAcquire := by
    rintro r' ⟨fw, h⟩ clientID
    exact ⟨fw, (sameTables_kept _).tryAcquire h clientID⟩
  nextTopicOffset := by
    rintro r' ⟨fw, h⟩ topicHash
    exact ⟨fw, (sameTables_kept _).nextTopicOffset h topicHash⟩
  dispatch := by
    rintro r' ⟨fw, h⟩ topicHash topic msg p
    exact ⟨fw, (sameTables_kept _).dispatch h topicHash topic msg p⟩
  disconnectSubscriber := by
    rintro r' ⟨fw, h⟩ idx
    exact ⟨fw, (sameTables_kept _).disconnectSubscriber h idx⟩

theorem sameTables_forward {r r' : Router} (h : ∃ fw, SameTables { r with forwarded := fw } r')
    (buf : Bytes) : ∃ fw, SameTables { r with forwarded := fw } (r'.forward buf) := by
  obtain ⟨fw, h⟩ := h
  exact ⟨_, h.withForwarded _⟩

theorem publishLocal_sameTables (r : Router) (now : Int64) (frame : Frame) :
    SameTables r (r.publishLocal now frame).1 :=
  (sameTables_kept r).publishLocal (.refl r) now frame

theorem publishSub_sameTables (now : Int64) (acc : Router × List Nat) (subFrame : Bytes) :
    SameTables acc.1 (publishSub now acc subFrame).1 :=
  (sameTables_kept acc.1).publishSub (.refl acc.1) now subFrame

theorem batchLoop_sameTables (r : Router) (now : Int64) (payload : Bytes) :
    SameTables r (disconnectAll ((batchFrames payload).foldl (publishSub now) (r, []))) :=
  (sameTables_kept r).batchLoop (.refl r) now payload

theorem publishBatch_sameTables (r : Router) (now : Int64) (frame : Frame) :
    ∃ fw, SameTables { r with forwarded := fw } (r.publishBatch now frame).1 :=
  (sameTables_kept_forwarding r).publishBatch sameTables_forward ⟨r.forwarded, .refl r⟩ now frame

theorem publishWithClientID_sameTables (r : Router) (now : Int64) (frame : Frame)
    (clientID : Bytes) :
    ∃ fw, SameTables { r with forwarded := fw } (r.publishWithClientID now frame clientID).1 :=
  (sameTables_kept_forwarding r).publishWithClientID sameTables_forward
    ⟨r.forwarded, .refl r⟩ now frame clientID

/-! ## Forwarding -/

theorem expiryAndTopic_topic (r : Router) (now : Int64) (p : UInt8) (payload : Bytes) :
    (r.expiryAndTopic now p payload).2 = (parsePublishTopic now payload).2 := by
  unfold expiryAndTopic
  split <;> rfl

/-- A publish that is taken goes to the peers once if there are any. -/
theorem publishWithClientID_forwarded (r : Router) (now : Int64) (f : Frame) (clientID : Bytes) :
    (r.publishWithClientID now f clientID).1.forwarded = r.forwarded ++
      if (¬ f.payloadLen > maxPayloadSize ∧ (r.tryAcquire clientID).2 = true) ∧
        0 < r.activePeers then [publishBuf f (parsePublishTopic now f.payload).2] else [] := by
  have hacquire := tryAcquire_sameTables r clientID
  have hpeers : (r.tryAcquire clientID).1.activePeers = r.activePeers := by
    obtain ⟨_, _, _, _, _, _, _, _, -, heq⟩ := hacquire
    rw [heq]
  have hdispatch : ∀ (q : Router) topicHash topic msg p,
      (disconnectAll (q.dispatch topicHash topic msg p)).forwarded = q.forwarded := by
    intro q topicHash topic msg p
    exact ((dispatch_sameTables q topicHash topic msg p).trans
      (disconnectAll_sameTables _)).forwarded_eq
  split
  · next h =>
    obtain ⟨⟨hlen, hgrant⟩, hp⟩ := h
    have hp' : 0 < (r.tryAcquire clientID).1.activePeers := hpeers ▸ hp
    unfold publishWithClientID
    rw [if_neg hlen]
    dsimp only
    rw [expiryAndTopic_topic, hgrant, if_neg (by decide), if_neg (by simp [nextTopicOffset, hp']),
      if_pos (by simp [nextTopicOffset, hp']), hdispatch]
    exact congrArg (· ++ [_]) hacquire.forwarded_eq
  · next h =>
    rw [List.append_nil]
    unfold publishWithClientID
    split
    · rfl
    next hlen =>
    dsimp only
    split
    · exact hacquire.forwarded_eq
    next hgrant =>
    split
    · exact hacquire.forwarded_eq
    · have hp : ¬ 0 < (r.tryAcquire clientID).1.activePeers := by
        rw [hpeers]
        exact fun hp => h ⟨⟨hlen, by simpa using hgrant⟩, hp⟩
      rw [hdispatch]
      split
      · next hc => exact absurd (of_decide_eq_true hc) hp
      · exact hacquire.forwarded_eq

end Router

end Aqueduct.Broker
