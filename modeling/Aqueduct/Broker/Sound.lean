import Aqueduct.Broker.Dispatch
import Aqueduct.Broker.Slots

/-!
Routers as the code builds them: the slot arrays are parallel and no channel
holds more than its capacity. On such routers a call of `enqueueToSubscriber`
changes one queue and nothing a later dispatch reads except that queue. Every
router call keeps the invariant.
-/

namespace Aqueduct.Broker.Router

open ByteStr Protocol

variable {r : Router}

/-- The slot arrays are parallel and no channel holds more than its capacity. -/
structure Sound (r : Router) : Prop where
  locks : r.subMus.length = r.active.length
  slots : r.queues.length = r.active.length
  capacity : ∀ idx level, (r.queueAt idx level).length ≤ r.queueSize

theorem isActive_lt {idx : Nat} (h : r.isActive idx = true) : idx < r.active.length := by
  by_contra hge
  rw [isActive, List.getD_eq_getElem?_getD, List.getElem?_eq_none (by omega)] at h
  cases h

theorem queueAt_setQueue_of_lt {idx : Nat} (h : idx < r.queues.length) (level : UInt8)
    (q : List Message) (i : Nat) (l : UInt8) :
    (r.setQueue idx level q).queueAt i l = if i = idx ∧ l = level then q else r.queueAt i l := by
  simp only [setQueue, queueAt, List.getD_eq_getElem?_getD, List.getElem?_modify]
  by_cases hi : i = idx
  · subst hi
    simp [List.getElem?_eq_getElem h]
  · simp [hi, Ne.symm hi]

theorem setQueue_self (r : Router) (idx : Nat) (level : UInt8) :
    r.setQueue idx level (r.queueAt idx level) = r := by
  have hq : r.queues.modify idx (fun qs l => if l = level then r.queueAt idx level else qs l) =
      r.queues := by
    refine List.ext_getElem? fun i => ?_
    rw [List.getElem?_modify]
    by_cases hi : idx = i
    · subst hi
      cases hqs : r.queues[idx]? with
      | none => rfl
      | some qs =>
        simp only [↓reduceIte, Option.map_eq_map, Option.map_some, Option.some.injEq]
        funext l
        by_cases hl : l = level
        · simp [hl, queueAt, List.getD_eq_getElem?_getD, hqs]
        · simp [hl]
    · simp [hi]
  rw [setQueue, hq]

theorem sendOrOverflow_length_le {idx : Nat} {q : List Message} (msg : Message)
    (h : q.length ≤ r.queueSize) : (r.sendOrOverflow idx q msg).1.length ≤ r.queueSize := by
  unfold sendOrOverflow
  split
  · next hlt =>
    rw [List.length_append, List.length_singleton]
    omega
  · unfold handleOverflow
    split
    · have htail : q.tail.length ≤ r.queueSize := by
        rw [List.length_tail]
        omega
      split
      · next hlt =>
        rw [List.length_append, List.length_singleton]
        omega
      · exact htail
    · exact h
    · exact h

theorem enqueueToSubscriber_live (hr : r.Sound) {idx : Nat} (h : r.isActive idx = true)
    (msg : Message) (p : UInt8) :
    r.enqueueToSubscriber idx msg p =
      (let s := r.sendOrOverflow idx (r.queueAt idx (clampLevel p)) msg
       (((r.setQueue idx (clampLevel p) s.1).logEnqueued ⟨idx, clampLevel p, msg⟩ s.2.1).notify idx,
        s.2.2)) := by
  have hlt := isActive_lt h
  have hcond : ¬ (idx ≥ r.subMus.length ∨ r.isActive idx = false) := by
    rw [hr.locks, h]
    simp [hlt]
  simp only [enqueueToSubscriber, if_neg hcond]

theorem logEnqueued_queues (r : Router) (d : Delivery) (sent : Bool) :
    (r.logEnqueued d sent).queues = r.queues := by
  cases sent <;> rfl

theorem enqueue_queueAt (hr : r.Sound) {idx : Nat} (h : r.isActive idx = true) (msg : Message)
    (p : UInt8) (i : Nat) (l : UInt8) :
    (r.enqueueToSubscriber idx msg p).1.queueAt i l =
      if i = idx ∧ l = clampLevel p then
        (r.sendOrOverflow idx (r.queueAt idx (clampLevel p)) msg).1
      else r.queueAt i l := by
  have hlt : idx < r.queues.length := by
    rw [hr.slots]
    exact isActive_lt h
  rw [enqueueToSubscriber_live hr h, ← queueAt_setQueue_of_lt hlt]
  simp only [queueAt, notify, logEnqueued_queues]

/-! ## What a dispatch leaves alone -/

/-- The data of a router that dispatching and disconnecting never write, as far
as the two paths read it. -/
structure SameControl (r r' : Router) : Prop where
  topicOffsets : r'.topicOffsets = r.topicOffsets
  quotaManager : r'.quotaManager = r.quotaManager
  policy : r'.policy = r.policy
  queueSize : r'.queueSize = r.queueSize

theorem SameControl.refl (r : Router) : SameControl r r := ⟨rfl, rfl, rfl, rfl⟩

theorem SameControl.trans {r' r'' : Router} (h : SameControl r r') (h' : SameControl r' r'') :
    SameControl r r'' :=
  ⟨h'.topicOffsets.trans h.topicOffsets, h'.quotaManager.trans h.quotaManager,
    h'.policy.trans h.policy, h'.queueSize.trans h.queueSize⟩

theorem enqueueToSubscriber_frame (r : Router) (idx : Nat) (msg : Message) (p : UInt8) :
    ∃ queues notifyChs enqueued, queues.length = r.queues.length ∧
      (r.enqueueToSubscriber idx msg p).1 =
        { r with queues := queues, notifyChs := notifyChs, enqueued := enqueued } := by
  unfold enqueueToSubscriber
  dsimp only
  split
  · exact ⟨_, _, _, rfl, rfl⟩
  · dsimp only [logEnqueued]
    split
    · exact ⟨_, _, _, List.length_modify .., rfl⟩
    · exact ⟨_, _, _, List.length_modify .., rfl⟩

theorem enqueue_sound (hr : r.Sound) {idx : Nat} (h : r.isActive idx = true) (msg : Message)
    (p : UInt8) : (r.enqueueToSubscriber idx msg p).1.Sound := by
  obtain ⟨qs, ns, es, hlen, heq⟩ := enqueueToSubscriber_frame r idx msg p
  have hsize : (r.enqueueToSubscriber idx msg p).1.queueSize = r.queueSize := by rw [heq]
  refine ⟨by rw [heq]; exact hr.locks, by rw [heq]; exact hlen.trans hr.slots, fun i l => ?_⟩
  rw [enqueue_queueAt hr h, hsize]
  split
  · exact sendOrOverflow_length_le msg (hr.capacity _ _)
  · exact hr.capacity i l

/-- An offer is a call of `enqueueToSubscriber` when the slot is live, and
nothing otherwise. -/
theorem offer_cases (msg : Message) (p : UInt8) (acc : Router × List Nat) (idx : Nat) :
    (acc.1.isActive idx = true ∧ offer msg p acc idx =
        ((acc.1.enqueueToSubscriber idx msg p).1,
          acc.2 ++ (acc.1.enqueueToSubscriber idx msg p).2.toList)) ∨
      (acc.1.isActive idx = false ∧ offer msg p acc idx = acc) := by
  cases h : acc.1.isActive idx with
  | true => exact .inl ⟨rfl, by simp [offer, isActive_lt h, h]⟩
  | false => exact .inr ⟨rfl, by simp [offer, h]⟩

/-- What one offer keeps, carried through a fold of offers. -/
structure Steady (r r' : Router) : Prop where
  sound : r'.Sound
  control : SameControl r r'
  active : r'.active = r.active

theorem offer_steady {a : Router × List Nat} (h : a.1.Sound) (msg : Message) (p : UInt8)
    (idx : Nat) : Steady a.1 (offer msg p a idx).1 := by
  rcases offer_cases msg p a idx with ⟨hlive, heq⟩ | ⟨-, heq⟩
  · obtain ⟨qs, ns, es, -, hframe⟩ := enqueueToSubscriber_frame a.1 idx msg p
    rw [heq]
    refine ⟨enqueue_sound h hlive msg p, ?_, ?_⟩ <;> rw [hframe]
    exact ⟨rfl, rfl, rfl, rfl⟩
  · rw [heq]
    exact ⟨h, .refl _, rfl⟩

theorem foldl_offer_steady (msg : Message) (p : UInt8) (ts : List Nat) {a : Router × List Nat}
    (h : a.1.Sound) : Steady a.1 (ts.foldl (offer msg p) a).1 := by
  induction ts generalizing a with
  | nil => exact ⟨h, .refl _, rfl⟩
  | cons t ts ih =>
    have hstep := offer_steady h msg p t
    have hrest := ih hstep.sound
    exact ⟨hrest.sound, hstep.control.trans hrest.control, hrest.active.trans hstep.active⟩

theorem dispatch_steady (h : r.Sound) (topicHash : UInt64) (topic : Bytes) (msg : Message)
    (p : UInt8) : Steady r (r.dispatch topicHash topic msg p).1 := by
  rw [dispatch_eq]
  have hfold := foldl_offer_steady msg p (r.targets topicHash topic) (a := (r, [])) h
  exact ⟨⟨hfold.sound.locks, hfold.sound.slots, hfold.sound.capacity⟩,
    ⟨hfold.control.topicOffsets, hfold.control.quotaManager, hfold.control.policy,
      hfold.control.queueSize⟩, hfold.active⟩

theorem disconnectSubscriber_frame (r : Router) (idx : Nat) :
    ∃ active cancels groups, active.length = r.active.length ∧ r.disconnectSubscriber idx =
      { r with active := active, cancels := cancels, groups := groups } := by
  unfold disconnectSubscriber deactivate rebuildGroupsOf
  split
  · dsimp only
    split
    · exact ⟨_, _, _, List.length_set, rfl⟩
    · exact ⟨_, _, _, List.length_set, rfl⟩
  · exact ⟨_, _, _, rfl, rfl⟩

theorem disconnectAll_frame (acc : Router × List Nat) :
    ∃ active cancels groups, active.length = acc.1.active.length ∧ disconnectAll acc =
      { acc.1 with active := active, cancels := cancels, groups := groups } := by
  unfold disconnectAll
  generalize acc.1 = r
  induction acc.2 generalizing r with
  | nil => exact ⟨_, _, _, rfl, rfl⟩
  | cons i is ih =>
    obtain ⟨a, c, g, hlen, heq⟩ := disconnectSubscriber_frame r i
    obtain ⟨a', c', g', hlen', heq'⟩ := ih (r.disconnectSubscriber i)
    refine ⟨a', c', g', ?_, ?_⟩
    · rw [hlen', heq]
      exact hlen
    · rw [List.foldl_cons, heq', heq]

theorem Sound.disconnectSubscriber (h : r.Sound) (idx : Nat) :
    (r.disconnectSubscriber idx).Sound := by
  obtain ⟨a, c, g, hlen, heq⟩ := disconnectSubscriber_frame r idx
  rw [heq]
  exact ⟨h.locks.trans hlen.symm, h.slots.trans hlen.symm, h.capacity⟩

/-! ## Every call keeps a router sound -/

theorem Sound.congr {r' : Router} (h : r.Sound) (hlocks : r'.subMus = r.subMus)
    (hactive : r'.active.length = r.active.length) (hqueues : r'.queues = r.queues)
    (hsize : r'.queueSize = r.queueSize) : r'.Sound := by
  refine ⟨?_, ?_, fun idx level => ?_⟩
  · rw [hlocks, hactive]
    exact h.locks
  · rw [hqueues, hactive]
    exact h.slots
  · rw [queueAt, hqueues, hsize]
    exact h.capacity idx level

theorem sound_of_empty (hsubs : r.subMus = []) (hactive : r.active = []) (hqueues : r.queues = []) :
    r.Sound := by
  refine ⟨by simp [hsubs, hactive], by simp [hqueues, hactive], fun idx level => ?_⟩
  simp [queueAt, hqueues]

theorem newRouter_sound : newRouter.Sound := sound_of_empty rfl rfl rfl

theorem Sound.nextTopicOffset (hr : r.Sound) (topicHash : UInt64) :
    (r.nextTopicOffset topicHash).1.Sound :=
  ⟨hr.locks, hr.slots, hr.capacity⟩

theorem Sound.tryAcquire (h : r.Sound) (clientID : Bytes) : (r.tryAcquire clientID).1.Sound := by
  obtain ⟨qm, hacquire⟩ := tryAcquire_frame r clientID
  rw [hacquire]
  exact h.congr rfl rfl rfl rfl

theorem sound_kept : KeptByDispatch Sound where
  tryAcquire := Sound.tryAcquire
  nextTopicOffset := Sound.nextTopicOffset
  dispatch h topicHash topic msg p := (dispatch_steady h topicHash topic msg p).sound
  disconnectSubscriber := Sound.disconnectSubscriber

theorem Sound.forward (h : r.Sound) (buf : Bytes) : (r.forward buf).Sound :=
  h.congr rfl rfl rfl rfl

theorem publishWithClientID_sound (h : r.Sound) (now : Int64) (f : Frame) (clientID : Bytes) :
    (r.publishWithClientID now f clientID).1.Sound :=
  sound_kept.publishWithClientID Sound.forward h now f clientID

theorem publishLocal_sound (h : r.Sound) (now : Int64) (f : Frame) :
    (r.publishLocal now f).1.Sound :=
  sound_kept.publishLocal h now f

theorem publishSub_sound {acc : Router × List Nat} (h : acc.1.Sound) (now : Int64)
    (subFrame : Bytes) : (publishSub now acc subFrame).1.Sound :=
  sound_kept.publishSub h now subFrame

theorem publishBatch_sound (h : r.Sound) (now : Int64) (f : Frame) :
    (r.publishBatch now f).1.Sound :=
  sound_kept.publishBatch Sound.forward h now f

theorem register_sound (h : r.Sound) (stream : Stream) (streamID : UInt32)
    (spec : SubscriptionSpec) : (r.register stream streamID spec).1.Sound := by
  obtain ⟨ti, gs, ws, ds, heq⟩ := register_frame r stream streamID spec
  have happend : (r.appendSlot stream streamID spec).Sound := by
    refine ⟨by simp [appendSlot, h.locks], by simp [appendSlot, h.slots], fun idx level => ?_⟩
    -- a slot is an old one, or the new one with its empty queues
    have hcap := h.capacity idx level
    simp only [queueAt, appendSlot, List.getD_eq_getElem?_getD, List.getElem?_append] at hcap ⊢
    split
    · exact hcap
    · cases hnew : idx - r.queues.length with
      | zero => simp
      | succ n => simp
  rw [heq]
  exact happend.congr rfl rfl rfl rfl

theorem subscribe_sound (h : r.Sound) (stream : Stream) (f : Frame) :
    (r.subscribe stream f).1.Sound :=
  subscribe_induction stream f h fun spec => register_sound h stream f.streamID spec

theorem unsubscribe_sound (h : r.Sound) (streamID : UInt32) : (r.unsubscribe streamID).Sound := by
  refine List.foldlRecOn _ _ (motive := Sound) h fun s hs i _ => ?_
  split
  · unfold deactivate rebuildGroupsOf
    dsimp only
    split <;> exact hs.congr rfl List.length_set rfl rfl
  · exact hs

theorem ackOffset_sound (h : r.Sound) (consumerID topic : Bytes) (offset : UInt64) :
    (r.ackOffset consumerID topic offset).Sound := by
  refine List.foldlRecOn _ _ (motive := Sound) (h.congr rfl rfl rfl rfl) fun s hs i _ => ?_
  dsimp only
  split
  · exact hs.congr rfl rfl rfl rfl
  · exact hs

theorem nackByStream_sound (h : r.Sound) (streamID : UInt32) (offset : UInt64) :
    (r.nackByStream streamID offset).Sound := by
  unfold nackByStream
  split
  · exact h
  · exact h.congr rfl rfl rfl rfl

end Aqueduct.Broker.Router
