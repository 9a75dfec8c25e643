import Aqueduct.Broker.Reachable

/-!
The slot arrays and the routing tables of a reachable router. A slot is an index
into ten parallel arrays and an entry in the hash index, in the wildcard list or
in a consumer group; four calls write them, each a different part.
`tables_invariant` says that they agree after any calls, and that a slot which
ended never comes back.
-/

namespace Aqueduct.Broker.Router

open ByteStr Protocol

variable {r : Router}

/-! ## Lengths -/

def widths (r : Router) : List Nat :=
  [r.streamIDs.length, r.streams.length, r.topics.length, r.active.length, r.queues.length,
    r.notifyChs.length, r.subMus.length, r.nackChs.length, r.cancels.length, r.subGroups.length]

/-- All per-slot arrays have the same length. -/
def Parallel (r : Router) : Prop := ∀ n ∈ r.widths, n = r.active.length

theorem Parallel.of_widths {r' : Router} (h : r.Parallel) (hw : r'.widths = r.widths) :
    r'.Parallel := by
  have hactive : r'.active.length = r.active.length := congrArg (·.getD 3 0) hw
  intro n hn
  rw [hw] at hn
  rw [hactive]
  exact h n hn

theorem Parallel.cancels (h : r.Parallel) : r.cancels.length = r.active.length :=
  h _ (by simp [widths])

theorem enqueueToSubscriber_widths (r : Router) (idx : Nat) (msg : Message) (p : UInt8) :
    (r.enqueueToSubscriber idx msg p).1.widths = r.widths := by
  unfold enqueueToSubscriber
  dsimp only
  split
  · rfl
  · dsimp only [logEnqueued]
    split <;> simp [widths, notify, setQueue]

theorem deactivate_widths (r : Router) (idx : Nat) : (r.deactivate idx).widths = r.widths := by
  obtain ⟨gs, hframe⟩ := deactivate_frame r idx
  rw [hframe]
  simp [widths]

theorem widths_kept (w : List Nat) : KeptByDispatch (·.widths = w) where
  tryAcquire := by
    intro r h clientID
    obtain ⟨qm, hframe⟩ := tryAcquire_frame r clientID
    rw [hframe]
    exact h
  nextTopicOffset h _ := h
  dispatch := by
    intro r h topicHash topic msg p
    rw [dispatch_eq]
    refine List.foldlRecOn (r.targets topicHash topic) (offer msg p) (b := (r, []))
      (motive := fun acc => acc.1.widths = w) h fun acc hacc idx _ => ?_
    rcases offer_cases msg p acc idx with ⟨-, heq⟩ | ⟨-, heq⟩
    · rw [heq]
      exact (enqueueToSubscriber_widths acc.1 idx msg p).trans hacc
    · rw [heq]
      exact hacc
  disconnectSubscriber := by
    intro r h idx
    unfold Router.disconnectSubscriber
    split
    · exact (deactivate_widths r idx).trans h
    · exact h

theorem Parallel.register (h : r.Parallel) (stream : Stream) (streamID : UInt32)
    (spec : SubscriptionSpec) : (r.register stream streamID spec).1.Parallel := by
  obtain ⟨ti, gs, ws, ds, hframe⟩ := register_frame r stream streamID spec
  have hwidths : (r.register stream streamID spec).1.widths = r.widths.map (· + 1) := by
    rw [hframe]
    simp [widths, appendSlot]
  have hactive : (r.register stream streamID spec).1.active.length = r.active.length + 1 := by
    rw [hframe]
    simp [appendSlot]
  intro n hn
  rw [hwidths] at hn
  obtain ⟨m, hm, rfl⟩ := List.mem_map.mp hn
  rw [hactive, h m hm]

theorem Parallel.close (h : r.Parallel) : r.close.Parallel := by
  refine h.of_widths ?_
  simp [widths, Router.close, h.cancels]

theorem Parallel.act (h : r.Parallel) (a : Action) : (r.act a).Parallel := by
  cases a with
  | subscribe stream frame =>
    exact subscribe_induction (P := Parallel) stream frame h fun spec =>
      h.register stream frame.streamID spec
  | unsubscribe streamID =>
    refine List.foldlRecOn _ _ (motive := Parallel) h fun s hs i _ => ?_
    split
    · exact hs.of_widths (deactivate_widths s i)
    · exact hs
  | publish now frame clientID =>
    exact h.of_widths ((widths_kept r.widths).publishWithClientID (fun hr _ => hr) rfl now frame
      clientID)
  | publishFromPeer now frame =>
    exact h.of_widths ((widths_kept r.widths).publishLocal rfl now _)
  | publishBatch now frame =>
    exact h.of_widths ((widths_kept r.widths).publishBatch (fun hr _ => hr) rfl now frame)
  | publishSub now subFrame =>
    refine h.of_widths ((widths_kept r.widths).publishSub ?_ now subFrame)
    rfl
  | disconnect idx => exact h.of_widths ((widths_kept r.widths).disconnectSubscriber rfl idx)
  | ackOffset consumerID topic offset =>
    rw [Router.act, ackOffset_eq]
    exact h
  | nack streamID offset =>
    rw [Router.act, nackByStream]
    split
    · exact h
    · exact h.of_widths (by simp [widths])
  | close => exact h.close
  | backfill idx msg => exact h.of_widths (enqueueToSubscriber_widths r idx msg priorityNormal)
  | fetch idx level => exact h.of_widths (by simp [Router.act, widths, setQueue])
  | drain idx => exact h.of_widths (by simp [Router.act, widths])
  | peers n => exact h

theorem Reachable.parallel (h : Reachable r) : r.Parallel := by
  induction h with
  | new o => simp [Parallel, widths, newRouterWith, newRouter]
  | act a _ ih => exact ih.act a

/-! ## Slots that ended -/

def Ended (r : Router) (i : Nat) : Prop := i < r.active.length ∧ r.isActive i = false

theorem Ended.of_shrinks {r' : Router} {i : Nat} (h : r.Ended i) (hs : Shrinks r.active r'.active) :
    r'.Ended i := by
  obtain ⟨hlen, hlive⟩ := hs
  refine ⟨hlen ▸ h.1, Bool.eq_false_iff.mpr fun hi => ?_⟩
  exact absurd (hlive i hi) (Bool.eq_false_iff.mp h.2)

theorem Ended.register {i : Nat} (h : r.Ended i) (stream : Stream) (streamID : UInt32)
    (spec : SubscriptionSpec) : (r.register stream streamID spec).1.Ended i := by
  obtain ⟨ti, gs, ws, ds, hframe⟩ := register_frame r stream streamID spec
  obtain ⟨hlt, hdead⟩ := h
  rw [hframe]
  refine ⟨?_, ?_⟩
  · simp only [appendSlot, List.length_append, List.length_singleton]
    omega
  · refine (isActive_append stream streamID spec i).trans ?_
    rw [if_neg (by omega)]
    exact hdead

theorem Ended.act {i : Nat} (h : r.Ended i) (a : Action) : (r.act a).Ended i := by
  cases a with
  | subscribe stream frame =>
    exact subscribe_induction (P := (·.Ended i)) stream frame h fun spec =>
      h.register stream frame.streamID spec
  | unsubscribe streamID =>
    refine List.foldlRecOn _ _ (motive := (Ended · i)) h fun s hs j _ => ?_
    split
    · exact hs.of_shrinks (deactivate_sameTables s j).active_shrinks
    · exact hs
  | publish now frame clientID =>
    obtain ⟨fw, hsame⟩ := publishWithClientID_sameTables r now frame clientID
    exact Ended.of_shrinks h hsame.active_shrinks
  | publishFromPeer now frame =>
    exact h.of_shrinks (publishLocal_sameTables r now _).active_shrinks
  | publishBatch now frame =>
    obtain ⟨fw, hsame⟩ := publishBatch_sameTables r now frame
    exact Ended.of_shrinks h hsame.active_shrinks
  | publishSub now subFrame =>
    exact h.of_shrinks (publishSub_sameTables now (r, []) subFrame).active_shrinks
  | disconnect idx => exact h.of_shrinks (disconnectSubscriber_sameTables r idx).active_shrinks
  | ackOffset consumerID topic offset =>
    rw [Router.act, ackOffset_eq]
    exact h
  | nack streamID offset =>
    rw [Router.act, nackByStream]
    split <;> exact h
  | close =>
    refine ⟨?_, isActive_close r i⟩
    rw [Router.act, Router.close, List.length_map]
    exact h.1
  | backfill idx msg =>
    exact h.of_shrinks (enqueueToSubscriber_sameTables r idx msg priorityNormal).active_shrinks
  | fetch idx level => exact h
  | drain idx => exact h
  | peers n => exact h

def acts (r : Router) (as : List Action) : Router := as.foldl act r

theorem Reachable.acts (h : Reachable r) (as : List Action) : Reachable (r.acts as) :=
  List.foldlRecOn as Router.act h fun _ hs a _ => hs.act a

theorem Ended.acts {i : Nat} (h : r.Ended i) (as : List Action) : (r.acts as).Ended i :=
  List.foldlRecOn as Router.act (motive := (Ended · i)) h fun _ hs a _ => hs.act a

/-! ## The tables -/

theorem isWildcardTopic_iff (topic : Bytes) :
    isWildcardTopic topic = true ↔ bytePlus ∈ topic ∨ byteHash ∈ topic := by
  simp [isWildcardTopic]

theorem pairwise_filter_range (p : Nat → Bool) (n : Nat) :
    ((List.range n).filter p).Pairwise (· < ·) :=
  List.pairwise_lt_range.filter p

theorem Indexed.mem_topicIndex (h : r.Indexed) (k : UInt64) (i : Nat) :
    i ∈ r.topicIndex k ↔
      i < r.active.length ∧ r.groupAt i = [] ∧ topicHashKey (r.topicAt i) = k := by
  rw [h.topicIndex, List.mem_filter, List.mem_range, decide_eq_true_eq]

theorem Indexed.wildcard_indices (h : r.Indexed) :
    r.wildcardSubs.map (·.idx) =
      (List.range r.active.length).filter fun i => isWildcardTopic (r.topicAt i) := by
  rw [h.wildcardSubs, List.map_map]
  exact List.map_id _

theorem Indexed.mem_wildcardSubs (h : r.Indexed) (w : WildcardSub) :
    w ∈ r.wildcardSubs ↔ w.idx < r.active.length ∧
      (bytePlus ∈ r.topicAt w.idx ∨ byteHash ∈ r.topicAt w.idx) ∧
        w.pattern = r.topicAt w.idx := by
  rw [h.wildcardSubs, List.mem_map, ← isWildcardTopic_iff]
  constructor
  · rintro ⟨i, hi, rfl⟩
    obtain ⟨hlt, hwild⟩ := List.mem_filter.mp hi
    exact ⟨List.mem_range.mp hlt, hwild, rfl⟩
  · rintro ⟨hlt, hwild, hpattern⟩
    refine ⟨w.idx, List.mem_filter.mpr ⟨List.mem_range.mpr hlt, hwild⟩, ?_⟩
    rw [← hpattern]

theorem Indexed.members_lt (h : r.Indexed) {k : UInt64} {cg : ConsumerGroup} (hcg : cg ∈ r.groups k)
    {i : Nat} (hi : i ∈ cg.members) : i < r.active.length := by
  have hok := h.groups k cg hcg
  refine h.groupAt_lt ?_
  rw [(hok.members i hi).1]
  exact hok.named

/-- **Router tables.** In every reachable state the slot arrays are parallel, the
hash index and the wildcard list hold their slots in ascending order, group
snapshots name existing slots, and a slot that ended stays so. -/
theorem tables_invariant {r : Router} (h : Reachable r) :
    (∀ n ∈ r.widths, n = r.active.length) ∧
      (∀ k, (r.topicIndex k).Pairwise (· < ·) ∧ ∀ i, i ∈ r.topicIndex k ↔
        i < r.active.length ∧ r.groupAt i = [] ∧ topicHashKey (r.topicAt i) = k) ∧
      ((r.wildcardSubs.map (·.idx)).Pairwise (· < ·) ∧ ∀ w, w ∈ r.wildcardSubs ↔
        w.idx < r.active.length ∧
          (bytePlus ∈ r.topicAt w.idx ∨ byteHash ∈ r.topicAt w.idx) ∧
            w.pattern = r.topicAt w.idx) ∧
      (∀ k, ∀ cg ∈ r.groups k, ∀ i ∈ cg.members, i < r.active.length) ∧
      ∀ as i, i < r.active.length → r.isActive i = false → (r.acts as).isActive i = false := by
  have hi := h.indexed
  refine ⟨h.parallel, fun k => ⟨?_, hi.mem_topicIndex k⟩, ⟨?_, hi.mem_wildcardSubs⟩,
    fun k cg hcg i hmem => hi.members_lt hcg hmem, fun as i hlt hdead => ?_⟩
  · rw [hi.topicIndex]
    exact pairwise_filter_range _ _
  · rw [hi.wildcard_indices]
    exact pairwise_filter_range _ _
  · exact (Ended.acts ⟨hlt, hdead⟩ as).2

/-- A subscriber and a member of a group, both with a pattern; the first one is
disconnected. -/
def patternSlots : Router :=
  (newRouterWith ⟨none, [], 0, 4, .dropNewest, fun _ => 0, none, 0⟩).acts
    [.subscribe ⟨0, 0⟩ ⟨cmdSubscribe, 0, 9, ascii "topic:a/+", []⟩,
      .subscribe ⟨1, 4⟩ ⟨cmdSubscribe, 4, 17, ascii "topic:a/#:group:g", []⟩, .disconnect 0]

/-- Both are in the wildcard list, and nothing brings the first one back. -/
theorem pattern_slots_listed :
    patternSlots.active = [false, true] ∧
      (patternSlots.wildcardSubs.map (·.idx)).Pairwise (· < ·) ∧
      ∀ as, (patternSlots.acts as).isActive 0 = false := by
  have hreach : Reachable patternSlots := (Reachable.new _).acts _
  obtain ⟨-, -, ⟨hascending, -⟩, -, hended⟩ := tables_invariant hreach
  exact ⟨by decide +kernel, hascending,
    fun as => hended as 0 (by decide +kernel) (by decide +kernel)⟩

end Aqueduct.Broker.Router
