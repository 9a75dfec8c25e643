import Aqueduct.Broker.Sequence

/-!
`PublishBatch` as an all-or-nothing operation. Sub-frames are dispatched while
the payload is still being parsed, the error of `ParseBatch` is thrown away and
a sub-frame that does not parse is skipped, so a batch is atomic exactly when
there is nothing wrong with it.
-/

namespace Aqueduct.Broker.Router

open ByteStr Protocol

/-- Every sub-frame takes the next offset of its topic and is dispatched under
it, in order; the slots to disconnect are collected on the way. -/
def dispatchEach (now : Int64) (acc : Router × List Nat) (subs : List (Bytes × Frame)) :
    Router × List Nat :=
  subs.foldl (fun acc sub =>
    ((acc.1.route now sub.2 sub.1 0).1, acc.2 ++ (acc.1.route now sub.2 sub.1 0).2)) acc

/-- The batch was taken, and all of its sub-frames were dispatched. -/
def BatchDispatched (r : Router) (now : Int64) (frame : Frame) : Prop :=
  ∃ subs : List (Bytes × Frame), frame.payload = (subs.map (·.1)).flatten ∧
    (∀ sub ∈ subs, WholeFrame sub.1 sub.2) ∧ (r.publishBatch now frame).2 = none ∧
    ∃ fw, (r.publishBatch now frame).1 =
      { disconnectAll (dispatchEach now (r, []) subs) with forwarded := fw }

/-- The batch was refused and left no trace. -/
def BatchRejected (r : Router) (now : Int64) (frame : Frame) : Prop :=
  (r.publishBatch now frame).2 ≠ none ∧
    (r.publishBatch now frame).1.queues = r.queues ∧
    (r.publishBatch now frame).1.enqueued = r.enqueued ∧
    (r.publishBatch now frame).1.topicOffsets = r.topicOffsets ∧
    (r.publishBatch now frame).1.forwarded = r.forwarded

def BatchAtomic (r : Router) (now : Int64) (frame : Frame) : Prop :=
  (FrameSequence frame.payload ∧ r.BatchDispatched now frame) ∨
    (¬ FrameSequence frame.payload ∧ r.BatchRejected now frame)

/-- The loop of `PublishBatch` dispatches each sub-frame that parses. -/
theorem foldl_publishSub_eq (now : Int64) (subs : List (Bytes × Frame)) :
    ∀ acc : Router × List Nat, (∀ sub ∈ subs, WholeFrame sub.1 sub.2) →
      (subs.map (·.1)).foldl (publishSub now) acc = dispatchEach now acc subs := by
  induction subs with
  | nil => exact fun _ _ => rfl
  | cons sub subs ih =>
    intro acc h
    have hsub := h sub List.mem_cons_self
    rw [List.map_cons, List.foldl_cons, publishSub_eq hsub.1]
    exact ih _ fun s hs => h s (List.mem_cons_of_mem _ hs)

theorem publishBatch_ok (r : Router) (now : Int64) {frame : Frame}
    (hlen : ¬ frame.payloadLen > maxPayloadSize) :
    (r.publishBatch now frame).2 = none ∧ ∃ fw, (r.publishBatch now frame).1 =
      { disconnectAll ((batchFrames frame.payload).foldl (publishSub now) (r, [])) with
        forwarded := fw } := by
  unfold publishBatch
  rw [if_neg hlen]
  dsimp only
  split
  · exact ⟨rfl, _, rfl⟩
  · exact ⟨rfl, _, rfl⟩

theorem exists_frames (bs : List Bytes) (h : ∀ b ∈ bs, IsFrame b) :
    ∃ subs : List (Bytes × Frame), subs.map (·.1) = bs ∧ ∀ sub ∈ subs, WholeFrame sub.1 sub.2 := by
  induction bs with
  | nil => exact ⟨[], rfl, by simp⟩
  | cons b bs ih =>
    obtain ⟨f, hf⟩ := h b List.mem_cons_self
    obtain ⟨subs, hmap, hsubs⟩ := ih fun b' hb' => h b' (List.mem_cons_of_mem _ hb')
    refine ⟨(b, f) :: subs, by rw [List.map_cons, hmap], ?_⟩
    intro sub hsub
    rcases List.mem_cons.mp hsub with rfl | hsub
    · exact hf
    · exact hsubs sub hsub

theorem frameSequence_dispatched (r : Router) (now : Int64) {frame : Frame}
    (hlen : ¬ frame.payloadLen > maxPayloadSize) (h : FrameSequence frame.payload) :
    r.BatchDispatched now frame := by
  obtain ⟨bs, hpayload, hbs⟩ := h
  obtain ⟨subs, rfl, hsubs⟩ := exists_frames bs hbs
  obtain ⟨hnone, fw, hr⟩ := publishBatch_ok r now hlen
  refine ⟨subs, hpayload, hsubs, hnone, fw, ?_⟩
  rw [hr, hpayload, (parseBatch_flatten hbs).1, foldl_publishSub_eq now subs (r, []) hsubs]

theorem not_batchRejected (r : Router) (now : Int64) {frame : Frame}
    (hlen : ¬ frame.payloadLen > maxPayloadSize) : ¬ r.BatchRejected now frame :=
  fun h => h.1 (publishBatch_ok r now hlen).1

/-- **Atomic batches.** A batch of at most 1 MB is published atomically exactly
when its payload is a concatenation of well-formed frames. -/
theorem batch_atomic_iff (r : Router) (now : Int64) (frame : Frame)
    (hlen : frame.payloadLen ≤ maxPayloadSize) :
    r.BatchAtomic now frame ↔ FrameSequence frame.payload := by
  have hlen' : ¬ frame.payloadLen > maxPayloadSize := UInt32.not_lt.mpr hlen
  constructor
  · rintro (⟨hseq, -⟩ | ⟨-, hrejected⟩)
    · exact hseq
    · exact absurd hrejected (not_batchRejected r now hlen')
  · intro hseq
    exact .inl ⟨hseq, frameSequence_dispatched r now hlen' hseq⟩

/-- A batch frame with the payload as given. -/
def batchWith (payload : Bytes) : Frame :=
  ⟨cmdPublishBatch, 0, UInt32.ofNat payload.length, payload, []⟩

theorem two_publishes_atomic :
    FrameSequence (batchWith (plainPublish.wire ++ numberedPublish.wire)).payload ∧
      subscribedToA.BatchAtomic 0 (batchWith (plainPublish.wire ++ numberedPublish.wire)) := by
  have hseq : FrameSequence (batchWith (plainPublish.wire ++ numberedPublish.wire)).payload := by
    decide
  exact ⟨hseq, (batch_atomic_iff subscribedToA 0 _ (by decide)).mpr hseq⟩

/-- One publish and a stray byte. -/
def cutBatch : Frame := batchWith (plainPublish.wire ++ [0])

/-- The publish is delivered, and no error is returned. -/
theorem cut_batch_delivered :
    cutBatch.payloadLen ≤ maxPayloadSize ∧ (subscribedToA.publishBatch 0 cutBatch).2 = none ∧
      (subscribedToA.publishBatch 0 cutBatch).1.enqueued.length = 1 ∧
      ¬ subscribedToA.BatchAtomic 0 cutBatch := by
  refine ⟨by decide, by decide, by decide, ?_⟩
  rintro (⟨hseq, -⟩ | ⟨-, hrejected⟩)
  · exact absurd hseq (by decide)
  · exact not_batchRejected subscribedToA 0 (by decide) hrejected

end Aqueduct.Broker.Router
