import Aqueduct.Broker.Redelivery
import Aqueduct.Lib.Fifo

/-!
How long a writer answers NACKs. A NACK of an offset is acted on as long as the
frame cache holds the offset, and ignored afterwards. The keys of the cache are a
bounded list, oldest first (`Fifo`): an offset that is delivered again while it
is held keeps its old place, so it may be dropped long before 256 other offsets
have been delivered after it.
-/

namespace Aqueduct.Broker

open ByteStr Protocol Router

/-! ## What a NACK publishes -/

namespace Writer

/-- The keys are those of the cache. -/
structure Keyed (w : Writer) : Prop where
  bounded : Fifo.Bounded defaultNackCacheSize w.frameCacheKeys
  mem_iff : ∀ o, (w.frameCache o).isSome = true ↔ o ∈ w.frameCacheKeys

namespace Keyed

variable {w : Writer} (h : w.Keyed)

include h

theorem evictOldest : w.evictOldest.frameCacheKeys = w.frameCacheKeys.tail ∧
    ∀ o, (w.evictOldest.frameCache o).isSome = true ↔ o ∈ w.frameCacheKeys.tail := by
  have hnodup := h.bounded.nodup
  have hmem := h.mem_iff
  unfold Writer.evictOldest
  cases hkeys : w.frameCacheKeys with
  | nil =>
    rw [hkeys] at hmem
    exact ⟨hkeys, hmem⟩
  | cons oldKey keys =>
    rw [hkeys] at hnodup hmem
    refine ⟨rfl, fun o => ?_⟩
    dsimp only [setKey, List.tail_cons]
    have hnew : oldKey ∉ keys := (List.nodup_cons.mp hnodup).1
    by_cases ho : o = oldKey
    · subst ho
      simp [hnew]
    · simp [ho, hmem]

theorem storeFrame_keys (o : UInt64) (topicName : Bytes) :
    (w.storeFrame o topicName).frameCacheKeys =
      Fifo.remember defaultNackCacheSize w.frameCacheKeys o := by
  unfold Writer.storeFrame
  split
  · next hheld => rw [Fifo.remember_held ((h.mem_iff o).mp hheld)]
  · next hnew =>
    rw [Fifo.remember, if_neg (mt (h.mem_iff o).mpr hnew)]
    dsimp only
    split
    · rw [h.evictOldest.1]
    · rfl

theorem storeFrame (o : UInt64) (topicName : Bytes) : (w.storeFrame o topicName).Keyed := by
  refine ⟨?_, fun o' => ?_⟩
  · rw [h.storeFrame_keys]
    exact h.bounded.remember (by decide) o
  · unfold Writer.storeFrame
    split
    · exact h.mem_iff o'
    · dsimp only [setKey]
      by_cases ho : o' = o
      · simp [ho]
      · rw [if_neg ho, List.mem_append, List.mem_singleton]
        split
        · rw [h.evictOldest.1, h.evictOldest.2]
          simp [ho]
        · simp [ho, h.mem_iff]

end Keyed

/-! ## What a sequence of messages does to the keys -/

/-- The writer hands the message to the stream: it has not expired and is not empty. -/
def delivers (d : Int64 × Message) : Bool := !d.2.isExpired d.1 && decide (0 < d.2.buf.length)

theorem deliver_isSome (w : Writer) (d : Int64 × Message) :
    (w.deliver d.1 d.2).2.isSome = delivers d := by
  unfold delivers
  rcases w.deliver_cases d.1 d.2 with ⟨hdropped | hdropped, hdeliver⟩ | ⟨⟨hfresh, hlen⟩, hdeliver⟩
  · simp [hdeliver, hdropped]
  · simp [hdeliver, hdropped]
  · simp [hdeliver, hfresh, hlen]

theorem deliver_delivers (w : Writer) {d : Int64 × Message} (h : delivers d = true) :
    (w.deliver d.1 d.2).1 = w.storeFrame (deliveryOffset d.2) w.topic := by
  rw [← w.deliver_isSome] at h
  rcases w.deliver_cases d.1 d.2 with ⟨-, hdeliver⟩ | ⟨-, hdeliver⟩
  · rw [hdeliver] at h
    cases h
  · rw [hdeliver]

theorem deliver_drops (w : Writer) {d : Int64 × Message} (h : ¬ delivers d = true) :
    (w.deliver d.1 d.2).1 = w := by
  rw [← w.deliver_isSome] at h
  rcases w.deliver_cases d.1 d.2 with ⟨-, hdeliver⟩ | ⟨-, hdeliver⟩
  · rw [hdeliver]
  · rw [hdeliver] at h
    exact absurd rfl h

/-- The offsets that are stored, in order. -/
def deliveredOffsets (ms : List (Int64 × Message)) : List UInt64 :=
  (ms.filter delivers).map fun d => deliveryOffset d.2

theorem Keyed.deliver {w : Writer} (h : w.Keyed) (d : Int64 × Message) :
    (w.deliver d.1 d.2).1.Keyed := by
  by_cases hd : delivers d = true
  · rw [w.deliver_delivers hd]
    exact h.storeFrame _ _
  · rw [w.deliver_drops hd]
    exact h

theorem Keyed.deliverAll {w : Writer} (h : w.Keyed) (ms : List (Int64 × Message)) :
    (w.deliverAll ms).Keyed ∧ (w.deliverAll ms).frameCacheKeys =
      (deliveredOffsets ms).foldl (Fifo.remember defaultNackCacheSize) w.frameCacheKeys := by
  induction ms generalizing w with
  | nil => exact ⟨h, rfl⟩
  | cons d ms ih =>
    obtain ⟨hkeyed, hkeys⟩ := ih (h.deliver d)
    refine ⟨hkeyed, hkeys.trans ?_⟩
    unfold deliveredOffsets
    by_cases hd : delivers d = true
    · rw [w.deliver_delivers hd, h.storeFrame_keys, List.filter_cons_of_pos hd]
      rfl
    · rw [w.deliver_drops hd, List.filter_cons_of_neg hd]

/-! ## NACKs of recent deliveries -/

def firstOffsets (n : Nat) : List UInt64 := (List.range n).map fun i => UInt64.ofNat (i + 1)

end Writer

end Aqueduct.Broker
