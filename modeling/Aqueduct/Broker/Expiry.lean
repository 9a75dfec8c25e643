import Mathlib.Algebra.Group.Int.Defs
import Aqueduct.Broker.Payloads
import Aqueduct.Broker.Writer

/-!
When a message expires. A publisher may ask for a time to live in milliseconds;
the router turns it into a wall clock time in 64-bit nanoseconds, and the writer
compares that with its own clock before it delivers. The sum wraps around, and a
time that is not positive means that the message never expires.
-/

namespace Aqueduct.Broker

open ByteStr Protocol Router

/-- The nanosecond at which a message published at `now` for `ms` milliseconds
should expire. -/
def deadline (now ms : Int64) : Int := now.toInt + ms.toInt * 1000000

/-- The router keeps the deadline up to a multiple of 2^64. -/
theorem toInt_ttlDeadline (now ms : Int64) :
    (ttlDeadline now ms.toInt).toInt % 2 ^ 64 = deadline now ms % 2 ^ 64 := by
  have hmul : (1000000 : Int64).toInt = 1000000 := by decide
  have hcast : ((2 ^ 64 : Nat) : Int) = 2 ^ 64 := Int.natCast_pow 2 64
  rw [ttlDeadline, Int64.ofInt_toInt, Int64.toInt_add, Int64.toInt_mul, hmul, Int.add_bmod_bmod,
    deadline, ← hcast, Int.bmod_emod]

/-- A publish gives every message the expiry it reads from the payload. -/
theorem publish_enqueuedBy (r : Router) (now : Int64) (frame : Frame) (clientID : Bytes) :
    EnqueuedBy (fun d => d.msg.expiresAt = (r.expiryAndTopic now frame.priority frame.payload).1) r
      (r.publishWithClientID now frame clientID).1 := by
  rw [publishWithClientID_both]
  refine (both_enqueuedBy now r _).mono fun d ⟨_, _, _, _, hd⟩ => ?_
  exact congrArg Message.expiresAt hd

/-- The wrapped deadline is a positive time that has come. -/
def WrappedPassed (now ms fetched : Int64) : Prop :=
  0 < deadline now ms % 2 ^ 64 ∧ deadline now ms % 2 ^ 64 ≤ fetched.toInt

theorem isExpired_iff {m : Message} {now ms : Int64} (h : m.expiresAt = ttlDeadline now ms.toInt)
    (fetched : Int64) : m.isExpired fetched = true ↔ WrappedPassed now ms fetched := by
  have hwrap := toInt_ttlDeadline now ms
  have hlo := (ttlDeadline now ms.toInt).le_toInt
  have hhi := (ttlDeadline now ms.toInt).toInt_lt
  have hfetched := fetched.toInt_lt
  have hzero : (0 : Int64).toInt = 0 := rfl
  rw [Message.isExpired, decide_eq_true_eq, h, Int64.lt_iff_toInt_lt, Int64.le_iff_toInt_le, hzero,
    WrappedPassed]
  omega

/-- **Expiry.** A message with a time to live counts as expired exactly from its
deadline on, if the deadline is a positive 64-bit time. Outside of that range the
answer is right only where the wrapped deadline happens to give it. -/
theorem ttl_exact_iff (r : Router) (clientID : Bytes) {frame : Frame} {now ms fetched : Int64}
    {topic : Bytes} (hpayload : frame.payload = ttlPayload ms topic)
    (hplain : ¬ 0 < r.priorityTTLs frame.priority) (hfetched : 0 < fetched) {d : Delivery}
    (hd : d ∈ (r.publishWithClientID now frame clientID).1.enqueued.drop r.enqueued.length) :
    (d.msg.isExpired fetched = true ↔ deadline now ms ≤ fetched.toInt) ↔
      0 < deadline now ms ∧ deadline now ms < 2 ^ 63 ∨
        deadline now ms ≤ 0 ∧ WrappedPassed now ms fetched ∨
        2 ^ 63 ≤ deadline now ms ∧ ¬ WrappedPassed now ms fetched := by
  have hexpiry : d.msg.expiresAt = ttlDeadline now ms.toInt := by
    obtain ⟨ds, hds, hmsg⟩ := publish_enqueuedBy r now frame clientID
    rw [hds, List.drop_left] at hd
    rw [hmsg d hd, expiryAndTopic, if_neg hplain, hpayload, parsePublishTopic, parseTTL_ttlPayload]
    dsimp only
    split <;> rfl
  have hlo : (0 : Int64).toInt < fetched.toInt := Int64.lt_iff_toInt_lt.mp hfetched
  have hhi := fetched.toInt_lt
  have hzero : (0 : Int64).toInt = 0 := rfl
  rw [isExpired_iff hexpiry, WrappedPassed]
  omega

/-- What a subscriber of `t` gets of a publish in November 2023. -/
def publishedTo (payload : String) : List Delivery :=
  ((smallRouter ["topic:t"]).publishWithClientID 1700000000000000000
    (clientFrame cmdPublish 0 payload) []).1.enqueued

/-- Five milliseconds later a message for five milliseconds is expired. -/
theorem short_ttl_expires :
    ∃ d ∈ publishedTo "ttl:5:t", d.msg.isExpired 1700000000005000000 = true := by
  obtain ⟨d, hd⟩ : ∃ d, publishedTo "ttl:5:t" = [d] :=
    List.length_eq_one_iff.mp (by decide +kernel)
  have hmem : d ∈ publishedTo "ttl:5:t" := hd ▸ List.mem_singleton.mpr rfl
  have hpayload : (clientFrame cmdPublish 0 "ttl:5:t").payload = ttlPayload 5 (ascii "t") := by
    decide
  have hfetched : (0 : Int64) < 1700000000005000000 := by decide
  have hiff := ttl_exact_iff (smallRouter ["topic:t"]) [] hpayload (by decide) hfetched hmem
  exact ⟨d, hmem, (hiff.mpr (.inl (by decide))).mpr (by decide)⟩

/-- The longest time to live is over at once, and a message that should have
expired in 1969 never does. -/
theorem extreme_ttl_wraps :
    (publishedTo "ttl:9223372036854775807:t").map (·.msg.isExpired 1700000000000000000) = [true] ∧
      (1700000000000000000 : Int64).toInt < deadline 1700000000000000000 9223372036854775807 ∧
      (publishedTo "ttl:-1700000000001:t").map (·.msg.isExpired 1800000000000000000) = [false] ∧
      deadline 1700000000000000000 (-1700000000001) ≤ (1800000000000000000 : Int64).toInt := by
  decide +kernel

end Aqueduct.Broker
