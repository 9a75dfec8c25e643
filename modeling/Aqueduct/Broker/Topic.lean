import Aqueduct.Authz

/-!
Topic names in payloads. Three extractors read a topic out of a payload: the
ACL gate of `internal/transport/broker.go` (`extractTopicBytes`), the publish
paths (`parsePublishTopic`) and the subscribe path
(`parseSubscriptionPayload`), the last two in `internal/broker/router.go`.
`topic_agreement_iff` says for which payloads they name the same topic.
Wildcard patterns are those of `internal/broker/wildcard.go`. Strings are
byte lists and `now` is the wall clock in nanoseconds.
-/

namespace Aqueduct.Broker

open ByteStr

def prefixTopic : Bytes := ascii "topic:"
def prefixTTL : Bytes := ascii "ttl:"
def sepGroup : Bytes := ascii ":group:"
def sepDurable : Bytes := ascii ":durable:"

/-- The byte `:`. -/
def colon : UInt8 := 58

/-! ## Extractors -/

/-- The topic the ACL gate looks up. -/
def extractTopicBytes (payload : Bytes) : Bytes :=
  if 6 ≤ payload.length ∧ prefixTopic.isPrefixOf payload then payload.drop 6 else payload

/-- `time.Now().Add(time.Duration(ms) * time.Millisecond).UnixNano()`; both
the product and the sum wrap at 64 bits. -/
def ttlDeadline (now : Int64) (ms : Int) : Int64 := now + Int64.ofInt ms * 1000000

def parseTTL (now : Int64) (payload : Bytes) : Int64 × Bytes :=
  if prefixTTL.isPrefixOf payload then
    match indexByte colon (payload.drop 4) with
    | some idx =>
      if 0 < idx then
        match parseInt (slice payload 4 idx) with
        | .ok ms => (ttlDeadline now ms, payload.drop (4 + idx + 1))
        | .error _ => (0, payload)
      else (0, payload)
    | none => (0, payload)
  else (0, payload)

/-- Expiry and clean topic of a publish payload. -/
def parsePublishTopic (now : Int64) (payload : Bytes) : Int64 × Bytes :=
  let (expiresAt, cleanTopic) := parseTTL now payload
  if prefixTopic.isPrefixOf cleanTopic ∧ prefixTopic.length < cleanTopic.length then
    (expiresAt, cleanTopic.drop prefixTopic.length)
  else (expiresAt, cleanTopic)

structure SubscriptionSpec where
  topic : Bytes
  isDurable : Bool
  consumerID : Bytes
  requestedOffset : UInt64
  groupID : Bytes
  deriving DecidableEq, Repr

inductive SubscribeError
  | nilStream
  | topicRequired
  | topicEmpty
  deriving DecidableEq, Repr

def SubscribeError.text : SubscribeError → String
  | .nilStream => "nil stream"
  | .topicRequired => "subscribe payload must contain a topic"
  | .topicEmpty => "topic cannot be empty"

/-- Cuts the first `:group:<id>` out of the raw topic; the second component
is the group id. -/
def cutGroup (raw : Bytes) : Bytes × Bytes :=
  match index sepGroup raw with
  | none => (raw, [])
  | some idx =>
    let rest := raw.drop (idx + 7)
    match indexByte colon rest with
    | some endIdx => (raw.take idx ++ rest.drop endIdx, rest.take endIdx)
    | none => (raw.take idx, rest)

/-- The value `ParseUint` returns next to its error, which the source drops. -/
def parseUintValue (s : Bytes) : UInt64 :=
  match parseUint s with
  | .ok n => UInt64.ofNat n
  | .error .rangeError => UInt64.ofNat (2 ^ 64 - 1)
  | .error .syntaxError => 0

def parseSubscriptionPayload (payload : Bytes) : Except SubscribeError SubscriptionSpec :=
  if payload.length < 6 ∨ payload.take 6 ≠ prefixTopic then .error .topicRequired
  else if payload.drop 6 = [] then .error .topicEmpty
  else
    let (raw, groupID) := cutGroup (payload.drop 6)
    match split sepDurable raw with
    | topic :: durable :: _ =>
      match split [colon] durable with
      | consumerID :: offset :: _ =>
        .ok ⟨topic, true, consumerID, parseUintValue offset, groupID⟩
      | _ => .ok ⟨topic, true, durable, 0, groupID⟩
    | parts => .ok ⟨parts.headD [], false, [], 0, groupID⟩

/-- The router key of a topic. -/
def topicHashKey (topic : Bytes) : UInt64 := Authz.combineHashStrings (ascii "topic") topic

/-! ## Wildcards -/

def byteHash : UInt8 := 35
def bytePlus : UInt8 := 43
def byteSlash : UInt8 := 47

/-- The matching loop on what is left of the pattern and of the topic: `#`
accepts, `+` skips to the next `/`, other bytes must agree. -/
def matchLevels : Bytes → Bytes → Bool
  | [], topic => topic = []
  | p :: pattern, topic =>
    if p = byteHash then true
    else if p = bytePlus then
      if topic = [] then false else matchLevels pattern (topic.dropWhile (· ≠ byteSlash))
    else
      match topic with
      | [] => p = byteSlash ∧ pattern.head? = some byteHash
      | t :: topic => if p ≠ t then false else matchLevels pattern topic

def matchWildcard (pattern topic : Bytes) : Bool :=
  if pattern = topic then true else matchLevels pattern topic

def isWildcardTopic (topic : Bytes) : Bool :=
  topic.contains bytePlus || topic.contains byteHash

/-! ## What the extractors return -/

theorem isPrefixOf_prefixTopic {p : Bytes} :
    prefixTopic.isPrefixOf p = true ↔ ∃ raw, p = prefixTopic ++ raw := by
  rw [List.isPrefixOf_iff_prefix]
  exact ⟨fun ⟨raw, h⟩ => ⟨raw, h.symm⟩, fun ⟨raw, h⟩ => ⟨raw, h.symm⟩⟩

@[simp] theorem prefixTopic_length : prefixTopic.length = 6 := rfl

@[simp] theorem extractTopicBytes_topic (raw : Bytes) :
    extractTopicBytes (prefixTopic ++ raw) = raw := by
  have hp : prefixTopic.isPrefixOf (prefixTopic ++ raw) = true :=
    isPrefixOf_prefixTopic.mpr ⟨raw, rfl⟩
  have hd : (prefixTopic ++ raw).drop 6 = raw := List.drop_left' rfl
  simp [extractTopicBytes, hp, hd]

theorem extractTopicBytes_other {p : Bytes} (h : ∀ raw, p ≠ prefixTopic ++ raw) :
    extractTopicBytes p = p := by
  have hp : ¬ prefixTopic.isPrefixOf p = true := by
    rw [isPrefixOf_prefixTopic]
    rintro ⟨raw, hr⟩
    exact h raw hr
  simp [extractTopicBytes, hp]

/-- The payload starts with `ttl:<ms>:` for a readable signed number of
milliseconds. -/
def TTLPrefixed (p : Bytes) : Prop :=
  ∃ ms rest n, p = prefixTTL ++ (ms ++ colon :: rest) ∧ colon ∉ ms ∧ parseInt ms = .ok n

theorem parseTTL_prefixed (now : Int64) (ms rest : Bytes) (n : Int) (hc : colon ∉ ms)
    (hn : parseInt ms = .ok n) :
    parseTTL now (prefixTTL ++ (ms ++ colon :: rest)) = (ttlDeadline now n, rest) := by
  have hpre : prefixTTL.isPrefixOf (prefixTTL ++ (ms ++ colon :: rest)) = true :=
    List.isPrefixOf_iff_prefix.mpr ⟨_, rfl⟩
  have hdrop : (prefixTTL ++ (ms ++ colon :: rest)).drop 4 = ms ++ colon :: rest :=
    List.drop_left' rfl
  have hidx : indexByte colon (ms ++ colon :: rest) = some ms.length :=
    indexByte_eq_some_iff.mpr ⟨ms, rest, rfl, hc, rfl⟩
  have hms : 0 < ms.length := by
    cases ms with
    | nil => simp [parseInt, parseUint] at hn
    | cons b ms => simp
  have hslice : slice (prefixTTL ++ (ms ++ colon :: rest)) 4 ms.length = ms := by
    simp [slice, hdrop]
  have hrest : (prefixTTL ++ (ms ++ colon :: rest)).drop (4 + ms.length + 1) = rest := by
    rw [Nat.add_assoc, ← List.drop_drop, hdrop]
    simp
  simp [parseTTL, hpre, hdrop, hidx, hms, hslice, hn, hrest]

theorem parseTTL_plain (now : Int64) {p : Bytes} (h : ¬ TTLPrefixed p) :
    parseTTL now p = (0, p) := by
  unfold parseTTL
  split
  · rename_i hpre
    obtain ⟨body, rfl⟩ := List.isPrefixOf_iff_prefix.mp hpre
    have hdrop : (prefixTTL ++ body).drop 4 = body := List.drop_left' rfl
    rw [hdrop]
    cases hi : indexByte colon body with
    | none => rfl
    | some i =>
      obtain ⟨ms, rest, rfl, hc, rfl⟩ := indexByte_eq_some_iff.mp hi
      have hslice : slice (prefixTTL ++ (ms ++ colon :: rest)) 4 ms.length = ms := by
        simp [slice, hdrop]
      simp only [hslice]
      split
      · cases hn : parseInt ms with
        | error e => rfl
        | ok n => exact absurd ⟨ms, rest, n, rfl, hc, hn⟩ h
      · rfl
  · rfl

theorem parsePublishTopic_eq (now : Int64) (p : Bytes) :
    (parsePublishTopic now p).2 =
      if prefixTopic.isPrefixOf (parseTTL now p).2 ∧ 6 < (parseTTL now p).2.length then
        (parseTTL now p).2.drop 6
      else (parseTTL now p).2 := by
  unfold parsePublishTopic
  rw [prefixTopic_length]
  dsimp only
  split <;> rfl

theorem parsePublishTopic_length_le (now : Int64) (p : Bytes) :
    (parsePublishTopic now p).2.length ≤ (parseTTL now p).2.length := by
  rw [parsePublishTopic_eq]
  split
  · rw [List.length_drop]; omega
  · exact Nat.le_refl _

theorem TTLPrefixed.not_topic {p : Bytes} (h : TTLPrefixed p) (raw : Bytes) :
    p ≠ prefixTopic ++ raw := by
  obtain ⟨ms, rest, n, rfl, -, -⟩ := h
  intro he
  have hsecond := congrArg (fun b : Bytes => b.getD 1 0) he
  simp [prefixTTL, prefixTopic, ascii] at hsecond

/-- For publish frames the gate and the router disagree on TTL payloads and
on the bare prefix, and nowhere else. -/
theorem extractTopicBytes_eq_publish_iff (now : Int64) (p : Bytes) :
    extractTopicBytes p = (parsePublishTopic now p).2 ↔ ¬ TTLPrefixed p ∧ p ≠ prefixTopic := by
  constructor
  · intro h
    refine ⟨fun httl => ?_, fun hp => ?_⟩
    · have hlen := parsePublishTopic_length_le now p
      rw [← h, extractTopicBytes_other httl.not_topic] at hlen
      obtain ⟨ms, rest, n, rfl, hc, hn⟩ := httl
      rw [parseTTL_prefixed now ms rest n hc hn] at hlen
      simp only [List.length_append, List.length_cons] at hlen
      omega
    · subst hp
      have hx : extractTopicBytes prefixTopic = [] := by decide
      have hq : (parsePublishTopic now prefixTopic).2 = prefixTopic := by
        simp [parsePublishTopic, parseTTL, show prefixTTL.isPrefixOf prefixTopic = false by decide]
      rw [hx, hq] at h
      cases h
  · rintro ⟨httl, hp⟩
    rw [parsePublishTopic_eq, parseTTL_plain now httl]
    by_cases hpre : ∃ raw, p = prefixTopic ++ raw
    · obtain ⟨raw, rfl⟩ := hpre
      have hne : raw ≠ [] := by rintro rfl; exact hp (List.append_nil _)
      have hlen : 6 < (prefixTopic ++ raw).length := by
        have hpos := List.length_pos_iff.mpr hne
        simp only [List.length_append, prefixTopic_length]
        omega
      rw [if_pos ⟨isPrefixOf_prefixTopic.mpr ⟨raw, rfl⟩, hlen⟩, extractTopicBytes_topic]
      exact (List.drop_left' prefixTopic_length).symm
    · have hnp : ¬ prefixTopic.isPrefixOf p = true := fun hq => hpre (isPrefixOf_prefixTopic.mp hq)
      rw [if_neg (fun hq => hnp hq.1)]
      exact extractTopicBytes_other fun raw hr => hpre ⟨raw, hr⟩

theorem cutGroup_of_absent {raw : Bytes} (h : ¬ sepGroup <:+: raw) : cutGroup raw = (raw, []) := by
  unfold cutGroup
  rw [(index_eq_none_iff _ _).mpr h]

theorem cutGroup_length_lt {raw : Bytes} (h : sepGroup <:+: raw) :
    (cutGroup raw).1.length < raw.length := by
  obtain ⟨idx, hi⟩ := Option.isSome_iff_exists.mp ((index_isSome_iff _ _).mpr h)
  have hlen := (index_eq_some hi).2
  have h7 : sepGroup.length = 7 := rfl
  rw [h7] at hlen
  unfold cutGroup
  rw [hi]
  dsimp only
  cases hb : indexByte colon (raw.drop (idx + 7)) with
  | none =>
    simp only [List.length_take]
    omega
  | some e =>
    simp only [List.length_append, List.length_take, List.length_drop]
    omega

/-- The part of the raw topic before the first `:durable:`. -/
def beforeDurable (raw : Bytes) : Bytes :=
  raw.take ((index sepDurable raw).getD raw.length)

theorem beforeDurable_length_le (raw : Bytes) : (beforeDurable raw).length ≤ raw.length := by
  rw [beforeDurable, List.length_take]
  exact Nat.min_le_right _ _

theorem beforeDurable_length_lt {raw : Bytes} (h : sepDurable <:+: raw) :
    (beforeDurable raw).length < raw.length := by
  obtain ⟨idx, hi⟩ := Option.isSome_iff_exists.mp ((index_isSome_iff _ _).mpr h)
  have hlen := (index_eq_some hi).2
  have h9 : sepDurable.length = 9 := rfl
  simp only [beforeDurable, hi, Option.getD_some, List.length_take]
  omega

theorem beforeDurable_of_absent {raw : Bytes} (h : ¬ sepDurable <:+: raw) :
    beforeDurable raw = raw := by
  simp [beforeDurable, (index_eq_none_iff _ _).mpr h]

/-- A payload `topic:<raw>` with a non-empty rest is always accepted, and the
topic is the rest without its group and durable parts. -/
theorem parseSubscriptionPayload_topic {raw : Bytes} (hraw : raw ≠ []) :
    ∃ spec, parseSubscriptionPayload (prefixTopic ++ raw) = .ok spec ∧
      spec.topic = beforeDurable (cutGroup raw).1 := by
  have hlen : ¬ ((prefixTopic ++ raw).length < 6 ∨ (prefixTopic ++ raw).take 6 ≠ prefixTopic) := by
    have htake : (prefixTopic ++ raw).take 6 = prefixTopic := List.take_left' rfl
    simp [htake]
  have hdrop : (prefixTopic ++ raw).drop 6 = raw := List.drop_left' rfl
  obtain ⟨rest, hsplit⟩ := split_head sepDurable (cutGroup raw).1
  unfold parseSubscriptionPayload
  rw [if_neg hlen, hdrop, if_neg hraw]
  dsimp only
  rw [hsplit]
  cases rest with
  | nil => exact ⟨_, rfl, rfl⟩
  | cons durable rest =>
    dsimp only
    split
    · exact ⟨_, rfl, rfl⟩
    · exact ⟨_, rfl, rfl⟩

theorem parseSubscriptionPayload_ok {p : Bytes} {spec : SubscriptionSpec}
    (h : parseSubscriptionPayload p = .ok spec) :
    ∃ raw, p = prefixTopic ++ raw ∧ raw ≠ [] ∧ spec.topic = beforeDurable (cutGroup raw).1 := by
  by_cases hlen : p.length < 6 ∨ p.take 6 ≠ prefixTopic
  · simp [parseSubscriptionPayload, hlen] at h
  · by_cases hraw : p.drop 6 = []
    · simp [parseSubscriptionPayload, hlen, hraw] at h
    · have hp : p = prefixTopic ++ p.drop 6 := by
        have ht : p.take 6 = prefixTopic := by simpa using fun hc => hlen (Or.inr hc)
        rw [← ht, List.take_append_drop]
      obtain ⟨spec', h', ht⟩ := parseSubscriptionPayload_topic hraw
      rw [← hp, h] at h'
      cases h'
      exact ⟨p.drop 6, hp, hraw, ht⟩

/-- For subscribe frames the gate sees the group and durable parts as part of
the topic name. -/
theorem extractTopicBytes_eq_subscribe_iff (raw : Bytes) :
    raw = beforeDurable (cutGroup raw).1 ↔ ¬ sepGroup <:+: raw ∧ ¬ sepDurable <:+: raw := by
  constructor
  · intro h
    have hle := beforeDurable_length_le (cutGroup raw).1
    rw [← h] at hle
    have hg : ¬ sepGroup <:+: raw := fun hg => by
      have hlt := cutGroup_length_lt hg
      omega
    refine ⟨hg, fun hd => ?_⟩
    rw [cutGroup_of_absent hg] at h
    have hlt := beforeDurable_length_lt hd
    rw [← h] at hlt
    omega
  · rintro ⟨hg, hd⟩
    rw [cutGroup_of_absent hg, beforeDurable_of_absent hd]

/-- The payload subscribes with a group or durable part. -/
def Qualified (p : Bytes) : Prop :=
  ∃ raw, p = prefixTopic ++ raw ∧ (sepGroup <:+: raw ∨ sepDurable <:+: raw)

/-- **Topic agreement.** The authorised topic is the routed topic, on the
publish and on the subscribe side, exactly for payloads that carry no readable
`ttl:` prefix, are not the bare `topic:` prefix, and have no `:group:` or
`:durable:` part behind the prefix. -/
theorem topic_agreement_iff (now : Int64) (p : Bytes) :
    (extractTopicBytes p = (parsePublishTopic now p).2 ∧
      ∀ spec, parseSubscriptionPayload p = .ok spec → extractTopicBytes p = spec.topic) ↔
    ¬ TTLPrefixed p ∧ p ≠ prefixTopic ∧ ¬ Qualified p := by
  rw [extractTopicBytes_eq_publish_iff, and_assoc]
  refine and_congr_right fun _ => and_congr_right fun hp => ?_
  constructor
  · rintro h ⟨raw, rfl, hq⟩
    have hraw : raw ≠ [] := by rintro rfl; exact hp (List.append_nil _)
    obtain ⟨spec, hs, ht⟩ := parseSubscriptionPayload_topic hraw
    have he := h spec hs
    rw [extractTopicBytes_topic, ht] at he
    obtain ⟨hg, hd⟩ := (extractTopicBytes_eq_subscribe_iff raw).mp he
    exact hq.elim hg hd
  · intro hq spec hs
    obtain ⟨raw, rfl, -, ht⟩ := parseSubscriptionPayload_ok hs
    rw [extractTopicBytes_topic, ht]
    exact (extractTopicBytes_eq_subscribe_iff raw).mpr
      ⟨fun hg => hq ⟨raw, rfl, .inl hg⟩, fun hd => hq ⟨raw, rfl, .inr hd⟩⟩

/-- A publish to `ttl:60000:secret` is authorised under its whole payload and
routed to `secret`; a subscription to `topic:a:group:g` is authorised as
`a:group:g` and registered on `a`. -/
theorem topic_agreement_fails :
    extractTopicBytes (ascii "ttl:60000:secret") ≠
        (parsePublishTopic 0 (ascii "ttl:60000:secret")).2 ∧
      ¬ ∀ spec, parseSubscriptionPayload (ascii "topic:a:group:g") = .ok spec →
        extractTopicBytes (ascii "topic:a:group:g") = spec.topic := by
  refine ⟨by decide, fun h => ?_⟩
  have htopic := h ⟨ascii "a", false, [], 0, ascii "g"⟩ (by decide)
  exact absurd htopic (by decide)

end Aqueduct.Broker
