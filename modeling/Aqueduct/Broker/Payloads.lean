import Aqueduct.Broker.Tables
import Aqueduct.Lib.Decimal
import Aqueduct.Lib.Splitting

/-!
Payloads as clients write them. A publisher names a topic with or without the
`topic:` prefix and with or without a time to live; a subscriber may add a group
and a durable part in either order. `publisher_meets_subscriber` says that both
sides arrive at the same routing key; `subscription_payload_iff` says which
subscriptions are read as they were written. The group part is cut out before
anything else is looked at, so a consumer named `group` is taken for one.
-/

namespace Aqueduct.Broker

open ByteStr Protocol

/-! ## Publishing -/

def ttlPayload (ms : Int64) (rest : Bytes) : Bytes :=
  prefixTTL ++ (decimalInt ms.toInt ++ colon :: rest)

theorem colon_not_mem_decimal (n : Nat) : colon ∉ decimal n := not_mem_decimal (by decide) n

theorem parseTTL_ttlPayload (now : Int64) (ms : Int64) (rest : Bytes) :
    parseTTL now (ttlPayload ms rest) = (ttlDeadline now ms.toInt, rest) :=
  parseTTL_prefixed now _ rest ms.toInt (not_mem_decimalInt (by decide) (by decide) _)
    (parseInt_decimalInt ms)

/-- The payloads that publish to `t`. The bare forms are for names that do not
look like a prefix themselves. -/
inductive PublishForm (t : Bytes) : Bytes → Prop
  | topic : PublishForm t (prefixTopic ++ t)
  | ttlTopic (ms : Int64) : PublishForm t (ttlPayload ms (prefixTopic ++ t))
  | bare (htopic : ¬ prefixTopic <+: t) (httl : ¬ prefixTTL <+: t) : PublishForm t t
  | ttlBare (ms : Int64) (htopic : ¬ prefixTopic <+: t) (httl : ¬ prefixTTL <+: t) :
    PublishForm t (ttlPayload ms t)

theorem parsePublishTopic_of_rest {now : Int64} {p t : Bytes} (hne : t ≠ [])
    (h : (parseTTL now p).2 = prefixTopic ++ t ∨ (parseTTL now p).2 = t ∧ ¬ prefixTopic <+: t) :
    (parsePublishTopic now p).2 = t := by
  rw [parsePublishTopic_eq]
  rcases h with hrest | ⟨hrest, hplain⟩
  · have hpos := List.length_pos_of_ne_nil hne
    have hlen : 6 < (prefixTopic ++ t).length := by
      rw [List.length_append, prefixTopic_length]
      omega
    rw [hrest, if_pos ⟨isPrefixOf_prefixTopic.mpr ⟨t, rfl⟩, hlen⟩]
    exact List.drop_left' prefixTopic_length
  · rw [hrest, if_neg fun hc => hplain (List.isPrefixOf_iff_prefix.mp hc.1)]

theorem parseTTL_of_not_isPrefix (now : Int64) {p : Bytes} (h : ¬ prefixTTL <+: p) :
    parseTTL now p = (0, p) := by
  rw [parseTTL, if_neg (mt List.isPrefixOf_iff_prefix.mp h)]

theorem PublishForm.topic_eq (now : Int64) {t p : Bytes} (hne : t ≠ []) (h : PublishForm t p) :
    (parsePublishTopic now p).2 = t := by
  refine parsePublishTopic_of_rest hne ?_
  cases h with
  | topic =>
    have hplain : ¬ prefixTTL <+: prefixTopic ++ t := by
      rintro ⟨rest, hrest⟩
      have hsecond := congrArg (fun b : Bytes => b.getD 1 0) hrest
      simp [prefixTTL, prefixTopic, ascii] at hsecond
    rw [parseTTL_of_not_isPrefix now hplain]
    exact .inl rfl
  | ttlTopic ms =>
    rw [parseTTL_ttlPayload]
    exact .inl rfl
  | bare htopic httl =>
    rw [parseTTL_of_not_isPrefix now httl]
    exact .inr ⟨rfl, htopic⟩
  | ttlBare ms htopic httl =>
    rw [parseTTL_ttlPayload]
    exact .inr ⟨rfl, htopic⟩

/-- A subscriber without a group is entered under the key of its topic. -/
theorem Router.subscribe_topicIndex {frame : Frame} {spec : SubscriptionSpec}
    (h : parseSubscriptionPayload frame.payload = .ok spec) (hgroup : spec.groupID = [])
    (r : Router) (stream : Stream) :
    (r.subscribe stream frame).1.topicIndex (topicHashKey spec.topic) =
      r.topicIndex (topicHashKey spec.topic) ++ [r.streamIDs.length] := by
  obtain ⟨ds, hds⟩ := Router.registerSlot_tables (r.appendSlot stream frame.streamID spec)
    r.streamIDs.length spec
  rw [Router.subscribe_stages h, Router.register, hds, if_neg (not_not_intro hgroup)]
  exact if_pos rfl

/-! ## Reading a subscription -/

theorem sepGroup_eq : sepGroup = delimited colon (ascii "group") := rfl

theorem sepDurable_eq : sepDurable = delimited colon (ascii "durable") := rfl

def durablePart (c x : Bytes) : Bytes := sepDurable ++ (c ++ colon :: x)

section Parts

variable {t g c x : Bytes}

section Cut

variable {raw raw' : Bytes} (hraw : raw ≠ [])

include hraw

theorem parseSubscriptionPayload_checks :
    ¬ ((prefixTopic ++ raw).length < 6 ∨ (prefixTopic ++ raw).take 6 ≠ prefixTopic) ∧
      (prefixTopic ++ raw).drop 6 = raw ∧ raw ≠ [] := by
  have htake : (prefixTopic ++ raw).take 6 = prefixTopic := List.take_left' rfl
  refine ⟨?_, List.drop_left' rfl, hraw⟩
  simp [htake]

theorem parseSubscriptionPayload_plain (hcut : cutGroup raw = (raw', g))
    (h : ¬ sepDurable <:+: raw') :
    parseSubscriptionPayload (prefixTopic ++ raw) = .ok ⟨raw', false, [], 0, g⟩ := by
  obtain ⟨hfront, hdrop, hne⟩ := parseSubscriptionPayload_checks hraw
  rw [parseSubscriptionPayload, if_neg hfront, hdrop, if_neg hne, hcut]
  dsimp only
  rw [split_of_absent ((index_eq_none_iff _ _).mpr h)]
  rfl

theorem parseSubscriptionPayload_durable (hcut : cutGroup raw = (t ++ durablePart c x, g))
    (ht : colon ∉ t) (hc : colon ∉ c) (hx : colon ∉ x) :
    parseSubscriptionPayload (prefixTopic ++ raw) = .ok ⟨t, true, c, parseUintValue x, g⟩ := by
  have hindex : index sepDurable (t ++ durablePart c x) = some t.length := by
    have hzero : index sepDurable (durablePart c x) = some 0 := index_eq_zero ⟨_, rfl⟩
    rw [sepDurable_eq, delimited, index_append_of_not_mem ht, ← delimited, ← sepDurable_eq, hzero,
      Option.map_some, Nat.zero_add]
  have hrest : (t ++ durablePart c x).drop (t.length + sepDurable.length) = c ++ colon :: x := by
    rw [← List.drop_drop, List.drop_left, durablePart, List.drop_left]
  have hnone : index sepDurable (c ++ colon :: x) = none := by
    rw [sepDurable_eq, delimited, index_append_of_not_mem hc, ← delimited, index_delimited_last hx]
    rfl
  have hfields : split [colon] (c ++ colon :: x) = [c, x] := by
    rw [split_byte, List.splitOn_append_cons_self_of_not_mem hc, List.splitOn_eq_singleton hx]
  obtain ⟨hfront, hdrop, hne⟩ := parseSubscriptionPayload_checks hraw
  rw [parseSubscriptionPayload, if_neg hfront, hdrop, if_neg hne, hcut]
  dsimp only
  rw [split_of_index (by decide) hindex, List.take_left, hrest, split_of_absent hnone]
  dsimp only
  rw [hfields]

end Cut

theorem cutGroup_last (h : index sepGroup (t ++ (sepGroup ++ g)) = some t.length) (hg : colon ∉ g) :
    cutGroup (t ++ (sepGroup ++ g)) = (t, g) := by
  have hdrop : (t ++ (sepGroup ++ g)).drop (t.length + 7) = g := by
    rw [← List.drop_drop, List.drop_left]
    exact List.drop_left' rfl
  have hnone : indexByte colon g = none := by
    cases hi : indexByte colon g with
    | none => rfl
    | some i =>
      obtain ⟨pre, post, rfl, -, -⟩ := indexByte_eq_some_iff.mp hi
      exact absurd (List.mem_append_right pre List.mem_cons_self) hg
  rw [cutGroup, h]
  dsimp only
  rw [hdrop, hnone, List.take_left]

theorem cutGroup_field {rest : Bytes}
    (h : index sepGroup (t ++ (sepGroup ++ (g ++ colon :: rest))) = some t.length)
    (hg : colon ∉ g) :
    cutGroup (t ++ (sepGroup ++ (g ++ colon :: rest))) = (t ++ colon :: rest, g) := by
  have hdrop : (t ++ (sepGroup ++ (g ++ colon :: rest))).drop (t.length + 7) = g ++ colon :: rest := by
    rw [← List.drop_drop, List.drop_left]
    exact List.drop_left' rfl
  rw [cutGroup, h]
  dsimp only
  rw [hdrop, indexByte_eq_some_iff.mpr ⟨g, rest, rfl, hg, rfl⟩]
  dsimp only
  rw [List.take_left, List.take_left, List.drop_left]

/-- The first delimiter behind a name is where the search begins. -/
theorem index_sepGroup_append (ht : colon ∉ t) (s : Bytes) :
    index sepGroup (t ++ s) = (index sepGroup s).map (· + t.length) :=
  index_append_of_not_mem ht s

theorem index_sepGroup_group (s : Bytes) : index sepGroup (sepGroup ++ s) = some 0 :=
  index_eq_zero ⟨s, rfl⟩

/-- A durable part hides a group part only in the consumer's name. -/
theorem index_sepGroup_durable (hc : colon ∉ c) (s : Bytes) :
    index sepGroup (durablePart c s) =
      if c = ascii "group" then some 8
      else (index sepGroup (colon :: s)).map (· + (c.length + 9)) := by
  have hkey : colon ∉ ascii "group" := by decide
  have hword : colon ∉ ascii "durable" := by decide
  have hshape : durablePart c s = colon :: (ascii "durable" ++ colon :: (c ++ colon :: s)) := rfl
  rw [hshape, sepGroup_eq, index_delimited_field hkey hword, if_neg (by decide),
    index_delimited_field hkey hc]
  split
  · rfl
  · rw [Option.map_map]
    congr 1

end Parts

/-! ## Subscriptions as written -/

/-- A name a client may use in a subscription. -/
def Name (n : Bytes) : Prop := n ≠ [] ∧ colon ∉ n

inductive Qualifiers
  | none
  | group (g : Bytes)
  | durable (c : Bytes) (o : UInt64)
  | groupDurable (g c : Bytes) (o : UInt64)
  | durableGroup (c : Bytes) (o : UInt64) (g : Bytes)

namespace Qualifiers

def text : Qualifiers → Bytes
  | none => []
  | group g => sepGroup ++ g
  | durable c o => durablePart c (decimal o.toNat)
  | groupDurable g c o => sepGroup ++ (g ++ durablePart c (decimal o.toNat))
  | durableGroup c o g => durablePart c (decimal o.toNat ++ (sepGroup ++ g))

/-- What is meant by a topic with these qualifiers. -/
def spec (t : Bytes) : Qualifiers → SubscriptionSpec
  | none => ⟨t, false, [], 0, []⟩
  | group g => ⟨t, false, [], 0, g⟩
  | durable c o => ⟨t, true, c, o, []⟩
  | groupDurable g c o | durableGroup c o g => ⟨t, true, c, o, g⟩

def Named : Qualifiers → Prop
  | none => True
  | group g => Name g
  | durable c _ => Name c
  | groupDurable g c _ | durableGroup c _ g => Name g ∧ Name c

/-- A consumer named `group` stands before any group part. What follows it is
then taken for the group, which is right only if the group behind it is named
like the offset. -/
def Misread : Qualifiers → Prop
  | none | group _ | groupDurable .. => False
  | durable c _ => c = ascii "group"
  | durableGroup c o g => c = ascii "group" ∧ g ≠ decimal o.toNat

end Qualifiers

theorem parseUintValue_decimal (o : UInt64) : parseUintValue (decimal o.toNat) = o := by
  rw [parseUintValue, parseUint_decimal o.toNat_lt]
  exact UInt64.ofNat_toNat

section Forms

variable {t g c : Bytes} (ht : Name t)

include ht

theorem parse_group (hg : colon ∉ g) :
    parseSubscriptionPayload (prefixTopic ++ (t ++ (sepGroup ++ g))) =
      .ok ⟨t, false, [], 0, g⟩ := by
  have hindex : index sepGroup (t ++ (sepGroup ++ g)) = some t.length := by
    rw [index_sepGroup_append ht.2, index_sepGroup_group, Option.map_some, Nat.zero_add]
  refine parseSubscriptionPayload_plain (by simp [ht.1]) (cutGroup_last hindex hg) fun hin => ?_
  exact ht.2 (hin.subset (by decide))

theorem parse_groupDurable (hg : colon ∉ g) (hc : colon ∉ c) (o : UInt64) :
    parseSubscriptionPayload
        (prefixTopic ++ (t ++ (sepGroup ++ (g ++ durablePart c (decimal o.toNat))))) =
      .ok ⟨t, true, c, o, g⟩ := by
  have hindex : index sepGroup (t ++ (sepGroup ++ (g ++ durablePart c (decimal o.toNat)))) =
      some t.length := by
    rw [index_sepGroup_append ht.2, index_sepGroup_group, Option.map_some, Nat.zero_add]
  have hcut : cutGroup (t ++ (sepGroup ++ (g ++ durablePart c (decimal o.toNat)))) =
      (t ++ durablePart c (decimal o.toNat), g) := cutGroup_field hindex hg
  have hparse := parseSubscriptionPayload_durable (by simp [ht.1]) hcut ht.2 hc
    (colon_not_mem_decimal o.toNat)
  rw [parseUintValue_decimal] at hparse
  exact hparse

theorem parse_durable (hc : colon ∉ c) (hgroup : c ≠ ascii "group") (o : UInt64) :
    parseSubscriptionPayload (prefixTopic ++ (t ++ durablePart c (decimal o.toNat))) =
      .ok ⟨t, true, c, o, []⟩ := by
  have hindex : index sepGroup (t ++ durablePart c (decimal o.toNat)) = Option.none := by
    rw [index_sepGroup_append ht.2, index_sepGroup_durable hc, if_neg hgroup, sepGroup_eq,
      index_delimited_last (colon_not_mem_decimal _)]
    rfl
  have hcut := cutGroup_of_absent ((index_eq_none_iff _ _).mp hindex)
  have hparse := parseSubscriptionPayload_durable (by simp [ht.1]) hcut ht.2 hc
    (colon_not_mem_decimal o.toNat)
  rw [parseUintValue_decimal] at hparse
  exact hparse

/-- With a consumer named `group`, the offset is taken for the group. -/
theorem parse_durable_group (o : UInt64) :
    parseSubscriptionPayload (prefixTopic ++ (t ++ durablePart (ascii "group") (decimal o.toNat))) =
      .ok ⟨t ++ ascii ":durable", false, [], 0, decimal o.toNat⟩ := by
  have hshape : t ++ durablePart (ascii "group") (decimal o.toNat) =
      (t ++ ascii ":durable") ++ (sepGroup ++ decimal o.toNat) := by
    rw [List.append_assoc]
    rfl
  have hindex : index sepGroup (t ++ durablePart (ascii "group") (decimal o.toNat)) =
      some (t ++ ascii ":durable").length := by
    rw [index_sepGroup_append ht.2, index_sepGroup_durable (by decide), if_pos rfl,
      List.length_append, Nat.add_comm]
    rfl
  rw [hshape] at hindex ⊢
  refine parseSubscriptionPayload_plain (by simp [ht.1])
    (cutGroup_last hindex (colon_not_mem_decimal _)) ?_
  rw [← index_eq_none_iff, sepDurable_eq, delimited, index_append_of_not_mem ht.2]
  rfl

theorem parse_durableGroup (hg : colon ∉ g) (hc : colon ∉ c) (hgroup : c ≠ ascii "group")
    (o : UInt64) :
    parseSubscriptionPayload
        (prefixTopic ++ (t ++ durablePart c (decimal o.toNat ++ (sepGroup ++ g)))) =
      .ok ⟨t, true, c, o, g⟩ := by
  have hshape : t ++ durablePart c (decimal o.toNat ++ (sepGroup ++ g)) =
      (t ++ durablePart c (decimal o.toNat)) ++ (sepGroup ++ g) := by
    simp [durablePart]
  have hdigits : decimal o.toNat ≠ ascii "group" := by
    intro heq
    have hmem : (103 : UInt8) ∈ decimal o.toNat := by
      rw [heq]
      decide
    exact not_mem_decimal (by decide) _ hmem
  have hindex : index sepGroup (t ++ durablePart c (decimal o.toNat ++ (sepGroup ++ g))) =
      some (t ++ durablePart c (decimal o.toNat)).length := by
    have hafter : index sepGroup (colon :: (decimal o.toNat ++ (sepGroup ++ g))) =
        some ((decimal o.toNat).length + 1) := by
      have hstep := index_delimited_field (k := ascii "group") (by decide)
        (colon_not_mem_decimal o.toNat) (ascii "group" ++ colon :: g)
      rw [if_neg hdigits] at hstep
      have hzero : index sepGroup (colon :: (ascii "group" ++ colon :: g)) = some 0 :=
        index_eq_zero ⟨g, rfl⟩
      rw [← sepGroup_eq, hzero, Option.map_some, Nat.zero_add] at hstep
      exact hstep
    rw [index_sepGroup_append ht.2, index_sepGroup_durable hc, if_neg hgroup, hafter,
      Option.map_some, Option.map_some, Option.some.injEq]
    simp only [durablePart, List.length_append, List.length_cons, sepDurable_eq, delimited,
      show (ascii "durable").length = 7 from rfl, List.length_nil]
    omega
  rw [hshape] at hindex ⊢
  have hparse := parseSubscriptionPayload_durable (by simp [ht.1]) (cutGroup_last hindex hg) ht.2 hc
    (colon_not_mem_decimal o.toNat)
  rw [parseUintValue_decimal] at hparse
  exact hparse

/-- With a consumer named `group`, offset and group change places. -/
theorem parse_durableGroup_group (hg : colon ∉ g) (o : UInt64) :
    parseSubscriptionPayload
        (prefixTopic ++ (t ++ durablePart (ascii "group") (decimal o.toNat ++ (sepGroup ++ g)))) =
      .ok ⟨t, true, ascii "group", parseUintValue g, decimal o.toNat⟩ := by
  have hshape : t ++ durablePart (ascii "group") (decimal o.toNat ++ (sepGroup ++ g)) =
      (t ++ ascii ":durable") ++
        (sepGroup ++ (decimal o.toNat ++ colon :: (ascii "group" ++ colon :: g))) := by
    rw [List.append_assoc]
    rfl
  have hindex : index sepGroup
      (t ++ durablePart (ascii "group") (decimal o.toNat ++ (sepGroup ++ g))) =
      some (t ++ ascii ":durable").length := by
    rw [index_sepGroup_append ht.2, index_sepGroup_durable (by decide), if_pos rfl,
      List.length_append, Nat.add_comm]
    rfl
  rw [hshape] at hindex ⊢
  have hcut := cutGroup_field hindex (colon_not_mem_decimal _)
  have hrest : t ++ ascii ":durable" ++ colon :: (ascii "group" ++ colon :: g) =
      t ++ durablePart (ascii "group") g := by
    rw [List.append_assoc]
    rfl
  rw [hrest] at hcut
  exact parseSubscriptionPayload_durable (by simp [ht.1]) hcut ht.2 (by decide) hg

end Forms

/-- What is read is what was written, unless it is misread. -/
theorem parse_written_iff {t : Bytes} (ht : Name t) {q : Qualifiers} (hq : q.Named) :
    parseSubscriptionPayload (prefixTopic ++ (t ++ q.text)) = .ok (q.spec t) ↔ ¬ q.Misread := by
  cases q with
  | none =>
    have hcut : cutGroup (t ++ Qualifiers.none.text) = (t, []) := by
      rw [show t ++ Qualifiers.none.text = t from List.append_nil t]
      exact cutGroup_of_absent fun hin => ht.2 (hin.subset (by decide))
    have hplain := parseSubscriptionPayload_plain (by simp [ht.1]) hcut
      fun hin => ht.2 (hin.subset (by decide))
    exact iff_of_true hplain id
  | group g => exact iff_of_true (parse_group ht hq.2) id
  | groupDurable g c o => exact iff_of_true (parse_groupDurable ht hq.1.2 hq.2.2 o) id
  | durable c o =>
    by_cases hc : c = ascii "group"
    · subst hc
      refine iff_of_false (fun hread => ?_) (not_not_intro rfl)
      have hwrong := (parse_durable_group ht o).symm.trans hread
      rw [Except.ok.injEq, Qualifiers.spec, SubscriptionSpec.mk.injEq] at hwrong
      cases hwrong.2.1
    · exact iff_of_true (parse_durable ht hq.2 hc o) hc
  | durableGroup c o g =>
    by_cases hc : c = ascii "group"
    · subst hc
      have hread := parse_durableGroup_group ht hq.1.2 o
      constructor
      · rintro hspec ⟨-, hne⟩
        have heq := hread.symm.trans hspec
        rw [Except.ok.injEq, Qualifiers.spec, SubscriptionSpec.mk.injEq] at heq
        exact hne heq.2.2.2.2.symm
      · intro hsame
        have heq : g = decimal o.toNat := by
          by_contra hne
          exact hsame ⟨rfl, hne⟩
        subst heq
        rw [parseUintValue_decimal] at hread
        exact hread
    · exact iff_of_true (parse_durableGroup ht hq.1.2 hq.2.2 hc o) fun hm => hc hm.1

/-! ## Subscriptions without a topic -/

theorem beforeDurable_eq_nil_iff (raw : Bytes) :
    beforeDurable raw = [] ↔ raw = [] ∨ sepDurable <+: raw := by
  rw [beforeDurable, List.take_eq_nil_iff]
  constructor
  · rintro (hzero | hnil)
    · cases hi : index sepDurable raw with
      | none =>
        rw [hi] at hzero
        exact .inl (List.eq_nil_of_length_eq_zero hzero)
      | some i =>
        rw [hi] at hzero
        have hprefix := (index_eq_some hi).1
        rw [show i = 0 from hzero] at hprefix
        exact .inr hprefix
    · exact .inl hnil
  · rintro (hnil | hprefix)
    · exact .inr hnil
    · rw [index_eq_zero hprefix]
      exact .inl rfl

/-- A durable separator that runs into another delimiter ends or begins there. -/
theorem sepDurable_prefix_iff (pre s : Bytes) : sepDurable <+: pre ++ colon :: s ↔
    sepDurable <+: pre ∨ pre = ascii ":durable" ∨ pre = [] ∧ sepDurable <+: colon :: s := by
  constructor
  · intro h
    by_cases hlen : 9 ≤ pre.length
    · exact .inl (List.prefix_of_prefix_length_le h (List.prefix_append _ _) hlen)
    have hshort : pre.length < sepDurable.length := Nat.lt_of_not_le hlen
    -- the bytes before the delimiter are its front, so the delimiter is one of its two
    obtain ⟨post, hpost⟩ := h
    have hcolon := congrArg (fun b : Bytes => b[pre.length]?) hpost
    have hpre := congrArg (List.take pre.length) hpost
    rw [List.getElem?_append_left hshort, List.getElem?_append_right (Nat.le_refl _), Nat.sub_self,
      List.getElem?_cons_zero] at hcolon
    rw [List.take_left, List.take_append_of_le_length (Nat.le_of_lt hshort)] at hpre
    have hends : ∀ n < sepDurable.length, sepDurable[n]? = some colon →
        sepDurable.take n = ascii ":durable" ∨ sepDurable.take n = [] := by decide
    rcases hends _ hshort hcolon with hend | hbegin
    · exact .inr (.inl (hpre.symm.trans hend))
    · obtain rfl := hpre.symm.trans hbegin
      exact .inr (.inr ⟨rfl, post, hpost⟩)
  · rintro (hpre | rfl | ⟨rfl, hs⟩)
    · exact hpre.trans (List.prefix_append _ _)
    · exact ⟨s, rfl⟩
    · exact hs

theorem sepDurable_prefix_group_iff (pre rest : Bytes) : sepDurable <+: pre ++ (sepGroup ++ rest) ↔
    sepDurable <+: pre ∨ pre = ascii ":durable" := by
  have hno : ¬ sepDurable <+: sepGroup ++ rest := by
    rintro ⟨post, hpost⟩
    have hsecond := congrArg (fun b : Bytes => b.getD 1 0) hpost
    simp [sepDurable, sepGroup, ascii] at hsecond
  rw [show sepGroup ++ rest = colon :: (ascii "group" ++ colon :: rest) from rfl] at hno ⊢
  rw [sepDurable_prefix_iff]
  exact or_congr_right (or_iff_left fun hc => hno hc.2)

/-- The texts behind `topic:` that name no topic: a group alone, a group and a
durable part, or a durable part, unless all it has is a group. -/
def NoTopic (raw : Bytes) : Prop :=
  (∃ g, raw = sepGroup ++ g ∧ colon ∉ g) ∨
    (∃ g x, raw = sepGroup ++ (g ++ (sepDurable ++ x)) ∧ colon ∉ g) ∨
    (sepDurable <+: raw ∧ ¬ ∃ g, raw = ascii ":durable" ++ (sepGroup ++ g) ∧ colon ∉ g)

theorem noTopic_of_absent {raw : Bytes} (h : ¬ sepGroup <:+: raw) :
    NoTopic raw ↔ sepDurable <+: raw := by
  constructor
  · rintro (⟨g, rfl, -⟩ | ⟨g, x, rfl, -⟩ | ⟨hd, -⟩)
    · exact absurd (List.prefix_append _ _).isInfix h
    · exact absurd (List.prefix_append _ _).isInfix h
    · exact hd
  · intro hd
    refine .inr (.inr ⟨hd, ?_⟩)
    rintro ⟨g, rfl, -⟩
    exact h ⟨ascii ":durable", g, List.append_assoc ..⟩

/-- The same, by what stands around the first group part. -/
theorem noTopic_around {pre rest : Bytes}
    (h : index sepGroup (pre ++ (sepGroup ++ rest)) = some pre.length) :
    NoTopic (pre ++ (sepGroup ++ rest)) ↔
      pre = [] ∧ colon ∉ rest ∨ (pre = [] ∧ ∃ g x, rest = g ++ (sepDurable ++ x) ∧ colon ∉ g) ∨
        sepDurable <+: pre ∨ pre = ascii ":durable" ∧ colon ∈ rest := by
  have hfront : ∀ g, pre ++ (sepGroup ++ rest) = sepGroup ++ g ↔ pre = [] ∧ rest = g := by
    intro g
    have hindex : index sepGroup ([] ++ (sepGroup ++ g)) = some ([] : Bytes).length :=
      index_sepGroup_group g
    exact append_sep_inj h hindex
  have hbehind : ∀ g, pre ++ (sepGroup ++ rest) = ascii ":durable" ++ (sepGroup ++ g) ↔
      pre = ascii ":durable" ∧ rest = g := by
    intro g
    have hindex : index sepGroup (ascii ":durable" ++ (sepGroup ++ g)) = some 8 :=
      index_sepGroup_durable (c := ascii "group") (by decide) g
    exact append_sep_inj h hindex
  have hdurable := sepDurable_prefix_group_iff pre rest
  constructor
  · rintro (⟨g, hg, hc⟩ | ⟨g, x, hgx, hc⟩ | ⟨hd, hmore⟩)
    · obtain ⟨hpre, rfl⟩ := (hfront g).mp hg
      exact .inl ⟨hpre, hc⟩
    · obtain ⟨hpre, hrest⟩ := (hfront _).mp hgx
      exact .inr (.inl ⟨hpre, g, x, hrest, hc⟩)
    · rcases hdurable.mp hd with hpre | hpre
      · exact .inr (.inr (.inl hpre))
      · refine .inr (.inr (.inr ⟨hpre, ?_⟩))
        by_contra hc
        exact hmore ⟨rest, (hbehind rest).mpr ⟨hpre, rfl⟩, hc⟩
  · rintro (⟨hpre, hc⟩ | ⟨hpre, g, x, hrest, hc⟩ | hpre | ⟨hpre, hc⟩)
    · exact .inl ⟨rest, (hfront rest).mpr ⟨hpre, rfl⟩, hc⟩
    · exact .inr (.inl ⟨g, x, (hfront _).mpr ⟨hpre, hrest⟩, hc⟩)
    · refine .inr (.inr ⟨hdurable.mpr (.inl hpre), ?_⟩)
      rintro ⟨g, hg, -⟩
      rw [((hbehind g).mp hg).1] at hpre
      exact absurd hpre (by decide)
    · refine .inr (.inr ⟨hdurable.mpr (.inr hpre), ?_⟩)
      rintro ⟨g, hg, hcg⟩
      exact hcg (((hbehind g).mp hg).2 ▸ hc)

theorem topic_eq_nil_iff {raw : Bytes} (hraw : raw ≠ []) :
    beforeDurable (cutGroup raw).1 = [] ↔ NoTopic raw := by
  rw [beforeDurable_eq_nil_iff]
  cases hi : index sepGroup raw with
  | none =>
    have habsent := (index_eq_none_iff _ _).mp hi
    rw [cutGroup_of_absent habsent, noTopic_of_absent habsent]
    exact or_iff_right hraw
  | some i =>
    obtain ⟨pre, rest, rfl, rfl⟩ := index_eq_some_append hi
    rw [noTopic_around hi]
    by_cases hc : colon ∈ rest
    · obtain ⟨g, more, rfl, hg⟩ := List.eq_append_cons_of_mem hc
      have hnext : (∃ g' x, g ++ colon :: more = g' ++ (sepDurable ++ x) ∧ colon ∉ g') ↔
          sepDurable <+: colon :: more := by
        constructor
        · rintro ⟨g', x, heq, hg'⟩
          obtain ⟨-, hmore⟩ := append_cons_inj (t := ascii "durable" ++ colon :: x) hg hg' heq
          rw [hmore]
          exact ⟨x, rfl⟩
        · rintro ⟨x, hx⟩
          exact ⟨g, x, by rw [hx], hg⟩
      rw [cutGroup_field hi hg, sepDurable_prefix_iff, hnext]
      constructor
      · rintro (hnil | hpre | hpre | hpre)
        · exact absurd hnil (by simp)
        · exact .inr (.inr (.inl hpre))
        · exact .inr (.inr (.inr ⟨hpre, hc⟩))
        · exact .inr (.inl hpre)
      · rintro (hpre | hpre | hpre | hpre)
        · exact absurd hc hpre.2
        · exact .inr (.inr (.inr hpre))
        · exact .inr (.inl hpre)
        · exact .inr (.inr (.inl hpre.1))
    · rw [cutGroup_last hi hc]
      constructor
      · rintro (hpre | hpre)
        · exact .inl ⟨hpre, hc⟩
        · exact .inr (.inr (.inl hpre))
      · rintro (hpre | ⟨-, g, x, rfl, -⟩ | hpre | hpre)
        · exact .inl hpre.1
        · exact absurd (List.mem_append_right g (List.mem_append_left x (by decide))) hc
        · exact .inr hpre
        · exact absurd hpre.2 hc

/-! ## Results -/

/-- **One routing key.** Every form of publishing to a topic routes under the
key that a subscription to it is entered under. -/
theorem publisher_meets_subscriber (now : Int64) {t : Bytes} (hne : t ≠ [])
    (hgroup : ¬ sepGroup <:+: t) (hdurable : ¬ sepDurable <:+: t) :
    ∃ spec, parseSubscriptionPayload (prefixTopic ++ t) = .ok spec ∧ spec.topic = t ∧
      ∀ p, PublishForm t p → (parsePublishTopic now p).2 = t ∧
        topicHashKey (parsePublishTopic now p).2 = topicHashKey spec.topic ∧
        ∀ (r : Router) (stream : Stream) (frame : Frame), frame.payload = prefixTopic ++ t →
          r.streamIDs.length ∈ (r.subscribe stream frame).1.topicIndex
            (topicHashKey (parsePublishTopic now p).2) := by
  have hparse := parseSubscriptionPayload_plain hne (cutGroup_of_absent hgroup) hdurable
  refine ⟨_, hparse, rfl, fun p hp => ?_⟩
  have htopic := hp.topic_eq now hne
  rw [htopic]
  refine ⟨rfl, rfl, fun r stream frame hframe => ?_⟩
  rw [← hframe] at hparse
  have hindex := Router.subscribe_topicIndex hparse rfl r stream
  dsimp only at hindex
  rw [hindex]
  exact List.mem_append_right _ (List.mem_singleton.mpr rfl)

/-- Four ways to publish to `a:b`, one subscription. -/
theorem four_forms_meet :
    ∃ spec, parseSubscriptionPayload (ascii "topic:a:b") = .ok spec ∧ spec.topic = ascii "a:b" ∧
      ∀ p ∈ [ascii "topic:a:b", ascii "ttl:-5:topic:a:b", ascii "a:b", ascii "ttl:60000:a:b"],
        topicHashKey (parsePublishTopic 0 p).2 = topicHashKey spec.topic := by
  obtain ⟨spec, hparse, htopic, hforms⟩ := publisher_meets_subscriber 0 (t := ascii "a:b")
    (by decide) (by decide) (by decide)
  have hnot : ¬ prefixTopic <+: ascii "a:b" ∧ ¬ prefixTTL <+: ascii "a:b" := by decide
  refine ⟨spec, hparse, htopic, fun p hp => (hforms p ?_).2.1⟩
  have hpast : ascii "ttl:-5:topic:a:b" = ttlPayload (-5) (prefixTopic ++ ascii "a:b") := by decide
  have hminute : ascii "ttl:60000:a:b" = ttlPayload 60000 (ascii "a:b") := by decide
  simp only [List.mem_cons, List.not_mem_nil, or_false] at hp
  rcases hp with rfl | rfl | rfl | rfl
  · exact .topic
  · exact hpast ▸ .ttlTopic (-5)
  · exact .bare hnot.1 hnot.2
  · exact hminute ▸ .ttlBare 60000 hnot.1 hnot.2

/-- **Subscription payloads.** A subscription is read as it was written exactly
if no consumer named `group` stands before the group part, and an accepted
payload names a topic exactly if one stands before the parts. -/
theorem subscription_payload_iff {t : Bytes} (ht : Name t) {q : Qualifiers} (hq : q.Named)
    {raw : Bytes} {spec : SubscriptionSpec}
    (h : parseSubscriptionPayload (prefixTopic ++ raw) = .ok spec) :
    (parseSubscriptionPayload (prefixTopic ++ (t ++ q.text)) = .ok (q.spec t) ↔ ¬ q.Misread) ∧
      (spec.topic ≠ [] ↔ ¬ NoTopic raw) := by
  obtain ⟨raw', heq, hraw, htopic⟩ := parseSubscriptionPayload_ok h
  obtain rfl := List.append_cancel_left heq
  refine ⟨parse_written_iff ht hq, not_congr ?_⟩
  rw [htopic]
  exact topic_eq_nil_iff hraw

/-- A member `durable` of a group `group` on the topic `topic`. -/
theorem keywords_as_names :
    parseSubscriptionPayload (ascii "topic:topic:group:group:durable:durable:7") =
      .ok ⟨ascii "topic", true, ascii "durable", 7, ascii "group"⟩ := by
  have ht : Name (ascii "topic") := by unfold Name; decide
  have hg : Name (ascii "group") := by unfold Name; decide
  have hc : Name (ascii "durable") := by unfold Name; decide
  have hplain : parseSubscriptionPayload (prefixTopic ++ ascii "t") =
      .ok ⟨ascii "t", false, [], 0, []⟩ := by decide +kernel
  exact (subscription_payload_iff ht (q := .groupDurable (ascii "group") (ascii "durable") 7)
    ⟨hg, hc⟩ hplain).1.mpr id

/-- The consumer `group` at offset 5 becomes the group `5` on `t:durable`, and a
group alone is a subscription to the empty topic. -/
theorem consumer_named_group :
    parseSubscriptionPayload (ascii "topic:t:durable:group:5") =
        .ok ⟨ascii "t:durable", false, [], 0, ascii "5"⟩ ∧
      parseSubscriptionPayload (ascii "topic::group:g") = .ok ⟨[], false, [], 0, ascii "g"⟩ := by
  decide +kernel

end Aqueduct.Broker
