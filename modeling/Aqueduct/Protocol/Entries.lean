import Aqueduct.Lib.Tlv
import Aqueduct.Protocol.Codec

/-!
The scans of `extensions.go` in terms of the entries of a block. Any bytes
behind the length prefix are whole entries and a rest (`Tlv.entries`,
`Tlv.rest`). `FindExtension` looks the type up among the entries
(`findExtension_blockOf`); `StripExtension` leaves the entries of other types,
unless the rest is the start of such an entry: then it copies bytes that are
not there and panics (`stripExtension_blockOf`).
-/

namespace Aqueduct.Protocol

open ByteStr Tlv

/-- The block with these bytes behind its length prefix. -/
def blockOf (src : Bytes) : Bytes := toLE 2 src.length ++ src

/-- The block of some entries; nil without entries. -/
def entryBlock (es : List Entry) : Bytes := if es = [] then [] else blockOf (encode es)

theorem blockOf_length (src : Bytes) : (blockOf src).length = extBlockSize src.length := by
  rw [blockOf, List.length_append, toLE_length]
  rfl

theorem extTotalLen_blockOf {src : Bytes} (h : src.length < 65536) :
    extTotalLen (blockOf src) 0 = src.length := by
  rw [extTotalLen, blockOf, slice_append_left (toLE_length 2 _), le_toLE 2 _ h]

theorem slice_blockOf (src : Bytes) : slice (blockOf src) extHeaderLen src.length = src := by
  have hright := slice_append_right (b := src) (n := src.length) (toLE_length 2 src.length) 0
  rw [Nat.add_zero] at hright
  rw [blockOf, extHeaderLen, hright, slice, List.drop_zero, List.take_length]

/-- The blocks a frame can carry. -/
theorem extBlock_iff (ext : Bytes) :
    ExtBlock ext ↔ ∃ src, src.length ≤ maxExtTotalLen ∧ ext = blockOf src := by
  constructor
  · rintro ⟨hsize, hmax⟩
    have hlen : (ext.drop 2).length = extTotalLen ext 0 := by
      rw [List.length_drop, hsize, extBlockSize, extHeaderLen]
      omega
    refine ⟨ext.drop 2, by omega, ?_⟩
    have htwo : (slice ext 0 2).length = 2 := by
      apply slice_length
      rw [hsize, extBlockSize, extHeaderLen]
      omega
    have hprefix := toLE_le (slice ext 0 2)
    rw [htwo] at hprefix
    rw [blockOf, hlen, extTotalLen, hprefix, slice, List.drop_zero, List.take_append_drop]
  · rintro ⟨src, hmax, rfl⟩
    have hlt : src.length < 65536 := Nat.lt_of_le_of_lt hmax (by decide)
    rw [ExtBlock, extTotalLen_blockOf hlt]
    exact ⟨blockOf_length src, hmax⟩

/-! ## Lookup -/

theorem getD_front (pre b : Bytes) : (pre ++ b).getD pre.length 0 = b.getD 0 0 :=
  getD_append_add pre b 0

theorem getD_typ (pre : Bytes) (e : Entry) (b : Bytes) :
    (pre ++ (e.encode ++ b)).getD pre.length 0 = e.typ := getD_front pre (e.encode ++ b)

theorem getD_lenByte (pre : Bytes) (e : Entry) (b : Bytes) :
    (pre ++ (e.encode ++ b)).getD (pre.length + 1) 0 = UInt8.ofNat e.value.length :=
  getD_append_add pre (e.encode ++ b) 1

theorem getD_len (pre : Bytes) (e : Entry) (b : Bytes) :
    ((pre ++ (e.encode ++ b)).getD (pre.length + 1) 0).toNat = e.value.length := by
  rw [getD_lenByte, e.lengthByte]

theorem length_entry (pre : Bytes) (e : Entry) (b : Bytes) :
    (pre ++ (e.encode ++ b)).length = pre.length + (2 + e.value.length + b.length) := by
  simp only [List.length_append, Entry.encode_length]

theorem length_next (pre : Bytes) (e : Entry) :
    pre.length + (extEntryHeader + e.value.length) = (pre ++ e.encode).length := by
  rw [List.length_append, Entry.encode_length, extEntryHeader]

theorem slice_value (pre : Bytes) (e : Entry) (b : Bytes) :
    slice (pre ++ (e.encode ++ b)) (pre.length + extEntryHeader) e.value.length = e.value := by
  have hright := slice_append_right (a := pre) (b := e.encode ++ b) (n := e.value.length) rfl 2
  rw [extEntryHeader, hright]
  show slice (e.value ++ b) 0 e.value.length = e.value
  exact slice_append_left rfl

theorem findExtensionLoop_entry (pre : Bytes) (e : Entry) (b : Bytes) (typ : ExtensionType)
    (fuel : Nat) :
    findExtensionLoop (pre ++ (e.encode ++ b)) typ (pre ++ (e.encode ++ b)).length (fuel + 1)
        pre.length =
      if e.typ = typ ∧ e.value ≠ [] then some e.value
      else findExtensionLoop (pre ++ e.encode ++ b) typ (pre ++ e.encode ++ b).length fuel
        (pre ++ e.encode).length := by
  have hlen := length_entry pre e b
  rw [List.append_assoc, ← length_next, ← Nat.add_assoc]
  conv_lhs => unfold findExtensionLoop
  rw [if_pos (by omega), if_neg (by rw [extEntryHeader]; omega)]
  dsimp only
  rw [getD_typ, getD_len, slice_value]
  by_cases hempty : e.value.length = 0
  · have hnil : e.value = [] := List.eq_nil_of_length_eq_zero hempty
    rw [if_pos hempty, if_neg fun hc => hc.2 hnil, hempty, Nat.add_zero]
  · have hne : e.value ≠ [] := fun hnil => hempty (congrArg List.length hnil)
    rw [if_neg hempty, if_neg (by rw [extEntryHeader]; omega)]
    by_cases htyp : e.typ = typ
    · rw [if_pos htyp, if_pos ⟨htyp, hne⟩]
    · rw [if_neg htyp, if_neg fun hc => htyp hc.1]

theorem findExtensionLoop_cut (pre : Bytes) {b : Bytes} (h : Cut b) (typ : ExtensionType)
    (fuel : Nat) : findExtensionLoop (pre ++ b) typ (pre ++ b).length fuel pre.length = none := by
  cases fuel with
  | zero => rfl
  | succ fuel =>
    unfold findExtensionLoop
    split
    · split
      · rfl
      · next hheader =>
        rw [List.length_append, extEntryHeader] at hheader
        unfold Cut at h
        dsimp only
        rw [getD_append_add, if_neg (by omega), List.length_append, extEntryHeader,
          if_pos (by omega)]
    · rfl

/-- Behind any front, the scan looks the type up among the entries. -/
theorem findExtensionLoop_eq (b pre : Bytes) (typ : ExtensionType) {fuel : Nat}
    (hfuel : b.length ≤ fuel) :
    findExtensionLoop (pre ++ b) typ (pre ++ b).length fuel pre.length =
      lookup (entries b) typ := by
  induction b using scan_induction generalizing pre fuel with
  | cut b h => rw [findExtensionLoop_cut pre h, entries_cut h, lookup_nil]
  | entry e b ih =>
    rw [List.length_append, Entry.encode_length] at hfuel
    obtain ⟨fuel, rfl⟩ : ∃ k, fuel = k + 1 := ⟨fuel - 1, by omega⟩
    rw [findExtensionLoop_entry, ih (pre ++ e.encode) (by omega), entries_encode_append,
      lookup_cons]

theorem findExtension_blockOf {src : Bytes} (h : src.length < 65536) (typ : ExtensionType) :
    findExtension (blockOf src) typ = lookup (entries src) typ := by
  have hlen := blockOf_length src
  rw [extBlockSize] at hlen
  unfold findExtension
  dsimp only
  rw [extTotalLen_blockOf h, hlen, if_neg (by omega)]
  split
  · next hzero =>
    obtain rfl : src = [] := List.eq_nil_of_length_eq_zero hzero
    rfl
  · rw [if_neg (by omega)]
    have hscan := findExtensionLoop_eq src (toLE 2 src.length) typ (Nat.le_refl _)
    rw [toLE_length, ← blockOf, hlen] at hscan
    exact hscan

theorem findExtension_entryBlock {es : List Entry} (h : (encode es).length < 65536)
    (typ : ExtensionType) : findExtension (entryBlock es) typ = lookup es typ := by
  unfold entryBlock
  split
  · next hnil =>
    rw [hnil]
    rfl
  · rw [findExtension_blockOf h, entries_encode]

/-! ## Stripping -/

/-- The bytes end in the start of an entry of another type than `typ`. -/
def TornOther (src : Bytes) (typ : ExtensionType) : Prop :=
  extEntryHeader ≤ (rest src).length ∧ (rest src).getD 0 0 ≠ typ

instance (src : Bytes) (typ : ExtensionType) : Decidable (TornOther src typ) :=
  inferInstanceAs (Decidable (_ ∧ _))

theorem tornOther_encode_append (e : Entry) (b : Bytes) (typ : ExtensionType) :
    TornOther (e.encode ++ b) typ ↔ TornOther b typ := by
  rw [TornOther, TornOther, rest_encode_append]

theorem tornOther_cut {b : Bytes} (h : Cut b) (typ : ExtensionType) :
    TornOther b typ ↔ extEntryHeader ≤ b.length ∧ b.getD 0 0 ≠ typ := by
  rw [TornOther, rest_cut h]

/-- What the first pass counts for a torn entry: the bytes it claims to have. -/
def tornBytes (src : Bytes) (typ : ExtensionType) : Nat :=
  if TornOther src typ then extEntryHeader + ((rest src).getD 1 0).toNat else 0

/-- The first pass counts the entries of other types, and a torn one in full. -/
theorem stripKeepBytes_eq (b pre : Bytes) (typ : ExtensionType) {fuel : Nat}
    (hfuel : b.length ≤ fuel) (keep : Nat) :
    stripKeepBytes (pre ++ b) typ fuel pre.length keep =
      keep + ((encode (without (entries b) typ)).length + tornBytes b typ) := by
  have hheader : extEntryHeader = 2 := rfl
  induction b using scan_induction generalizing pre fuel keep with
  | cut b h =>
    have hlen : (pre ++ b).length = pre.length + b.length := List.length_append
    have htorn := tornOther_cut h typ
    rw [entries_cut h, tornBytes, rest_cut h]
    show _ = keep + (0 + _)
    rw [Nat.zero_add]
    by_cases hstop : b.length < extEntryHeader
    · rw [stripKeepBytes_stop (by omega), if_neg fun hc => Nat.not_le.mpr hstop (htorn.mp hc).1,
        Nat.add_zero]
    · obtain ⟨fuel, rfl⟩ : ∃ k, fuel = k + 1 := ⟨fuel - 1, by omega⟩
      unfold Cut at h
      rw [stripKeepBytes_turn (by omega), getD_front, getD_append_add,
        stripKeepBytes_stop (by omega)]
      by_cases hother : b.getD 0 0 ≠ typ
      · rw [if_pos hother, if_pos (htorn.mpr ⟨Nat.le_of_not_lt hstop, hother⟩)]
      · rw [if_neg hother, if_neg fun hc => hother (htorn.mp hc).2, Nat.add_zero]
  | entry e b ih =>
    rw [List.length_append, Entry.encode_length] at hfuel
    obtain ⟨fuel, rfl⟩ : ∃ k, fuel = k + 1 := ⟨fuel - 1, by omega⟩
    have hlen := length_entry pre e b
    have htorn : tornBytes (e.encode ++ b) typ = tornBytes b typ := by
      simp only [tornBytes, tornOther_encode_append, rest_encode_append]
    rw [stripKeepBytes_turn (by omega), getD_typ, getD_len, length_next, ← List.append_assoc,
      ih (pre ++ e.encode) (by omega), htorn, entries_encode_append, without_cons]
    by_cases hother : e.typ ≠ typ
    · rw [if_pos hother, if_pos hother, encode_cons, List.length_append, Entry.encode_length]
      omega
    · rw [if_neg hother, if_neg hother]

/-- The copy pass copies the entries of other types, up to a torn one. -/
theorem stripCopy_eq (b pre : Bytes) (typ : ExtensionType) {fuel : Nat} (hfuel : b.length ≤ fuel)
    (dst : Bytes) :
    stripCopy (pre ++ b) typ fuel pre.length dst =
      if TornOther b typ then none else some (dst ++ encode (without (entries b) typ)) := by
  have hheader : extEntryHeader = 2 := rfl
  induction b using scan_induction generalizing pre fuel dst with
  | cut b h =>
    have hlen : (pre ++ b).length = pre.length + b.length := List.length_append
    have htorn := tornOther_cut h typ
    rw [entries_cut h]
    show _ = if _ then none else some (dst ++ [])
    rw [List.append_nil]
    by_cases hstop : b.length < extEntryHeader
    · rw [stripCopy_stop (by omega), if_neg fun hc => Nat.not_le.mpr hstop (htorn.mp hc).1]
    · obtain ⟨fuel, rfl⟩ : ∃ k, fuel = k + 1 := ⟨fuel - 1, by omega⟩
      unfold Cut at h
      rw [stripCopy_turn (by omega), getD_front, getD_append_add]
      by_cases hother : b.getD 0 0 ≠ typ
      · rw [if_pos hother, if_pos (by omega),
          if_pos (htorn.mpr ⟨Nat.le_of_not_lt hstop, hother⟩)]
      · rw [if_neg hother, if_neg fun hc => hother (htorn.mp hc).2, stripCopy_stop (by omega)]
  | entry e b ih =>
    rw [List.length_append, Entry.encode_length] at hfuel
    obtain ⟨fuel, rfl⟩ : ∃ k, fuel = k + 1 := ⟨fuel - 1, by omega⟩
    have hlen := length_entry pre e b
    have hfit : ¬ (0 < e.value.length ∧
        pre.length + extEntryHeader + e.value.length > (pre ++ (e.encode ++ b)).length) := by
      omega
    rw [stripCopy_turn (by omega), getD_len, if_neg hfit, getD_typ, getD_lenByte, slice_value,
      length_next, ← List.append_assoc pre, ih (pre ++ e.encode) (by omega),
      ih (pre ++ e.encode) (by omega), entries_encode_append, without_cons]
    simp only [tornOther_encode_append]
    by_cases hother : e.typ ≠ typ
    · rw [if_pos hother, if_pos hother, encode_cons, Entry.encode]
      simp only [List.append_assoc, List.cons_append, List.nil_append]
    · rw [if_neg hother, if_neg hother]

/-- A copy that succeeds has the length the first pass counted. -/
theorem stripCopy_counted {src out : Bytes} {typ : ExtensionType}
    (h : stripCopy src typ src.length 0 [] = some out) :
    stripKeepBytes src typ src.length 0 0 = out.length := by
  have hkeep := stripKeepBytes_eq src [] typ (Nat.le_refl _) 0
  have hcopy := stripCopy_eq src [] typ (Nat.le_refl _) []
  simp only [List.nil_append, List.length_nil, Nat.zero_add] at hkeep hcopy
  rw [h] at hcopy
  split at hcopy
  · cases hcopy
  · next htorn =>
    rw [hkeep, tornBytes, if_neg htorn, Option.some.inj hcopy, Nat.add_zero]

theorem tornOther_ne_nil {src : Bytes} {typ : ExtensionType} (h : TornOther src typ) :
    src.length ≠ 0 := by
  intro hzero
  obtain rfl : src = [] := List.eq_nil_of_length_eq_zero hzero
  exact absurd h.1 (by decide)

/-- Stripping leaves the entries of other types, or panics at a torn one. -/
theorem stripExtension_blockOf {src : Bytes} (h : src.length < 65536) (typ : ExtensionType) :
    stripExtension (blockOf src) typ =
      if TornOther src typ then none else some (entryBlock (without (entries src) typ)) := by
  have hlen := blockOf_length src
  rw [extBlockSize] at hlen
  have hkeep := stripKeepBytes_eq src [] typ (Nat.le_refl _) 0
  have hcopy := stripCopy_eq src [] typ (Nat.le_refl _) []
  simp only [List.nil_append, List.length_nil, Nat.zero_add] at hkeep hcopy
  unfold stripExtension
  dsimp only
  rw [extTotalLen_blockOf h, slice_blockOf, hlen, hkeep, hcopy, tornBytes, if_neg (by omega)]
  by_cases htorn : TornOther src typ
  · simp only [if_pos htorn]
    rw [if_neg (tornOther_ne_nil htorn), if_neg (by omega), if_neg (by rw [extEntryHeader]; omega),
      Option.map_none]
  · simp only [if_neg htorn, Nat.add_zero]
    rw [entryBlock]
    by_cases hnone : without (entries src) typ = []
    · rw [if_pos hnone, hnone, if_neg (show ¬ extHeaderLen + src.length < extHeaderLen + src.length
        by omega)]
      exact ite_self _
    · have hpos : (encode (without (entries src) typ)).length ≠ 0 :=
        fun hc => hnone (encode_eq_nil_iff.mp (List.eq_nil_of_length_eq_zero hc))
      have hsrc : src.length ≠ 0 := by
        intro hnil
        obtain rfl : src = [] := List.eq_nil_of_length_eq_zero hnil
        exact hnone rfl
      rw [if_neg hsrc, if_neg (by omega), if_neg hpos, if_neg hnone, Option.map_some]
      rfl

/-- **Lookup and strip laws** of a block of whole entries: lookup finds the
first value of a type, stripping leaves the encoding of the other entries, and
a lookup behind it finds what it found before, except for the stripped type. -/
theorem entry_block_laws (es : List Entry) (h : (encode es).length ≤ maxExtTotalLen)
    (t u : ExtensionType) :
    findExtension (blockOf (encode es)) t = lookup es t ∧
      stripExtension (blockOf (encode es)) u = some (entryBlock (without es u)) ∧
      ∀ clean, stripExtension (blockOf (encode es)) u = some clean →
        findExtension clean t = if t = u then none else findExtension (blockOf (encode es)) t := by
  have hlt : (encode es).length < 65536 := Nat.lt_of_le_of_lt h (by decide)
  have hfind : findExtension (blockOf (encode es)) t = lookup es t := by
    rw [findExtension_blockOf hlt, entries_encode]
  have hwhole : ¬ TornOther (encode es) u := by
    rw [TornOther, rest_encode]
    exact fun hc => absurd hc.1 (by decide)
  have hstrip : stripExtension (blockOf (encode es)) u = some (entryBlock (without es u)) := by
    rw [stripExtension_blockOf hlt, if_neg hwhole, entries_encode]
  refine ⟨hfind, hstrip, fun clean hclean => ?_⟩
  obtain rfl : entryBlock (without es u) = clean := Option.some.inj (hstrip.symm.trans hclean)
  have hshorter : (encode (without es u)).length ≤ (encode es).length :=
    encode_without_length_le es u
  rw [findExtension_entryBlock (by omega), hfind]
  split
  · next htu => rw [htu, lookup_without_self]
  · next htu => rw [lookup_without_of_ne es htu]

/-- A trace entry, an empty one and two priorities. -/
theorem stripped_priority_block :
    stripExtension (blockOf (encode [⟨1, [7], by decide⟩, ⟨3, [], by decide⟩, ⟨3, [0], by decide⟩,
        ⟨3, [1], by decide⟩])) extPriority = some (blockOf (encode [⟨1, [7], by decide⟩])) ∧
      findExtension (blockOf (encode [⟨1, [7], by decide⟩, ⟨3, [], by decide⟩, ⟨3, [0], by decide⟩,
        ⟨3, [1], by decide⟩])) extPriority = some [0] := by
  have hlaws := entry_block_laws [⟨1, [7], by decide⟩, ⟨3, [], by decide⟩, ⟨3, [0], by decide⟩,
    ⟨3, [1], by decide⟩] (by decide) extPriority extPriority
  exact ⟨hlaws.2.1, hlaws.1⟩

/-! ## The destination block

`StripExtension` writes into a block of the length the first pass counted, from
the allocator, with whatever that block held. Every access is checked here. The
source is a slice whose capacity is its length, as `ParseFrame` makes it. -/

/-- The first pass with checked reads. -/
def keepBytesIn (src : Bytes) (typ : ExtensionType) : Nat → Nat → Nat → Option Nat
  | 0, _, keep => some keep
  | fuel + 1, off, keep =>
    if off < src.length then
      if off + extEntryHeader > src.length then some keep
      else
        (at? src off).bind fun t =>
        (at? src (off + 1)).bind fun l =>
        keepBytesIn src typ fuel (off + (extEntryHeader + l.toNat))
          (if t ≠ typ then keep + (extEntryHeader + l.toNat) else keep)
    else some keep

/-- The writes for one entry that is kept. -/
def copyEntry (src : Bytes) (srcOff dstOff : Nat) (t l : UInt8) (dst : Bytes) : Option Bytes :=
  (write? dst dstOff [t]).bind fun dst =>
  (write? dst (dstOff + 1) [l]).bind fun dst =>
  if 0 < l.toNat then
    (slice? src (srcOff + 2) l.toNat).bind fun value => write? dst (dstOff + 2) value
  else some dst

/-- The copy pass with checked reads and writes. -/
def stripCopyInto (src : Bytes) (typ : ExtensionType) : Nat → Nat → Nat → Bytes → Option Bytes
  | 0, _, _, dst => some dst
  | fuel + 1, srcOff, dstOff, dst =>
    if srcOff < src.length then
      if srcOff + extEntryHeader > src.length then some dst
      else
        (at? src srcOff).bind fun t =>
        (at? src (srcOff + 1)).bind fun l =>
        if t ≠ typ then
          (copyEntry src srcOff dstOff t l dst).bind fun dst =>
          stripCopyInto src typ fuel (srcOff + (extEntryHeader + l.toNat))
            (dstOff + (extEntryHeader + l.toNat)) dst
        else stripCopyInto src typ fuel (srcOff + (extEntryHeader + l.toNat)) dstOff dst
    else some dst

/-- `StripExtension` with checked accesses; `acquire` gives the block. -/
def stripExtensionInto (acquire : Nat → Bytes) (extBlock : Bytes) (typ : ExtensionType) :
    Option Bytes :=
  if extBlock.length < extHeaderLen then some []
  else
    (slice? extBlock 0 2).bind fun digits =>
    let totalLen := le digits
    if totalLen = 0 then some []
    else if extBlock.length < extHeaderLen + totalLen then some []
    else
      (slice? extBlock extHeaderLen totalLen).bind fun src =>
      (keepBytesIn src typ src.length 0 0).bind fun keepBytes =>
      if keepBytes = 0 then some []
      else
        (write? (acquire (extHeaderLen + keepBytes)) 0 (toLE 2 keepBytes)).bind fun dst =>
        (stripCopyInto src typ src.length 0 extHeaderLen dst).bind fun dst =>
        slice? dst 0 (extHeaderLen + keepBytes)

theorem keepBytesIn_eq (src : Bytes) (typ : ExtensionType) (fuel off keep : Nat) :
    keepBytesIn src typ fuel off keep = some (stripKeepBytes src typ fuel off keep) := by
  induction fuel generalizing off keep with
  | zero => rfl
  | succ fuel ih =>
    by_cases hstop : src.length < off + extEntryHeader
    · rw [keepBytesIn, if_pos hstop, ite_self, stripKeepBytes_stop hstop]
    · rw [stripKeepBytes_turn (Nat.le_of_not_lt hstop)]
      rw [extEntryHeader] at hstop
      rw [keepBytesIn, extEntryHeader, if_pos (by omega), if_neg hstop, at?_eq (by omega),
        at?_eq (by omega), Option.bind_some, Option.bind_some, ih]

theorem le_stripKeepBytes (src : Bytes) (typ : ExtensionType) (fuel off keep : Nat) :
    keep ≤ stripKeepBytes src typ fuel off keep := by
  induction fuel generalizing off keep with
  | zero => exact Nat.le_refl _
  | succ fuel ih =>
    by_cases hstop : src.length < off + extEntryHeader
    · rw [stripKeepBytes_stop hstop]
    · rw [stripKeepBytes_turn (Nat.le_of_not_lt hstop)]
      refine Nat.le_trans ?_ (ih _ _)
      split <;> omega

theorem copyEntry_eq (src : Bytes) (off : Nat) (t l : UInt8) {done junk : Bytes}
    (hspace : 2 + l.toNat ≤ junk.length) :
    copyEntry src off done.length t l (done ++ junk) =
      if 0 < l.toNat ∧ off + extEntryHeader + l.toNat > src.length then none
      else some (done ++ ([t, l] ++ slice src (off + extEntryHeader) l.toNat) ++
        junk.drop (2 + l.toNat)) := by
  have htyp : write? (done ++ junk) done.length [t] = some (done ++ [t] ++ junk.drop 1) :=
    write?_append rfl (by simp; omega)
  have hlen : write? (done ++ [t] ++ junk.drop 1) (done.length + 1) [l] =
      some (done ++ [t] ++ [l] ++ junk.drop 2) := by
    rw [write?_append (by simp) (by simp; omega), List.drop_drop]
    rfl
  rw [copyEntry, htyp, Option.bind_some, hlen, Option.bind_some, extEntryHeader]
  by_cases hpos : 0 < l.toNat
  · rw [if_pos hpos]
    by_cases hfit : off + 2 + l.toNat > src.length
    · rw [if_pos ⟨hpos, hfit⟩, slice?, if_neg (by omega), Option.bind_none]
    · have hvalue : (slice src (off + 2) l.toNat).length = l.toNat := slice_length (by omega)
      rw [if_neg fun hc => hfit hc.2, slice?_eq (by omega), Option.bind_some,
        write?_append (by simp) (by simp; omega), hvalue, List.drop_drop]
      simp only [List.append_assoc, List.cons_append, List.nil_append]
  · have hzero : l.toNat = 0 := by omega
    rw [if_neg hpos, if_neg fun hc => hpos hc.1, hzero]
    simp [slice]

/-- The two passes agree: with the space the first one counts, the second one
writes inside the destination and fills it. -/
theorem stripCopyInto_eq (src : Bytes) (typ : ExtensionType) (head : Bytes) (fuel off : Nat)
    (dst junk : Bytes)
    (hroom : stripKeepBytes src typ fuel off dst.length = dst.length + junk.length) :
    stripCopyInto src typ fuel off (head ++ dst).length (head ++ dst ++ junk) =
      (stripCopy src typ fuel off dst).map (head ++ ·) := by
  have hfull : ∀ dst junk : Bytes, dst.length = dst.length + junk.length →
      head ++ dst ++ junk = head ++ dst := by
    intro dst junk hlen
    rw [List.eq_nil_of_length_eq_zero (show junk.length = 0 by omega), List.append_nil]
  induction fuel generalizing off dst junk with
  | zero => rw [stripCopyInto, stripCopy, Option.map_some, hfull dst junk hroom]
  | succ fuel ih =>
    by_cases hstop : src.length < off + extEntryHeader
    · rw [stripKeepBytes_stop hstop] at hroom
      rw [stripCopyInto, if_pos hstop, ite_self, stripCopy_stop hstop, Option.map_some,
        hfull dst junk hroom]
    have hturn : off + extEntryHeader ≤ src.length := Nat.le_of_not_lt hstop
    rw [stripKeepBytes_turn hturn] at hroom
    have htwo : off + 2 ≤ src.length := hturn
    rw [stripCopyInto, if_pos (by omega), if_neg hstop, at?_eq (by omega), at?_eq (by omega),
      Option.bind_some, Option.bind_some, stripCopy_turn hturn]
    generalize src.getD off 0 = t at hroom ⊢
    generalize src.getD (off + 1) 0 = l at hroom ⊢
    by_cases hother : t ≠ typ
    case neg =>
      rw [if_neg hother] at hroom ⊢
      rw [if_neg hother]
      exact ih _ _ _ hroom
    rw [if_pos hother] at hroom ⊢
    rw [if_pos hother]
    have hspace : 2 + l.toNat ≤ junk.length := by
      have hle := le_stripKeepBytes src typ fuel (off + (extEntryHeader + l.toNat))
        (dst.length + (extEntryHeader + l.toNat))
      rw [hroom, extEntryHeader] at hle
      omega
    rw [copyEntry_eq src off t l hspace]
    by_cases htorn : 0 < l.toNat ∧ off + extEntryHeader + l.toNat > src.length
    · rw [if_pos htorn, if_pos htorn]
      rfl
    rw [if_neg htorn, if_neg htorn, Option.bind_some, List.append_assoc head dst]
    have hvalue : (slice src (off + extEntryHeader) l.toNat).length = l.toNat := by
      by_cases hpos : 0 < l.toNat
      · exact slice_length (by omega)
      · rw [show l.toNat = 0 by omega]
        rfl
    have hnext : (dst ++ ([t, l] ++ slice src (off + extEntryHeader) l.toNat)).length =
        dst.length + (extEntryHeader + l.toNat) := by
      rw [List.length_append, List.length_append, hvalue]
      rfl
    have hoff : (head ++ dst).length + (extEntryHeader + l.toNat) =
        (head ++ (dst ++ ([t, l] ++ slice src (off + extEntryHeader) l.toNat))).length := by
      rw [List.length_append, List.length_append, hnext, Nat.add_assoc]
    rw [hoff, List.append_assoc dst]
    refine ih _ _ _ ?_
    rw [hnext, hroom, List.length_drop, extEntryHeader]
    omega

/-- Checked accesses fault where `stripExtension` panics, and only there. -/
theorem stripExtensionInto_eq {acquire : Nat → Bytes} (hacquire : ∀ n, (acquire n).length = n)
    (extBlock : Bytes) (typ : ExtensionType) :
    stripExtensionInto acquire extBlock typ = stripExtension extBlock typ := by
  unfold stripExtensionInto stripExtension
  split
  · rfl
  next hheader =>
  have hdigits : slice? extBlock 0 2 = some (slice extBlock 0 2) :=
    slice?_eq (by rw [extHeaderLen] at hheader; omega)
  rw [hdigits, Option.bind_some, ← extTotalLen]
  dsimp only
  split
  · rfl
  split
  · rfl
  next htotal =>
  rw [slice?_eq (by omega), Option.bind_some, keepBytesIn_eq, Option.bind_some]
  generalize slice extBlock extHeaderLen (extTotalLen extBlock 0) = src
  split
  · rfl
  generalize hkeep : stripKeepBytes src typ src.length 0 0 = keepBytes
  have hblock : write? (acquire (extHeaderLen + keepBytes)) 0 (toLE 2 keepBytes) =
      some (toLE 2 keepBytes ++ (acquire (extHeaderLen + keepBytes)).drop 2) := by
    have hfit : (toLE 2 keepBytes).length ≤ (acquire (extHeaderLen + keepBytes)).length := by
      rw [toLE_length, hacquire, extHeaderLen]
      omega
    have hwrite := write?_append (List.length_nil (α := UInt8)).symm hfit
    rwa [toLE_length] at hwrite
  have hcopy := stripCopyInto_eq src typ (toLE 2 keepBytes) src.length 0 []
    ((acquire (extHeaderLen + keepBytes)).drop 2) (by
      rw [List.length_nil, hkeep, List.length_drop, hacquire, extHeaderLen]
      omega)
  rw [List.append_nil, toLE_length] at hcopy
  rw [hblock, Option.bind_some]
  rw [show extHeaderLen = 2 from rfl] at hcopy ⊢
  rw [hcopy]
  cases hstrip : stripCopy src typ src.length 0 [] with
  | none => rfl
  | some out =>
    have hlen : (toLE 2 keepBytes ++ out).length = 2 + keepBytes := by
      rw [List.length_append, toLE_length, ← hkeep, stripCopy_counted hstrip]
    rw [Option.map_some, Option.bind_some, slice?_eq (by omega), slice, List.drop_zero, ← hlen,
      List.take_length]

end Aqueduct.Protocol
