import Aqueduct.Lib.Bytes

/-!
The TLV extension block of `internal/protocol/extensions.go`: a 2-byte
little-endian total length, then entries `[Type:1][Len:1][Value]`. Loops over
the block take the block length as fuel, since every entry advances the
offset. `stripExtension` returns `none` where the source slices past the end
of the block and panics.
-/

namespace Aqueduct.Protocol

open ByteStr

abbrev ExtensionType := UInt8

def extCompression : ExtensionType := 0x02
def extPriority : ExtensionType := 0x03
def extRetryOffset : ExtensionType := 0xF0
def extCompressionValueLen : Nat := 5
def algoZSTD : UInt8 := 1
def extPriorityLen : Nat := 1
def extHeaderLen : Nat := 2
def extEntryHeader : Nat := 2
def maxExtTotalLen : Nat := 1024

def priorityNormal : UInt8 := 2
def priorityLow : UInt8 := 3
def defaultPriority : UInt8 := priorityNormal

def extTotalLen (buf : Bytes) (offset : Nat) : Nat := le (slice buf offset 2)

def extBlockSize (totalLen : Nat) : Nat := extHeaderLen + totalLen

/-- The entry scan of `FindExtension`; `stop` is the end of the declared
TLV region. An entry with an empty value is skipped whatever its type. -/
def findExtensionLoop (extBlock : Bytes) (typ : ExtensionType) (stop : Nat) :
    Nat → Nat → Option Bytes
  | 0, _ => none
  | fuel + 1, offset =>
    if offset < stop then
      if offset + extEntryHeader > stop then none
      else
        let t := extBlock.getD offset 0
        let l := (extBlock.getD (offset + 1) 0).toNat
        let valStart := offset + extEntryHeader
        if l = 0 then findExtensionLoop extBlock typ stop fuel valStart
        else if valStart + l > stop then none
        else if t = typ then some (slice extBlock valStart l)
        else findExtensionLoop extBlock typ stop fuel (valStart + l)
    else none

def findExtension (extBlock : Bytes) (typ : ExtensionType) : Option Bytes :=
  if extBlock.length < extHeaderLen then none
  else
    let totalLen := extTotalLen extBlock 0
    if totalLen = 0 then none
    else if extBlock.length < extHeaderLen + totalLen then none
    else findExtensionLoop extBlock typ (extHeaderLen + totalLen) totalLen extHeaderLen

/-- `none` when there is no priority entry or it is out of range. -/
def extractPriority (extBlock : Bytes) : Option UInt8 :=
  match findExtension extBlock extPriority with
  | none => none
  | some val =>
    if val.length < extPriorityLen then none
    else
      let p := val.getD 0 0
      if p > priorityLow then none else some p

def buildMergedExtensionsWithCompression (existing : Bytes) (uncompressedSize : UInt32) :
    Bytes :=
  let existingEntries :=
    if extHeaderLen ≤ existing.length then
      let totalLen := extTotalLen existing 0
      if 0 < totalLen ∧ extHeaderLen + totalLen ≤ existing.length then
        slice existing extHeaderLen totalLen
      else []
    else []
  let totalEntries := existingEntries.length + (extEntryHeader + extCompressionValueLen)
  toLE 2 totalEntries ++ existingEntries ++
    [extCompression, UInt8.ofNat extCompressionValueLen, algoZSTD] ++
    toLE 4 uncompressedSize.toNat

/-- Bytes the first pass of `StripExtension` decides to keep. -/
def stripKeepBytes (src : Bytes) (typ : ExtensionType) : Nat → Nat → Nat → Nat
  | 0, _, keep => keep
  | fuel + 1, off, keep =>
    if off < src.length then
      if off + extEntryHeader > src.length then keep
      else
        let t := src.getD off 0
        let l := (src.getD (off + 1) 0).toNat
        stripKeepBytes src typ fuel (off + (extEntryHeader + l))
          (if t ≠ typ then keep + (extEntryHeader + l) else keep)
    else keep

/-- The copy pass: `none` when the source slices `src` past its end. -/
def stripCopy (src : Bytes) (typ : ExtensionType) : Nat → Nat → Bytes → Option Bytes
  | 0, _, dst => some dst
  | fuel + 1, off, dst =>
    if off < src.length then
      if off + extEntryHeader > src.length then some dst
      else
        let t := src.getD off 0
        let l := (src.getD (off + 1) 0).toNat
        if t ≠ typ then
          if 0 < l ∧ off + extEntryHeader + l > src.length then none
          else
            stripCopy src typ fuel (off + (extEntryHeader + l))
              (dst ++ [t, UInt8.ofNat l] ++ slice src (off + extEntryHeader) l)
        else stripCopy src typ fuel (off + (extEntryHeader + l)) dst
    else some dst

def stripExtension (extBlock : Bytes) (typ : ExtensionType) : Option Bytes :=
  if extBlock.length < extHeaderLen then some []
  else
    let totalLen := extTotalLen extBlock 0
    if totalLen = 0 then some []
    else if extBlock.length < extHeaderLen + totalLen then some []
    else
      let src := slice extBlock extHeaderLen totalLen
      let keepBytes := stripKeepBytes src typ src.length 0 0
      if keepBytes = 0 then some []
      else (stripCopy src typ src.length 0 []).map (toLE 2 keepBytes ++ ·)

/-- The scan does not look behind the declared region. -/
theorem findExtensionLoop_append {extBlock : Bytes} (rest : Bytes) (typ : ExtensionType) {stop : Nat}
    (hstop : stop ≤ extBlock.length) (fuel offset : Nat) :
    findExtensionLoop (extBlock ++ rest) typ stop fuel offset =
      findExtensionLoop extBlock typ stop fuel offset := by
  induction fuel generalizing offset with
  | zero => rfl
  | succ fuel ih =>
    have hget : ∀ i < stop, (extBlock ++ rest).getD i 0 = extBlock.getD i 0 := by
      intro i hi
      rw [List.getD_eq_getElem?_getD, List.getElem?_append_left (by omega),
        List.getD_eq_getElem?_getD]
    unfold findExtensionLoop
    split
    · next hlt =>
      split
      · rfl
      · next hheader =>
        rw [extEntryHeader] at hheader
        simp only [hget offset hlt, hget (offset + 1) (by omega), ih]
        split
        · rfl
        · split
          · rfl
          · next hval => rw [slice_append_of_le (by omega)]
    · rfl

theorem findExtension_append {extBlock : Bytes}
    (h : extBlock.length = extBlockSize (extTotalLen extBlock 0)) (rest : Bytes)
    (typ : ExtensionType) :
    findExtension (extBlock ++ rest) typ = findExtension extBlock typ := by
  have hlen : extHeaderLen ≤ extBlock.length := by
    rw [h, extBlockSize]
    exact Nat.le_add_right _ _
  have htotal : extTotalLen (extBlock ++ rest) 0 = extTotalLen extBlock 0 := by
    rw [extTotalLen, slice_append_of_le (by simpa [extHeaderLen] using hlen), extTotalLen]
  have hshort : ¬ (extBlock ++ rest).length < extHeaderLen + extTotalLen extBlock 0 := by
    rw [List.length_append, h, extBlockSize]
    omega
  have hshort' : ¬ extBlock.length < extHeaderLen + extTotalLen extBlock 0 := by
    rw [h, extBlockSize]
    omega
  have hheader : ¬ (extBlock ++ rest).length < extHeaderLen := by
    rw [List.length_append]
    omega
  unfold findExtension
  dsimp only
  rw [htotal, if_neg hheader, if_neg (Nat.not_lt.mpr hlen), if_neg hshort, if_neg hshort',
    findExtensionLoop_append rest typ (Nat.le_of_not_lt hshort')]

/-! ## Stripping -/

/-- Without a whole header left, both passes are done. -/
theorem stripKeepBytes_stop {src : Bytes} {typ : ExtensionType} {off : Nat}
    (h : src.length < off + extEntryHeader) (fuel keep : Nat) :
    stripKeepBytes src typ fuel off keep = keep := by
  cases fuel with
  | zero => rfl
  | succ fuel => rw [stripKeepBytes, if_pos h, ite_self]

theorem stripCopy_stop {src : Bytes} {typ : ExtensionType} {off : Nat}
    (h : src.length < off + extEntryHeader) (fuel : Nat) (dst : Bytes) :
    stripCopy src typ fuel off dst = some dst := by
  cases fuel with
  | zero => rfl
  | succ fuel => rw [stripCopy, if_pos h, ite_self]

section turn

variable {src : Bytes} {typ : ExtensionType} {off : Nat} (h : off + extEntryHeader ≤ src.length)
include h

theorem stripKeepBytes_turn (fuel keep : Nat) :
    stripKeepBytes src typ (fuel + 1) off keep =
      stripKeepBytes src typ fuel (off + (extEntryHeader + (src.getD (off + 1) 0).toNat))
        (if src.getD off 0 ≠ typ then keep + (extEntryHeader + (src.getD (off + 1) 0).toNat)
          else keep) := by
  have hlt : off < src.length := Nat.lt_of_lt_of_le (Nat.lt_add_of_pos_right (by decide)) h
  rw [stripKeepBytes, if_pos hlt, if_neg (Nat.not_lt.mpr h)]

theorem stripCopy_turn (fuel : Nat) (dst : Bytes) :
    stripCopy src typ (fuel + 1) off dst =
      if src.getD off 0 ≠ typ then
        if 0 < (src.getD (off + 1) 0).toNat ∧
            off + extEntryHeader + (src.getD (off + 1) 0).toNat > src.length then none
        else stripCopy src typ fuel (off + (extEntryHeader + (src.getD (off + 1) 0).toNat))
          (dst ++ [src.getD off 0, src.getD (off + 1) 0] ++
            slice src (off + extEntryHeader) (src.getD (off + 1) 0).toNat)
      else stripCopy src typ fuel (off + (extEntryHeader + (src.getD (off + 1) 0).toNat)) dst := by
  have hlt : off < src.length := Nat.lt_of_lt_of_le (Nat.lt_add_of_pos_right (by decide)) h
  rw [stripCopy, if_pos hlt, if_neg (Nat.not_lt.mpr h)]
  dsimp only
  rw [UInt8.ofNat_toNat]

end turn

theorem stripCopy_length_le {src : Bytes} {typ : ExtensionType} {fuel off : Nat} {dst out : Bytes}
    (h : stripCopy src typ fuel off dst = some out) :
    out.length ≤ dst.length + (src.length - off) := by
  have hheader : extEntryHeader = 2 := rfl
  induction fuel generalizing off dst with
  | zero =>
    obtain rfl : dst = out := Option.some.inj h
    omega
  | succ fuel ih =>
    by_cases hstop : src.length < off + extEntryHeader
    · rw [stripCopy_stop hstop] at h
      obtain rfl : dst = out := Option.some.inj h
      omega
    · rw [stripCopy_turn (Nat.le_of_not_lt hstop)] at h
      split at h
      · split at h
        · cases h
        · have hrest := ih h
          have hslice : (slice src (off + extEntryHeader) (src.getD (off + 1) 0).toNat).length ≤
              (src.getD (off + 1) 0).toNat := List.length_take_le _ _
          simp only [List.length_append, List.length_cons, List.length_nil] at hrest
          omega
      · have hrest := ih h
        omega

/-- Both scans walk the entries alike, so the copy pass drops the entry that
the search found. The offsets differ by the block's length field. -/
theorem stripCopy_length_lt {extBlock : Bytes} {typ : ExtensionType} {totalLen : Nat}
    (htotal : extHeaderLen + totalLen ≤ extBlock.length) {fuel off : Nat} {val : Bytes}
    (hfind : findExtensionLoop extBlock typ (extHeaderLen + totalLen) fuel (extHeaderLen + off) =
      some val) {fuel' : Nat} {dst out : Bytes}
    (hcopy : stripCopy (slice extBlock extHeaderLen totalLen) typ fuel' off dst = some out) :
    out.length < dst.length + (totalLen - off) := by
  have hheader : extEntryHeader = 2 := rfl
  have hsrc : (slice extBlock extHeaderLen totalLen).length = totalLen := slice_length htotal
  induction fuel generalizing off dst fuel' with
  | zero => cases hfind
  | succ fuel ih =>
    unfold findExtensionLoop at hfind
    split at hfind
    case isFalse => cases hfind
    next hlt =>
    split at hfind
    case isTrue => cases hfind
    next hentry =>
    have hbyte : ∀ k < totalLen, (slice extBlock extHeaderLen totalLen).getD k 0 =
        extBlock.getD (extHeaderLen + k) 0 := by
      intro k hk
      simp only [slice, List.getD_eq_getElem?_getD, List.getElem?_take, List.getElem?_drop,
        if_pos hk]
    dsimp only at hfind
    cases fuel' with
    | zero =>
      obtain rfl : dst = out := Option.some.inj hcopy
      omega
    | succ fuel' =>
      rw [stripCopy_turn (by omega), hsrc, hbyte off (by omega), hbyte (off + 1) (by omega),
        ← Nat.add_assoc] at hcopy
      generalize extBlock.getD (extHeaderLen + off + 1) 0 = len at hfind hcopy
      have hnext : extHeaderLen + (off + (extEntryHeader + len.toNat)) =
          extHeaderLen + off + extEntryHeader + len.toNat := by omega
      by_cases ht : extBlock.getD (extHeaderLen + off) 0 = typ
      · rw [if_neg (not_not_intro ht)] at hcopy
        split at hfind
        · next hl =>
          have hrest := ih (by rw [hnext, hl]; exact hfind) hcopy
          omega
        · split at hfind
          · cases hfind
          · have hle := stripCopy_length_le hcopy
            omega
      · rw [if_pos ht] at hcopy
        split at hcopy
        · cases hcopy
        · have hfound : findExtensionLoop extBlock typ (extHeaderLen + totalLen) fuel
              (extHeaderLen + (off + (extEntryHeader + len.toNat))) = some val ∧
              off + extEntryHeader + len.toNat ≤ totalLen := by
            rw [hnext]
            split at hfind
            · next hl => exact ⟨by rw [hl]; exact hfind, by omega⟩
            · split at hfind
              · cases hfind
              · exact ⟨hfind, by omega⟩
          have hrest := ih hfound.1 hcopy
          have hslice : (slice (slice extBlock extHeaderLen totalLen) (off + extEntryHeader)
              len.toNat).length ≤ len.toNat := List.length_take_le _ _
          simp only [List.length_append, List.length_cons, List.length_nil] at hrest
          omega

theorem stripExtension_length_lt {extBlock : Bytes} {typ : ExtensionType} {val clean : Bytes}
    (hfind : findExtension extBlock typ = some val)
    (hstrip : stripExtension extBlock typ = some clean) : clean.length < extBlock.length := by
  unfold findExtension at hfind
  unfold stripExtension at hstrip
  split at hfind
  · cases hfind
  next hlen =>
  rw [if_neg hlen] at hstrip
  dsimp only at hfind hstrip
  split at hfind
  · cases hfind
  next hzero =>
  rw [if_neg hzero] at hstrip
  split at hfind
  · cases hfind
  next htotal =>
  rw [if_neg htotal] at hstrip
  have hheader : extHeaderLen = 2 := rfl
  split at hstrip
  · obtain rfl : [] = clean := Option.some.inj hstrip
    rw [List.length_nil]
    omega
  · obtain ⟨copy, hcopy, rfl⟩ := Option.map_eq_some_iff.mp hstrip
    have hlt : copy.length < ([] : Bytes).length + (_ - 0) :=
      stripCopy_length_lt (Nat.le_of_not_lt htotal) hfind hcopy
    rw [List.length_append, toLE_length]
    rw [List.length_nil] at hlt
    omega

end Aqueduct.Protocol
