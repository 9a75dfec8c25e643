import Aqueduct.Protocol.Codec

/-!
The readers of `internal/protocol` with every access checked. An index, a slice
expression or an `unsafe.Slice` that leaves the buffer is a fault, `none`; the
slices a reader returns are windows of its input, where `none` is nil. No input
makes a reader fault, and read through its windows a result is that of the
functions of `Frame` and `Extensions` (`parseFrameIn_eq` and the lemmas like
it), so what is proved of those holds of the windows.
-/

namespace Aqueduct.Protocol

open ByteStr

/-- `unsafe.Slice(&buf[i], n)`: the address needs `buf[i]`, the slice all of
its bytes. -/
def window? (buf : Bytes) (i n : Nat) : Option Window :=
  if i < buf.length ∧ i + n ≤ buf.length then some ⟨i, n⟩ else none

theorem window?_eq {buf : Bytes} {i n : Nat} (hpos : 0 < n) (h : i + n ≤ buf.length) :
    window? buf i n = some ⟨i, n⟩ :=
  if_pos ⟨by omega, h⟩

namespace Window

/-- `w[i : i+n]` of a slice whose capacity is its length. -/
def sub? (w : Window) (i n : Nat) : Option Window :=
  if i + n ≤ w.len then some ⟨w.start + i, n⟩ else none

def Inside (w : Window) (buf : Bytes) : Prop := w.start + w.len ≤ buf.length

instance (w : Window) (buf : Bytes) : Decidable (w.Inside buf) :=
  inferInstanceAs (Decidable (_ ≤ _))

/-- What a slice that may be nil reads. -/
def read (w : Option Window) (buf : Bytes) : Bytes := (w.map (·.of buf)).getD []

/-- Its length. -/
def length (w : Option Window) : Nat := (w.map (·.len)).getD 0

theorem of_length {w : Window} {buf : Bytes} (h : w.Inside buf) : (w.of buf).length = w.len :=
  slice_length h

end Window

/-! ## Frames -/

structure FrameView where
  command : Command
  streamID : UInt32
  payloadLen : UInt32
  payload : Option Window
  extensions : Option Window
  deriving DecidableEq, Repr

namespace FrameView

def frame (v : FrameView) (buf : Bytes) : Frame where
  command := v.command
  streamID := v.streamID
  payloadLen := v.payloadLen
  payload := Window.read v.payload buf
  extensions := Window.read v.extensions buf

/-- The extension block starts behind the header, the payload behind the
block, and together they are the `n` bytes there. -/
structure Tiles (v : FrameView) (n : Nat) : Prop where
  extensions : ∀ w, v.extensions = some w → w.start = headerSize
  payload : ∀ w, v.payload = some w → w.start = headerSize + Window.length v.extensions
  covers : Window.length v.extensions + Window.length v.payload = n

end FrameView

/-- The extension block of a frame whose header was accepted. -/
def extensionsIn (buf : Bytes) (rawCmd : Command) (dataLen : Nat) :
    Option (Except FrameError (Option Window)) :=
  if rawCmd &&& hasExtensionsBit ≠ 0 then
    if dataLen < extHeaderLen then some (.error .tooShortForExtensions)
    else
      (slice? buf headerSize 2).bind fun digits =>
      let extTotal := le digits
      if extTotal > maxExtTotalLen then some (.error .extensionsTooLarge)
      else if headerSize + extBlockSize extTotal > headerSize + dataLen then
        some (.error .extensionsExceedData)
      else (window? buf headerSize (extBlockSize extTotal)).map fun w => .ok (some w)
  else some (.ok none)

/-- The payload; a frame without one gets nil, without an address. -/
def payloadIn (buf : Bytes) (payloadStart payloadLen : Nat) : Option (Option Window) :=
  if payloadLen = 0 then some none else (window? buf payloadStart payloadLen).map some

def parseFrameIn (buf : Bytes) : Option (Except FrameError FrameView) :=
  if buf.length < headerSize then some (.error .tooShort)
  else
    (at? buf 0).bind fun magic =>
    if magic ≠ magicByte then some (.error .invalidMagic)
    else
      (at? buf 1).bind fun rawCmd =>
      let cmd := rawCmd &&& ~~~meshForwardedBit &&& ~~~hasExtensionsBit
      if cmd < cmdPublish ∨ cmd > cmdNack then some (.error .unknownCommand)
      else
        (slice? buf 2 4).bind fun sid =>
        (slice? buf 6 4).bind fun digits =>
        let dataLen := le digits
        if buf.length < headerSize + dataLen then some (.error .truncated)
        else
          (extensionsIn buf rawCmd dataLen).bind fun block =>
          match block with
          | .error e => some (.error e)
          | .ok extBlock =>
            let payloadLen := dataLen - Window.length extBlock
            (payloadIn buf (headerSize + Window.length extBlock) payloadLen).map fun payload =>
              .ok ⟨rawCmd, UInt32.ofNat (le sid), UInt32.ofNat payloadLen, payload, extBlock⟩

theorem payloadIn_eq {buf : Bytes} {i n : Nat} (h : i + n ≤ buf.length) :
    ∃ payload, payloadIn buf i n = some payload ∧ Window.read payload buf = slice buf i n ∧
      Window.length payload = n ∧ ∀ w, payload = some w → w.start = i := by
  unfold payloadIn
  by_cases hn : n = 0
  · subst hn
    rw [if_pos rfl]
    exact ⟨none, rfl, by simp [Window.read, slice], rfl, fun w hw => (by cases hw)⟩
  · rw [if_neg hn, window?_eq (by omega) h, Option.map_some]
    exact ⟨some ⟨i, n⟩, rfl, rfl, rfl, fun w hw => by cases hw; rfl⟩

/-- The block is read inside the data, and the rest of the data is the payload. -/
theorem extensionsIn_eq {buf : Bytes} {dataLen : Nat} (h : headerSize + dataLen ≤ buf.length)
    (rawCmd : Command) (sid : UInt32) :
    (∃ e, extensionsIn buf rawCmd dataLen = some (.error e) ∧
        parseFrameBody buf rawCmd sid dataLen = .error e) ∨
      ∃ block, extensionsIn buf rawCmd dataLen = some (.ok block) ∧
        Window.length block ≤ dataLen ∧ (∀ w, block = some w → w.start = headerSize) ∧
        parseFrameBody buf rawCmd sid dataLen = .ok
          ⟨rawCmd, sid, UInt32.ofNat (dataLen - Window.length block),
            slice buf (headerSize + Window.length block) (dataLen - Window.length block),
            Window.read block buf⟩ := by
  unfold extensionsIn parseFrameBody
  by_cases hbit : rawCmd &&& hasExtensionsBit ≠ 0
  case neg =>
    rw [if_neg hbit, if_neg hbit]
    exact .inr ⟨none, rfl, Nat.zero_le _, fun w hw => (by cases hw), rfl⟩
  rw [if_pos hbit, if_pos hbit]
  by_cases hshort : dataLen < extHeaderLen
  · rw [if_pos hshort, if_pos hshort]
    exact .inl ⟨_, rfl, rfl⟩
  rw [if_neg hshort, if_neg hshort, slice?_eq (by rw [extHeaderLen] at hshort; omega),
    Option.bind_some, ← extTotalLen]
  dsimp only
  by_cases hmax : extTotalLen buf headerSize > maxExtTotalLen
  · rw [if_pos hmax, if_pos hmax]
    exact .inl ⟨_, rfl, rfl⟩
  rw [if_neg hmax, if_neg hmax]
  by_cases hexceed : headerSize + extBlockSize (extTotalLen buf headerSize) > headerSize + dataLen
  · rw [if_pos hexceed, if_pos hexceed]
    exact .inl ⟨_, rfl, rfl⟩
  rw [if_neg hexceed, if_neg hexceed, window?_eq (by rw [extBlockSize, extHeaderLen]; omega) (by omega),
    Option.map_some]
  refine .inr ⟨_, rfl, ?_, fun w hw => ?_, rfl⟩
  · show extBlockSize (extTotalLen buf headerSize) ≤ dataLen
    omega
  · cases hw
    rfl

theorem parseFrameIn_some (buf : Bytes) :
    ∃ r, parseFrameIn buf = some r ∧ r.map (·.frame buf) = parseFrame buf ∧
      ∀ v, r = .ok v → v.Tiles (le (slice buf 6 4)) := by
  have herror : ∀ e : FrameError, ∃ r : Except FrameError FrameView, some (.error e) = some r ∧
      r.map (·.frame buf) = .error e ∧ ∀ v, r = .ok v → v.Tiles (le (slice buf 6 4)) :=
    fun e => ⟨.error e, rfl, rfl, fun v hv => (by cases hv)⟩
  unfold parseFrameIn parseFrame
  by_cases hheader : buf.length < headerSize
  · rw [if_pos hheader, if_pos hheader]
    exact herror _
  have hten : 10 ≤ buf.length := Nat.le_of_not_lt hheader
  rw [if_neg hheader, if_neg hheader, at?_eq (by omega), Option.bind_some]
  by_cases hmagic : buf.getD 0 0 ≠ magicByte
  · rw [if_pos hmagic, if_pos hmagic]
    exact herror _
  rw [if_neg hmagic, if_neg hmagic, at?_eq (by omega), Option.bind_some]
  dsimp only
  split
  · exact herror _
  rw [slice?_eq (by omega), Option.bind_some, slice?_eq (by omega), Option.bind_some]
  split
  · exact herror _
  next hfits =>
  obtain ⟨e, hext, hbody⟩ | ⟨block, hext, hle, hstart, hbody⟩ :=
    extensionsIn_eq (Nat.le_of_not_lt hfits) (buf.getD 1 0) (UInt32.ofNat (le (slice buf 2 4)))
  · rw [hext, hbody]
    exact herror e
  · have hend : headerSize + Window.length block + (le (slice buf 6 4) - Window.length block) ≤
        buf.length := by omega
    obtain ⟨payload, hpay, hread, hlen, hpstart⟩ := payloadIn_eq hend
    rw [hext, hbody, Option.bind_some]
    dsimp only
    rw [hpay, Option.map_some]
    refine ⟨_, rfl, ?_, fun v hv => ?_⟩
    · rw [← hread]
      rfl
    · cases hv
      exact ⟨hstart, hpstart, by dsimp only; omega⟩

/-- `ParseFrame` never faults; its windows tile the data of an accepted frame. -/
theorem parseFrameIn_eq (buf : Bytes) :
    ∃ r, parseFrameIn buf = some r ∧ r.map (·.frame buf) = parseFrame buf ∧
      ∀ v, r = .ok v → v.Tiles (v.frame buf).dataLen.toNat ∧
        headerSize + (v.frame buf).dataLen.toNat ≤ buf.length := by
  obtain ⟨r, hr, hmap, htiles⟩ := parseFrameIn_some buf
  refine ⟨r, hr, hmap, ?_⟩
  rintro v rfl
  have hacc : Accepted buf (v.frame buf) := parseFrame_accepted hmap.symm
  have hsize : headerSize + (v.frame buf).dataLen.toNat = headerSize + le (slice buf 6 4) :=
    hacc.size_eq
  rw [Nat.add_left_cancel hsize]
  exact ⟨htiles v rfl, hacc.fits⟩

/-- Windows that tile the front of the data lie in the buffer. -/
theorem FrameView.Tiles.inside {v : FrameView} {n : Nat} (h : v.Tiles n) {buf : Bytes}
    (hfits : headerSize + n ≤ buf.length) :
    (∀ w, v.extensions = some w → w.Inside buf) ∧ ∀ w, v.payload = some w → w.Inside buf := by
  have hcovers := h.covers
  refine ⟨fun w hw => ?_, fun w hw => ?_⟩
  · have hlen : Window.length v.extensions = w.len := by rw [hw]; rfl
    have hstart := h.extensions w hw
    unfold Window.Inside
    omega
  · have hlen : Window.length v.payload = w.len := by rw [hw]; rfl
    have hstart := h.payload w hw
    unfold Window.Inside
    omega

/-- `ParseBatchFrame`: the slice it returns, whose end is the next offset. -/
def parseBatchFrameIn (buf : Bytes) (offset : Nat) : Option (Except BatchError Window) :=
  (slice? buf offset (buf.length - offset)).bind fun remaining =>
  if remaining.length < headerSize then some (.error .headerTruncated)
  else
    (at? remaining 0).bind fun magic =>
    if magic ≠ magicByte then some (.error .invalidMagic)
    else
      (at? remaining 1).bind fun cmd =>
      let opcode := opcodeOf cmd
      if opcode < cmdPublish ∨ opcode > cmdNack then some (.error .unknownCommand)
      else
        (slice? remaining 6 4).bind fun digits =>
        let totalLen := headerSize + le digits
        if remaining.length < totalLen then some (.error .truncated)
        else (slice? buf offset totalLen).map fun _ => .ok ⟨offset, totalLen⟩

theorem parseBatchFrameIn_eq {buf : Bytes} {offset : Nat} (h : offset ≤ buf.length) :
    ∃ r, parseBatchFrameIn buf offset = some r ∧ r.map (·.len) = parseBatchFrame buf offset ∧
      ∀ w, r = .ok w → w.start = offset ∧ w.Inside buf := by
  have herror : ∀ e : BatchError, ∃ r : Except BatchError Window, some (.error e) = some r ∧
      r.map (·.len) = .error e ∧ ∀ w, r = .ok w → w.start = offset ∧ w.Inside buf :=
    fun e => ⟨.error e, rfl, rfl, fun w hw => (by cases hw)⟩
  have hremaining : slice buf offset (buf.length - offset) = buf.drop offset := by
    rw [slice, ← List.length_drop, List.take_length]
  have hdrop : (buf.drop offset).length = buf.length - offset := List.length_drop
  unfold parseBatchFrameIn parseBatchFrame
  rw [slice?_eq (by omega), Option.bind_some, hremaining]
  dsimp only
  by_cases hheader : (buf.drop offset).length < headerSize
  · rw [if_pos hheader, if_pos hheader]
    exact herror _
  have hten : 10 ≤ (buf.drop offset).length := Nat.le_of_not_lt hheader
  rw [if_neg hheader, if_neg hheader, at?_eq (by omega), Option.bind_some]
  by_cases hmagic : (buf.drop offset).getD 0 0 ≠ magicByte
  · rw [if_pos hmagic, if_pos hmagic]
    exact herror _
  rw [if_neg hmagic, if_neg hmagic, at?_eq (by omega), Option.bind_some]
  split
  · exact herror _
  rw [slice?_eq (by omega), Option.bind_some]
  split
  · exact herror _
  next hfits =>
  rw [slice?_eq (by omega), Option.map_some]
  refine ⟨_, rfl, rfl, fun w hw => ?_⟩
  cases hw
  refine ⟨rfl, ?_⟩
  show offset + (headerSize + le (slice (buf.drop offset) 6 4)) ≤ buf.length
  omega

/-! ## Extension blocks -/

/-- The error of `ParseTLVEntry`. -/
inductive TlvError
  | entryTruncated
  deriving DecidableEq, Repr

def TlvError.text : TlvError → String
  | .entryTruncated => "TLV entry truncated"

structure EntryView where
  typ : ExtensionType
  value : Option Window
  next : Nat
  deriving DecidableEq, Repr

def parseTLVEntryIn (buf : Bytes) (offset : Nat) : Option (Except TlvError EntryView) :=
  if offset + extEntryHeader > buf.length then some (.error .entryTruncated)
  else
    (at? buf offset).bind fun typ =>
    (at? buf (offset + 1)).bind fun len =>
    let valLen := len.toNat
    let valStart := offset + extEntryHeader
    if valStart + valLen > buf.length then some (.error .entryTruncated)
    else if valLen = 0 then some (.ok ⟨typ, none, valStart⟩)
    else (window? buf valStart valLen).map fun value => .ok ⟨typ, some value, valStart + valLen⟩

/-- `ParseTLVEntry` never faults; the value lies between the entry's header and
the next offset. -/
theorem parseTLVEntryIn_eq (buf : Bytes) (offset : Nat) :
    ∃ r, parseTLVEntryIn buf offset = some r ∧ ∀ v, r = .ok v →
      v.next = offset + extEntryHeader + Window.length v.value ∧ v.next ≤ buf.length ∧
      ∀ w, v.value = some w → w.start = offset + extEntryHeader := by
  unfold parseTLVEntryIn
  split
  · exact ⟨_, rfl, fun v hv => (by cases hv)⟩
  next hheader =>
  rw [extEntryHeader] at hheader
  rw [at?_eq (by omega), Option.bind_some, at?_eq (by omega), Option.bind_some]
  dsimp only
  split
  · exact ⟨_, rfl, fun v hv => (by cases hv)⟩
  next hfits =>
  split
  · next hzero =>
    refine ⟨_, rfl, fun v hv => ?_⟩
    cases hv
    exact ⟨rfl, by dsimp only; omega, fun w hw => (by cases hw)⟩
  · rw [window?_eq (by omega) (by omega), Option.map_some]
    refine ⟨_, rfl, fun v hv => ?_⟩
    cases hv
    exact ⟨rfl, by dsimp only; omega, fun w hw => (by cases hw; rfl)⟩

def findExtensionLoopIn (extBlock : Bytes) (typ : ExtensionType) (stop : Nat) :
    Nat → Nat → Option (Option Window)
  | 0, _ => some none
  | fuel + 1, offset =>
    if offset < stop then
      if offset + extEntryHeader > stop then some none
      else
        (at? extBlock offset).bind fun t =>
        (at? extBlock (offset + 1)).bind fun len =>
        let l := len.toNat
        let valStart := offset + extEntryHeader
        if l = 0 then findExtensionLoopIn extBlock typ stop fuel valStart
        else if valStart + l > stop then some none
        else if t = typ then (window? extBlock valStart l).map some
        else findExtensionLoopIn extBlock typ stop fuel (valStart + l)
    else some none

def findExtensionIn (extBlock : Bytes) (typ : ExtensionType) : Option (Option Window) :=
  if extBlock.length < extHeaderLen then some none
  else
    (slice? extBlock 0 2).bind fun digits =>
    let totalLen := le digits
    if totalLen = 0 then some none
    else if extBlock.length < extHeaderLen + totalLen then some none
    else findExtensionLoopIn extBlock typ (extHeaderLen + totalLen) totalLen extHeaderLen

theorem findExtensionLoopIn_eq {extBlock : Bytes} (typ : ExtensionType) {stop : Nat}
    (hstop : stop ≤ extBlock.length) (fuel offset : Nat) :
    ∃ r, findExtensionLoopIn extBlock typ stop fuel offset = some r ∧
      r.map (·.of extBlock) = findExtensionLoop extBlock typ stop fuel offset ∧
      ∀ w, r = some w → offset ≤ w.start ∧ w.start + w.len ≤ stop := by
  have hnone : ∀ offset, ∃ r : Option Window, some none = some r ∧ r.map (·.of extBlock) = none ∧
      ∀ w, r = some w → offset ≤ w.start ∧ w.start + w.len ≤ stop :=
    fun _ => ⟨none, rfl, rfl, fun w hw => (by cases hw)⟩
  induction fuel generalizing offset with
  | zero => exact hnone offset
  | succ fuel ih =>
    unfold findExtensionLoopIn findExtensionLoop
    split
    case isFalse => exact hnone offset
    next hlt =>
    split
    · exact hnone offset
    next hheader =>
    rw [extEntryHeader] at hheader
    rw [at?_eq (by omega), Option.bind_some, at?_eq (by omega), Option.bind_some]
    dsimp only
    generalize (extBlock.getD (offset + 1) 0).toNat = l
    -- what is found further on lies further on
    have hnext : ∀ next, offset ≤ next →
        ∃ r, findExtensionLoopIn extBlock typ stop fuel next = some r ∧
          r.map (·.of extBlock) = findExtensionLoop extBlock typ stop fuel next ∧
          ∀ w, r = some w → offset ≤ w.start ∧ w.start + w.len ≤ stop := by
      intro next hle
      obtain ⟨r, hr, hmap, hinside⟩ := ih next
      refine ⟨r, hr, hmap, fun w hw => ?_⟩
      obtain ⟨hstart, hend⟩ := hinside w hw
      exact ⟨Nat.le_trans hle hstart, hend⟩
    split
    · exact hnext _ (Nat.le_add_right _ _)
    split
    · exact hnone offset
    next hfits =>
    split
    · rw [window?_eq (by omega) (by omega), Option.map_some]
      refine ⟨_, rfl, rfl, fun w hw => ?_⟩
      cases hw
      exact ⟨Nat.le_add_right _ _, Nat.le_of_not_lt hfits⟩
    · exact hnext _ (by omega)

/-- `FindExtension` never faults; a value it finds lies in the declared region. -/
theorem findExtensionIn_eq (extBlock : Bytes) (typ : ExtensionType) :
    ∃ r, findExtensionIn extBlock typ = some r ∧
      r.map (·.of extBlock) = findExtension extBlock typ ∧
      ∀ w, r = some w → extHeaderLen ≤ w.start ∧
        w.start + w.len ≤ extBlockSize (extTotalLen extBlock 0) ∧ w.Inside extBlock := by
  have hnone : ∃ r : Option Window, some none = some r ∧ r.map (·.of extBlock) = none ∧
      ∀ w, r = some w → extHeaderLen ≤ w.start ∧
        w.start + w.len ≤ extBlockSize (extTotalLen extBlock 0) ∧ w.Inside extBlock :=
    ⟨none, rfl, rfl, fun w hw => (by cases hw)⟩
  unfold findExtensionIn findExtension
  split
  · exact hnone
  next hheader =>
  rw [slice?_eq (by rw [extHeaderLen] at hheader; omega), Option.bind_some, ← extTotalLen]
  dsimp only
  split
  · exact hnone
  split
  · exact hnone
  next htotal =>
  obtain ⟨r, hr, hmap, hinside⟩ := findExtensionLoopIn_eq typ (Nat.le_of_not_lt htotal)
    (extTotalLen extBlock 0) extHeaderLen
  refine ⟨r, hr, hmap, fun w hw => ?_⟩
  obtain ⟨hstart, hend⟩ := hinside w hw
  exact ⟨hstart, hend, Nat.le_trans hend (Nat.le_of_not_lt htotal)⟩

/-- `ExtractPriority`; `none` where the source reports the default. -/
def extractPriorityIn (extBlock : Bytes) : Option (Option UInt8) :=
  (findExtensionIn extBlock extPriority).bind fun val =>
  match val with
  | none => some none
  | some val =>
    if val.len < extPriorityLen then some none
    else
      (at? (val.of extBlock) 0).bind fun p =>
      if p > priorityLow then some none else some (some p)

theorem extractPriorityIn_eq (extBlock : Bytes) :
    extractPriorityIn extBlock = some (extractPriority extBlock) := by
  obtain ⟨r, hr, hmap, hinside⟩ := findExtensionIn_eq extBlock extPriority
  unfold extractPriorityIn extractPriority
  rw [hr, Option.bind_some, ← hmap]
  cases r with
  | none => rfl
  | some w =>
    have hlen : (w.of extBlock).length = w.len := Window.of_length (hinside w rfl).2.2
    rw [Option.map_some]
    dsimp only
    rw [hlen]
    split
    · rfl
    next hpos =>
    rw [extPriorityLen] at hpos
    rw [at?_eq (by omega), Option.bind_some]
    split <;> rfl

def extTraceContext : ExtensionType := 0x01
def extTraceContextLen : Nat := 25

structure TraceView where
  traceID : Window
  spanID : Window
  traceFlags : UInt8
  deriving DecidableEq, Repr

def extractTraceContextIn (extBlock : Bytes) : Option (Option TraceView) :=
  (findExtensionIn extBlock extTraceContext).bind fun val =>
  match val with
  | none => some none
  | some val =>
    if val.len < extTraceContextLen then some none
    else
      (val.sub? 0 16).bind fun traceID =>
      (val.sub? 16 8).bind fun spanID =>
      (at? (val.of extBlock) 24).map fun traceFlags => some ⟨traceID, spanID, traceFlags⟩

/-- `ExtractTraceContext` never faults; the two ids lie one behind the other in
the declared region. -/
theorem extractTraceContextIn_eq (extBlock : Bytes) :
    ∃ r, extractTraceContextIn extBlock = some r ∧ ∀ v, r = some v →
      extHeaderLen ≤ v.traceID.start ∧ v.traceID.len = 16 ∧
        v.spanID = ⟨v.traceID.start + 16, 8⟩ ∧
        v.spanID.start + 8 < extBlockSize (extTotalLen extBlock 0) ∧
        v.traceID.Inside extBlock ∧ v.spanID.Inside extBlock := by
  obtain ⟨r, hr, -, hinside⟩ := findExtensionIn_eq extBlock extTraceContext
  unfold extractTraceContextIn
  rw [hr, Option.bind_some]
  cases r with
  | none => exact ⟨none, rfl, fun v hv => (by cases hv)⟩
  | some w =>
    obtain ⟨hstart, hend, hbuf⟩ := hinside w rfl
    have hlen : (w.of extBlock).length = w.len := Window.of_length hbuf
    dsimp only
    split
    · exact ⟨none, rfl, fun v hv => (by cases hv)⟩
    next hlong =>
    rw [extTraceContextLen] at hlong
    unfold Window.Inside at hbuf
    rw [Window.sub?, if_pos (by omega), Option.bind_some, Window.sub?, if_pos (by omega),
      Option.bind_some, at?_eq (by omega), Option.map_some]
    refine ⟨_, rfl, fun v hv => ?_⟩
    cases hv
    refine ⟨hstart, rfl, rfl, ?_, ?_, ?_⟩
    · show w.start + 16 + 8 < _
      omega
    · show w.start + 0 + 16 ≤ _
      omega
    · show w.start + 16 + 8 ≤ _
      omega

/-- **No reader leaves its input.** No buffer, offset or type makes an access
fault, and every slice that is returned is a part of the input: in a frame the
block and the payload tile the data behind the header, an entry's value lies
before the next entry, and what a lookup finds lies in the declared region. -/
theorem readers_stay_inside :
    (∀ buf, ∃ r, parseFrameIn buf = some r ∧ r.map (·.frame buf) = parseFrame buf ∧
      ∀ v, r = .ok v → v.Tiles (v.frame buf).dataLen.toNat ∧
        (∀ w, v.extensions = some w → w.Inside buf) ∧ ∀ w, v.payload = some w → w.Inside buf) ∧
    (∀ buf offset, offset ≤ buf.length → ∃ r, parseBatchFrameIn buf offset = some r ∧
      r.map (·.len) = parseBatchFrame buf offset ∧
      ∀ w, r = .ok w → w.start = offset ∧ w.Inside buf) ∧
    (∀ buf offset, offset ≤ buf.length → ∃ r, parseTLVEntryIn buf offset = some r ∧
      ∀ v, r = .ok v → v.next = offset + extEntryHeader + Window.length v.value ∧
        v.next ≤ buf.length ∧ ∀ w, v.value = some w → w.start = offset + extEntryHeader) ∧
    (∀ extBlock typ, ∃ r, findExtensionIn extBlock typ = some r ∧
      r.map (·.of extBlock) = findExtension extBlock typ ∧
      ∀ w, r = some w → extHeaderLen ≤ w.start ∧
        w.start + w.len ≤ extBlockSize (extTotalLen extBlock 0) ∧ w.Inside extBlock) ∧
    (∀ extBlock, extractPriorityIn extBlock = some (extractPriority extBlock)) ∧
    ∀ extBlock, ∃ r, extractTraceContextIn extBlock = some r ∧ ∀ v, r = some v →
      extHeaderLen ≤ v.traceID.start ∧ v.traceID.len = 16 ∧
        v.spanID = ⟨v.traceID.start + 16, 8⟩ ∧
        v.spanID.start + 8 < extBlockSize (extTotalLen extBlock 0) ∧
        v.traceID.Inside extBlock ∧ v.spanID.Inside extBlock := by
  refine ⟨fun buf => ?_, fun buf offset h => parseBatchFrameIn_eq h,
    fun buf offset _ => parseTLVEntryIn_eq buf offset, findExtensionIn_eq, extractPriorityIn_eq,
    extractTraceContextIn_eq⟩
  obtain ⟨r, hr, hmap, htiles⟩ := parseFrameIn_eq buf
  refine ⟨r, hr, hmap, fun v hv => ?_⟩
  obtain ⟨ht, hfits⟩ := htiles v hv
  exact ⟨ht, ht.inside hfits⟩

/-- Two publishes with a payload of one byte. -/
def twoSmallFrames : Bytes :=
  let frame := [magicByte, cmdPublish, 0, 0, 0, 0, 1, 0, 0, 0, 97]
  frame ++ frame

theorem second_frame_inside :
    parseBatchFrame twoSmallFrames 11 = .ok 11 ∧
      ∃ r, parseBatchFrameIn twoSmallFrames 11 = some r ∧
        r.map (·.len) = parseBatchFrame twoSmallFrames 11 ∧
        ∀ w, r = .ok w → w.start = 11 ∧ w.Inside twoSmallFrames :=
  ⟨by decide, readers_stay_inside.2.1 twoSmallFrames 11 (by decide)⟩

end Aqueduct.Protocol
