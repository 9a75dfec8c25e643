import Aqueduct.Protocol.Frame

/-!
How serialised and parsed frames fit together. Every accepted buffer is read
through its decomposition into magic byte, command, stream id digits, length
digits and data (`headerCut`), so that the proofs never compute positions.
`Accepted` says what the fields of an accepted frame are, and exactly the
accepted buffers are parsed (`frame_codec_exact`). `parseBatch_flatten` says
that a batch of whole frames is cut into them, and `frameSequence_iff` tells
such batches from the bytes.
-/

namespace Aqueduct.Protocol

open ByteStr

/-- Any buffer with a full header, cut at its fields. -/
theorem headerCut {buf : Bytes} (h : headerSize ≤ buf.length) :
    ∃ m c sid len data, sid.length = 4 ∧ len.length = 4 ∧
      buf = m :: c :: (sid ++ (len ++ data)) := by
  unfold headerSize at h
  match buf, h with
  | m :: c :: rest, h =>
    simp only [List.length_cons] at h
    refine ⟨m, c, rest.take 4, (rest.drop 4).take 4, (rest.drop 4).drop 4, ?_, ?_, ?_⟩
    · rw [List.length_take]; omega
    · rw [List.length_take, List.length_drop]; omega
    · rw [List.take_append_drop, List.take_append_drop]

section Header

variable {m c : UInt8} {sid len data : Bytes} (hs : sid.length = 4) (hl : len.length = 4)

include hs hl

omit hl in
theorem cut_streamID : slice (m :: c :: (sid ++ (len ++ data))) 2 4 = sid := by
  show slice (sid ++ (len ++ data)) 0 4 = sid
  exact slice_append_left hs

theorem cut_dataLen : slice (m :: c :: (sid ++ (len ++ data))) 6 4 = len := by
  show slice (sid ++ (len ++ data)) 4 4 = len
  rw [slice_append_right (k := 0) hs]
  exact slice_append_left hl

theorem cut_data (k n : Nat) :
    slice (m :: c :: (sid ++ (len ++ data))) (headerSize + k) n = slice data k n := by
  have hk : headerSize + k = 2 + (4 + (4 + k)) := by unfold headerSize; omega
  rw [hk]
  show slice ([m, c] ++ (sid ++ (len ++ data))) (2 + (4 + (4 + k))) n = _
  rw [slice_append_right (a := [m, c]) (i := 2) rfl, slice_append_right hs,
    slice_append_right hl]

theorem cut_take (n : Nat) : (m :: c :: (sid ++ (len ++ data))).take (headerSize + n) =
    m :: c :: (sid ++ (len ++ data.take n)) := by
  have hh : (m :: c :: (sid ++ len)).length = headerSize := by simp [hs, hl, headerSize]
  have htake : ((m :: c :: (sid ++ len)) ++ data).take ((m :: c :: (sid ++ len)).length + n) =
      (m :: c :: (sid ++ len)) ++ data.take n := List.take_length_add_append n
  rw [hh] at htake
  simpa [List.append_assoc] using htake

end Header

/-- The wire form of an accepted frame from its fields. -/
def reserialize (f : Frame) : Bytes :=
  if f.hasExtensions then serializeFrameWithExtensions f.command f.streamID f.extensions f.payload
  else serializeFrame f.command f.streamID f.payload

theorem or_hasExtensionsBit {c : Command} (h : c &&& hasExtensionsBit ≠ 0) :
    c ||| hasExtensionsBit = c := by
  have hall := command_cases
    (fun c => decide (c &&& hasExtensionsBit ≠ 0 → c ||| hasExtensionsBit = c)) (by decide +kernel) c
  exact of_decide_eq_true hall h

/-- What acceptance says about the fields. -/
structure Accepted (buf : Bytes) (f : Frame) : Prop where
  header : headerSize ≤ buf.length
  magic : buf.getD 0 0 = magicByte
  command : f.command = buf.getD 1 0
  opcode : cmdPublish ≤ opcodeOf f.command ∧ opcodeOf f.command ≤ cmdNack
  streamID : f.streamID = UInt32.ofNat (le (slice buf 2 4))
  data : f.extensions ++ f.payload = slice buf headerSize (le (slice buf 6 4))
  fits : headerSize + le (slice buf 6 4) ≤ buf.length
  payloadLen : f.payloadLen.toNat = f.payload.length
  ext : 0 < f.extensions.length ↔ f.command &&& hasExtensionsBit ≠ 0
  extPrefix : 0 < f.extensions.length →
    f.extensions.length = extBlockSize (extTotalLen f.extensions 0) ∧
      extTotalLen f.extensions 0 ≤ maxExtTotalLen

theorem le_four_lt {b : Bytes} (h : b.length = 4) : le b < 2 ^ 32 := by
  have hlt := le_lt b
  rwa [h] at hlt

/-- The checks of the header that an accepted frame passed. -/
structure HeaderChecks (buf : Bytes) : Prop where
  header : headerSize ≤ buf.length
  magic : buf.getD 0 0 = magicByte
  opcode : cmdPublish ≤ opcodeOf (buf.getD 1 0) ∧ opcodeOf (buf.getD 1 0) ≤ cmdNack
  fits : headerSize + le (slice buf 6 4) ≤ buf.length

theorem HeaderChecks.dataLen_lt {buf : Bytes} (h : HeaderChecks buf) :
    le (slice buf 6 4) < 2 ^ 32 := by
  have hheader := h.header
  unfold headerSize at hheader
  exact le_four_lt (slice_length (by omega))

theorem payloadLenAt_toNat {buf : Bytes} (h : headerSize ≤ buf.length) :
    (payloadLenAt buf).toNat = le (slice buf 6 4) := by
  have hten : 10 ≤ buf.length := h
  have hlt : le (slice buf 6 4) < 2 ^ 32 := le_four_lt (slice_length (by omega))
  rw [payloadLenAt, if_neg (Nat.not_lt.mpr h), UInt32.toNat_ofNat', Nat.mod_eq_of_lt hlt]

theorem parseFrame_checks {buf : Bytes} {f : Frame} (h : parseFrame buf = .ok f) :
    HeaderChecks buf ∧ parseFrameBody buf (buf.getD 1 0) (UInt32.ofNat (le (slice buf 2 4)))
      (le (slice buf 6 4)) = .ok f := by
  unfold parseFrame at h
  by_cases hh : buf.length < headerSize
  · simp [hh] at h
  rw [if_neg hh] at h
  by_cases hm : buf.getD 0 0 ≠ magicByte
  · rw [if_pos hm] at h
    cases h
  rw [if_neg hm] at h
  dsimp only at h
  rw [← opcodeOf] at h
  by_cases hc : opcodeOf (buf.getD 1 0) < cmdPublish ∨ opcodeOf (buf.getD 1 0) > cmdNack
  · rw [if_pos hc] at h
    cases h
  rw [if_neg hc] at h
  by_cases hf : buf.length < headerSize + le (slice buf 6 4)
  · rw [if_pos hf] at h
    cases h
  rw [if_neg hf] at h
  obtain ⟨hlow, hhigh⟩ := not_or.mp hc
  exact ⟨⟨Nat.le_of_not_lt hh, not_not.mp hm, ⟨UInt8.not_lt.mp hlow, UInt8.not_lt.mp hhigh⟩,
    Nat.le_of_not_lt hf⟩, h⟩

theorem extTotalLen_slice (buf : Bytes) (i : Nat) :
    extTotalLen (slice buf i (extBlockSize (extTotalLen buf i))) 0 = extTotalLen buf i := by
  simp only [extTotalLen, slice, List.drop_zero, List.take_take]
  congr 2
  exact Nat.min_eq_left (by rw [extBlockSize, extHeaderLen]; omega)

theorem parseFrame_accepted {buf : Bytes} {f : Frame} (h : parseFrame buf = .ok f) :
    Accepted buf f := by
  obtain ⟨hchecks, h⟩ := parseFrame_checks h
  have hfits := hchecks.fits
  have hlt := hchecks.dataLen_lt
  unfold parseFrameBody at h
  split at h
  · rename_i hext
    by_cases h1 : le (slice buf 6 4) < extHeaderLen
    · rw [if_pos h1] at h
      cases h
    rw [if_neg h1] at h
    dsimp only at h
    by_cases h2 : extTotalLen buf headerSize > maxExtTotalLen
    · rw [if_pos h2] at h
      cases h
    rw [if_neg h2] at h
    by_cases h3 : headerSize + extBlockSize (extTotalLen buf headerSize) >
        headerSize + le (slice buf 6 4)
    · rw [if_pos h3] at h
      cases h
    rw [if_neg h3] at h
    cases h
    have hle : extBlockSize (extTotalLen buf headerSize) ≤ le (slice buf 6 4) := by omega
    have hsz : extBlockSize (extTotalLen buf headerSize) = 2 + extTotalLen buf headerSize := rfl
    have hel : (slice buf headerSize (extBlockSize (extTotalLen buf headerSize))).length =
        extBlockSize (extTotalLen buf headerSize) := slice_length (by omega)
    refine ⟨hchecks.header, hchecks.magic, rfl, hchecks.opcode, rfl,
      slice_split buf headerSize _ _ hle, hfits, ?_, ?_, ?_⟩
    · dsimp only
      rw [slice_length (by omega), UInt32.toNat_ofNat']
      exact Nat.mod_eq_of_lt (by omega)
    · dsimp only
      rw [hel]
      exact ⟨fun _ => hext, fun _ => by omega⟩
    · intro _
      dsimp only
      rw [extTotalLen_slice]
      exact ⟨hel, by omega⟩
  · rename_i hext
    cases h
    refine ⟨hchecks.header, hchecks.magic, rfl, hchecks.opcode, rfl, rfl, hfits, ?_, ?_, ?_⟩
    · dsimp only
      rw [slice_length hfits, UInt32.toNat_ofNat']
      exact Nat.mod_eq_of_lt hlt
    · exact ⟨fun h0 => absurd h0 (by simp), fun h0 => absurd h0 hext⟩
    · intro h0
      simp at h0

theorem take_ofNat_length {payload : Bytes} (h : payload.length < 2 ^ 32) :
    payload.take (UInt32.ofNat payload.length).toNat = payload := by
  rw [UInt32.toNat_ofNat', Nat.mod_eq_of_lt h, List.take_length]

namespace Accepted

variable {buf : Bytes} {f : Frame} (h : Accepted buf f)

include h

theorem dataLen_lt : le (slice buf 6 4) < 2 ^ 32 :=
  HeaderChecks.dataLen_lt ⟨h.header, h.magic, h.command ▸ h.opcode, h.fits⟩

theorem data_length : f.extensions.length + f.payload.length = le (slice buf 6 4) := by
  have hlen := congrArg List.length h.data
  rwa [List.length_append, slice_length h.fits] at hlen

theorem size_eq : f.size = headerSize + le (slice buf 6 4) := by
  have hlen := h.data_length
  have hlt := h.dataLen_lt
  unfold Frame.size Frame.dataLen
  split
  · rw [UInt32.toNat_add, UInt32.toNat_ofNat', h.payloadLen]
    omega
  · rw [h.payloadLen]
    omega

theorem payload_eq :
    f.payload = slice buf (headerSize + f.extensions.length) f.payload.length := by
  have hlen := h.data_length
  have hcut := congrArg (List.drop f.extensions.length) h.data
  rw [List.drop_left] at hcut
  generalize le (slice buf 6 4) = n at hlen hcut
  calc f.payload = (slice buf headerSize n).drop f.extensions.length := hcut
    _ = slice buf (headerSize + f.extensions.length) (n - f.extensions.length) := by
      unfold slice
      rw [List.drop_take, List.drop_drop]
    _ = slice buf (headerSize + f.extensions.length) f.payload.length := by
      rw [← hlen, Nat.add_sub_cancel_left]

/-- Re-serialising an accepted frame gives back its bytes. -/
theorem reserialize_eq : reserialize f = buf.take f.size := by
  have hsize := h.size_eq
  have hlen := h.data_length
  have hlt := h.dataLen_lt
  have hmagic := h.magic
  have hcommand := h.command
  have hsid := h.streamID
  have hdata := h.data
  obtain ⟨m, c, sid, len, data, hs, hl, rfl⟩ := headerCut h.header
  rw [cut_dataLen hs hl] at hsize hlen hlt hdata
  rw [cut_streamID hs] at hsid
  have hslice : slice (m :: c :: (sid ++ (len ++ data))) (headerSize + 0) (le len) =
      slice data 0 (le len) := cut_data hs hl 0 (le len)
  rw [Nat.add_zero] at hslice
  rw [hslice] at hdata
  have hsidval : toLE 4 f.streamID.toNat = sid := by
    rw [hsid, UInt32.toNat_ofNat', Nat.mod_eq_of_lt (le_four_lt hs), ← hs, toLE_le]
  have hpay : f.payload.take (UInt32.ofNat f.payload.length).toNat = f.payload := by
    rw [UInt32.toNat_ofNat', Nat.mod_eq_of_lt (by omega), List.take_length]
  have hm : m = magicByte := hmagic
  obtain rfl : f.command = c := hcommand
  rw [hsize, cut_take hs hl, ← List.drop_zero (l := data), ← slice, ← hdata, hm]
  have hnat : le len = f.extensions.length + f.payload.length := hlen.symm
  unfold reserialize Frame.hasExtensions
  by_cases hext : 0 < f.extensions.length
  · have hcmd : f.command ||| hasExtensionsBit = f.command := or_hasExtensionsBit (h.ext.mp hext)
    have hdl : toLE 4 (UInt32.ofNat f.extensions.length + UInt32.ofNat f.payload.length).toNat =
        len := by
      rw [UInt32.toNat_add, UInt32.toNat_ofNat', UInt32.toNat_ofNat', ← Nat.add_mod, ← hnat,
        Nat.mod_eq_of_lt hlt, ← hl, toLE_le]
    simp only [decide_eq_true hext, if_true, serializeFrameWithExtensions, hcmd, hsidval, hdl, hpay]
    simp [List.append_assoc]
  · have hnil : f.extensions = [] := List.length_eq_zero_iff.mp (by omega)
    have hdl : toLE 4 (UInt32.ofNat f.payload.length).toNat = len := by
      rw [hnil, List.length_nil, Nat.zero_add] at hnat
      rw [UInt32.toNat_ofNat', ← hnat, Nat.mod_eq_of_lt hlt, ← hl, toLE_le]
    simp only [serializeFrame, hsidval, hdl, hpay, hnil]
    simp [List.append_assoc]

/-- `ParseBatch` cuts an accepted frame where `ParseFrame` ends it. -/
theorem parseBatchFrame_eq {pre : Bytes} :
    parseBatchFrame (pre ++ buf) pre.length = .ok f.size := by
  have hop := h.opcode
  have hfits := h.fits
  rw [h.command] at hop
  unfold parseBatchFrame
  rw [List.drop_left]
  dsimp only
  rw [if_neg (Nat.not_lt.mpr h.header), if_neg (not_not.mpr h.magic),
    if_neg (not_or.mpr ⟨UInt8.not_lt.mpr hop.1, UInt8.not_lt.mpr hop.2⟩),
    if_neg (Nat.not_lt.mpr hfits), h.size_eq]

/-- Bytes after an accepted frame do not change how it is read. -/
theorem append (rest : Bytes) : Accepted (buf ++ rest) f := by
  have hh := h.header
  unfold headerSize at hh
  have hget : ∀ i, i < buf.length → (buf ++ rest).getD i 0 = buf.getD i 0 := by
    intro i hi
    simp only [List.getD_eq_getElem?_getD, List.getElem?_append_left hi]
  have hlen : slice (buf ++ rest) 6 4 = slice buf 6 4 := slice_append_of_le (by omega)
  refine ⟨?_, ?_, ?_, h.opcode, ?_, ?_, ?_, h.payloadLen, h.ext, h.extPrefix⟩
  · rw [List.length_append]
    exact Nat.le_add_right_of_le h.header
  · rw [hget 0 (by omega)]
    exact h.magic
  · rw [hget 1 (by omega)]
    exact h.command
  · rw [slice_append_of_le (by omega)]
    exact h.streamID
  · rw [hlen, slice_append_of_le h.fits]
    exact h.data
  · rw [hlen, List.length_append]
    exact Nat.le_add_right_of_le h.fits

theorem extensions_eq : f.extensions = slice buf headerSize f.extensions.length := by
  have hlen := h.data_length
  have hcut := congrArg (List.take f.extensions.length) h.data
  rw [List.take_left, slice, List.take_take, Nat.min_eq_left (by omega)] at hcut
  exact hcut

/-- A buffer whose fields read as those of `f` is parsed as `f`. -/
theorem parseFrame_eq : parseFrame buf = .ok f := by
  have hop := h.opcode
  have hlen := h.data_length
  rw [h.command] at hop
  unfold parseFrame
  rw [if_neg (Nat.not_lt.mpr h.header), if_neg (not_not.mpr h.magic)]
  dsimp only
  rw [← opcodeOf, if_neg (not_or.mpr ⟨UInt8.not_lt.mpr hop.1, UInt8.not_lt.mpr hop.2⟩),
    if_neg (Nat.not_lt.mpr h.fits), ← h.command, ← h.streamID]
  generalize le (slice buf 6 4) = dataLen at hlen ⊢
  have hpay : UInt32.ofNat f.payload.length = f.payloadLen := by
    rw [← h.payloadLen, UInt32.ofNat_toNat]
  unfold parseFrameBody
  by_cases hbit : f.command &&& hasExtensionsBit ≠ 0
  · obtain ⟨hblock, hmax⟩ := h.extPrefix (h.ext.mpr hbit)
    have hsize : extBlockSize (extTotalLen f.extensions 0) = 2 + extTotalLen f.extensions 0 := rfl
    -- the length prefix of the block is read at its place in the buffer
    have htotal : extTotalLen buf headerSize = extTotalLen f.extensions 0 := by
      unfold extTotalLen
      rw [h.extensions_eq, slice_slice _ (by omega), Nat.add_zero]
    have hrest : dataLen - f.extensions.length = f.payload.length := by omega
    rw [if_pos hbit, if_neg (by unfold extHeaderLen; omega)]
    dsimp only
    rw [htotal, ← hblock, if_neg (by omega), if_neg (by omega), hrest, hpay, ← h.payload_eq,
      ← h.extensions_eq]
  · have hnil : f.extensions = [] := List.length_eq_zero_iff.mp (by
      have hno := mt h.ext.mp hbit
      omega)
    have hdata := h.payload_eq
    rw [hnil, List.length_nil, Nat.zero_add] at hlen
    rw [hnil, List.length_nil, Nat.add_zero] at hdata
    rw [if_neg hbit, ← hlen, ← hdata, hpay]
    congr 1
    rw [← hnil]

end Accepted

/-- Once the declared data is there, bytes behind it do not change the answer,
be it a frame or an error. -/
theorem parseFrame_append {buf : Bytes} (hh : headerSize ≤ buf.length)
    (hfits : headerSize + le (slice buf 6 4) ≤ buf.length) (rest : Bytes) :
    parseFrame (buf ++ rest) = parseFrame buf := by
  have hlen : (buf ++ rest).length = buf.length + rest.length := List.length_append
  have hten : 10 ≤ buf.length := hh
  have hget : ∀ i, i < buf.length → (buf ++ rest).getD i 0 = buf.getD i 0 := by
    intro i hi
    simp only [List.getD_eq_getElem?_getD, List.getElem?_append_left hi]
  have hbody : ∀ c sid, parseFrameBody (buf ++ rest) c sid (le (slice buf 6 4)) =
      parseFrameBody buf c sid (le (slice buf 6 4)) := by
    intro c sid
    generalize le (slice buf 6 4) = dataLen at hfits
    unfold parseFrameBody
    split
    · -- the block's length prefix is only read when there is data for it
      by_cases hshort : dataLen < extHeaderLen
      · rw [if_pos hshort, if_pos hshort]
      rw [if_neg hshort, if_neg hshort]
      unfold extHeaderLen at hshort
      have htotal : extTotalLen (buf ++ rest) headerSize = extTotalLen buf headerSize := by
        unfold extTotalLen
        rw [slice_append_of_le (by omega)]
      rw [htotal]
      dsimp only
      split
      · rfl
      · split
        · rfl
        · rw [slice_append_of_le (by omega), slice_append_of_le (by omega)]
    · rw [slice_append_of_le hfits]
  have hheader : ¬ (buf ++ rest).length < headerSize := by omega
  have htrunc : ¬ (buf ++ rest).length < headerSize + le (slice buf 6 4) := by omega
  unfold parseFrame
  rw [hget 0 (by omega), hget 1 (by omega), slice_append_of_le (i := 2) (by omega),
    slice_append_of_le (i := 6) (by omega), if_neg hheader, if_neg (Nat.not_lt.mpr hh)]
  dsimp only
  rw [if_neg htrunc, if_neg (Nat.not_lt.mpr hfits), hbody]

/-! ## Reading what was written -/

/-- The opcode is one of the six of the protocol. -/
def KnownOpcode (c : Command) : Prop := cmdPublish ≤ opcodeOf c ∧ opcodeOf c ≤ cmdNack

instance (c : Command) : Decidable (KnownOpcode c) := inferInstanceAs (Decidable (_ ∧ _))

/-- A block that starts with the length of the rest, which is at most 1024. -/
def ExtBlock (ext : Bytes) : Prop :=
  ext.length = extBlockSize (extTotalLen ext 0) ∧ extTotalLen ext 0 ≤ maxExtTotalLen

instance (ext : Bytes) : Decidable (ExtBlock ext) := inferInstanceAs (Decidable (_ ∧ _))

theorem opcodeOf_or_hasExtensionsBit (c : Command) : opcodeOf (c ||| hasExtensionsBit) = opcodeOf c :=
  of_decide_eq_true (command_cases
    (fun c => decide (opcodeOf (c ||| hasExtensionsBit) = opcodeOf c)) (by decide +kernel) c)

theorem or_hasExtensionsBit_and (c : Command) : (c ||| hasExtensionsBit) &&& hasExtensionsBit ≠ 0 :=
  of_decide_eq_true (command_cases
    (fun c => decide ((c ||| hasExtensionsBit) &&& hasExtensionsBit ≠ 0)) (by decide +kernel) c)

theorem wire_accepted {c : Command} (hop : KnownOpcode c) (sid : UInt32) {ext payload : Bytes}
    (hlen : ext.length + payload.length < 2 ^ 32)
    (hbit : 0 < ext.length ↔ c &&& hasExtensionsBit ≠ 0) (hext : 0 < ext.length → ExtBlock ext) :
    Accepted ([magicByte, c] ++ toLE 4 sid.toNat ++ toLE 4 (ext.length + payload.length) ++
        (ext ++ payload))
      ⟨c, sid, UInt32.ofNat payload.length, payload, ext⟩ := by
  have hs : (toLE 4 sid.toNat).length = 4 := toLE_length 4 _
  have hl : (toLE 4 (ext.length + payload.length)).length = 4 := toLE_length 4 _
  have hdl : le (toLE 4 (ext.length + payload.length)) = ext.length + payload.length :=
    le_toLE 4 _ (by omega)
  have hshape : [magicByte, c] ++ toLE 4 sid.toNat ++ toLE 4 (ext.length + payload.length) ++
      (ext ++ payload) =
      magicByte :: c :: (toLE 4 sid.toNat ++ (toLE 4 (ext.length + payload.length) ++
        (ext ++ payload))) := by
    simp [List.append_assoc]
  have hdata : slice (magicByte :: c :: (toLE 4 sid.toNat ++
      (toLE 4 (ext.length + payload.length) ++ (ext ++ payload)))) headerSize
      (ext.length + payload.length) = slice (ext ++ payload) 0 (ext.length + payload.length) :=
    cut_data hs hl 0 _
  rw [hshape]
  refine ⟨?_, rfl, rfl, hop, ?_, ?_, ?_, ?_, hbit, hext⟩
  · simp [headerSize]
    omega
  · rw [cut_streamID hs, le_toLE 4 _ sid.toNat_lt, UInt32.ofNat_toNat]
  · rw [cut_dataLen hs hl, hdl, hdata, slice, List.drop_zero, ← List.length_append,
      List.take_length]
  · rw [cut_dataLen hs hl, hdl]
    simp [headerSize]
    omega
  · rw [UInt32.toNat_ofNat', Nat.mod_eq_of_lt (by omega)]

theorem serializeFrame_accepted {c : Command} (hop : KnownOpcode c)
    (hbit : c &&& hasExtensionsBit = 0) (sid : UInt32) {payload : Bytes}
    (hlen : payload.length < 2 ^ 32) :
    Accepted (serializeFrame c sid payload) ⟨c, sid, UInt32.ofNat payload.length, payload, []⟩ := by
  have hwire : Accepted ([magicByte, c] ++ toLE 4 sid.toNat ++
      toLE 4 (([] : Bytes).length + payload.length) ++ ([] ++ payload))
      ⟨c, sid, UInt32.ofNat payload.length, payload, []⟩ :=
    wire_accepted hop sid (by simpa using hlen) (by simp [hbit]) (by simp)
  have hval : (UInt32.ofNat payload.length).toNat = payload.length := by
    rw [UInt32.toNat_ofNat', Nat.mod_eq_of_lt hlen]
  simp only [List.length_nil, Nat.zero_add, List.nil_append] at hwire
  simpa only [serializeFrame, hval, List.take_length] using hwire

theorem serializeFrameWithExtensions_accepted {c : Command} (hop : KnownOpcode c) (sid : UInt32)
    {ext payload : Bytes} (hext : ExtBlock ext) (hlen : ext.length + payload.length < 2 ^ 32) :
    Accepted (serializeFrameWithExtensions c sid ext payload)
      ⟨c ||| hasExtensionsBit, sid, UInt32.ofNat payload.length, payload, ext⟩ := by
  have hpos : 0 < ext.length := by
    rw [hext.1, extBlockSize, extHeaderLen]
    omega
  have hwire := wire_accepted (c := c ||| hasExtensionsBit) (by
      rw [KnownOpcode, opcodeOf_or_hasExtensionsBit]
      exact hop) sid hlen
    ⟨fun _ => or_hasExtensionsBit_and c, fun _ => hpos⟩ (fun _ => hext)
  have hval : (UInt32.ofNat ext.length + UInt32.ofNat payload.length).toNat =
      ext.length + payload.length := by
    rw [UInt32.toNat_add, UInt32.toNat_ofNat', UInt32.toNat_ofNat']
    omega
  have htake : payload.take (UInt32.ofNat payload.length).toNat = payload :=
    take_ofNat_length (by omega)
  simpa only [serializeFrameWithExtensions, hval, htake, List.append_assoc] using hwire

/-- **Frame codec.** What was serialised is read back field by field, whatever
follows it, and what was read is serialised back to the bytes it was read from. -/
theorem frame_codec_exact :
    (∀ (c : Command) (sid : UInt32) (payload rest : Bytes), KnownOpcode c →
      c &&& hasExtensionsBit = 0 →
        (payload.length < 2 ^ 32 →
          parseFrame (serializeFrame c sid payload ++ rest) =
            .ok ⟨c, sid, UInt32.ofNat payload.length, payload, []⟩) ∧
        ∀ ext, ExtBlock ext → ext.length + payload.length < 2 ^ 32 →
          parseFrame (serializeFrameWithExtensions c sid ext payload ++ rest) =
            .ok ⟨c ||| hasExtensionsBit, sid, UInt32.ofNat payload.length, payload, ext⟩) ∧
      ∀ (buf : Bytes) (f : Frame), parseFrame buf = .ok f →
        reserialize f = buf.take f.size ∧ f.size = headerSize + le (slice buf 6 4) := by
  refine ⟨?_, ?_⟩
  · intro c sid payload rest hop hbit
    refine ⟨fun hlen => ?_, fun ext hext hlen => ?_⟩
    · exact ((serializeFrame_accepted hop hbit sid hlen).append rest).parseFrame_eq
    · exact ((serializeFrameWithExtensions_accepted hop sid hext hlen).append rest).parseFrame_eq
  · intro buf f h
    have hacc := parseFrame_accepted h
    exact ⟨hacc.reserialize_eq, hacc.size_eq⟩

/-- A forwarded publish with an empty extension block, and two bytes behind it. -/
theorem forwarded_publish_round_trip :
    parseFrame (serializeFrameWithExtensions 0x81 7 [0, 0] (ascii "t") ++ [1, 2]) =
        .ok ⟨0xC1, 7, 1, ascii "t", [0, 0]⟩ ∧
      reserialize ⟨0xC1, 7, 1, ascii "t", [0, 0]⟩ =
        (serializeFrameWithExtensions 0x81 7 [0, 0] (ascii "t") ++ [1, 2]).take 13 := by
  obtain ⟨hwrite, hread⟩ := frame_codec_exact
  have hparse := (hwrite 0x81 7 (ascii "t") [1, 2] (by decide) (by decide)).2 [0, 0] (by decide)
    (by decide)
  exact ⟨hparse, (hread _ _ hparse).1⟩

/-- The bytes of exactly one accepted frame. -/
def WholeFrame (b : Bytes) (f : Frame) : Prop := parseFrame b = .ok f ∧ f.size = b.length

theorem WholeFrame.accepted {b : Bytes} {f : Frame} (h : WholeFrame b f) : Accepted b f :=
  parseFrame_accepted h.1

theorem WholeFrame.length_pos {b : Bytes} {f : Frame} (h : WholeFrame b f) : 0 < b.length := by
  have hheader := h.accepted.header
  unfold headerSize at hheader
  omega

/-! ## Serialisation is injective -/

/-- A sub-frame that is cut off has a header and lies in the batch. -/
theorem parseBatchFrame_ok {buf : Bytes} {offset totalLen : Nat}
    (h : parseBatchFrame buf offset = .ok totalLen) :
    headerSize ≤ totalLen ∧ totalLen ≤ buf.length - offset := by
  unfold parseBatchFrame at h
  dsimp only at h
  split at h
  · cases h
  split at h
  · cases h
  split at h
  · cases h
  split at h
  · cases h
  · rename_i hfit
    cases h
    rw [List.length_drop] at hfit
    omega

/-- Every window `ParseBatch` passes on lies in the batch. -/
theorem parseBatch_window {batchBuf : Bytes} {w : Window} (h : w ∈ (parseBatch batchBuf).1) :
    w.start + w.len ≤ batchBuf.length := by
  have hloop : ∀ fuel offset, w ∈ (parseBatchLoop batchBuf fuel offset).1 →
      w.start + w.len ≤ batchBuf.length := by
    intro fuel
    induction fuel with
    | zero => intro offset hw; cases hw
    | succ fuel ih =>
      intro offset hw
      unfold parseBatchLoop at hw
      split at hw
      · rename_i hlt
        cases hcut : parseBatchFrame batchBuf offset with
        | error e => simp [hcut] at hw
        | ok totalLen =>
          rw [hcut] at hw
          rcases List.mem_cons.mp hw with rfl | hw
          · obtain ⟨-, hfit⟩ := parseBatchFrame_ok hcut
            show offset + totalLen ≤ batchBuf.length
            omega
          · exact ih _ hw
      · cases hw
  exact hloop _ _ h

theorem parseBatchLoop_flatten (bs : List Bytes) :
    ∀ (pre : Bytes) (fuel : Nat), (∀ b ∈ bs, ∃ f, WholeFrame b f) → bs.length ≤ fuel →
      (parseBatchLoop (pre ++ bs.flatten) fuel pre.length).1.map (·.of (pre ++ bs.flatten)) = bs ∧
        (parseBatchLoop (pre ++ bs.flatten) fuel pre.length).2 = none := by
  induction bs with
  | nil =>
    intro pre fuel _ _
    cases fuel <;> simp [parseBatchLoop]
  | cons b bs ih =>
    intro pre fuel hw hf
    cases fuel with
    | zero => simp at hf
    | succ fuel =>
      obtain ⟨f, hb⟩ := hw b List.mem_cons_self
      have hpos := hb.length_pos
      have hcut : parseBatchFrame (pre ++ (b ++ bs.flatten)) pre.length = .ok b.length := by
        rw [(hb.accepted.append bs.flatten).parseBatchFrame_eq, hb.2]
      have hlt : pre.length < (pre ++ (b ++ bs.flatten)).length := by
        simp only [List.length_append]
        omega
      have hrec := ih (pre ++ b) fuel (fun b' hb' => hw b' (List.mem_cons_of_mem _ hb'))
        (by simpa using hf)
      rw [List.length_append, List.append_assoc] at hrec
      simp only [List.flatten_cons, parseBatchLoop, if_pos hlt, hcut, List.map_cons]
      refine ⟨?_, hrec.2⟩
      rw [hrec.1]
      have hwin : Window.of ⟨pre.length, b.length⟩ (pre ++ (b ++ bs.flatten)) = b := by
        simp [Window.of, slice]
      rw [hwin]

/-- A concatenation of whole frames is cut back into them, with no error. -/
theorem parseBatch_flatten {bs : List Bytes} (h : ∀ b ∈ bs, ∃ f, WholeFrame b f) :
    batchFrames bs.flatten = bs ∧ (parseBatch bs.flatten).2 = none := by
  have hlen : bs.length ≤ bs.flatten.length := by
    induction bs with
    | nil => simp
    | cons b bs ih =>
      obtain ⟨f, hb⟩ := h b List.mem_cons_self
      have hpos := hb.length_pos
      have hrest := ih fun b' hb' => h b' (List.mem_cons_of_mem _ hb')
      simp only [List.length_cons, List.flatten_cons, List.length_append]
      omega
  exact parseBatchLoop_flatten bs [] _ h hlen

/-- Windows that follow each other from `start` on. -/
def Contiguous : Nat → List Window → Prop
  | _, [] => True
  | start, w :: ws => w.start = start ∧ Contiguous (start + w.len) ws

/-- The loop cuts up the bytes from its offset to some end, which is the end of
the batch exactly without an error. -/
theorem parseBatchLoop_covers (batchBuf : Bytes) (fuel : Nat) :
    ∀ offset, offset ≤ batchBuf.length → batchBuf.length - offset ≤ fuel →
      ∃ stop, offset ≤ stop ∧ stop ≤ batchBuf.length ∧
        Contiguous offset (parseBatchLoop batchBuf fuel offset).1 ∧
        ((parseBatchLoop batchBuf fuel offset).1.map (·.of batchBuf)).flatten =
          slice batchBuf offset (stop - offset) ∧
        ((parseBatchLoop batchBuf fuel offset).2 = none ↔ stop = batchBuf.length) := by
  have hempty : ∀ offset, slice batchBuf offset (offset - offset) = [] := by
    intro offset
    rw [Nat.sub_self, slice, List.take_zero]
  induction fuel with
  | zero =>
    intro offset hle hfuel
    refine ⟨offset, Nat.le_refl _, hle, trivial, (hempty offset).symm, ?_⟩
    exact ⟨fun _ => (by omega), fun _ => rfl⟩
  | succ fuel ih =>
    intro offset hle hfuel
    unfold parseBatchLoop
    by_cases hlt : offset < batchBuf.length
    · rw [if_pos hlt]
      cases hcut : parseBatchFrame batchBuf offset with
      | error e =>
        refine ⟨offset, Nat.le_refl _, hle, trivial, (hempty offset).symm, ?_⟩
        exact ⟨fun hnone => (by cases hnone), fun hend => (by omega)⟩
      | ok totalLen =>
        obtain ⟨hhead, hfit⟩ := parseBatchFrame_ok hcut
        unfold headerSize at hhead
        obtain ⟨stop, hfrom, hto, hcontig, hflat, hnone⟩ :=
          ih (offset + totalLen) (by omega) (by omega)
        refine ⟨stop, by omega, hto, ⟨rfl, hcontig⟩, ?_, hnone⟩
        dsimp only
        rw [List.map_cons, List.flatten_cons, hflat]
        have hsplit := slice_split batchBuf offset totalLen (stop - offset) (by omega)
        rwa [Nat.sub_sub] at hsplit
    · rw [if_neg hlt]
      refine ⟨offset, Nat.le_refl _, hle, trivial, (hempty offset).symm, ?_⟩
      exact ⟨fun _ => (by omega), fun _ => rfl⟩

/-- The sub-frames are the front of the batch up to some position. -/
theorem parseBatch_covers (batchBuf : Bytes) :
    ∃ stop, stop ≤ batchBuf.length ∧ Contiguous 0 (parseBatch batchBuf).1 ∧
      (batchFrames batchBuf).flatten = batchBuf.take stop ∧
      ((parseBatch batchBuf).2 = none ↔ stop = batchBuf.length) := by
  obtain ⟨stop, -, hle, hcontig, hflat, hnone⟩ :=
    parseBatchLoop_covers batchBuf batchBuf.length 0 (Nat.zero_le _) (Nat.sub_le _ _)
  exact ⟨stop, hle, hcontig, hflat, hnone⟩

theorem batchFrames_flatten_eq_iff (batchBuf : Bytes) :
    (batchFrames batchBuf).flatten = batchBuf ↔ (parseBatch batchBuf).2 = none := by
  obtain ⟨stop, hle, -, hflat, hnone⟩ := parseBatch_covers batchBuf
  rw [hflat, hnone, List.take_eq_self_iff]
  omega

/-- **Batch splitting.** The slices follow each other from the start of the
batch and are all of it exactly without an error; a concatenation of whole
frames is cut into them; and a frame is cut where `ParseFrame` ends it. -/
theorem batch_splitting :
    (∀ b, Contiguous 0 (parseBatch b).1 ∧ (batchFrames b).flatten <+: b ∧
      ((batchFrames b).flatten = b ↔ (parseBatch b).2 = none)) ∧
    (∀ bs : List Bytes, (∀ b ∈ bs, ∃ f, WholeFrame b f) →
      batchFrames bs.flatten = bs ∧ (parseBatch bs.flatten).2 = none) ∧
    ∀ b f, parseFrame b = .ok f → parseBatchFrame b 0 = .ok f.size := by
  refine ⟨fun b => ?_, fun bs h => parseBatch_flatten h, fun b f h => ?_⟩
  · obtain ⟨stop, -, hcontig, hflat, -⟩ := parseBatch_covers b
    exact ⟨hcontig, hflat ▸ List.take_prefix stop b, batchFrames_flatten_eq_iff b⟩
  · have hcut : parseBatchFrame ([] ++ b) 0 = .ok f.size :=
      (parseFrame_accepted h).parseBatchFrame_eq
    exact hcut

/-- Two publishes, one with an extension block. -/
theorem two_publishes_split :
    batchFrames [serializeFrame 1 0 (ascii "t"),
        serializeFrameWithExtensions 1 0 [0, 0] []].flatten =
      [serializeFrame 1 0 (ascii "t"), serializeFrameWithExtensions 1 0 [0, 0] []] ∧
    parseBatchFrame (serializeFrame 1 0 (ascii "t")) 0 = .ok 11 := by
  obtain ⟨-, hsplit, hcut⟩ := batch_splitting
  refine ⟨(hsplit _ ?_).1, hcut _ ⟨1, 0, 1, ascii "t", []⟩ (by decide +kernel)⟩
  intro b hb
  rcases List.mem_cons.mp hb with rfl | hb
  · exact ⟨⟨1, 0, 1, ascii "t", []⟩, by decide +kernel, by decide +kernel⟩
  · rw [List.mem_singleton] at hb
    subst hb
    exact ⟨⟨0x41, 0, 0, [], [0, 0]⟩, by decide +kernel, by decide +kernel⟩

/-- The bytes are one well-formed frame. -/
def IsFrame (b : Bytes) : Prop := ∃ f, WholeFrame b f

theorem IsFrame.length_pos {b : Bytes} (h : IsFrame b) : 0 < b.length := by
  obtain ⟨f, hf⟩ := h
  exact hf.length_pos

instance (b : Bytes) : Decidable (IsFrame b) :=
  match h : parseFrame b with
  | .ok f =>
    decidable_of_iff (f.size = b.length) (by
      constructor
      · intro hsize
        exact ⟨f, h, hsize⟩
      · rintro ⟨f', hparse, hsize⟩
        rw [h] at hparse
        cases hparse
        exact hsize)
  | .error _ => isFalse (by
      rintro ⟨f', hparse, -⟩
      rw [h] at hparse
      cases hparse)

/-- A concatenation of well-formed frames. -/
def FrameSequence (payload : Bytes) : Prop :=
  ∃ bs : List Bytes, payload = bs.flatten ∧ ∀ b ∈ bs, IsFrame b

/-- `ParseBatch` and `ParseFrame` on each part tell the concatenations. -/
theorem frameSequence_iff (payload : Bytes) :
    FrameSequence payload ↔
      (parseBatch payload).2 = none ∧ ∀ b ∈ batchFrames payload, IsFrame b := by
  constructor
  · rintro ⟨bs, rfl, hbs⟩
    obtain ⟨hcut, hnone⟩ := parseBatch_flatten hbs
    exact ⟨hnone, by rwa [hcut]⟩
  · rintro ⟨hnone, hframes⟩
    exact ⟨batchFrames payload, ((batchFrames_flatten_eq_iff payload).mpr hnone).symm, hframes⟩

instance (payload : Bytes) : Decidable (FrameSequence payload) :=
  decidable_of_iff _ (frameSequence_iff payload).symm

end Aqueduct.Protocol
