import Aqueduct.Lib.Run
import Aqueduct.Protocol.Entries
import Aqueduct.Transport.Broker

/-!
What `decompressFrame` and the engine of `internal/compress/zstd.go` do with
frames from the network. A block that ends in the start of an entry of another
type makes `StripExtension` panic behind a successful decompression
(`strip_safe_iff`). The per-stream budget is charged with the size the TLV
declares, while the decoder decodes whatever the payload holds, and
`Decompress` cuts or pads the result instead of comparing the two
(`declared_size_iff`).
-/

namespace Aqueduct.Transport

open ByteStr Aqueduct.Protocol Aqueduct.Broker

/-! ## The steps of `decompressFrame` -/

/-- The size a Compression value declares, if it asks for decompression. -/
def declaredBy (extVal : Bytes) : Option UInt32 :=
  if extVal.length < extCompressionValueLen then none
  else
    let uncompressedSize := UInt32.ofNat (le (slice extVal 1 4))
    if extVal.getD 0 0 ≠ algoZSTD ∨ uncompressedSize = 0 then none else some uncompressedSize

def declaredSize (extensions : Bytes) : Option UInt32 :=
  (findExtension extensions extCompression).bind declaredBy

/-- The size is within the limit of a frame and of what is left for the stream. -/
def Admits (b : Broker) (total : Int) (n : UInt32) : Prop :=
  n ≤ UInt32.ofNat b.maxBufSize * 16 ∧ total + n.toNat ≤ b.maxDecompressedPerStream

instance (b : Broker) (total : Int) (n : UInt32) : Decidable (Admits b total n) :=
  inferInstanceAs (Decidable (_ ∧ _))

/-- What is left to do for a frame within the limits. -/
def decompressTo (decompress : Bytes → Nat → Option Bytes) (f : Frame) (n : UInt32) :
    DecompressResult :=
  match decompress f.payload n.toNat with
  | none => .failed
  | some payload =>
    match stripExtension f.extensions extCompression with
    | none => .panicked
    | some cleanExt =>
      .decompressed { f with payloadLen := n, payload := payload, extensions := cleanExt }

theorem decompressFrame_off {b : Broker} {f : Frame}
    (h : b.compression = none ∨ declaredSize f.extensions = none) (total : Int) :
    decompressFrame b f total = (.unchanged, total) := by
  unfold decompressFrame
  split
  · rfl
  next decompress hc =>
  have hsize : declaredSize f.extensions = none := by
    rcases h with h | h
    · rw [hc] at h
      cases h
    · exact h
  unfold declaredSize at hsize
  split
  · rfl
  next extVal hv =>
  rw [hv, Option.bind_some, declaredBy] at hsize
  dsimp only at hsize ⊢
  split
  · rfl
  next hlen =>
  rw [if_neg hlen] at hsize
  split
  · rfl
  next hkind =>
  rw [if_neg hkind] at hsize
  cases hsize

section On

variable {b : Broker} {decompress : Bytes → Nat → Option Bytes} {f : Frame} {n : UInt32}
  {total : Int} (hc : b.compression = some decompress) (hn : declaredSize f.extensions = some n)

include hc hn

theorem decompressFrame_on :
    decompressFrame b f total =
      if Admits b total n then (decompressTo decompress f n, total + n.toNat)
      else (.failed, total) := by
  unfold declaredSize at hn
  unfold decompressFrame
  rw [hc]
  dsimp only
  obtain ⟨extVal, hv, hn⟩ := Option.bind_eq_some_iff.mp hn
  unfold declaredBy at hn
  split at hn
  · cases hn
  next hlen =>
  dsimp only at hn
  split at hn
  · cases hn
  next hkind =>
  obtain rfl : UInt32.ofNat (le (slice extVal 1 4)) = n := Option.some.inj hn
  rw [hv]
  dsimp only
  rw [if_neg hlen, if_neg hkind]
  by_cases hmax : UInt32.ofNat (le (slice extVal 1 4)) > UInt32.ofNat b.maxBufSize * 16
  · rw [if_pos hmax, if_neg fun ha => UInt32.not_le.mpr hmax ha.1]
  rw [if_neg hmax]
  by_cases hbudget :
      total + (UInt32.ofNat (le (slice extVal 1 4))).toNat > b.maxDecompressedPerStream
  · rw [if_pos hbudget, if_neg fun ha => Int.not_le.mpr hbudget ha.2]
  · rw [if_neg hbudget, if_pos ⟨UInt32.not_lt.mp hmax, Int.not_lt.mp hbudget⟩, decompressTo]
    cases decompress f.payload (UInt32.ofNat (le (slice extVal 1 4))).toNat with
    | none => rfl
    | some payload => cases stripExtension f.extensions extCompression <;> rfl

end On

/-- What `decompressFrame` can do with a frame and with the budget. -/
theorem decompressFrame_cases (b : Broker) (f : Frame) (total : Int) :
    ((b.compression = none ∨ declaredSize f.extensions = none) ∧
        decompressFrame b f total = (.unchanged, total)) ∨
      ∃ decompress n, b.compression = some decompress ∧ declaredSize f.extensions = some n ∧
        ((Admits b total n ∧
            decompressFrame b f total = (decompressTo decompress f n, total + n.toNat)) ∨
          (¬ Admits b total n ∧ decompressFrame b f total = (.failed, total))) := by
  cases hc : b.compression with
  | none => exact .inl ⟨.inl rfl, decompressFrame_off (.inl hc) total⟩
  | some decompress =>
    cases hn : declaredSize f.extensions with
    | none => exact .inl ⟨.inr rfl, decompressFrame_off (.inr hn) total⟩
    | some n =>
      refine .inr ⟨decompress, n, rfl, rfl, ?_⟩
      rw [decompressFrame_on hc hn]
      by_cases ha : Admits b total n
      · exact .inl ⟨ha, if_pos ha⟩
      · exact .inr ⟨ha, if_neg ha⟩

theorem decompressTo_decompressed {decompress : Bytes → Nat → Option Bytes} {f g : Frame}
    {n : UInt32} (h : decompressTo decompress f n = .decompressed g) :
    g.payloadLen = n ∧ decompress f.payload n.toNat = some g.payload ∧
      stripExtension f.extensions extCompression = some g.extensions := by
  unfold decompressTo at h
  split at h
  · cases h
  next payload hpayload =>
  split at h
  · cases h
  next cleanExt hstrip =>
  cases h
  exact ⟨rfl, hpayload, hstrip⟩

theorem decompressTo_panicked_iff {decompress : Bytes → Nat → Option Bytes} {f : Frame}
    {n : UInt32} :
    decompressTo decompress f n = .panicked ↔
      (∃ payload, decompress f.payload n.toNat = some payload) ∧
        stripExtension f.extensions extCompression = none := by
  unfold decompressTo
  cases hp : decompress f.payload n.toNat with
  | none => simp
  | some payload =>
    cases hs : stripExtension f.extensions extCompression with
    | none => simp
    | some cleanExt => simp

/-- The gate gets as far as stripping the TLV. -/
def Strips (b : Broker) (f : Frame) (total : Int) : Prop :=
  ∃ decompress n payload, b.compression = some decompress ∧ declaredSize f.extensions = some n ∧
    Admits b total n ∧ decompress f.payload n.toNat = some payload

theorem decompressFrame_panicked_iff (b : Broker) (f : Frame) (total : Int) :
    (decompressFrame b f total).1 = .panicked ↔
      Strips b f total ∧ stripExtension f.extensions extCompression = none := by
  obtain ⟨hoff, heq⟩ | ⟨decompress, n, hc, hn, ⟨ha, heq⟩ | ⟨ha, heq⟩⟩ :=
    decompressFrame_cases b f total
  · rw [heq]
    constructor
    · intro h
      cases h
    · rintro ⟨⟨decompress, n, payload, hc, hn, -⟩, -⟩
      rcases hoff with h | h
      · rw [hc] at h
        cases h
      · rw [hn] at h
        cases h
  · rw [heq]
    show decompressTo decompress f n = .panicked ↔ _
    rw [decompressTo_panicked_iff]
    refine and_congr_left fun _ => ?_
    constructor
    · rintro ⟨payload, hp⟩
      exact ⟨decompress, n, payload, hc, hn, ha, hp⟩
    · rintro ⟨decompress', n', payload, hc', hn', -, hp⟩
      obtain rfl : decompress = decompress' := Option.some.inj (hc.symm.trans hc')
      obtain rfl : n = n' := Option.some.inj (hn.symm.trans hn')
      exact ⟨payload, hp⟩
  · rw [heq]
    constructor
    · intro h
      cases h
    · rintro ⟨⟨decompress', n', payload, -, hn', ha', -⟩, -⟩
      obtain rfl : n = n' := Option.some.inj (hn.symm.trans hn')
      exact absurd ha' ha

/-! ## Stripping -/

/-- The entry bytes of a frame's block. -/
def entryBytes (f : Frame) : Bytes := f.extensions.drop extHeaderLen

theorem extensions_eq_blockOf {raw : Bytes} {f : Frame} (h : parseFrame raw = .ok f)
    (hext : f.extensions ≠ []) :
    f.extensions = blockOf (entryBytes f) ∧ (entryBytes f).length ≤ maxExtTotalLen := by
  have hblock : ExtBlock f.extensions :=
    (parseFrame_accepted h).extPrefix (List.length_pos_iff.mpr hext)
  obtain ⟨src, hmax, hsrc⟩ := (extBlock_iff f.extensions).mp hblock
  have hentry : entryBytes f = src := by
    rw [entryBytes, hsrc, blockOf]
    exact List.drop_left' (toLE_length 2 _)
  rw [hentry]
  exact ⟨hsrc, hmax⟩

theorem entryBytes_length_le {raw : Bytes} {f : Frame} (h : parseFrame raw = .ok f) :
    (entryBytes f).length ≤ maxExtTotalLen := by
  by_cases hext : f.extensions = []
  · rw [entryBytes, hext]
    exact Nat.zero_le _
  · exact (extensions_eq_blockOf h hext).2

theorem stripExtension_accepted {raw : Bytes} {f : Frame} (h : parseFrame raw = .ok f)
    (typ : ExtensionType) :
    stripExtension f.extensions typ =
      if TornOther (entryBytes f) typ then none
      else some (entryBlock (Tlv.without (Tlv.entries (entryBytes f)) typ)) := by
  by_cases hext : f.extensions = []
  · rw [entryBytes, hext]
    have htorn : ¬ TornOther ([] : Bytes) typ := fun hc => tornOther_ne_nil hc rfl
    show some [] = _
    rw [List.drop_nil, if_neg htorn]
    rfl
  · obtain ⟨hblock, hmax⟩ := extensions_eq_blockOf h hext
    rw [← stripExtension_blockOf (Nat.lt_of_le_of_lt hmax (by decide)) typ, ← hblock]

/-- A block whose length prefix is the length of the rest, or nil. -/
def Prefixed (block : Bytes) : Prop :=
  block = [] ∨ block.length = extBlockSize (extTotalLen block 0)

theorem prefixed_entryBlock {es : List Tlv.Entry} (h : (Tlv.encode es).length < 65536) :
    Prefixed (entryBlock es) := by
  unfold entryBlock
  split
  · exact .inl rfl
  · exact .inr (by rw [extTotalLen_blockOf h, blockOf_length])

/-- **Stripping.** `StripExtension` stays inside its source and destination and
returns a block with the right length prefix exactly for blocks that do not end
in the start of an entry of another type; on such a block `decompressFrame`
panics as soon as the decompression succeeds. -/
theorem strip_safe_iff (acquire : Nat → Bytes) (hacquire : ∀ n, (acquire n).length = n)
    (raw : Bytes) (f : Frame) (hparse : parseFrame raw = .ok f) :
    (∀ typ, (∃ clean, stripExtensionInto acquire f.extensions typ = some clean ∧ Prefixed clean) ↔
      ¬ TornOther (entryBytes f) typ) ∧
    ∀ (b : Broker) (total : Int), (decompressFrame b f total).1 ≠ .panicked ↔
      ¬ (TornOther (entryBytes f) extCompression ∧ Strips b f total) := by
  refine ⟨fun typ => ?_, fun b total => ?_⟩
  · rw [stripExtensionInto_eq hacquire, stripExtension_accepted hparse]
    constructor
    · rintro ⟨clean, hclean, -⟩ htorn
      rw [if_pos htorn] at hclean
      cases hclean
    · intro htorn
      rw [if_neg htorn]
      refine ⟨_, rfl, prefixed_entryBlock ?_⟩
      have hless := Tlv.encode_without_length_le (Tlv.entries (entryBytes f)) typ
      have hfront := congrArg List.length (Tlv.encode_entries_rest (entryBytes f))
      have hmax := entryBytes_length_le hparse
      rw [List.length_append] at hfront
      rw [maxExtTotalLen] at hmax
      omega
  · have hnone : stripExtension f.extensions extCompression = none ↔
        TornOther (entryBytes f) extCompression := by
      rw [stripExtension_accepted hparse]
      split <;> simp [*]
    rw [Ne, decompressFrame_panicked_iff, hnone, And.comm]

/-- A publish whose block holds a Compression TLV for its one byte of payload,
and then a trace entry of 255 bytes of which nothing is there. -/
def tornFrame : Bytes :=
  serializeFrameWithExtensions cmdPublish 0
    (toLE 2 9 ++ [extCompression, 5, algoZSTD] ++ toLE 4 1 ++ [1, 255]) (ascii "t")

/-- An engine that stores payloads as they are. -/
def storing : Bytes → Nat → Option Bytes := fun src n => if src.length = n then some src else none

/-- The frame is accepted, and the node that gets it panics. -/
theorem torn_entry_panics :
    ∃ f, parseFrame tornFrame = .ok f ∧
      stripExtensionInto (List.replicate · 0) f.extensions extCompression = none ∧
      (decompressFrame { newBroker with compression := some storing } f 0).1 = .panicked :=
  ⟨⟨0x41, 0, 1, ascii "t", toLE 2 9 ++ [extCompression, 5, algoZSTD] ++ toLE 4 1 ++ [1, 255]⟩,
    by decide +kernel, by decide +kernel, rfl⟩

/-- Behind the same TLV a whole entry is kept. -/
theorem whole_entry_kept :
    (∃ clean, stripExtensionInto (List.replicate · 0)
        (blockOf ([extCompression, 5, algoZSTD] ++ toLE 4 1 ++ [1, 1, 7])) extCompression =
          some clean ∧ Prefixed clean) ∧
      (decompressFrame { newBroker with compression := some storing }
        ⟨0x41, 0, 1, ascii "t", blockOf ([extCompression, 5, algoZSTD] ++ toLE 4 1 ++ [1, 1, 7])⟩
        0).1 ≠ .panicked := by
  have hsafe := strip_safe_iff (List.replicate · 0) (fun n => List.length_replicate)
    (serializeFrameWithExtensions cmdPublish 0
      (blockOf ([extCompression, 5, algoZSTD] ++ toLE 4 1 ++ [1, 1, 7])) (ascii "t"))
    ⟨0x41, 0, 1, ascii "t", blockOf ([extCompression, 5, algoZSTD] ++ toLE 4 1 ++ [1, 1, 7])⟩
    (by decide +kernel)
  exact ⟨(hsafe.1 extCompression).mpr (by decide +kernel),
    (hsafe.2 { newBroker with compression := some storing } 0).mpr
      fun h => absurd h.1 (by decide +kernel)⟩

/-! ## The engine -/

/-- A Go slice: its bytes, and those between its length and its capacity. -/
structure Buf where
  bytes : Bytes
  spare : Bytes
  deriving DecidableEq, Repr

def Buf.cap (s : Buf) : Nat := s.bytes.length + s.spare.length

def Buf.make (n : Nat) : Buf := ⟨[], List.replicate n 0⟩

/-- `s[:n]`, which may reach into the spare bytes. -/
def Buf.upTo (s : Buf) (n : Nat) : Bytes := (s.bytes ++ s.spare).take n

/-- A `zstd.Decoder`. `DecodeAll` appends the whole content of its input or
fails; what capacity the result has is up to it. -/
structure Decoder where
  content : Bytes → Option Bytes
  decodeAll : Bytes → Buf → Option Buf
  appends : ∀ src dst, (decodeAll src dst).map Buf.bytes = (content src).map (dst.bytes ++ ·)

namespace Decoder

def decompress (d : Decoder) (src : Bytes) (uncompressedSize : Nat) : Option Bytes :=
  match d.decodeAll src (Buf.make uncompressedSize) with
  | none => none
  | some result =>
    if uncompressedSize ≤ result.cap then some (result.upTo uncompressedSize)
    else some result.bytes

variable {d : Decoder} {src x : Bytes}

theorem decodeAll_make (h : d.content src = some x) (n : Nat) :
    ∃ spare, d.decodeAll src (Buf.make n) = some ⟨x, spare⟩ := by
  have happ := d.appends src (Buf.make n)
  rw [h, Option.map_some] at happ
  obtain ⟨⟨bytes, spare⟩, hr, hbytes⟩ := Option.map_eq_some_iff.mp happ
  obtain rfl : bytes = x := hbytes
  exact ⟨spare, hr⟩

/-- The content, cut or padded to the size asked for. -/
theorem decompress_eq (h : d.content src = some x) (n : Nat) :
    ∃ spare, d.decompress src n =
      some (if n ≤ x.length + spare.length then (x ++ spare).take n else x) := by
  obtain ⟨spare, hr⟩ := decodeAll_make h n
  refine ⟨spare, ?_⟩
  rw [decompress, hr]
  dsimp only
  show (if n ≤ x.length + spare.length then _ else _) = _
  split <;> rfl

theorem decompress_length (h : d.content src = some x) : d.decompress src x.length = some x := by
  obtain ⟨spare, hr⟩ := decompress_eq h x.length
  rw [hr, if_pos (Nat.le_add_right _ _), List.take_left]

theorem decompress_isSome_iff (d : Decoder) (src : Bytes) (n : Nat) :
    (d.decompress src n).isSome ↔ (d.content src).isSome := by
  cases h : d.content src with
  | some x =>
    obtain ⟨spare, hr⟩ := decompress_eq h n
    rw [hr]
    rfl
  | none =>
    have happ := d.appends src (Buf.make n)
    rw [h, Option.map_none, Option.map_eq_none_iff] at happ
    rw [decompress, happ]

end Decoder

/-! ## The budget of a stream -/

/-- What a stream has been charged, what was decoded for it, and whether the
gate has given it up. -/
structure StreamBudget where
  total : Int
  decoded : Nat
  closed : Bool
  deriving DecidableEq, Repr

def StreamBudget.initial : StreamBudget := ⟨0, 0, false⟩

/-- The gate calls `Decompress` on the frame. -/
def Decodes (b : Broker) (f : Frame) (total : Int) : Bool :=
  b.compression.isSome && (declaredSize f.extensions).any fun n => decide (Admits b total n)

def DecompressResult.closes : DecompressResult → Bool
  | .unchanged | .decompressed _ => false
  | .failed | .panicked => true

/-- One frame of the stream; `d` is the decoder of the engine. -/
def budgetStep (d : Decoder) (b : Broker) (s : StreamBudget) (f : Frame) : Option StreamBudget :=
  if s.closed then none
  else
    some {
      total := (decompressFrame b f s.total).2
      decoded := s.decoded +
        if Decodes b f s.total then ((d.content f.payload).getD []).length else 0
      closed := (decompressFrame b f s.total).1.closes }

/-- The TLV declares at least what the payload decodes to. -/
def DeclaresAll (d : Decoder) (f : Frame) : Prop :=
  ∀ n x, declaredSize f.extensions = some n → d.content f.payload = some x → x.length ≤ n.toNat

/-- What was decoded has been charged, and the charge is within the limit. -/
def Charged (b : Broker) (s : StreamBudget) : Prop :=
  (s.decoded : Int) ≤ s.total ∧ (s.total = 0 ∨ s.total ≤ b.maxDecompressedPerStream)

theorem budgetStep_charged {d : Decoder} {b : Broker} {s t : StreamBudget} {f : Frame}
    (hs : Charged b s) (hf : DeclaresAll d f) (h : budgetStep d b s f = some t) : Charged b t := by
  obtain ⟨hcharge, hlimit⟩ := hs
  unfold budgetStep at h
  split at h
  · cases h
  obtain ⟨htotal, hdecoded⟩ : t.total = (decompressFrame b f s.total).2 ∧ t.decoded = s.decoded +
      if Decodes b f s.total then ((d.content f.payload).getD []).length else 0 := by
    cases h
    exact ⟨rfl, rfl⟩
  unfold Charged
  obtain ⟨hoff, heq⟩ | ⟨decompress, n, hc, hn, hdone⟩ := decompressFrame_cases b f s.total
  · have hno : Decodes b f s.total = false := by
      unfold Decodes
      rcases hoff with h | h <;> simp [h]
    rw [heq] at htotal
    rw [hno, if_neg Bool.false_ne_true] at hdecoded
    rw [htotal, hdecoded]
    exact ⟨hcharge, hlimit⟩
  have hdecodes : Decodes b f s.total = decide (Admits b s.total n) := by
    simp [Decodes, hc, hn]
  rcases hdone with ⟨ha, heq⟩ | ⟨ha, heq⟩
  · have hreal : ((d.content f.payload).getD []).length ≤ n.toNat := by
      cases hx : d.content f.payload with
      | none => exact Nat.zero_le _
      | some x => exact hf n x hn hx
    rw [heq] at htotal
    rw [hdecodes, decide_eq_true ha, if_pos rfl] at hdecoded
    rw [htotal, hdecoded]
    refine ⟨?_, .inr ha.2⟩
    dsimp only
    omega
  · rw [heq] at htotal
    rw [hdecodes, decide_eq_false ha, if_neg Bool.false_ne_true] at hdecoded
    rw [htotal, hdecoded]
    exact ⟨hcharge, hlimit⟩

/-- **The decompression budget.** `Decompress` returns the content for its true
length, and never an error for another one, so the size it is given is checked
exactly when it is the right one. On a stream whose frames all declare at least
what they decode to, what is decoded stays within the budget. -/
theorem declared_size_iff (d : Decoder) :
    (∀ (src x : Bytes) (n : Nat), d.content src = some x →
      (((n = x.length → d.decompress src n = some x) ∧
        (n ≠ x.length → d.decompress src n = none)) ↔ n = x.length)) ∧
    ∀ (b : Broker) (frames : List Frame) (s : StreamBudget),
      b.compression = some d.decompress →
      Transition.Meets (budgetStep d b) (fun _ f => DeclaresAll d f) .initial frames →
      Transition.run (budgetStep d b) .initial frames = some s →
      s.decoded = 0 ∨ (s.decoded : Int) ≤ b.maxDecompressedPerStream := by
  refine ⟨fun src x n hx => ?_, fun b frames s _ hmeets hrun => ?_⟩
  · constructor
    · rintro ⟨-, herr⟩
      by_contra hne
      have hsome := (d.decompress_isSome_iff src n).mpr (by rw [hx]; rfl)
      rw [herr hne] at hsome
      cases hsome
    · rintro rfl
      exact ⟨fun _ => Decoder.decompress_length hx, fun h => absurd rfl h⟩
  · have hinit : Charged b .initial := ⟨Int.le_refl _, .inl rfl⟩
    obtain ⟨hcharge, hlimit⟩ : Charged b s :=
      Transition.run_invariant (fun _ _ _ hs hf h => budgetStep_charged hs hf h) hinit hmeets hrun
    rcases hlimit with hzero | hlimit
    · left
      omega
    · exact .inr (Int.le_trans hcharge hlimit)

/-- The content of a count and a byte. -/
def runLengthContent : Bytes → Option Bytes
  | [count, c] => some (List.replicate count.toNat c)
  | _ => none

/-- A decoder for it that uses the spare capacity as far as it goes. -/
def runLength : Decoder where
  content := runLengthContent
  decodeAll := fun src dst =>
    (runLengthContent src).map fun x => ⟨dst.bytes ++ x, dst.spare.drop x.length⟩
  appends := fun src dst => by cases runLengthContent src <;> rfl

/-- A publish of two bytes that decode to 200, declared as `n`. -/
def bombFrame (n : Nat) : Frame :=
  ⟨0x41, 0, 2, [200, 0], blockOf ([extCompression, 5, algoZSTD] ++ toLE 4 n)⟩

/-- A node with a budget of 16 bytes a stream. -/
def tightBroker : Broker :=
  { newBroker with
    compression := some runLength.decompress
    maxDecompressedPerStream := 16
    budget_le := by decide }

/-- Declared as one byte, 200 bytes are decoded on a budget of 16, and the
first of them is returned. -/
theorem understated_size_accepted :
    runLength.content [200, 0] = some (List.replicate 200 0) ∧
      runLength.decompress [200, 0] 1 = some [0] ∧
      parseFrame (reserialize (bombFrame 1)) = .ok (bombFrame 1) ∧
      Transition.run (budgetStep runLength tightBroker) .initial [bombFrame 1] =
        some ⟨1, 200, false⟩ ∧
      tightBroker.maxDecompressedPerStream = 16 :=
  ⟨rfl, by decide +kernel, by decide +kernel, by decide +kernel, rfl⟩

/-- Declared as they are, they are charged in full. -/
theorem true_size_within_budget :
    runLength.decompress [200, 0] 200 = some (List.replicate 200 0) ∧
      Transition.run (budgetStep runLength
          { newBroker with compression := some runLength.decompress }) .initial [bombFrame 200] =
        some ⟨200, 200, false⟩ ∧
      (200 = 0 ∨ ((200 : Nat) : Int) ≤ defaultMaxDecompressedPerStream) := by
  have hcontent : runLength.content [200, 0] = some (List.replicate 200 0) := rfl
  have hrun : Transition.run (budgetStep runLength
      { newBroker with compression := some runLength.decompress }) .initial [bombFrame 200] =
      some ⟨200, 200, false⟩ := by decide +kernel
  refine ⟨(((declared_size_iff runLength).1 [200, 0] _ 200 hcontent).mpr (by decide +kernel)).1
    (by decide +kernel), hrun, ?_⟩
  refine (declared_size_iff runLength).2 { newBroker with compression := some runLength.decompress }
    [bombFrame 200] ⟨200, 200, false⟩ rfl ⟨fun n x hn hx => ?_, fun t _ => trivial⟩ hrun
  have hsize : declaredSize (bombFrame 200).extensions = some 200 := by decide +kernel
  obtain rfl : 200 = n := Option.some.inj (hsize.symm.trans hn)
  obtain rfl : List.replicate 200 0 = x := Option.some.inj (hcontent.symm.trans hx)
  decide +kernel

end Aqueduct.Transport
