import Aqueduct.Broker.Dispatch
import Aqueduct.Cluster.Mesh
import Aqueduct.Transport.Decompression

/-!
What a peer makes of the compressed copy of a batch. `PublishBatch` appends a
Compression TLV to the client's block; the receiver takes the first such TLV
with a value, checks, decompresses and strips. `relay_iff` tells the blocks for
which this gives back every payload: whole entries, room for the TLV, and no
Compression value of the client's own.
-/

namespace Aqueduct.Cluster

open ByteStr Aqueduct.Protocol Aqueduct.Broker Aqueduct.Transport
open Tlv (Entry)

/-! ## The entry that is appended -/

theorem compressionValue_fits (n : UInt32) : (algoZSTD :: toLE 4 n.toNat).length < 256 := by
  rw [List.length_cons, toLE_length]
  decide

/-- The Compression entry of a payload of `n` bytes. -/
def compressionEntry (n : UInt32) : Entry :=
  ⟨extCompression, algoZSTD :: toLE 4 n.toNat, compressionValue_fits n⟩

theorem compressionEntry_length (n : UInt32) : (compressionEntry n).encode.length = 7 := by
  rw [Entry.encode_length, compressionEntry, List.length_cons, toLE_length]

theorem declaredBy_compressionEntry (n : UInt32) :
    declaredBy (compressionEntry n).value = if n = 0 then none else some n := by
  have hlen : (algoZSTD :: toLE 4 n.toNat).length = 5 := by rw [List.length_cons, toLE_length]
  have hsize : le (slice (algoZSTD :: toLE 4 n.toNat) 1 4) = n.toNat := by
    show le (slice (toLE 4 n.toNat) 0 4) = n.toNat
    rw [slice, List.drop_zero, List.take_of_length_le (Nat.le_of_eq (toLE_length 4 _)),
      le_toLE 4 _ n.toNat_lt]
  rw [compressionEntry, declaredBy, hlen, if_neg (by decide), hsize, UInt32.ofNat_toNat]
  have halgo : (algoZSTD :: toLE 4 n.toNat).getD 0 0 = algoZSTD := rfl
  simp only [halgo, ne_eq, not_true_eq_false, false_or]

/-- The merged block is the client's bytes and the entry behind them. -/
theorem merged_eq {raw : Bytes} {f : Frame} (h : parseFrame raw = .ok f) (n : UInt32) :
    buildMergedExtensionsWithCompression f.extensions n =
      blockOf (entryBytes f ++ (compressionEntry n).encode) := by
  have hexisting : (if extHeaderLen ≤ f.extensions.length then
      let totalLen := extTotalLen f.extensions 0
      if 0 < totalLen ∧ extHeaderLen + totalLen ≤ f.extensions.length then
        slice f.extensions extHeaderLen totalLen
      else []
    else []) = entryBytes f := by
    by_cases hext : f.extensions = []
    · rw [entryBytes, hext]
      rfl
    · obtain ⟨hblock, hmax⟩ := extensions_eq_blockOf h hext
      have hlt : (entryBytes f).length < 65536 := Nat.lt_of_le_of_lt hmax (by decide)
      have hlen := blockOf_length (entryBytes f)
      rw [extBlockSize] at hlen
      rw [hblock, extTotalLen_blockOf hlt, hlen, if_pos (Nat.le_add_right _ _)]
      dsimp only
      rw [slice_blockOf]
      split
      · rfl
      · next hzero =>
        exact (List.eq_nil_of_length_eq_zero (by omega)).symm
  unfold buildMergedExtensionsWithCompression
  rw [hexisting]
  rw [blockOf, List.length_append, compressionEntry_length]
  simp only [compressionEntry, Entry.encode, extEntryHeader, extCompressionValueLen,
    List.length_cons, toLE_length, List.append_assoc, List.cons_append, List.nil_append]

/-! ## What the receiver reads behind the client's bytes -/

/-- Behind `src` the entry for `n` is what the receiver finds, and stripping
leaves the entries it would leave of `src`. -/
def Reads (src : Bytes) (n : UInt32) : Prop :=
  (Tlv.lookup (Tlv.entries (src ++ (compressionEntry n).encode)) extCompression).bind declaredBy =
      some n ∧
    Tlv.without (Tlv.entries (src ++ (compressionEntry n).encode)) extCompression =
      Tlv.without (Tlv.entries src) extCompression

/-- Whole entries without a Compression value. -/
def CleanEntries (src : Bytes) : Prop :=
  Tlv.rest src = [] ∧ Tlv.lookup (Tlv.entries src) extCompression = none

instance (src : Bytes) : Decidable (CleanEntries src) := inferInstanceAs (Decidable (_ ∧ _))

theorem entries_merged (src : Bytes) (n : UInt32) :
    Tlv.entries (src ++ (compressionEntry n).encode) =
      Tlv.entries src ++ Tlv.entries (Tlv.rest src ++ (compressionEntry n).encode) := by
  conv_lhs => rw [← Tlv.encode_entries_rest src, List.append_assoc, Tlv.entries_append]

theorem merged_clean {src : Bytes} (h : Tlv.rest src = []) (n : UInt32) :
    src ++ (compressionEntry n).encode = Tlv.encode (Tlv.entries src ++ [compressionEntry n]) := by
  have hsrc := Tlv.encode_entries_rest src
  rw [h, List.append_nil] at hsrc
  rw [Tlv.encode_append, hsrc, Tlv.encode_cons, Tlv.encode_nil, List.append_nil]

theorem without_compressionEntry (n : UInt32) :
    Tlv.without [compressionEntry n] extCompression = [] := by
  rw [Tlv.without_cons, if_neg fun h => h rfl]
  rfl

theorem reads_of_clean {src : Bytes} (h : CleanEntries src) {n : UInt32} (hn : n ≠ 0) :
    Reads src n := by
  obtain ⟨hrest, hnone⟩ := h
  have hfound : Tlv.lookup [compressionEntry n] extCompression =
      some (compressionEntry n).value := by
    rw [Tlv.lookup_cons, if_pos ⟨rfl, List.cons_ne_nil _ _⟩]
  rw [Reads, merged_clean hrest, Tlv.entries_encode]
  constructor
  · rw [Tlv.lookup_append, hnone, hfound, Option.none_or, Option.bind_some,
      declaredBy_compressionEntry, if_neg hn]
  · rw [Tlv.without_append, without_compressionEntry, List.append_nil]

theorem declaredBy_low {v : Bytes} {n : UInt32} (h : declaredBy v = some n) (hn : n.toNat < 256) :
    5 ≤ v.length ∧ (v.getD 1 0).toNat = n.toNat := by
  unfold declaredBy at h
  split at h
  · cases h
  next hlen =>
  rw [extCompressionValueLen] at hlen
  dsimp only at h
  split at h
  · cases h
  have hsize := congrArg UInt32.toNat (Option.some.inj h)
  rcases v with _ | ⟨a, _ | ⟨b, v⟩⟩
  · simp at hlen
  · simp at hlen
  · have hlt : le (slice (a :: b :: v) 1 4) < 2 ^ 32 :=
      le_four_lt (slice_length (by simp at hlen ⊢; omega))
    have hle : le (slice (a :: b :: v) 1 4) = b.toNat + 256 * le (v.take 3) := rfl
    rw [UInt32.toNat_ofNat', Nat.mod_eq_of_lt hlt, hle] at hsize
    refine ⟨Nat.le_of_not_lt hlen, ?_⟩
    show b.toNat = n.toNat
    have hb := b.toNat_lt
    omega

/-- Behind the start of an entry, the value that is found does not change with
the size. -/
theorem declaredBy_torn {more : Bytes} {l : Nat} {n : UInt32} (hn : n.toNat < 256)
    (h : declaredBy ((more ++ (compressionEntry n).encode).take l) = some n) :
    n.toNat = ((more ++ [2, 5]).getD 1 0).toNat := by
  obtain ⟨hlen, hlow⟩ := declaredBy_low h hn
  rw [List.length_take] at hlen
  rw [← hlow]
  have hget : ((more ++ (compressionEntry n).encode).take l).getD 1 0 =
      (more ++ (compressionEntry n).encode).getD 1 0 := by
    simp only [List.getD_eq_getElem?_getD, List.getElem?_take, if_pos (show 1 < l by omega)]
  rw [hget]
  rcases more with _ | ⟨a, _ | ⟨b, more⟩⟩ <;> rfl

/-- What is found behind the start of an entry is the value that entry gets. -/
theorem torn_declares {t l : UInt8} {more : Bytes} (hcut : Tlv.Cut (t :: l :: more)) {n : UInt32}
    (hn : n.toNat < 256)
    (hfound : (Tlv.lookup (Tlv.entries (t :: l :: more ++ (compressionEntry n).encode))
      extCompression).bind declaredBy = some n)
    (hleft : Tlv.without (Tlv.entries (t :: l :: more ++ (compressionEntry n).encode))
      extCompression = []) :
    n.toNat = ((more ++ [2, 5]).getD 1 0).toNat := by
  have hshort : more.length < l.toNat := by
    have hlen : (t :: l :: more).length < 2 + l.toNat := hcut
    simp only [List.length_cons] at hlen
    omega
  by_cases hall : l.toNat ≤ (more ++ (compressionEntry n).encode).length
  · have hlength : ((more ++ (compressionEntry n).encode).take l.toNat).length = l.toNat :=
      List.length_take_of_le hall
    rw [List.cons_append, List.cons_append, Tlv.eq_encode_append hall,
      Tlv.entries_encode_append] at hfound hleft
    rw [Tlv.without_cons] at hleft
    by_cases htyp : t = extCompression
    · have hvalue : (more ++ (compressionEntry n).encode).take l.toNat ≠ [] := by
        intro hnil
        rw [hnil, List.length_nil] at hlength
        omega
      rw [Tlv.lookup_cons, if_pos ⟨htyp, hvalue⟩, Option.bind_some] at hfound
      exact declaredBy_torn hn hfound
    · rw [if_pos htyp] at hleft
      cases hleft
  · have hcut' : Tlv.Cut (t :: l :: more ++ (compressionEntry n).encode) := by
      show (t :: l :: more ++ (compressionEntry n).encode).length < 2 + l.toNat
      simp only [List.cons_append, List.length_cons]
      omega
    rw [Tlv.entries_cut hcut'] at hfound
    cases hfound

/-- A stray byte takes the entry for one byte apart. -/
theorem stray_left (b : UInt8) :
    Tlv.without (Tlv.entries ([b] ++ (compressionEntry 1).encode)) extCompression ≠ [] := by
  have hbytes : [b] ++ (compressionEntry 1).encode =
      Entry.encode ⟨b, [5, 1], by decide⟩ ++ (Entry.encode ⟨1, [], by decide⟩ ++ [0, 0]) := rfl
  rw [hbytes, Tlv.entries_encode_append, Tlv.entries_encode_append, Tlv.without_cons,
    Tlv.without_cons]
  split <;> simp [extCompression]

/-- If sizes 1 and 2 are read back, the client's bytes are clean. -/
theorem clean_of_reads {src : Bytes} (h1 : Reads src 1) (h2 : Reads src 2) : CleanEntries src := by
  obtain ⟨hfound1, hleft1⟩ := h1
  obtain ⟨hfound2, hleft2⟩ := h2
  rw [entries_merged] at hfound1 hfound2 hleft1 hleft2
  rw [Tlv.lookup_append] at hfound1 hfound2
  rw [Tlv.without_append, List.append_right_eq_self] at hleft1 hleft2
  have hcut := Tlv.rest_isCut src
  cases hes : Tlv.lookup (Tlv.entries src) extCompression with
  | some v =>
    -- the client's own value would have to declare both sizes
    rw [hes, Option.some_or, Option.bind_some] at hfound1 hfound2
    rw [hfound1] at hfound2
    exact absurd (Option.some.inj hfound2) (by decide)
  | none =>
    refine ⟨?_, hes⟩
    rw [hes, Option.none_or] at hfound1 hfound2
    generalize Tlv.rest src = r at hcut hfound1 hfound2 hleft1 hleft2 ⊢
    rcases r with _ | ⟨t, _ | ⟨l, more⟩⟩
    · rfl
    · exact absurd hleft1 (stray_left t)
    · have hone := torn_declares hcut (by decide) hfound1 hleft1
      have htwo := torn_declares hcut (by decide) hfound2 hleft2
      exact absurd (hone.trans htwo.symm) (by decide)

/-! ## Sender and receiver -/

/-- An engine whose `Decompress` inverts its `Compress`. -/
structure Engine where
  compress : Bytes → Option Bytes
  decompress : Bytes → Nat → Option Bytes
  round_trip : ∀ x y, compress x = some y → decompress y x.length = some x

/-- `PublishBatch` accepts the frame, there is a peer, and the payload is large
enough to be compressed and is compressed to `y`. -/
structure Compresses (r : Router) (e : Engine) (f : Frame) (y : Bytes) : Prop where
  engine : r.compress = some e.compress
  peers : 0 < r.activePeers
  accepted : f.payloadLen ≤ maxPayloadSize
  large : r.compressionMinSize ≤ f.payloadLen.toNat
  compressed : e.compress f.payload = some y

theorem publishBatch_forwards {r : Router} {e : Engine} {f : Frame} {y : Bytes}
    (h : Compresses r e f y) (now : Int64) :
    (r.publishBatch now f).1.forwarded = r.forwarded ++ [serializeFrameWithExtensions
      cmdPublishBatch 0 (buildMergedExtensionsWithCompression f.extensions f.payloadLen) y] := by
  have hlen : ¬ f.payloadLen > maxPayloadSize := UInt32.not_lt.mpr h.accepted
  -- handing the sub-frames to the subscribers changes no option of the router
  obtain ⟨_, _, _, _, _, _, _, _, -, hloop⟩ := Router.batchLoop_sameTables r now f.payload
  have hlarge : (f.payloadLen.toNat : Int) ≥ r.compressionMinSize := h.large
  rw [Router.publishBatch, if_neg hlen, hloop]
  simp only [h.peers, decide_true, if_true, Router.compressedBuf, h.engine, if_pos hlarge,
    h.compressed, Option.map_some, Option.getD_some]
  rfl

/-- What the peer reads: the merged block and the compressed payload. -/
def peerFrame (src y : Bytes) : Frame where
  command := setForwarded cmdPublishBatch ||| hasExtensionsBit
  streamID := 0
  payloadLen := UInt32.ofNat y.length
  payload := y
  extensions := blockOf src

theorem wireForm_batch (ext y : Bytes) :
    PeerManager.wireForm (serializeFrameWithExtensions cmdPublishBatch 0 ext y) true =
      serializeFrameWithExtensions (setForwarded cmdPublishBatch) 0 ext y := by
  have hbits : setForwarded (cmdPublishBatch ||| hasExtensionsBit) =
      setForwarded cmdPublishBatch ||| hasExtensionsBit := by decide
  exact congrArg (fun c => magicByte :: c :: _) hbits

theorem parseFrame_wireForm {src y : Bytes} (hsize : (blockOf src).length + y.length < 2 ^ 32)
    (hmax : src.length ≤ maxExtTotalLen) :
    parseFrame (PeerManager.wireForm (serializeFrameWithExtensions cmdPublishBatch 0 (blockOf src) y)
      true) = .ok (peerFrame src y) := by
  rw [wireForm_batch]
  exact (serializeFrameWithExtensions_accepted (by decide) 0 ((extBlock_iff _).mpr ⟨src, hmax, rfl⟩)
    hsize).parseFrame_eq

theorem parseFrame_wireForm_long {src : Bytes} (hlt : src.length < 65536)
    (hmax : maxExtTotalLen < src.length) (y : Bytes) (g : Frame) :
    parseFrame (PeerManager.wireForm (serializeFrameWithExtensions cmdPublishBatch 0 (blockOf src) y)
      true) ≠ .ok g := by
  intro hparse
  rw [wireForm_batch] at hparse
  obtain ⟨-, hbody⟩ := parseFrame_checks hparse
  have htotal : extTotalLen (serializeFrameWithExtensions (setForwarded cmdPublishBatch) 0
      (blockOf src) y) headerSize = src.length := by
    simp only [serializeFrameWithExtensions, List.append_assoc, List.cons_append, List.nil_append,
      extTotalLen]
    have hcut : ∀ (c : UInt8) (u v : Nat) (data : Bytes),
        slice (magicByte :: c :: (toLE 4 u ++ (toLE 4 v ++ data))) headerSize 2 = slice data 0 2 :=
      fun c u v data => cut_data (toLE_length 4 u) (toLE_length 4 v) 0 2
    rw [hcut, blockOf, List.append_assoc, slice_append_left (toLE_length 2 _), le_toLE 2 _ hlt]
  have hbit : (serializeFrameWithExtensions (setForwarded cmdPublishBatch) 0 (blockOf src) y).getD 1 0
      &&& hasExtensionsBit ≠ 0 := or_hasExtensionsBit_and _
  rw [parseFrameBody, if_pos hbit] at hbody
  split at hbody
  · cases hbody
  · dsimp only at hbody
    rw [htotal, if_pos hmax] at hbody
    cases hbody

/-! ## The round trip -/

/-- The frame `decompressFrame` returns for `g`. -/
def returned (g : Frame) : DecompressResult → Option Frame
  | .unchanged => some g
  | .decompressed h => some h
  | .failed | .panicked => none

/-- The frame on the link is at most what the receiver buffers, and the payload
within what it decompresses. -/
structure WithinLimits (b : Broker) (total : Int) (f : Frame) (y : Bytes) : Prop where
  buffered : headerSize + (blockOf (entryBytes f ++ (compressionEntry f.payloadLen).encode)).length +
    y.length ≤ b.maxBufSize
  bounded : b.maxBufSize < 2 ^ 32
  admitted : Admits b total f.payloadLen

/-- Whoever compresses and forwards the frame, and whoever gets it, the receiver is
left with the payload and the other entries. -/
def RoundTrips (f : Frame) : Prop :=
  ∀ (e : Engine) (r : Router) (now : Int64) (b : Broker) (total : Int) (y : Bytes),
    Compresses r e f y → b.compression = some e.decompress → WithinLimits b total f y →
    ∃ buf g h, (r.publishBatch now f).1.forwarded = r.forwarded ++ [buf] ∧
      parseFrame (PeerManager.wireForm buf true) = .ok g ∧
      returned g (decompressFrame b g total).1 = some h ∧
      h.payload = f.payload ∧ h.payloadLen = f.payloadLen ∧
      Tlv.entries (entryBytes h) = Tlv.without (Tlv.entries (entryBytes f)) extCompression

/-- Room for one more entry, and clean. -/
def CleanBlock (ext : Bytes) : Prop :=
  (ext.drop extHeaderLen).length + 7 ≤ maxExtTotalLen ∧ CleanEntries (ext.drop extHeaderLen)

instance (ext : Bytes) : Decidable (CleanBlock ext) := inferInstanceAs (Decidable (_ ∧ _))

theorem entryBytes_entryBlock {es : List Entry} {f : Frame} (h : f.extensions = entryBlock es) :
    Tlv.entries (entryBytes f) = es := by
  rw [entryBytes, h, entryBlock]
  split
  · next hnil =>
    rw [hnil]
    rfl
  · have hdrop : (blockOf (Tlv.encode es)).drop extHeaderLen = Tlv.encode es :=
      List.drop_left' (toLE_length 2 _)
    rw [hdrop, Tlv.entries_encode]

section Receive

variable {raw : Bytes} {f : Frame} (hparse : parseFrame raw = .ok f)

include hparse

theorem payloadLen_eq_zero_iff : f.payloadLen = 0 ↔ f.payload = [] := by
  have hlen := (parseFrame_accepted hparse).payloadLen
  rw [← List.length_eq_zero_iff, ← hlen]
  exact UInt32.toNat_inj.symm

theorem roundTrips_of_clean (hclean : CleanBlock f.extensions) (hne : f.payload ≠ []) :
    RoundTrips f := by
  have hroom : (entryBytes f).length + 7 ≤ maxExtTotalLen := hclean.1
  have hentries : CleanEntries (entryBytes f) := hclean.2
  intro e r now b total y hsends hd hlimits
  have hn : f.payloadLen ≠ 0 := mt (payloadLen_eq_zero_iff hparse).mp hne
  obtain ⟨hfound, hleft⟩ : Reads (entryBytes f) f.payloadLen := reads_of_clean hentries hn
  have hrest : Tlv.rest (entryBytes f ++ (compressionEntry f.payloadLen).encode) = [] := by
    rw [merged_clean hentries.1, Tlv.rest_encode]
  have hlink := publishBatch_forwards hsends now
  rw [merged_eq hparse] at hlink
  have hbuffered := hlimits.buffered
  have hbounded := hlimits.bounded
  generalize hsrc : entryBytes f ++ (compressionEntry f.payloadLen).encode = src at *
  have hmax : src.length ≤ maxExtTotalLen := by
    rw [← hsrc, List.length_append, compressionEntry_length]
    exact hroom
  have hlt : src.length < 65536 := Nat.lt_of_le_of_lt hmax (by decide)
  have hdeclared : declaredSize (peerFrame src y).extensions = some f.payloadLen := by
    show (findExtension (blockOf src) extCompression).bind declaredBy = _
    rw [findExtension_blockOf hlt, hfound]
  have hpayload : e.decompress y f.payloadLen.toNat = some f.payload := by
    rw [(parseFrame_accepted hparse).payloadLen]
    exact e.round_trip _ _ hsends.compressed
  have htorn : ¬ TornOther src extCompression := by
    rw [TornOther, hrest]
    exact fun hc => absurd hc.1 (by decide)
  have hstrip : stripExtension (blockOf src) extCompression =
      some (entryBlock (Tlv.without (Tlv.entries src) extCompression)) := by
    rw [stripExtension_blockOf hlt, if_neg htorn]
  refine ⟨_, peerFrame src y, { peerFrame src y with
    payloadLen := f.payloadLen, payload := f.payload,
    extensions := entryBlock (Tlv.without (Tlv.entries src) extCompression) }, hlink,
    parseFrame_wireForm (by omega) hmax, ?_, rfl, rfl, ?_⟩
  · rw [decompressFrame_on hd hdeclared, if_pos hlimits.admitted]
    show returned _ (decompressTo _ _ _) = _
    simp only [decompressTo, peerFrame, hpayload, hstrip, returned]
  · rw [entryBytes_entryBlock rfl, hleft]

end Receive

/-- What `decompressFrame` can return besides the frame it was given. -/
theorem returned_decompressFrame {b : Broker} {g h : Frame} {total : Int}
    (hret : returned g (decompressFrame b g total).1 = some h) :
    h = g ∨ ∃ n, declaredSize g.extensions = some n ∧ h.payloadLen = n ∧
      stripExtension g.extensions extCompression = some h.extensions := by
  obtain ⟨-, heq⟩ | ⟨decompress, n, -, hn, ⟨-, heq⟩ | ⟨-, heq⟩⟩ := decompressFrame_cases b g total
  · rw [heq] at hret
    exact .inl (Option.some.inj hret).symm
  · rw [heq] at hret
    dsimp only at hret
    cases hto : decompressTo decompress g n with
    | unchanged =>
      rw [hto] at hret
      exact .inl (Option.some.inj hret).symm
    | decompressed clean =>
      rw [hto] at hret
      obtain rfl : clean = h := Option.some.inj hret
      obtain ⟨hlen, -, hstrip⟩ := decompressTo_decompressed hto
      exact .inr ⟨n, hn, hlen, hstrip⟩
    | failed | panicked =>
      rw [hto] at hret
      cases hret
  · rw [heq] at hret
    cases hret

/-- An engine that marks what it has compressed. -/
def marking : Engine where
  compress := fun x => some (7 :: x)
  decompress := fun y n => if y.length = n + 1 then some y.tail else none
  round_trip := by
    intro x y hy
    obtain rfl := Option.some.inj hy
    simp

def markingSender : Router := { newRouter with activePeers := 1, compress := some marking.compress }

def markingReceiver : Broker := { newBroker with compression := some marking.decompress }

/-- A short payload that round trips is read back by the receiver. -/
theorem reads_of_roundTrips {raw : Bytes} {f : Frame} (hparse : parseFrame raw = .ok f)
    (hshort : f.payload.length ≤ 2) (h : RoundTrips f) :
    (entryBytes f).length + 7 ≤ maxExtTotalLen ∧ Reads (entryBytes f) f.payloadLen := by
  have hbytes := entryBytes_length_le hparse
  have hlen := (parseFrame_accepted hparse).payloadLen
  have hmerged : (entryBytes f ++ (compressionEntry f.payloadLen).encode).length =
      (entryBytes f).length + 7 := by
    rw [List.length_append, compressionEntry_length]
  have hsmall : f.payloadLen ≤ 2 := UInt32.le_iff_toNat_le.mpr (by rw [hlen]; exact hshort)
  have hsends : Compresses markingSender marking f (7 :: f.payload) :=
    ⟨rfl, by decide, UInt32.le_trans hsmall (by decide), Int.natCast_nonneg _, rfl⟩
  have hlimits : WithinLimits markingReceiver 0 f (7 :: f.payload) := by
    have hmax : f.payloadLen ≤ UInt32.ofNat markingReceiver.maxBufSize * 16 :=
      UInt32.le_trans hsmall (by decide)
    have hfits : (7 :: f.payload).length ≤ 3 := Nat.succ_le_succ hshort
    refine ⟨?_, by decide, hmax, ?_⟩
    · show headerSize + _ + _ ≤ 65536
      rw [blockOf_length, hmerged, extBlockSize, extHeaderLen, headerSize]
      rw [maxExtTotalLen] at hbytes
      omega
    · show (0 : Int) + f.payloadLen.toNat ≤ 16777216
      omega
  obtain ⟨buf, g, h, hlink, hg, hret, hpayload, hsize, hentries⟩ :=
    h marking markingSender 0 markingReceiver 0 (7 :: f.payload) hsends rfl hlimits
  rw [publishBatch_forwards hsends, merged_eq hparse] at hlink
  obtain rfl := List.singleton_inj.mp (List.append_cancel_left hlink)
  generalize hsrc : entryBytes f ++ (compressionEntry f.payloadLen).encode = src at *
  rw [maxExtTotalLen] at hbytes
  have hlt : src.length < 65536 := by omega
  by_cases hmax : src.length ≤ maxExtTotalLen
  case neg => exact absurd hg (parseFrame_wireForm_long hlt (Nat.lt_of_not_le hmax) _ g)
  have hframe : parseFrame _ = .ok (peerFrame src (7 :: f.payload)) :=
    parseFrame_wireForm (by rw [blockOf_length, extBlockSize, extHeaderLen, List.length_cons]; omega)
      hmax
  obtain rfl : peerFrame src (7 :: f.payload) = g := Except.ok.inj (hframe.symm.trans hg)
  refine ⟨by omega, ?_⟩
  rcases returned_decompressFrame hret with rfl | ⟨n, hn, hpl, hstrip⟩
  · have hcycle : (7 :: f.payload).length = f.payload.length := congrArg List.length hpayload
    rw [List.length_cons] at hcycle
    omega
  · obtain rfl : f.payloadLen = n := hsize.symm.trans hpl
    have hclean : stripExtension (blockOf src) extCompression = some h.extensions := hstrip
    have hdeclared : (findExtension (blockOf src) extCompression).bind declaredBy =
        some f.payloadLen := hn
    rw [findExtension_blockOf hlt] at hdeclared
    rw [stripExtension_blockOf hlt] at hclean
    split at hclean
    · cases hclean
    · rw [entryBytes_entryBlock (Option.some.inj hclean).symm] at hentries
      exact ⟨hsrc ▸ hdeclared, hsrc ▸ hentries⟩

theorem declaredBy_ne_zero (v : Bytes) : declaredBy v ≠ some 0 := by
  intro h
  unfold declaredBy at h
  split at h
  · cases h
  dsimp only at h
  split at h
  · cases h
  next hkind => exact hkind (.inr (Option.some.inj h))

theorem exists_frame {ext : Bytes} (hext : ext = [] ∨ ExtBlock ext) {payload : Bytes}
    (hlen : ext.length + payload.length < 2 ^ 32) :
    ∃ raw f, parseFrame raw = .ok f ∧ f.extensions = ext ∧ f.payload = payload := by
  rcases hext with rfl | hext
  · rw [List.length_nil, Nat.zero_add] at hlen
    exact ⟨_, _, (serializeFrame_accepted (c := cmdPublishBatch) (by decide) (by decide) 0
      hlen).parseFrame_eq, rfl, rfl⟩
  · exact ⟨_, _, (serializeFrameWithExtensions_accepted (c := cmdPublishBatch) (by decide) 0 hext
      hlen).parseFrame_eq, rfl, rfl⟩

/-- **Compressed relay.** A block gives back every payload with a byte in it
exactly if it is whole entries with room for one more and without a Compression
value; an empty payload is never given back. -/
theorem relay_iff (ext : Bytes) (hext : ext = [] ∨ ExtBlock ext) :
    ((∀ raw f, parseFrame raw = .ok f → f.extensions = ext → f.payload ≠ [] → RoundTrips f) ↔
      CleanBlock ext) ∧
    ∀ raw f, parseFrame raw = .ok f → f.extensions = ext → f.payload = [] → ¬ RoundTrips f := by
  refine ⟨⟨fun hall => ?_, ?_⟩, ?_⟩
  · have hlen : ext.length < 65536 := by
      rcases hext with rfl | hext
      · decide
      · obtain ⟨src, hmax, rfl⟩ := (extBlock_iff ext).mp hext
        rw [blockOf_length, extBlockSize, extHeaderLen]
        rw [maxExtTotalLen] at hmax
        omega
    have hreads : ∀ payload : Bytes, payload ≠ [] → payload.length ≤ 2 →
        (ext.drop extHeaderLen).length + 7 ≤ maxExtTotalLen ∧
          Reads (ext.drop extHeaderLen) (UInt32.ofNat payload.length) := by
      intro payload hne hshort
      have hlt : ext.length + payload.length < 2 ^ 32 := by omega
      obtain ⟨raw, f, hparse, rfl, rfl⟩ := exists_frame hext hlt
      have hpl : UInt32.ofNat f.payload.length = f.payloadLen := by
        rw [← (parseFrame_accepted hparse).payloadLen, UInt32.ofNat_toNat]
      rw [hpl]
      exact reads_of_roundTrips hparse hshort (hall raw f hparse rfl hne)
    obtain ⟨hroom, hone⟩ := hreads [0] (List.cons_ne_nil _ _) (by decide)
    obtain ⟨-, htwo⟩ := hreads [0, 0] (List.cons_ne_nil _ _) (by decide)
    exact ⟨hroom, clean_of_reads hone htwo⟩
  · rintro hclean raw f hparse rfl hne
    exact roundTrips_of_clean hparse hclean hne
  · intro raw f hparse _ hnil h
    have hzero := (payloadLen_eq_zero_iff hparse).mpr hnil
    obtain ⟨-, hfound, -⟩ := reads_of_roundTrips hparse (by rw [hnil]; decide) h
    rw [hzero] at hfound
    obtain ⟨v, -, hv⟩ := Option.bind_eq_some_iff.mp hfound
    exact declaredBy_ne_zero v hv

/-- A batch with a trace entry in front of its payload. -/
def tracedBatch : Frame := ⟨0x45, 0, 1, [0], blockOf [1, 2, 7, 7]⟩

theorem tracedBatch_roundTrips : RoundTrips tracedBatch :=
  (relay_iff tracedBatch.extensions (.inr (by decide +kernel))).1.mpr (by decide +kernel)
    (reserialize tracedBatch) tracedBatch (by decide +kernel) rfl (by decide)

/-- A batch whose block is six bytes short of the limit. -/
def fullBatch : Frame :=
  ⟨0x45, 0, 1, [0], blockOf ((List.replicate 3 (1 :: 255 :: List.replicate 255 7)).flatten ++
    (1 :: 245 :: List.replicate 245 7))⟩

/-- A batch with a Compression entry of the client's own, for nine bytes. -/
def claimedBatch : Frame :=
  ⟨0x45, 0, 1, [0], blockOf ([extCompression, 5, algoZSTD] ++ toLE 4 9)⟩

/-- Both are accepted. The compressed copy of the first is refused by the
parser, that of the second by the engine. -/
theorem accepted_batches_not_relayed :
    parseFrame (reserialize fullBatch) = .ok fullBatch ∧
      (∃ buf, (markingSender.publishBatch 0 fullBatch).1.forwarded = [buf] ∧
        parseFrame (PeerManager.wireForm buf true) = .error .extensionsTooLarge) ∧
      parseFrame (reserialize claimedBatch) = .ok claimedBatch ∧
      ∃ buf g, (markingSender.publishBatch 0 claimedBatch).1.forwarded = [buf] ∧
        parseFrame (PeerManager.wireForm buf true) = .ok g ∧
        (decompressFrame markingReceiver g 0).1 = .failed := by
  have hsends : ∀ ext, Compresses markingSender marking ⟨0x45, 0, 1, [0], ext⟩ [7, 0] :=
    fun _ => ⟨rfl, by decide, (by decide : (1 : UInt32) ≤ maxPayloadSize), Int.natCast_nonneg _, rfl⟩
  exact ⟨by decide +kernel, ⟨_, publishBatch_forwards (hsends _) 0, by decide +kernel⟩,
    by decide +kernel, _,
    peerFrame ([extCompression, 5, algoZSTD] ++ toLE 4 9 ++ (compressionEntry 1).encode) [7, 0],
    publishBatch_forwards (hsends _) 0, by decide +kernel, rfl⟩

end Aqueduct.Cluster
