import Aqueduct.Aal.Torn
import Aqueduct.Transport.Replay

/-!
Three sizes that were chosen apart: what `prepareFrame` admits, the buffer in
which `WriteFrame` builds a record, and the buffer through which `Replay` reads
it. A record has 4 bytes more than its frame, or 32 when it is sealed, and has
to fit both buffers. A record that only fits the first one is written, and
`Replay` never gets past it.
-/

namespace Aqueduct.Aal

open ByteStr Framing

def Loggable (newGCM : Bytes → Aead) (key : Bytes) (noncePrefix : UInt32) (earlier : List Bytes)
    (raw : Bytes) : Prop :=
  ∃ log before log', openEncrypted newGCM key [] noncePrefix = .ok log ∧
    earlier.foldlM Log.writeFrame log = some before ∧ before.writeFrame raw = some log' ∧
    Replays newGCM key log'.file (earlier ++ [raw])

/-! ## The writer's buffer -/

/-- `WriteFrame` slices outside its buffer, or appends a record whose header
says how long it is. -/
theorem writeFrame_cases (l : Log) (raw : Bytes) :
    (poolBufSize < recordLen l.aead raw ∧ l.writeFrame raw = none) ∨
      (recordLen l.aead raw ≤ poolBufSize ∧ ∃ l' record, l.writeFrame raw = some l' ∧
        l'.file = l.file ++ record ∧ record.length = recordLen l.aead raw ∧
        le (slice record 0 4) + 4 = record.length) := by
  have hheader : ∀ body : Bytes, 4 + body.length ≤ poolBufSize →
      le (slice (toLE 4 body.length ++ body) 0 4) + 4 = (toLE 4 body.length ++ body).length := by
    intro body hle
    unfold poolBufSize at hle
    rw [slice_append_left (toLE_length 4 _), le_toLE 4 _ (by omega), List.length_append,
      toLE_length]
    omega
  unfold Log.writeFrame
  cases l.aead with
  | none =>
    dsimp only [recordLen]
    by_cases hbig : 4 + raw.length > poolBufSize
    · exact .inl ⟨hbig, if_pos hbig⟩
    · exact .inr ⟨Nat.le_of_not_lt hbig, _, toLE 4 raw.length ++ raw, if_neg hbig, rfl, by simp,
        hheader raw (Nat.le_of_not_lt hbig)⟩
  | some aead =>
    dsimp only [recordLen]
    generalize hn : nonceBytes l.noncePrefix (l.nonce + 1) = nonce
    have hbody : (nonce ++ aead.sealBytes nonce raw).length =
        12 + (aead.sealBytes nonce raw).length := by
      rw [List.length_append, ← hn]
      simp [nonceBytes]
    have hseal := aead.seal_length nonce raw
    by_cases hbig : 4 + (12 + (aead.sealBytes nonce raw).length) > poolBufSize
    · exact .inl ⟨by omega, if_pos hbig⟩
    · refine .inr ⟨by omega, _, toLE 4 (12 + (aead.sealBytes nonce raw).length) ++
        (nonce ++ aead.sealBytes nonce raw), if_neg hbig, rfl, ?_, ?_⟩
      · rw [List.length_append, toLE_length, hbody]
        omega
      · rw [← hbody]
        exact hheader _ (by omega)

theorem writeFrame_aead {l l' : Log} {raw : Bytes} (h : l.writeFrame raw = some l') :
    l'.aead = l.aead := by
  unfold Log.writeFrame at h
  split at h
  all_goals
    obtain ⟨-, h⟩ := Option.ite_none_left_eq_some.mp h
    cases h
    rfl

/-! ## The reader's buffer -/

/-- A record that is longer than the buffer fills it and is never complete. -/
theorem replayLoop_oversize {σ ε : Type} {gcm : Option Aead} {handler : σ → Bytes → σ × Option ε}
    {record : Bytes} (hhead : le (slice record 0 4) + 4 = record.length)
    (hbig : replayBufSize < record.length) (hmax : record.length ≤ poolBufSize) (fuel i : Nat)
    (st : σ) (count : Nat) : replayLoop gcm handler slowly fuel i [] record st count = none := by
  have hbuf : replayBufSize = 65536 := rfl
  have hpool : poolBufSize = 65552 := rfl
  have hrange : maxRecordLen = 10485760 := rfl
  have hlen : (record.take replayBufSize).length = replayBufSize := by
    rw [List.length_take]
    omega
  have hsame : slice (record.take replayBufSize) 0 4 = slice record 0 4 := by
    simp [slice, List.take_take, hbuf]
  have htorn : (recordCutter gcm).Torn (record.take replayBufSize) :=
    torn_of_header (by rw [hsame]; omega) (by rw [hsame]; omega) (by rw [hsame, hlen]; omega)
  cases hrun : replayLoop gcm handler slowly fuel i [] record st count with
  | none => rfl
  | some res =>
    have hmore := replayLoop_more hrun (record.take replayBufSize).length
    rw [← List.take_append_drop replayBufSize record, List.take_left' hlen,
      replayLoop_bytes _ _ _ _ htorn (Nat.le_of_eq hlen), List.nil_append,
      replayLoop_stuck (Nat.le_of_eq hlen.symm) (htorn _ (List.prefix_refl _))] at hmore
    cases hmore

theorem not_replays_oversize {newGCM : Bytes → Aead} {key : Bytes} {gcm : Option Aead}
    (hgcm : cipherFor newGCM key = .ok gcm) {items : List (Bytes × Bytes)}
    (hitems : ∀ p ∈ items, (recordCutter gcm).Whole p.1 (some p.2) ∧ p.1.length ≤ replayBufSize)
    {record : Bytes} (hhead : le (slice record 0 4) + 4 = record.length)
    (hbig : replayBufSize < record.length) (hmax : record.length ≤ poolBufSize)
    (frames : List Bytes) :
    ¬ Replays newGCM key ((items.map (·.1)).flatten ++ record) frames := by
  intro hreplays
  obtain ⟨fuel, hrun⟩ := hreplays (List Bytes) Unit collect [] slowly fun _ _ => rfl
  have hfile : ¬ ((items.map (·.1)).flatten ++ record).length = 0 := by
    rw [List.length_append]
    omega
  rw [replay, if_neg hfile, newReplayCipher, hgcm] at hrun
  have hmore := replayLoop_more hrun (items.map (·.1)).flatten.length
  have hcollect : ∀ st f, (collect st f).2 = none := fun _ _ => rfl
  obtain ⟨j, hj⟩ := replayLoop_items hcollect hitems fuel 0 record [] 0
  rw [hj, replayLoop_oversize hhead hbig hmax] at hmore
  cases hmore

/-! ## Both -/

/-- A frame can be logged and read back exactly when its record fits the buffer
of `Replay`. -/
theorem loggable_iff_fits {newGCM : Bytes → Aead} {key : Bytes}
    (hkey : key = [] ∨ key.length = 32) (noncePrefix : UInt32) {earlier : List Bytes}
    (hearlier : ∀ f ∈ earlier, Fits key f) {raw : Bytes} (hraw : raw ≠ []) :
    Loggable newGCM key noncePrefix earlier raw ↔
      (if key = [] then 4 else 32) + raw.length ≤ 65536 := by
  have hcipher := cipherFor_ok newGCM hkey
  have hlen : recordLen (if key = [] then none else some (newGCM key)) raw =
      (if key = [] then 4 else 32) + raw.length := by
    split <;> rfl
  have hfits : ∀ f, Fits key f →
      recordLen (if key = [] then none else some (newGCM key)) f ≤ replayBufSize :=
    fun f hf => fits_recordLen hf
  generalize (if key = [] then none else some (newGCM key)) = gcm at *
  have hopen : openEncrypted newGCM key [] noncePrefix = .ok ⟨[], gcm, noncePrefix, 0⟩ := by
    simp [openEncrypted, hcipher]
  obtain ⟨before, items, hrun, rfl, haead, hfile, hitems⟩ := writeFrames_records
    ⟨[], gcm, noncePrefix, 0⟩ (fun f hf => (hearlier f hf).1) fun f hf => hfits f (hearlier f hf)
  change before.aead = gcm at haead
  rw [List.nil_append] at hfile
  have hbuf : replayBufSize = 65536 := rfl
  rw [← hlen]
  constructor
  · rintro ⟨_, _, log', hlog, hbefore, hwrite, hreplays⟩
    rw [hopen] at hlog
    cases hlog
    rw [hrun] at hbefore
    cases hbefore
    by_contra hbig
    rcases writeFrame_cases before raw with ⟨-, hnone⟩ | ⟨hmax, l', record, hsome, hl', hreclen, hhead⟩
    · rw [hnone] at hwrite
      cases hwrite
    · rw [hsome] at hwrite
      cases hwrite
      rw [haead] at hmax hreclen
      rw [hl', hfile] at hreplays
      exact not_replays_oversize hcipher hitems hhead (by omega) (by omega) _ hreplays
  · intro hsmall
    obtain ⟨log', record, hwrite, hlog', -, hreclen, hwhole⟩ :=
      writeFrame_record before (fun _ => hraw) (by rw [haead]; omega)
    rw [haead] at hreclen hwhole
    refine ⟨_, before, log', hopen, hrun, hwrite, ?_⟩
    have hall : log'.file = ((items ++ [(record, raw)]).map (·.1)).flatten ++ [] := by
      simp [hlog', hfile]
    have hframes : items.map (·.2) ++ [raw] = (items ++ [(record, raw)]).map (·.2) := by simp
    rw [hall, hframes]
    refine replays_torn hcipher ?_ Cutter.torn_nil (by decide)
    intro p hp
    rcases List.mem_append.mp hp with hp | hp
    · exact hitems p hp
    · rw [List.mem_singleton.mp hp]
      exact ⟨hwhole, by dsimp only; omega⟩

end Aqueduct.Aal

namespace Aqueduct.Transport

open ByteStr Aqueduct.Protocol Aqueduct.Broker Aqueduct.Aal

/-- What is logged of a frame that was admitted is not empty and within the
limit of the broker. -/
theorem logged_length {b : Broker} {clientID unread : Bytes} {f : Frame} {t t' : Int} {n : Nat}
    {qs : List AuthzQuery} {logged : List Bytes}
    (h : prepareFrame b clientID unread t = (.ready f n qs logged, t')) {raw : Bytes}
    (hraw : raw ∈ logged) : raw ≠ [] ∧ raw.length ≤ b.maxBufSize := by
  have hframe := prepareFrame_handedOn h
  have hheader : headerSize = 10 := rfl
  obtain rfl : raw = rawFrame unread := by
    rw [prepareFrame_logged h] at hraw
    split at hraw
    · exact List.mem_singleton.mp hraw
    · cases hraw
  have hmin := (parseFrame_rawFrame hframe.parsed).2
  have hsize := hframe.size
  have hbounded := hframe.bounded
  rw [payloadLenAt_toNat hframe.header] at hsize
  refine ⟨List.ne_nil_of_length_pos (by omega), ?_⟩
  rw [rawFrame, List.length_take]
  omega

/-- **Log sizes.** A frame that `prepareFrame` admits and logs can be written
and read back exactly when it has at most 65532 bytes, or 65504 in an encrypted
log. -/
theorem admitted_loggable_iff (newGCM : Bytes → Aead) (key : Bytes)
    (hkey : key = [] ∨ key.length = 32) (noncePrefix : UInt32) (b : Broker)
    (clientID unread : Bytes) (f : Frame) (t t' : Int) (n : Nat) (qs : List AuthzQuery)
    (logged : List Bytes) (h : prepareFrame b clientID unread t = (.ready f n qs logged, t'))
    (raw : Bytes) (hraw : raw ∈ logged) (earlier : List Bytes)
    (hearlier : ∀ g ∈ earlier, Fits key g) :
    raw.length ≤ b.maxBufSize ∧ (Loggable newGCM key noncePrefix earlier raw ↔
      (if key = [] then 4 else 32) + raw.length ≤ 65536) := by
  obtain ⟨hne, hmax⟩ := logged_length h hraw
  exact ⟨hmax, loggable_iff_fits hkey noncePrefix hearlier hne⟩

theorem serializeFrame_length (c : Command) (sid : UInt32) {payload : Bytes}
    (h : payload.length < 2 ^ 32) :
    (serializeFrame c sid payload).length = headerSize + payload.length := by
  rw [serializeFrame, take_ofNat_length h]
  simp [headerSize]
  omega

/-- The gate of a broker without authorization and compression, on one publish. -/
theorem prepareFrame_publish {b : Broker} (hauthz : b.authz = none) (hcomp : b.compression = none)
    (haal : b.aal = true) (payload : Bytes) (hlen : headerSize + payload.length ≤ b.maxBufSize)
    (hlen32 : payload.length < 2 ^ 32) (clientID : Bytes) (sid : UInt32) (t : Int) :
    ∃ n, prepareFrame b clientID (serializeFrame cmdPublish sid payload) t =
      (.ready ⟨cmdPublish, sid, UInt32.ofNat payload.length, payload, []⟩ n []
        [serializeFrame cmdPublish sid payload], t) := by
  have hacc := serializeFrame_accepted (c := cmdPublish) (by decide) (by decide) sid hlen32
  have hsize := hacc.size_eq
  have hfull := serializeFrame_length cmdPublish sid hlen32
  have hdata : le (slice (serializeFrame cmdPublish sid payload) 6 4) = payload.length := by
    have hd := hacc.data_length
    simpa using hd.symm
  unfold prepareFrame
  dsimp only
  rw [if_neg (Nat.not_lt.mpr hacc.header), payloadLenAt_toNat hacc.header, hdata,
    if_neg (by omega), if_neg (by omega), hacc.parseFrame_eq, ← hfull, List.take_length]
  simp only [admitFrame, decompressFrame, hcomp, authorize, hauthz, haal]
  exact ⟨_, rfl⟩

/-- A publish of eleven bytes is logged and read back behind another one. -/
theorem small_publish_loggable :
    ∃ n, prepareFrame loggingBroker (ascii "c") (serializeFrame cmdPublish 0 (ascii "t")) 0 =
        (.ready ⟨cmdPublish, 0, 1, ascii "t", []⟩ n []
          [serializeFrame cmdPublish 0 (ascii "t")], 0) ∧
      Loggable (fun _ => plainAead) [] 5 [publishA] (serializeFrame cmdPublish 0 (ascii "t")) := by
  obtain ⟨n, hready⟩ := prepareFrame_publish (b := loggingBroker) rfl rfl rfl
    (ascii "t") (by decide) (by decide) (ascii "c") 0 0
  exact ⟨n, hready, (admitted_loggable_iff (fun _ => plainAead) [] (.inl rfl) 5 loggingBroker
    (ascii "c") _ _ 0 0 n _ _ hready _ List.mem_cons_self [publishA] (by decide)).2.mpr (by decide)⟩

/-- With the default sizes a publish of 65533 bytes is admitted, and its record
is one byte longer than the buffer of `Replay`. -/
theorem large_publish_not_read_back :
    ¬ ∀ (newGCM : Bytes → Aead) (key : Bytes), key = [] ∨ key.length = 32 →
      ∀ (noncePrefix : UInt32) (b : Broker) (clientID unread : Bytes) (f : Frame) (t t' : Int)
        (n : Nat) (qs : List AuthzQuery) (logged : List Bytes),
        prepareFrame b clientID unread t = (.ready f n qs logged, t') →
        ∀ raw ∈ logged, Loggable newGCM key noncePrefix [] raw := by
  intro h
  have hpayload : (List.replicate 65523 (97 : UInt8)).length < 2 ^ 32 := by
    rw [List.length_replicate]
    decide
  obtain ⟨n, hready⟩ := prepareFrame_publish (b := loggingBroker) rfl rfl rfl
    _ (by rw [List.length_replicate]; exact Nat.le_of_ble_eq_true rfl) hpayload (ascii "c") 0 0
  have hlog := h (fun _ => plainAead) [] (.inl rfl) 0 loggingBroker (ascii "c") _ _ 0 0 n _ _ hready
    _ List.mem_cons_self
  have hlen : (serializeFrame cmdPublish 0 (List.replicate 65523 97)).length = 65533 := by
    rw [serializeFrame_length _ _ hpayload, List.length_replicate]
    rfl
  rw [loggable_iff_fits (.inl rfl) 0 (by simp) (List.ne_nil_of_length_pos (by omega)), hlen] at hlog
  exact absurd hlog (by decide)

end Aqueduct.Transport
