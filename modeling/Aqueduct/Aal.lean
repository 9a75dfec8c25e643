import Aqueduct.Lib.Bytes
import Aqueduct.Lib.Framing

/-!
The append-only log of `internal/aal/aal.go`. A record is a 4-byte length and
either the raw frame or a nonce and the sealed frame. `replay` reads the file
through a 64 KiB buffer; the sizes of the reads are up to the system, which
`pick` stands for. A handler threads a state of any type. `log_round_trip` says
that the frames written are the frames replayed.
-/

namespace Aqueduct.Aal

open ByteStr Framing

/-- An AEAD with 16-byte tags, as `cipher.NewGCM` returns. -/
structure Aead where
  sealBytes : Bytes → Bytes → Bytes
  openBytes : Bytes → Bytes → Option Bytes
  open_seal : ∀ nonce plain, openBytes nonce (sealBytes nonce plain) = some plain
  seal_length : ∀ nonce plain, (sealBytes nonce plain).length = plain.length + 16

inductive AalError
  | invalidKeySize
  deriving DecidableEq, Repr

def AalError.text : AalError → String
  | .invalidKeySize => "aal: encryption key must be 32 bytes for AES-256"

/-! ## Writing -/

/-- A `Log` and the content of its file. The four random bytes of the nonce
are kept as the number they spell. -/
structure Log where
  file : Bytes
  aead : Option Aead
  noncePrefix : UInt32
  nonce : UInt64

/-- The cipher of a key; `newGCM` is AES-256-GCM under a 32-byte key. -/
def cipherFor (newGCM : Bytes → Aead) (key : Bytes) : Except AalError (Option Aead) :=
  if key.length = 0 then .ok none
  else if key.length ≠ 32 then .error .invalidKeySize
  else .ok (some (newGCM key))

def openEncrypted (newGCM : Bytes → Aead) (key file : Bytes) (noncePrefix : UInt32) :
    Except AalError Log :=
  match cipherFor newGCM key with
  | .error e => .error e
  | .ok aead => .ok ⟨file, aead, noncePrefix, 0⟩

/-- The buffers of the writer's pool. -/
def poolBufSize : Nat := 16 + 65536

def nonceBytes (noncePrefix : UInt32) (nonceVal : UInt64) : Bytes :=
  toLE 4 noncePrefix.toNat ++ (toLE 8 nonceVal.toNat).reverse

/-- `none` is the slice panic of a record that exceeds the pool buffer. -/
def Log.writeFrame (l : Log) (frameBytes : Bytes) : Option Log :=
  match l.aead with
  | some aead =>
    let nonceVal := l.nonce + 1
    let nonce := nonceBytes l.noncePrefix nonceVal
    let out := aead.sealBytes nonce frameBytes
    let cipherLen := 12 + out.length
    if 4 + cipherLen > poolBufSize then none
    else some { l with file := l.file ++ (toLE 4 cipherLen ++ (nonce ++ out)), nonce := nonceVal }
  | none =>
    let frameLen := frameBytes.length
    if 4 + frameLen > poolBufSize then none
    else some { l with file := l.file ++ (toLE 4 frameLen ++ frameBytes) }

/-! ## Replaying -/

def replayBufSize : Nat := 64 * 1024
def maxRecordLen : Nat := 10 * 1024 * 1024

/-- `newReplayCipher`: the same rule as for writing. -/
def newReplayCipher (newGCM : Bytes → Aead) (key : Bytes) : Except AalError (Option Aead) :=
  cipherFor newGCM key

def decryptReplayRecord (gcm : Option Aead) (recBytes : Bytes) : Option Bytes :=
  match gcm with
  | none => some recBytes
  | some gcm =>
    if recBytes.length < 12 + 16 then none
    else gcm.openBytes (recBytes.take 12) (recBytes.drop 12)

/-- The scan of `resyncToNextRecord` from position `i` on. -/
def resyncLoop (unread : Bytes) (maxScan : Nat) : Nat → Nat → Nat
  | 0, _ => maxScan
  | fuel + 1, i =>
    if i + 4 < maxScan then
      let recLen := le (slice unread i 4)
      if recLen = 0 ∨ recLen > maxRecordLen then resyncLoop unread maxScan fuel (i + 1)
      else if i + 4 + recLen ≤ unread.length ∧ unread.getD (i + 4) 0 = 0x1F then i
      else resyncLoop unread maxScan fuel (i + 1)
    else maxScan

/-- How many bytes to skip to the next plausible record. -/
def resyncToNextRecord (unread : Bytes) : Nat :=
  let maxScan := min 1024 unread.length
  resyncLoop unread maxScan maxScan 1

/-- What `decodeReplayChunk` leaves: the bytes not consumed, the handler's
state and error, and the number of frames so far. -/
structure Decoded (σ ε : Type) where
  unread : Bytes
  state : σ
  count : Nat
  err : Option ε

section Replay

variable {σ ε : Type} (gcm : Option Aead) (handler : σ → Bytes → σ × Option ε)

/-- The loop of `decodeReplayChunk`; every turn consumes a byte, so the length
is enough fuel. -/
def decodeLoop : Nat → Bytes → σ → Nat → Decoded σ ε
  | 0, unread, st, count => ⟨unread, st, count, none⟩
  | fuel + 1, unread, st, count =>
    if unread.length < 4 then ⟨unread, st, count, none⟩
    else
      let recLen := le (slice unread 0 4)
      if recLen = 0 ∨ recLen > maxRecordLen then
        decodeLoop fuel (unread.drop (resyncToNextRecord unread)) st count
      else if unread.length < 4 + recLen then ⟨unread, st, count, none⟩
      else
        match decryptReplayRecord gcm (slice unread 4 recLen) with
        | none => decodeLoop fuel (unread.drop (4 + recLen)) st count
        | some plain =>
          match handler st plain with
          | (st, some e) => ⟨unread, st, count, some e⟩
          | (st, none) => decodeLoop fuel (unread.drop (4 + recLen)) st (count + 1)

def decodeReplayChunk (buf : Bytes) (st : σ) (count : Nat) : Decoded σ ε :=
  decodeLoop gcm handler buf.length buf st count

inductive ReplayError (ε : Type)
  | cipher (e : AalError)
  | handler (e : ε)

structure Replayed (σ ε : Type) where
  state : σ
  count : Nat
  err : Option (ReplayError ε)

/-- The read loop on the buffered bytes `data` and the rest of the file. Read
number `i` returns at least one byte unless the buffer is full or the file at
its end; a read into a full buffer returns nothing and no error. `none` is a
run that needs more reads than `fuel`. -/
def replayLoop (pick : Nat → Nat) :
    Nat → Nat → Bytes → Bytes → σ → Nat → Option (Replayed σ ε)
  | 0, _, _, _, _, _ => none
  | fuel + 1, i, data, rest, st, count =>
    let space := replayBufSize - data.length
    let n := min (pick i + 1) (min space rest.length)
    let d := decodeReplayChunk gcm handler (data ++ rest.take n) st count
    match d.err with
    | some e => some ⟨d.state, d.count, some (.handler e)⟩
    | none =>
      if rest = [] ∧ 0 < space then some ⟨d.state, d.count, none⟩
      else replayLoop pick fuel (i + 1) d.unread (rest.drop n) d.state d.count

end Replay

/-- `Replay` of a file, or of none. -/
def replay {σ ε : Type} (newGCM : Bytes → Aead) (key : Bytes) (handler : σ → Bytes → σ × Option ε)
    (pick : Nat → Nat) (fuel : Nat) (file : Option Bytes) (st : σ) : Option (Replayed σ ε) :=
  match file with
  | none => some ⟨st, 0, none⟩
  | some bytes =>
    if bytes.length = 0 then some ⟨st, 0, none⟩
    else
      match newReplayCipher newGCM key with
      | .error e => some ⟨st, 0, some (.cipher e)⟩
      | .ok gcm => replayLoop gcm handler pick fuel 0 [] bytes st 0

/-! ## Records -/

/-- The length of the record of a frame. -/
def recordLen (aead : Option Aead) (frameBytes : Bytes) : Nat :=
  match aead with
  | some _ => 32 + frameBytes.length
  | none => 4 + frameBytes.length

/-- One record from the front of a buffer. A length out of range is a reason
to stop: what `Replay` does then depends on what is buffered. -/
def cutRecord (gcm : Option Aead) (b : Bytes) : Verdict (Option Bytes) Unit :=
  if b.length < 4 then .incomplete
  else
    let recLen := le (slice b 0 4)
    if recLen = 0 ∨ recLen > maxRecordLen then .stop ()
    else if b.length < 4 + recLen then .incomplete
    else .item (decryptReplayRecord gcm (slice b 4 recLen)) (4 + recLen)

theorem cutRecord_item {gcm : Option Aead} {b : Bytes} {a : Option Bytes} {n : Nat}
    (h : cutRecord gcm b = .item a n) : 4 ≤ n ∧ n ≤ b.length := by
  unfold cutRecord at h
  dsimp only at h
  split at h
  · cases h
  · split at h
    · cases h
    · split at h
      · cases h
      · cases h
        omega

/-- Once the record is decided, bytes behind it do not matter. -/
theorem cutRecord_append {gcm : Option Aead} {b : Bytes} (h : cutRecord gcm b ≠ .incomplete)
    (rest : Bytes) : cutRecord gcm (b ++ rest) = cutRecord gcm b := by
  unfold cutRecord at h ⊢
  dsimp only at h ⊢
  have hlen : (b ++ rest).length = b.length + rest.length := List.length_append
  by_cases h4 : b.length < 4
  · rw [if_pos h4] at h
    exact absurd rfl h
  have hpre : slice (b ++ rest) 0 4 = slice b 0 4 := slice_append_of_le (by omega)
  rw [if_neg h4] at h ⊢
  rw [if_neg (show ¬ (b ++ rest).length < 4 by omega), hpre]
  by_cases hrange : le (slice b 0 4) = 0 ∨ le (slice b 0 4) > maxRecordLen
  · rw [if_pos hrange, if_pos hrange]
  rw [if_neg hrange] at h ⊢
  rw [if_neg hrange]
  by_cases hfit : b.length < 4 + le (slice b 0 4)
  · rw [if_pos hfit] at h
    exact absurd rfl h
  rw [if_neg hfit, if_neg (by omega), slice_append_of_le (by omega)]

def recordCutter (gcm : Option Aead) : Cutter UInt8 (Option Bytes) Unit where
  next := cutRecord gcm
  next_nil := rfl
  item_length := fun h => ⟨Nat.lt_of_lt_of_le (by decide) (cutRecord_item h).1, (cutRecord_item h).2⟩
  item_append := fun h rest => (cutRecord_append (by simp [h]) rest).trans h
  stop_append := fun h rest => (cutRecord_append (by simp [h]) rest).trans h

@[simp] theorem recordCutter_next (gcm : Option Aead) (b : Bytes) :
    (recordCutter gcm).next b = cutRecord gcm b := rfl

theorem record_whole {gcm : Option Aead} {body plain : Bytes} (hpos : body ≠ [])
    (hsize : 4 + body.length ≤ replayBufSize) (hplain : decryptReplayRecord gcm body = some plain) :
    (recordCutter gcm).Whole (toLE 4 body.length ++ body) (some plain) := by
  have hlen : 0 < body.length := List.length_pos_iff.mpr hpos
  unfold replayBufSize at hsize
  have hval : le (slice (toLE 4 body.length ++ body) 0 4) = body.length := by
    rw [slice_append_left (toLE_length 4 _), le_toLE 4 _ (by omega)]
  have hbody : slice (toLE 4 body.length ++ body) 4 body.length = body := by
    have hright := slice_append_right (b := body) (n := body.length) (toLE_length 4 body.length) 0
    rw [Nat.add_zero] at hright
    rw [hright, slice, List.drop_zero, List.take_length]
  have htotal : (toLE 4 body.length ++ body).length = 4 + body.length := by simp
  unfold Cutter.Whole
  rw [recordCutter_next, cutRecord]
  dsimp only
  rw [hval, hbody, hplain, htotal, if_neg (by omega), if_neg (by unfold maxRecordLen; omega),
    if_neg (by omega)]

theorem writeFrame_record (l : Log) {frameBytes : Bytes} (hpos : l.aead = none → frameBytes ≠ [])
    (hsize : recordLen l.aead frameBytes ≤ replayBufSize) :
    ∃ l' record, l.writeFrame frameBytes = some l' ∧ l'.file = l.file ++ record ∧
      l'.aead = l.aead ∧ record.length = recordLen l.aead frameBytes ∧
      (recordCutter l.aead).Whole record (some frameBytes) := by
  have hbuf := hsize
  unfold replayBufSize at hbuf
  unfold Log.writeFrame
  cases ha : l.aead with
  | none =>
    rw [ha] at hsize hbuf
    simp only [recordLen] at hsize hbuf ⊢
    rw [if_neg (by unfold poolBufSize; omega)]
    refine ⟨_, toLE 4 frameBytes.length ++ frameBytes, rfl, rfl, rfl, by simp, ?_⟩
    exact record_whole (hpos ha) hsize rfl
  | some aead =>
    rw [ha] at hsize hbuf
    simp only [recordLen] at hsize hbuf ⊢
    generalize hn : nonceBytes l.noncePrefix (l.nonce + 1) = nonce
    have hnonce : nonce.length = 12 := by simp [← hn, nonceBytes]
    have hseal := aead.seal_length nonce frameBytes
    have hbody : (nonce ++ aead.sealBytes nonce frameBytes).length =
        12 + (aead.sealBytes nonce frameBytes).length := by
      rw [List.length_append, hnonce]
    have hopen : decryptReplayRecord (some aead) (nonce ++ aead.sealBytes nonce frameBytes) =
        some frameBytes := by
      simp only [decryptReplayRecord]
      rw [if_neg (by omega), ← hnonce, List.take_left, List.drop_left, aead.open_seal]
    rw [if_neg (by unfold poolBufSize; omega)]
    refine ⟨_, toLE 4 (12 + (aead.sealBytes nonce frameBytes).length) ++
      (nonce ++ aead.sealBytes nonce frameBytes), rfl, rfl, rfl, ?_, ?_⟩
    · rw [List.length_append, toLE_length, hbody]
      omega
    · rw [← hbody]
      refine record_whole ?_ (by omega) hopen
      exact List.ne_nil_of_length_pos (by omega)

/-- The file after a run of `WriteFrame`: one whole record for each frame. -/
theorem writeFrames_records (l : Log) {frames : List Bytes} (hpos : ∀ f ∈ frames, f ≠ [])
    (hsize : ∀ f ∈ frames, recordLen l.aead f ≤ replayBufSize) :
    ∃ (l' : Log) (items : List (Bytes × Bytes)), frames.foldlM Log.writeFrame l = some l' ∧
      items.map (·.2) = frames ∧ l'.aead = l.aead ∧
      l'.file = l.file ++ (items.map (·.1)).flatten ∧
      ∀ p ∈ items, (recordCutter l.aead).Whole p.1 (some p.2) ∧ p.1.length ≤ replayBufSize := by
  induction frames generalizing l with
  | nil => exact ⟨l, [], rfl, rfl, rfl, by simp, by simp⟩
  | cons f frames ih =>
    obtain ⟨l₁, record, hw, hfile, haead, hlen, hwhole⟩ :=
      writeFrame_record l (fun _ => hpos f List.mem_cons_self) (hsize f List.mem_cons_self)
    obtain ⟨l', items, hrun, hframes, haead', hfile', hitems⟩ :=
      ih l₁ (fun g hg => hpos g (List.mem_cons_of_mem _ hg))
        (fun g hg => haead ▸ hsize g (List.mem_cons_of_mem _ hg))
    refine ⟨l', (record, f) :: items, ?_, by simp [hframes], haead'.trans haead, ?_, ?_⟩
    · rw [List.foldlM_cons, hw]
      exact hrun
    · rw [hfile', hfile, List.map_cons, List.flatten_cons, List.append_assoc]
    · intro p hp
      rcases List.mem_cons.mp hp with rfl | hp
      · exact ⟨hwhole, hlen ▸ hsize f List.mem_cons_self⟩
      · exact haead ▸ hitems p hp

/-! ## Replay of whole records -/

section Handler

variable {σ ε : Type} {gcm : Option Aead} {handler : σ → Bytes → σ × Option ε}

/-- The state after the handler was called with these frames in order. -/
def handleAll (handler : σ → Bytes → σ × Option ε) (st : σ) (frames : List Bytes) : σ :=
  frames.foldl (fun st f => (handler st f).1) st

theorem decodeLoop_incomplete {unread : Bytes} (h : cutRecord gcm unread = .incomplete) (fuel : Nat)
    (st : σ) (count : Nat) :
    decodeLoop gcm handler (fuel + 1) unread st count = ⟨unread, st, count, none⟩ := by
  unfold cutRecord at h
  unfold decodeLoop
  dsimp only at h ⊢
  split
  · rfl
  next h4 =>
  rw [if_neg h4] at h
  split
  · next hrange => simp [hrange] at h
  next hrange =>
  rw [if_neg hrange] at h
  split
  · rfl
  · next hfit => simp [hfit] at h

/-- A record is handed on, or skipped when it cannot be decrypted. -/
theorem decodeLoop_item {unread : Bytes} {a : Option Bytes} {n : Nat}
    (h : cutRecord gcm unread = .item a n) {st : σ} (hok : ∀ f ∈ a, (handler st f).2 = none)
    (fuel count : Nat) :
    decodeLoop gcm handler (fuel + 1) unread st count =
      decodeLoop gcm handler fuel (unread.drop n) (handleAll handler st a.toList)
        (count + a.toList.length) := by
  unfold cutRecord at h
  rw [decodeLoop]
  dsimp only at h ⊢
  split at h
  · cases h
  next h4 =>
  split at h
  · cases h
  next hrange =>
  split at h
  · cases h
  next hfit =>
  simp only [Verdict.item.injEq] at h
  obtain ⟨hplain, rfl⟩ := h
  rw [if_neg h4, if_neg hrange, if_neg hfit, hplain]
  cases a with
  | none => rfl
  | some f =>
    have hhandler : handler st f = ((handler st f).1, none) := Prod.ext rfl (hok f rfl)
    dsimp only
    rw [hhandler]
    rfl

/-- The decoding loop hands on what the cutter cuts off. -/
theorem decodeLoop_drain {fuel : Nat} {unread rest : Bytes} {frames : List Bytes} (st : σ)
    (count : Nat) (hfuel : unread.length ≤ fuel)
    (hdrain : (recordCutter gcm).drain unread = (frames.map some, .ok rest))
    (hok : ∀ st, ∀ f ∈ frames, (handler st f).2 = none) :
    decodeLoop gcm handler fuel unread st count =
      ⟨rest, handleAll handler st frames, count + frames.length, none⟩ := by
  induction fuel generalizing unread frames st count with
  | zero =>
    obtain rfl : unread = [] := List.eq_nil_of_length_eq_zero (by omega)
    rw [Cutter.drain_nil] at hdrain
    simp only [Prod.mk.injEq, Except.ok.injEq] at hdrain
    obtain ⟨hframes, rfl⟩ := hdrain
    obtain rfl : frames = [] := by simpa using hframes.symm
    rfl
  | succ fuel ih =>
    cases hn : cutRecord gcm unread with
    | stop e =>
      rw [Cutter.drain_stop (c := recordCutter gcm) hn] at hdrain
      simp at hdrain
    | incomplete =>
      rw [Cutter.drain_incomplete (c := recordCutter gcm) hn] at hdrain
      simp only [Prod.mk.injEq, Except.ok.injEq] at hdrain
      obtain ⟨hframes, rfl⟩ := hdrain
      obtain rfl : frames = [] := by simpa using hframes.symm
      exact decodeLoop_incomplete hn fuel st count
    | item a n =>
      obtain ⟨hpos, hle⟩ := cutRecord_item hn
      have hlen : (unread.drop n).length = unread.length - n := List.length_drop
      rw [Cutter.drain_item (c := recordCutter gcm) hn] at hdrain
      obtain ⟨f, frames, rfl⟩ : ∃ f fs, frames = f :: fs := by
        cases frames with
        | nil => simp at hdrain
        | cons f fs => exact ⟨f, fs, rfl⟩
      simp only [List.map_cons, Prod.mk.injEq, List.cons.injEq] at hdrain
      obtain ⟨⟨rfl, hrest⟩, hout⟩ := hdrain
      have hone : ∀ g ∈ some f, (handler st g).2 = none := by
        rintro g ⟨⟩
        exact hok st f List.mem_cons_self
      rw [decodeLoop_item hn hone, Option.toList_some, List.length_singleton,
        ih _ _ (by omega) (Prod.ext hrest hout) fun st g hg => hok st g (List.mem_cons_of_mem _ hg),
        List.length_cons, Nat.add_assoc, Nat.add_comm 1]
      rfl

/-- The read loop in the middle of a file of whole records, the last one maybe
torn: what is buffered is the front of the next record. -/
theorem replayLoop_records {pick : Nat → Nat} {items : List (Bytes × Bytes)} {last : Bytes}
    (hitems : ∀ p ∈ items, (recordCutter gcm).Whole p.1 (some p.2) ∧ p.1.length ≤ replayBufSize)
    (hlast : (recordCutter gcm).Torn last) (hshort : last.length < replayBufSize)
    (hok : ∀ st, ∀ f ∈ items.map (·.2), (handler st f).2 = none) {data rest : Bytes}
    (hfile : data ++ rest = (items.map (·.1)).flatten ++ last)
    (hdata : cutRecord gcm data = .incomplete) {fuel i : Nat} (hfuel : rest.length < fuel)
    {st : σ} {count : Nat} :
    replayLoop gcm handler pick fuel i data rest st count =
      some ⟨handleAll handler st (items.map (·.2)), count + items.length, none⟩ := by
  induction fuel generalizing items data rest i st count with
  | zero => omega
  | succ fuel ih =>
    -- the buffer is never full
    have hspace : data.length < replayBufSize := by
      cases items with
      | nil =>
        have hlen := congrArg List.length hfile
        simp only [List.map_nil, List.flatten_nil, List.nil_append, List.length_append] at hlen
        omega
      | cons p items =>
        obtain ⟨hwhole, hsize⟩ := hitems p List.mem_cons_self
        rw [List.map_cons, List.flatten_cons, List.append_assoc] at hfile
        exact Nat.lt_of_lt_of_le (hwhole.length_lt_of_incomplete hdata hfile) hsize
    unfold replayLoop
    dsimp only
    generalize hn : min (pick i + 1) (min (replayBufSize - data.length) rest.length) = n
    have hwhole : ∀ q ∈ items.map fun p => (p.1, some p.2),
        (recordCutter gcm).Whole q.1 q.2 := by
      intro q hq
      obtain ⟨p, hp, rfl⟩ := List.mem_map.mp hq
      exact (hitems p hp).1
    have hfront : data ++ rest.take n ++ rest.drop n =
        ((items.map fun p => (p.1, some p.2)).map (·.1)).flatten ++ last := by
      rw [List.append_assoc, List.take_append_drop, hfile, List.map_map]
      rfl
    obtain ⟨done, todo, data', hsplit, hdrain, hfile'⟩ :=
      Cutter.drain_front hwhole hlast hfront
    obtain ⟨done, todo, rfl, rfl, rfl⟩ := List.map_eq_append_iff.mp hsplit
    have hdata' : cutRecord gcm data' = .incomplete := (Cutter.drain_rest hdrain).1
    have hdrain' : (recordCutter gcm).drain (data ++ rest.take n) =
        ((done.map (·.2)).map some, .ok data') := by
      simpa only [List.map_map, Function.comp_def] using hdrain
    have hdec := decodeLoop_drain st count (Nat.le_refl _) hdrain'
      (fun st f hf => hok st f (by rw [List.map_append]; exact List.mem_append_left _ hf))
    rw [decodeReplayChunk, hdec]
    dsimp only
    by_cases heof : rest = []
    · -- the last read: only a torn record is left
      subst heof
      have htodo : todo = [] := by
        cases todo with
        | nil => rfl
        | cons p todo =>
          rw [List.map_cons, List.map_cons, List.flatten_cons, List.append_assoc] at hfile'
          have hshort := (hitems p (by simp)).1.length_lt_of_incomplete hdata' hfile'
          have hlen := congrArg List.length hfile'
          simp only [List.drop_nil, List.append_nil, List.length_append] at hlen
          omega
      subst htodo
      rw [if_pos ⟨rfl, by omega⟩]
      simp
    · have hpos : 0 < rest.length := List.length_pos_iff.mpr heof
      have hdrop : (rest.drop n).length < fuel := by
        rw [List.length_drop]
        omega
      rw [if_neg fun h => heof h.1]
      rw [ih (fun p hp => hitems p (List.mem_append_right _ hp))
        (fun st f hf => hok st f (by rw [List.map_append]; exact List.mem_append_right _ hf))
        (by simpa only [List.map_map, Function.comp_def] using hfile') hdata' hdrop]
      simp only [handleAll, List.map_append, List.foldl_append, List.length_append, List.length_map,
        Nat.add_assoc]

/-- A file of whole records, the last one maybe torn, is replayed frame by
frame, however it is read. -/
theorem replay_torn {newGCM : Bytes → Aead} {key : Bytes}
    (hgcm : cipherFor newGCM key = .ok gcm) {items : List (Bytes × Bytes)} {last : Bytes}
    (hitems : ∀ p ∈ items, (recordCutter gcm).Whole p.1 (some p.2) ∧ p.1.length ≤ replayBufSize)
    (hlast : (recordCutter gcm).Torn last) (hshort : last.length < replayBufSize)
    (hok : ∀ st, ∀ f ∈ items.map (·.2), (handler st f).2 = none) (pick : Nat → Nat) {fuel : Nat}
    (hfuel : ((items.map (·.1)).flatten ++ last).length < fuel) (st : σ) :
    replay newGCM key handler pick fuel (some ((items.map (·.1)).flatten ++ last)) st =
      some ⟨handleAll handler st (items.map (·.2)), items.length, none⟩ := by
  unfold replay
  dsimp only
  split
  · next hzero =>
    -- an empty file: there is no record
    have hnil : items = [] := by
      cases items with
      | nil => rfl
      | cons p items =>
        have hpos := (hitems p List.mem_cons_self).1.length_pos
        simp only [List.map_cons, List.flatten_cons, List.length_append] at hzero
        omega
    subst hnil
    rfl
  · rw [newReplayCipher, hgcm]
    dsimp only
    rw [replayLoop_records hitems hlast hshort hok (List.nil_append _) rfl hfuel, Nat.zero_add]

theorem replay_records {newGCM : Bytes → Aead} {key : Bytes}
    (hgcm : cipherFor newGCM key = .ok gcm) {items : List (Bytes × Bytes)}
    (hitems : ∀ p ∈ items, (recordCutter gcm).Whole p.1 (some p.2) ∧ p.1.length ≤ replayBufSize)
    (hok : ∀ st, ∀ f ∈ items.map (·.2), (handler st f).2 = none) (pick : Nat → Nat) {fuel : Nat}
    (hfuel : (items.map (·.1)).flatten.length < fuel) (st : σ) :
    replay newGCM key handler pick fuel (some (items.map (·.1)).flatten) st =
      some ⟨handleAll handler st (items.map (·.2)), items.length, none⟩ := by
  have hreplay := replay_torn hgcm hitems Cutter.torn_nil (by decide) hok pick
    (by simpa using hfuel) st
  rwa [List.append_nil] at hreplay

end Handler

theorem cipherFor_ok (newGCM : Bytes → Aead) {key : Bytes} (h : key = [] ∨ key.length = 32) :
    cipherFor newGCM key = .ok (if key = [] then none else some (newGCM key)) := by
  unfold cipherFor
  rcases h with rfl | h
  · rfl
  · have hne : key ≠ [] := by
      rintro rfl
      cases h
    simp [h, hne]

/-- **Log round trip.** Without a key, or with a 32-byte key, the frames
written to a fresh log are handed to the handler in order and counted, however
the reads cut the file. -/
theorem log_round_trip (newGCM : Bytes → Aead) (key : Bytes) (hkey : key = [] ∨ key.length = 32)
    (noncePrefix : UInt32) (frames : List Bytes) (hne : ∀ f ∈ frames, f ≠ [])
    (hsize : ∀ f ∈ frames, (if key = [] then 4 else 32) + f.length ≤ 65536) :
    ∃ log log', openEncrypted newGCM key [] noncePrefix = .ok log ∧
      frames.foldlM Log.writeFrame log = some log' ∧
      ∀ (σ ε : Type) (handler : σ → Bytes → σ × Option ε) (st : σ) (pick : Nat → Nat) (fuel : Nat),
        (∀ st f, (handler st f).2 = none) → log'.file.length < fuel →
        replay newGCM key handler pick fuel (some log'.file) st =
          some ⟨frames.foldl (fun st f => (handler st f).1) st, frames.length, none⟩ := by
  have hcipher := cipherFor_ok newGCM hkey
  generalize hg : (if key = [] then none else some (newGCM key)) = gcm at hcipher
  have hrecord : ∀ f ∈ frames, recordLen gcm f ≤ replayBufSize := by
    intro f hf
    have hle := hsize f hf
    subst hg
    split at hle
    · next hk => simpa [recordLen, hk, replayBufSize] using hle
    · next hk => simpa [recordLen, hk, replayBufSize] using hle
  obtain ⟨log', items, hwrite, hframes, -, hfile, hitems⟩ :=
    writeFrames_records ⟨[], gcm, noncePrefix, 0⟩ hne hrecord
  rw [List.nil_append] at hfile
  refine ⟨⟨[], gcm, noncePrefix, 0⟩, log', by simp [openEncrypted, hcipher], hwrite, ?_⟩
  intro σ ε handler st pick fuel hok hfuel
  rw [hfile] at hfuel ⊢
  rw [replay_records hcipher hitems (fun st f _ => hok st f) pick hfuel st, hframes, ← hframes,
    List.length_map]
  rfl

/-- No cipher: sealing appends a tag of zeros. -/
def plainAead : Aead where
  sealBytes := fun _ plain => plain ++ List.replicate 16 0
  openBytes := fun _ cipher => some (cipher.take (cipher.length - 16))
  open_seal := by intro _ plain; simp
  seal_length := by intro _ plain; simp

theorem two_frames_round_trip :
    ∃ log log', openEncrypted (fun _ => plainAead) [] [] 0 = .ok log ∧
      [ascii "a", ascii "bc"].foldlM Log.writeFrame log = some log' ∧
      replay (fun _ => plainAead) [] (fun (st : List Bytes) f => (st ++ [f], (none : Option Unit)))
          (fun _ => 0) (log'.file.length + 1) (some log'.file) [] =
        some ⟨[ascii "a", ascii "bc"], 2, none⟩ := by
  obtain ⟨log, log', hopen, hwrite, hreplay⟩ := log_round_trip (fun _ => plainAead) [] (.inl rfl) 0
    [ascii "a", ascii "bc"] (by decide) (by decide)
  exact ⟨log, log', hopen, hwrite, hreplay _ _ _ _ _ _ (fun _ _ => rfl) (Nat.lt_succ_self _)⟩

end Aqueduct.Aal
