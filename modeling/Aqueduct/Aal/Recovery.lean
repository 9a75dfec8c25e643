import Aqueduct.Aal.Reading

/-!
`Replay` of arbitrary bytes. `Reached` lists what can be in the buffer during a
replay whose reads are given: a read adds bytes once nothing in the buffer can
be decoded, a record is taken off the front, and `resyncToNextRecord` skips what
does not start like a record. The replay of a file ends for every handler
exactly when the buffer never fills up with the front of one record; and when
every skip is the one that the whole file would give, the frames are those of
the whole file.
-/

namespace Aqueduct.Aal

open ByteStr Framing

/-! ## What the front of a buffer says -/

variable {data rest b : Bytes}

/-- `recLen` at the front of a buffer. -/
def claimed (b : Bytes) : Nat := le (slice b 0 4)

/-- Nothing can be decoded before more is read. -/
def Waits (b : Bytes) : Prop :=
  b.length < 4 ∨ (0 < claimed b ∧ claimed b ≤ maxRecordLen ∧ b.length < 4 + claimed b)

/-- The length at the front is out of range. -/
def Corrupt (b : Bytes) : Prop := 4 ≤ b.length ∧ (claimed b = 0 ∨ claimed b > maxRecordLen)

def HasRecord (b : Bytes) : Prop :=
  0 < claimed b ∧ claimed b ≤ maxRecordLen ∧ 4 + claimed b ≤ b.length

/-- What the first record decrypts to. -/
def frontFrame (gcm : Option Aead) (b : Bytes) : Option Bytes :=
  decryptReplayRecord gcm (slice b 4 (claimed b))

/-- A full buffer, all of it the front of one record. -/
def Stuck (b : Bytes) : Prop :=
  replayBufSize ≤ b.length ∧ replayBufSize < 4 + claimed b ∧ claimed b ≤ maxRecordLen

instance (b : Bytes) : Decidable (Waits b) := inferInstanceAs (Decidable (_ ∨ _))
instance (b : Bytes) : Decidable (Corrupt b) := inferInstanceAs (Decidable (_ ∧ _))
instance (b : Bytes) : Decidable (HasRecord b) := inferInstanceAs (Decidable (_ ∧ _))
instance (b : Bytes) : Decidable (Stuck b) := inferInstanceAs (Decidable (_ ∧ _))

theorem waits_nil : Waits [] := .inl (by decide)

theorem not_corrupt_nil : ¬ Corrupt [] := fun h => absurd h.1 (by decide)

theorem cutRecord_cases (gcm : Option Aead) (b : Bytes) :
    (Waits b ∧ cutRecord gcm b = .incomplete) ∨ (Corrupt b ∧ cutRecord gcm b = .stop ()) ∨
      (HasRecord b ∧ cutRecord gcm b = .item (frontFrame gcm b) (4 + claimed b)) := by
  unfold cutRecord
  dsimp only
  by_cases h4 : b.length < 4
  · exact .inl ⟨.inl h4, if_pos h4⟩
  rw [if_neg h4]
  by_cases hrange : le (slice b 0 4) = 0 ∨ le (slice b 0 4) > maxRecordLen
  · exact .inr (.inl ⟨⟨Nat.le_of_not_lt h4, hrange⟩, if_pos hrange⟩)
  rw [if_neg hrange]
  have hclaimed : 0 < claimed b ∧ claimed b ≤ maxRecordLen := by
    unfold claimed
    omega
  by_cases hfit : b.length < 4 + le (slice b 0 4)
  · exact .inl ⟨.inr ⟨hclaimed.1, hclaimed.2, hfit⟩, if_pos hfit⟩
  · exact .inr (.inr ⟨⟨hclaimed.1, hclaimed.2, Nat.le_of_not_lt hfit⟩, if_neg hfit⟩)

theorem Waits.incomplete (h : Waits b) (gcm : Option Aead) : cutRecord gcm b = .incomplete := by
  rcases cutRecord_cases gcm b with ⟨-, hcut⟩ | ⟨hcorrupt, -⟩ | ⟨hrecord, -⟩
  · exact hcut
  · unfold Waits at h
    unfold Corrupt at hcorrupt
    omega
  · unfold Waits at h
    unfold HasRecord at hrecord
    omega

theorem HasRecord.item (h : HasRecord b) (gcm : Option Aead) :
    cutRecord gcm b = .item (frontFrame gcm b) (4 + claimed b) := by
  rcases cutRecord_cases gcm b with ⟨hwaits, -⟩ | ⟨hcorrupt, -⟩ | ⟨-, hcut⟩
  · unfold Waits at hwaits
    unfold HasRecord at h
    omega
  · unfold Corrupt at hcorrupt
    unfold HasRecord at h
    omega
  · exact hcut

theorem Waits.length_lt (h : Waits b) (hfree : ¬ Stuck b) : b.length < replayBufSize := by
  have hbuf : replayBufSize = 65536 := rfl
  unfold Waits at h
  unfold Stuck at hfree
  omega

theorem Stuck.waits (h : Stuck b) (hlen : b.length ≤ replayBufSize) : Waits b := by
  have hbuf : replayBufSize = 65536 := rfl
  unfold Stuck at h
  unfold Waits
  omega

/-! ## Skipping -/

theorem resyncLoop_bounds (unread : Bytes) (maxScan fuel i : Nat) (hi : 0 < i)
    (hscan : 0 < maxScan) :
    0 < resyncLoop unread maxScan fuel i ∧ resyncLoop unread maxScan fuel i ≤ maxScan := by
  induction fuel generalizing i with
  | zero => exact ⟨hscan, Nat.le_refl _⟩
  | succ fuel ih =>
    rw [resyncLoop]
    dsimp only
    split
    · next hlt =>
      split
      · exact ih (i + 1) (Nat.succ_pos i)
      split
      · exact ⟨hi, by omega⟩
      · exact ih (i + 1) (Nat.succ_pos i)
    · exact ⟨hscan, Nat.le_refl _⟩

/-- At least one byte is skipped, and nothing behind the buffer. -/
theorem Corrupt.resync_bounds (h : Corrupt b) :
    0 < resyncToNextRecord b ∧ resyncToNextRecord b ≤ b.length := by
  have hlen := h.1
  have hscan : 0 < min 1024 b.length := by omega
  obtain ⟨hpos, hle⟩ := resyncLoop_bounds b _ (min 1024 b.length) 1 Nat.one_pos hscan
  exact ⟨hpos, hle.trans (Nat.min_le_right _ _)⟩

/-- Every buffer is used up record by record and skip by skip. -/
theorem buffer_induction {P : Bytes → Prop} (waits : ∀ b, Waits b → P b)
    (corrupt : ∀ b, Corrupt b → P (b.drop (resyncToNextRecord b)) → P b)
    (record : ∀ b, HasRecord b → P (b.drop (4 + claimed b)) → P b) (b : Bytes) : P b := by
  induction hn : b.length using Nat.strong_induction_on generalizing b with
  | _ n ih =>
    subst hn
    rcases cutRecord_cases none b with ⟨h, -⟩ | ⟨h, -⟩ | ⟨h, -⟩
    · exact waits b h
    · have hskip := h.resync_bounds
      exact corrupt b h (ih _ (by rw [List.length_drop]; omega) _ rfl)
    · have hlen := h.2.2
      exact record b h (ih _ (by rw [List.length_drop]; omega) _ rfl)

/-! ## Decoding -/

section Decode

variable {σ ε : Type} {gcm : Option Aead} {handler : σ → Bytes → σ × Option ε}

theorem decodeLoop_refused {b plain : Bytes} (h : HasRecord b)
    (hplain : frontFrame gcm b = some plain) {st : σ} {e : ε}
    (hrefuse : (handler st plain).2 = some e) (fuel count : Nat) :
    decodeLoop gcm handler (fuel + 1) b st count = ⟨b, (handler st plain).1, count, some e⟩ := by
  obtain ⟨hpos, hmax, hfit⟩ := h
  unfold frontFrame at hplain
  unfold claimed at hpos hmax hfit hplain
  have hhandler : handler st plain = ((handler st plain).1, some e) := Prod.ext rfl hrefuse
  rw [decodeLoop]
  dsimp only
  rw [if_neg (by omega), if_neg (by omega), if_neg (by omega), hplain]
  dsimp only
  rw [hhandler]

theorem decodeLoop_corrupt {b : Bytes} (h : Corrupt b) (fuel : Nat) (st : σ) (count : Nat) :
    decodeLoop gcm handler (fuel + 1) b st count =
      decodeLoop gcm handler fuel (b.drop (resyncToNextRecord b)) st count := by
  obtain ⟨hlen, hrange⟩ := h
  unfold claimed at hrange
  rw [decodeLoop]
  dsimp only
  rw [if_neg (Nat.not_lt.mpr hlen), if_pos hrange]

theorem HasRecord.append {b : Bytes} (h : HasRecord b) (gcm : Option Aead) (rest : Bytes) :
    HasRecord (b ++ rest) ∧ claimed (b ++ rest) = claimed b ∧
      frontFrame gcm (b ++ rest) = frontFrame gcm b := by
  obtain ⟨hpos, hmax, hfit⟩ := h
  have hsame : claimed (b ++ rest) = claimed b := by
    rw [claimed, slice_append_of_le (by omega), claimed]
  refine ⟨⟨by omega, by omega, ?_⟩, hsame, ?_⟩
  · rw [List.length_append]
    omega
  · rw [frontFrame, hsame, slice_append_of_le hfit, frontFrame]

variable (gcm handler) in
theorem decodeLoop_record {b : Bytes} (h : HasRecord b) (st : σ) (count : Nat) :
    (∃ plain e, frontFrame gcm b = some plain ∧ (handler st plain).2 = some e ∧
        ∀ fuel rest, decodeLoop gcm handler (fuel + 1) (b ++ rest) st count =
          ⟨b ++ rest, (handler st plain).1, count, some e⟩) ∨
      ((∀ f ∈ frontFrame gcm b, (handler st f).2 = none) ∧
        ∀ fuel rest, decodeLoop gcm handler (fuel + 1) (b ++ rest) st count =
          decodeLoop gcm handler fuel (b.drop (4 + claimed b) ++ rest)
            (handleAll handler st (frontFrame gcm b).toList)
            (count + (frontFrame gcm b).toList.length)) := by
  by_cases hok : ∀ f ∈ frontFrame gcm b, (handler st f).2 = none
  · refine .inr ⟨hok, fun fuel rest => ?_⟩
    obtain ⟨hrecord, hsame, hframe⟩ := h.append gcm rest
    have hcut := hrecord.item gcm
    rw [hframe, hsame] at hcut
    rw [decodeLoop_item hcut hok, List.drop_append_of_le_length h.2.2]
  · push Not at hok
    obtain ⟨plain, hplain, hrefuse⟩ := hok
    obtain ⟨e, he⟩ := Option.ne_none_iff_exists'.mp hrefuse
    refine .inl ⟨plain, e, hplain, he, fun fuel rest => ?_⟩
    obtain ⟨hrecord, -, hframe⟩ := h.append gcm rest
    exact decodeLoop_refused hrecord (hframe.trans hplain) he fuel count

/-- The length of the buffer is enough fuel. -/
theorem decodeLoop_fuel (b : Bytes) : ∀ (fuel fuel' : Nat) (st : σ) (count : Nat),
    b.length ≤ fuel → b.length ≤ fuel' →
    decodeLoop gcm handler fuel b st count = decodeLoop gcm handler fuel' b st count := by
  -- a loop without fuel has an empty buffer, which waits
  have hzero : ∀ (fuel : Nat) (st : σ) (count : Nat),
      decodeLoop gcm handler fuel [] st count = ⟨[], st, count, none⟩ := by
    intro fuel st count
    cases fuel <;> rfl
  have hcases : ∀ (b : Bytes) (fuel : Nat), b.length ≤ fuel → b = [] ∨ ∃ n, fuel = n + 1 := by
    intro b fuel hle
    cases fuel with
    | zero => exact .inl (List.eq_nil_of_length_eq_zero (by omega))
    | succ n => exact .inr ⟨n, rfl⟩
  induction b using buffer_induction with
  | waits b h =>
    intro fuel fuel' st count hle hle'
    rcases hcases b fuel hle with rfl | ⟨n, rfl⟩
    · rw [hzero, hzero]
    rcases hcases b fuel' hle' with rfl | ⟨n', rfl⟩
    · rw [hzero, hzero]
    rw [decodeLoop_incomplete (h.incomplete gcm), decodeLoop_incomplete (h.incomplete gcm)]
  | corrupt b h ih =>
    intro fuel fuel' st count hle hle'
    have hskip := h.resync_bounds
    obtain ⟨n, rfl⟩ : ∃ n, fuel = n + 1 := ⟨fuel - 1, by omega⟩
    obtain ⟨n', rfl⟩ : ∃ n, fuel' = n + 1 := ⟨fuel' - 1, by omega⟩
    rw [decodeLoop_corrupt h, decodeLoop_corrupt h]
    exact ih n n' st count (by rw [List.length_drop]; omega) (by rw [List.length_drop]; omega)
  | record b h ih =>
    intro fuel fuel' st count hle hle'
    have hfit := h.2.2
    obtain ⟨n, rfl⟩ : ∃ n, fuel = n + 1 := ⟨fuel - 1, by omega⟩
    obtain ⟨n', rfl⟩ : ∃ n, fuel' = n + 1 := ⟨fuel' - 1, by omega⟩
    rcases decodeLoop_record gcm handler h st count with ⟨plain, e, -, -, hstep⟩ | ⟨-, hstep⟩
    · have hone := (hstep n []).trans (hstep n' []).symm
      rwa [List.append_nil] at hone
    · have hone := hstep n []
      have htwo := hstep n' []
      rw [List.append_nil, List.append_nil] at hone htwo
      rw [hone, htwo]
      exact ih n n' _ _ (by rw [List.length_drop]; omega) (by rw [List.length_drop]; omega)

theorem decode_waits {b : Bytes} (h : Waits b) (st : σ) (count : Nat) :
    decodeReplayChunk gcm handler b st count = ⟨b, st, count, none⟩ :=
  decodeReplayChunk_incomplete (h.incomplete gcm) st count

theorem decode_corrupt {b : Bytes} (h : Corrupt b) (st : σ) (count : Nat) :
    decodeReplayChunk gcm handler b st count =
      decodeReplayChunk gcm handler (b.drop (resyncToNextRecord b)) st count := by
  have hskip := h.resync_bounds
  obtain ⟨n, hn⟩ : ∃ n, b.length = n + 1 := ⟨b.length - 1, by omega⟩
  rw [decodeReplayChunk, decodeReplayChunk, hn, decodeLoop_corrupt h]
  exact decodeLoop_fuel _ _ _ st count (by rw [List.length_drop]; omega) (Nat.le_refl _)

variable (gcm handler) in
theorem decode_record {b : Bytes} (h : HasRecord b) (st : σ) (count : Nat) :
    (∃ plain e, frontFrame gcm b = some plain ∧ (handler st plain).2 = some e ∧
        ∀ rest, decodeReplayChunk gcm handler (b ++ rest) st count =
          ⟨b ++ rest, (handler st plain).1, count, some e⟩) ∨
      ((∀ f ∈ frontFrame gcm b, (handler st f).2 = none) ∧
        ∀ rest, decodeReplayChunk gcm handler (b ++ rest) st count =
          decodeReplayChunk gcm handler (b.drop (4 + claimed b) ++ rest)
            (handleAll handler st (frontFrame gcm b).toList)
            (count + (frontFrame gcm b).toList.length)) := by
  have hfit := h.2.2
  have hfuel : ∀ rest : Bytes, (b ++ rest).length = (b ++ rest).length - 1 + 1 := by
    intro rest
    rw [List.length_append]
    omega
  rcases decodeLoop_record gcm handler h st count with
    ⟨plain, e, hplain, hrefuse, hstep⟩ | ⟨hok, hstep⟩
  · refine .inl ⟨plain, e, hplain, hrefuse, fun rest => ?_⟩
    rw [decodeReplayChunk, hfuel, hstep]
  · refine .inr ⟨hok, fun rest => ?_⟩
    rw [decodeReplayChunk, decodeReplayChunk, hfuel, hstep]
    refine decodeLoop_fuel _ _ _ _ _ ?_ (Nat.le_refl _)
    simp only [List.length_append, List.length_drop]
    omega

variable (gcm handler) in
theorem decode_front {b : Bytes} (h : HasRecord b) (st : σ) (count : Nat) :
    (∃ plain e, frontFrame gcm b = some plain ∧ (handler st plain).2 = some e ∧
        decodeReplayChunk gcm handler b st count =
          ⟨b, (handler st plain).1, count, some e⟩) ∨
      ((∀ f ∈ frontFrame gcm b, (handler st f).2 = none) ∧
        decodeReplayChunk gcm handler b st count =
          decodeReplayChunk gcm handler (b.drop (4 + claimed b))
            (handleAll handler st (frontFrame gcm b).toList)
            (count + (frontFrame gcm b).toList.length)) := by
  rcases decode_record gcm handler h st count with
    ⟨plain, e, hplain, hrefuse, hstep⟩ | ⟨hok, hstep⟩
  · have hone := hstep []
    rw [List.append_nil] at hone
    exact .inl ⟨plain, e, hplain, hrefuse, hone⟩
  · have hone := hstep []
    rw [List.append_nil, List.append_nil] at hone
    exact .inr ⟨hok, hone⟩

variable (gcm) in
theorem decode_behind {b : Bytes} (h : HasRecord b) {st : σ}
    (hok : ∀ f ∈ frontFrame gcm b, (handler st f).2 = none) (rest : Bytes) (count : Nat) :
    decodeReplayChunk gcm handler (b ++ rest) st count =
      decodeReplayChunk gcm handler (b.drop (4 + claimed b) ++ rest)
        (handleAll handler st (frontFrame gcm b).toList)
        (count + (frontFrame gcm b).toList.length) := by
  rcases decode_record gcm handler h st count with ⟨plain, e, hplain, hrefuse, -⟩ | ⟨-, hstep⟩
  · rw [hok plain hplain] at hrefuse
    cases hrefuse
  · exact hstep rest

/-- A whole record that is not refused, in front of anything. -/
theorem decode_whole_append {record : Bytes} {a : Option Bytes}
    (h : (recordCutter gcm).Whole record a) {st : σ} (hok : ∀ f ∈ a, (handler st f).2 = none)
    (rest : Bytes) (count : Nat) :
    decodeReplayChunk gcm handler (record ++ rest) st count =
      decodeReplayChunk gcm handler rest (handleAll handler st a.toList)
        (count + a.toList.length) := by
  obtain ⟨hlen, hhead, hmax, hplain⟩ := whole_header h
  have hclaimed : claimed record = record.length - 4 := by
    unfold claimed
    omega
  have hrecord : HasRecord record := ⟨by omega, by omega, by omega⟩
  obtain rfl : a = frontFrame gcm record := by rw [hplain, frontFrame, hclaimed]
  have hstep := decode_behind gcm hrecord hok rest count
  rwa [hclaimed, List.drop_of_length_le (by omega), List.nil_append] at hstep

variable (gcm) in
theorem decode_taken (hok : ∀ st f, (handler st f).2 = none) (b : Bytes) (st : σ) (count : Nat) :
    (decodeReplayChunk gcm handler b st count).err = none := by
  induction b using buffer_induction generalizing st count with
  | waits b hwaits => rw [decode_waits hwaits]
  | corrupt b hcorrupt ih =>
    rw [decode_corrupt hcorrupt]
    exact ih st count
  | record b hrecord ih =>
    rcases decode_front gcm handler hrecord st count with ⟨plain, e, -, hrefuse, -⟩ | ⟨-, hstep⟩
    · rw [hok] at hrefuse
      cases hrefuse
    · rw [hstep]
      exact ih _ _

end Decode

/-! ## The buffer during a replay -/

/-- What read number `i` returns when `data` is buffered. -/
def readLen (pick : Nat → Nat) (i : Nat) (data rest : Bytes) : Nat :=
  min (pick i + 1) (min (replayBufSize - data.length) rest.length)

/-- After `i` reads of a replay of `file`, and maybe some decoding, the buffer
holds `data`, and `rest` is not read yet. -/
inductive Reached (pick : Nat → Nat) (file : Bytes) : Nat → Bytes → Bytes → Prop
  | start : Reached pick file 0 [] file
  | read {i : Nat} {data rest : Bytes} (h : Reached pick file i data rest) (hwaits : Waits data)
      (hrest : rest ≠ []) :
      Reached pick file (i + 1) (data ++ rest.take (readLen pick i data rest))
        (rest.drop (readLen pick i data rest))
  | record {i : Nat} {data rest : Bytes} (h : Reached pick file i data rest)
      (hrecord : HasRecord data) : Reached pick file i (data.drop (4 + claimed data)) rest
  | resync {i : Nat} {data rest : Bytes} (h : Reached pick file i data rest)
      (hcorrupt : Corrupt data) :
      Reached pick file i (data.drop (resyncToNextRecord data)) rest

variable {pick : Nat → Nat} {file : Bytes}

/-- The buffer never holds more than it has room for, or more than the file. -/
theorem Reached.bounds {i : Nat} {data rest : Bytes} (h : Reached pick file i data rest) :
    data.length ≤ replayBufSize ∧ data.length + rest.length ≤ file.length := by
  induction h with
  | start => exact ⟨Nat.zero_le _, by simp⟩
  | read _ _ _ ih =>
    simp only [List.length_append, List.length_take, List.length_drop, readLen]
    omega
  | record _ _ ih =>
    rw [List.length_drop]
    omega
  | resync _ _ ih =>
    rw [List.length_drop]
    omega

section Runs

variable {σ ε : Type} {gcm : Option Aead} {handler : σ → Bytes → σ × Option ε}

/-- What decoding leaves is reached without another read, and waits. -/
theorem Reached.decoded (st : σ) (count : Nat) {i : Nat} {data rest : Bytes}
    (h : Reached pick file i data rest)
    (herr : (decodeReplayChunk gcm handler data st count).err = none) :
    Reached pick file i (decodeReplayChunk gcm handler data st count).unread rest ∧
      Waits (decodeReplayChunk gcm handler data st count).unread := by
  induction data using buffer_induction generalizing st count with
  | waits data hwaits =>
    rw [decode_waits hwaits]
    exact ⟨h, hwaits⟩
  | corrupt data hcorrupt ih =>
    rw [decode_corrupt hcorrupt] at herr ⊢
    exact ih st count (h.resync hcorrupt) herr
  | record data hrecord ih =>
    rcases decode_front gcm handler hrecord st count with ⟨plain, e, -, -, hstep⟩ | ⟨-, hstep⟩
    · rw [hstep] at herr
      cases herr
    · rw [hstep] at herr ⊢
      exact ih _ _ (h.record hrecord) herr

theorem replayLoop_next {i count : Nat} {data rest : Bytes} {st : σ} (hrest : rest ≠ [])
    {d : Decoded σ ε} (hd : decodeReplayChunk gcm handler
      (data ++ rest.take (readLen pick i data rest)) st count = d) (herr : d.err = none)
    (fuel : Nat) :
    replayLoop gcm handler pick (fuel + 1) i data rest st count =
      replayLoop gcm handler pick fuel (i + 1) d.unread (rest.drop (readLen pick i data rest))
        d.state d.count := by
  rw [replayLoop, ← readLen, hd, herr]
  dsimp only
  rw [if_neg fun hend => hrest hend.1]

theorem replayLoop_refused {i count : Nat} {data rest : Bytes} {st : σ} {d : Decoded σ ε}
    (hd : decodeReplayChunk gcm handler (data ++ rest.take (readLen pick i data rest)) st count = d)
    {e : ε} (herr : d.err = some e) (fuel : Nat) :
    replayLoop gcm handler pick (fuel + 1) i data rest st count =
      some ⟨d.state, d.count, some (.handler e)⟩ := by
  rw [replayLoop, ← readLen, hd, herr]

/-- A buffer that is never stuck lets the loop end after one read for each
byte at most. -/
theorem replayLoop_ends (hfree : ∀ i data rest, Reached pick file i data rest → ¬ Stuck data)
    {fuel i : Nat} {data rest : Bytes} (h : Reached pick file i data rest) (hwaits : Waits data)
    (hfuel : rest.length < fuel) (st : σ) (count : Nat) :
    ∃ res, replayLoop gcm handler pick fuel i data rest st count = some res := by
  induction fuel generalizing i data rest st count with
  | zero => omega
  | succ fuel ih =>
    have hspace := hwaits.length_lt (hfree i data rest h)
    by_cases hend : rest = []
    · subst hend
      exact ⟨_, replayLoop_end hspace (hwaits.incomplete gcm) fuel i st count⟩
    cases herr : (decodeReplayChunk gcm handler (data ++ rest.take (readLen pick i data rest)) st
        count).err with
    | some e => exact ⟨_, replayLoop_refused rfl herr fuel⟩
    | none =>
      have hpos : 0 < rest.length := List.length_pos_iff.mpr hend
      have hdrop : (rest.drop (readLen pick i data rest)).length < fuel := by
        rw [List.length_drop, readLen]
        omega
      obtain ⟨hnext, hwaits'⟩ := Reached.decoded st count (h.read hwaits hend) herr
      rw [replayLoop_next hend rfl herr]
      exact ih hnext hwaits' hdrop _ _

variable (gcm) in
/-- A run with a handler that takes everything gets to every buffer that is
reached. -/
theorem Reached.run {i : Nat} {data rest : Bytes} (h : Reached pick file i data rest)
    (hok : ∀ st f, (handler st f).2 = none) (st : σ) :
    ∃ st' count, ∀ fuel, replayLoop gcm handler pick (fuel + i) 0 [] file st 0 =
      replayLoop gcm handler pick fuel i (decodeReplayChunk gcm handler data st' count).unread rest
        (decodeReplayChunk gcm handler data st' count).state
        (decodeReplayChunk gcm handler data st' count).count := by
  induction h with
  | start => exact ⟨st, 0, fun fuel => by rw [decode_waits waits_nil, Nat.add_zero]⟩
  | @read i data rest _ hwaits hrest ih =>
    obtain ⟨st', count, hrun⟩ := ih
    refine ⟨st', count, fun fuel => ?_⟩
    have herr : (decodeReplayChunk gcm handler (data ++ rest.take (readLen pick i data rest)) st'
        count).err = none := decode_taken gcm hok _ st' count
    rw [← Nat.add_assoc, Nat.add_right_comm, hrun (fuel + 1), decode_waits hwaits]
    exact replayLoop_next hrest rfl herr fuel
  | record _ hrecord ih =>
    obtain ⟨st', count, hrun⟩ := ih
    rcases decode_front gcm handler hrecord st' count with ⟨plain, e, -, hrefuse, -⟩ | ⟨-, hstep⟩
    · rw [hok] at hrefuse
      cases hrefuse
    · rw [hstep] at hrun
      exact ⟨_, _, hrun⟩
  | resync _ hcorrupt ih =>
    obtain ⟨st', count, hrun⟩ := ih
    rw [decode_corrupt hcorrupt] at hrun
    exact ⟨st', count, hrun⟩

theorem Reached.endless {i : Nat} {data rest : Bytes} (h : Reached pick file i data rest)
    (hstuck : Stuck data) (hok : ∀ st f, (handler st f).2 = none) (fuel : Nat) (st : σ) :
    replayLoop gcm handler pick fuel 0 [] file st 0 = none := by
  have hwaits := hstuck.waits h.bounds.1
  obtain ⟨st', count, hrun⟩ := h.run gcm hok st
  cases hend : replayLoop gcm handler pick fuel 0 [] file st 0 with
  | none => rfl
  | some res =>
    have hmore := replayLoop_more hend i
    rw [hrun, decode_waits hwaits, replayLoop_stuck hstuck.1 (hwaits.incomplete gcm)] at hmore
    cases hmore

end Runs

/-! ## Termination -/

/-- `Replay` returns after finitely many turns, whatever its handler does. -/
def Ends (newGCM : Bytes → Aead) (key file : Bytes) (pick : Nat → Nat) : Prop :=
  ∀ (σ ε : Type) (handler : σ → Bytes → σ × Option ε) (st : σ),
    ∃ fuel res, replay newGCM key handler pick fuel (some file) st = some res

theorem Reached.not_ends {newGCM : Bytes → Aead} {key : Bytes} (hkey : key = [] ∨ key.length = 32)
    {i : Nat} {data rest : Bytes} (h : Reached pick file i data rest) (hstuck : Stuck data) :
    ¬ Ends newGCM key file pick := by
  intro hends
  obtain ⟨fuel, res, hrun⟩ := hends (List Bytes) Unit collect []
  have hlen := h.bounds.2
  have hfull := hstuck.1
  have hbuf : replayBufSize = 65536 := rfl
  rw [replay, if_neg (by omega), newReplayCipher, cipherFor_ok newGCM hkey] at hrun
  dsimp only at hrun
  rw [h.endless hstuck fun _ _ => rfl] at hrun
  cases hrun

/-- **Termination of `Replay`.** For every content of the file, every key and
every way the reads split the file, the replay ends for all handlers exactly
when the key is refused or no turn finds the buffer full with the front of a
single record. -/
theorem replay_ends_iff (newGCM : Bytes → Aead) (key file : Bytes) (pick : Nat → Nat) :
    Ends newGCM key file pick ↔ ((key = [] ∨ key.length = 32) →
      ∀ i data rest, Reached pick file i data rest → ¬ Stuck data) := by
  constructor
  · intro hends hkey i data rest h hstuck
    exact h.not_ends hkey hstuck hends
  · intro hfree σ ε handler st
    by_cases hempty : file.length = 0
    · exact ⟨0, _, if_pos hempty⟩
    by_cases hkey : key = [] ∨ key.length = 32
    · obtain ⟨res, hres⟩ := replayLoop_ends (hfree hkey) Reached.start waits_nil
        (Nat.lt_succ_self _) st 0
      refine ⟨file.length + 1, res, ?_⟩
      rw [replay, if_neg hempty, newReplayCipher, cipherFor_ok newGCM hkey]
      exact hres
    · refine ⟨0, ⟨st, 0, some (.cipher .invalidKeySize)⟩, ?_⟩
      rw [replay, if_neg hempty, newReplayCipher, cipherFor, if_neg, if_pos]
      · exact fun h32 => hkey (.inr h32)
      · exact fun h0 => hkey (.inl (List.eq_nil_of_length_eq_zero h0))

def greedy : Nat → Nat := fun _ => 65535

/-- The record of a frame of 65533 bytes, one more than the buffer has room for. -/
def oversizeRecord : Bytes := toLE 4 65533 ++ List.replicate 65533 0x1F

/-- `WriteFrame` writes a record that `Replay` never gets past. -/
theorem oversize_record_endless :
    ¬ Ends (fun _ => plainAead) [] oversizeRecord greedy := by
  have hlen : oversizeRecord.length = 65537 := by
    rw [oversizeRecord, List.length_append, toLE_length, List.length_replicate]
  have hread : readLen greedy 0 [] oversizeRecord = 65536 := by
    rw [readLen, hlen]
    rfl
  have hstart : Reached greedy oversizeRecord 0 [] oversizeRecord := .start
  have hreached := hstart.read waits_nil (List.ne_nil_of_length_pos (by omega))
  rw [hread, List.nil_append] at hreached
  have hclaimed : claimed (oversizeRecord.take 65536) = 65533 := by
    have hfour : slice (oversizeRecord.take 65536) 0 4 = slice oversizeRecord 0 4 := by
      simp [slice, List.take_take]
    rw [claimed, hfour, oversizeRecord, slice_append_left (toLE_length 4 _),
      le_toLE 4 _ (by decide)]
  refine hreached.not_ends (.inl rfl) ⟨?_, ?_, ?_⟩
  · rw [List.length_take, hlen]
    decide
  · rw [hclaimed]
    decide
  · rw [hclaimed]
    decide

/-! ## Skips -/

/-- What `Replay` returns when the chunk is all there is. -/
def Decoded.outcome {σ ε : Type} (d : Decoded σ ε) : Replayed σ ε :=
  ⟨d.state, d.count, d.err.map .handler⟩

/-- `Replay` with these reads gives what `decodeReplayChunk` gives for the whole
file, for every handler; a handler that keeps its frames is one of them. -/
def Recovers (newGCM : Bytes → Aead) (key file : Bytes) (pick : Nat → Nat) : Prop :=
  ∀ gcm, newReplayCipher newGCM key = .ok gcm →
    ∀ (σ ε : Type) (handler : σ → Bytes → σ × Option ε) (st : σ) (fuel : Nat)
      (res : Replayed σ ε), replay newGCM key handler pick fuel (some file) st = some res →
      res = (decodeReplayChunk gcm handler file st 0).outcome

/-- Every skip of the replay is the one that the rest of the file would give. -/
def SameSkips (pick : Nat → Nat) (file : Bytes) : Prop :=
  ∀ i data rest, Reached pick file i data rest → Corrupt data →
    resyncToNextRecord data = resyncToNextRecord (data ++ rest)

section Skips

variable {σ ε : Type} {gcm : Option Aead} {handler : σ → Bytes → σ × Option ε}

variable (gcm handler) in
/-- Decoding the buffer first does not change what the rest of the file gives. -/
theorem decode_append (hskips : SameSkips pick file) (st : σ) (count : Nat) {i : Nat}
    {data rest : Bytes} (h : Reached pick file i data rest) :
    ((decodeReplayChunk gcm handler data st count).err ≠ none →
      (decodeReplayChunk gcm handler (data ++ rest) st count).outcome =
        (decodeReplayChunk gcm handler data st count).outcome) ∧
      ((decodeReplayChunk gcm handler data st count).err = none →
        decodeReplayChunk gcm handler (data ++ rest) st count =
          decodeReplayChunk gcm handler
            ((decodeReplayChunk gcm handler data st count).unread ++ rest)
            (decodeReplayChunk gcm handler data st count).state
            (decodeReplayChunk gcm handler data st count).count) := by
  induction data using buffer_induction generalizing st count with
  | waits data hwaits =>
    rw [decode_waits hwaits]
    exact ⟨fun herr => absurd rfl herr, fun _ => rfl⟩
  | corrupt data hcorrupt ih =>
    have hskip := hskips i data rest h hcorrupt
    have hcorrupt' : Corrupt (data ++ rest) := by
      obtain ⟨hlen, hrange⟩ := hcorrupt
      unfold claimed at hrange
      rw [← slice_append_of_le (b := rest) (by omega)] at hrange
      exact ⟨by rw [List.length_append]; omega, hrange⟩
    rw [decode_corrupt hcorrupt, decode_corrupt hcorrupt', ← hskip,
      List.drop_append_of_le_length hcorrupt.resync_bounds.2]
    exact ih st count (h.resync hcorrupt)
  | record data hrecord ih =>
    rcases decode_record gcm handler hrecord st count with ⟨plain, e, -, -, hstep⟩ | ⟨-, hstep⟩
    · have hone := hstep []
      rw [List.append_nil] at hone
      rw [hstep rest, hone]
      exact ⟨fun _ => rfl, fun herr => (by cases herr)⟩
    · have hone := hstep []
      rw [List.append_nil, List.append_nil] at hone
      rw [hstep rest, hone]
      exact ih _ _ (h.record hrecord)

theorem replayLoop_outcome (hskips : SameSkips pick file) {fuel i : Nat} {data rest : Bytes}
    (h : Reached pick file i data rest) (hwaits : Waits data) {st : σ} {count : Nat}
    {res : Replayed σ ε} (hrun : replayLoop gcm handler pick fuel i data rest st count = some res) :
    res = (decodeReplayChunk gcm handler (data ++ rest) st count).outcome := by
  induction fuel generalizing i data rest st count with
  | zero => cases hrun
  | succ fuel ih =>
    by_cases hend : rest = []
    · subst hend
      rw [List.append_nil, decode_waits hwaits]
      by_cases hspace : data.length < replayBufSize
      · rw [replayLoop_end hspace (hwaits.incomplete gcm)] at hrun
        cases hrun
        rfl
      · rw [replayLoop_stuck (Nat.le_of_not_lt hspace) (hwaits.incomplete gcm)] at hrun
        cases hrun
    · have hnext := h.read hwaits hend
      obtain ⟨hrefused, hdecoded⟩ := decode_append gcm handler hskips st count hnext
      rw [List.append_assoc, List.take_append_drop] at hrefused hdecoded
      cases herr : (decodeReplayChunk gcm handler (data ++ rest.take (readLen pick i data rest)) st
          count).err with
      | some e =>
        rw [replayLoop_refused rfl herr] at hrun
        cases hrun
        rw [hrefused (by rw [herr]; simp), Decoded.outcome, herr]
        rfl
      | none =>
        rw [replayLoop_next hend rfl herr] at hrun
        obtain ⟨hreached, hwaits'⟩ := Reached.decoded st count hnext herr
        rw [hdecoded herr]
        exact ih hreached hwaits' hrun

end Skips

/-- **Recovery.** When every skip over corrupt bytes is the one that the rest of
the file would give, a replay that ends gives what the whole file gives. -/
theorem recovers_of_sameSkips (newGCM : Bytes → Aead) (key file : Bytes) (pick : Nat → Nat)
    (hskips : SameSkips pick file) : Recovers newGCM key file pick := by
  intro gcm hgcm σ ε handler st fuel res hrun
  rw [replay] at hrun
  split at hrun
  · next hempty =>
    obtain rfl : file = [] := List.eq_nil_of_length_eq_zero hempty
    cases hrun
    rfl
  · rw [hgcm] at hrun
    exact replayLoop_outcome hskips Reached.start waits_nil hrun

theorem sameSkips_of_one_read (hpick : ∀ i, file.length ≤ pick i + 1)
    (hlen : file.length ≤ replayBufSize) : SameSkips pick file := by
  have hpiece : ∀ i data rest, Reached pick file i data rest → data = [] ∨ rest = [] := by
    intro i data rest h
    induction h with
    | start => exact .inl rfl
    | @read i data rest h _ hrest ih =>
      obtain rfl := ih.resolve_right hrest
      have hbound := h.bounds.2
      have hi := hpick i
      refine .inr (List.drop_eq_nil_of_le ?_)
      rw [readLen, List.length_nil]
      rw [List.length_nil] at hbound
      omega
    | record _ _ ih => exact ih.imp (fun hd => by rw [hd, List.drop_nil]) id
    | resync _ _ ih => exact ih.imp (fun hd => by rw [hd, List.drop_nil]) id
  intro i data rest h hcorrupt
  rcases hpiece i data rest h with rfl | rfl
  · exact absurd hcorrupt not_corrupt_nil
  · rw [List.append_nil]

/-- Five corrupt bytes and a record. -/
def behindGarbage : Bytes := [0xFF, 0xFF, 0xFF, 0xFF, 0xFF, 1, 0, 0, 0, 0x1F]

theorem one_read_recovers : SameSkips greedy behindGarbage ∧
    Recovers (fun _ => plainAead) [] behindGarbage greedy :=
  have hskips : SameSkips greedy behindGarbage :=
    sameSkips_of_one_read (fun _ => show 10 ≤ 65535 + 1 by decide) (by decide)
  ⟨hskips, recovers_of_sameSkips _ _ _ _ hskips⟩

/-- Six corrupt bytes and a record. -/
def garbage : Bytes := [0xFF, 0xFF, 0xFF, 0xFF, 0xFF] ++ [0xFF, 1, 0, 0, 0, 0x1F]

/-- A record that leaves five bytes of the buffer: all that the buffer holds of
the corrupt bytes is skipped, and the byte that is left is read as the start of a
length. -/
theorem replay_across_buffers {record frame : Bytes}
    (hwhole : (recordCutter none).Whole record (some frame)) (hlen : record.length = 65531) :
    replay (fun _ => plainAead) [] collect greedy 3 (some (record ++ garbage)) [] =
      some ⟨[frame], 1, none⟩ := by
  have hsize : (record ++ garbage).length = record.length + 11 := List.length_append
  have hread : readLen greedy 0 [] (record ++ garbage) = record.length + 5 := by
    rw [readLen, hsize, hlen]
    rfl
  have hfirst : decodeReplayChunk none collect
      ([] ++ (record ++ garbage).take (readLen greedy 0 [] (record ++ garbage))) [] 0 =
        ⟨[], [frame], 1, none⟩ := by
    rw [hread, List.take_length_add_append]
    exact (decode_whole_append hwhole (fun _ _ => rfl) _ 0).trans rfl
  have hne : record ++ garbage ≠ [] := List.ne_nil_of_length_pos (by rw [hsize]; omega)
  rw [replay, if_neg (by omega)]
  refine (replayLoop_next hne hfirst rfl 2).trans ?_
  rw [hread, List.drop_length_add_append]
  -- the second read takes what is left, which waits at the end of the file
  have hwaits : Waits [0xFF, 1, 0, 0, 0, 0x1F] := by decide
  refine (replayLoop_next (List.cons_ne_nil _ _) (decode_waits hwaits _ _) rfl 1).trans ?_
  have hspace : ([0xFF, 1, 0, 0, 0, 0x1F] : Bytes).length < replayBufSize := by decide
  exact replayLoop_end hspace (hwaits.incomplete none) 0 2 _ _

theorem buffer_end_loses_record :
    ¬ ∀ (newGCM : Bytes → Aead) (key file : Bytes) (pick : Nat → Nat),
      Recovers newGCM key file pick := by
  intro h
  obtain ⟨frame, record, hwhole, hlen⟩ : ∃ frame record : Bytes,
      (recordCutter none).Whole record (some frame) ∧ record.length = 65531 := by
    refine ⟨List.replicate 65527 0x1F, _, record_whole (List.ne_nil_of_length_pos ?_) ?_ rfl, ?_⟩
    · rw [List.length_replicate]
      decide
    · rw [List.length_replicate]
      decide
    · rw [List.length_append, toLE_length, List.length_replicate]
  have hall : decodeReplayChunk none collect (record ++ garbage) [] 0 =
      ⟨[], [frame, [0x1F]], 2, none⟩ :=
    (decode_whole_append hwhole (fun _ _ => rfl) _ 0).trans rfl
  have hsame := h (fun _ => plainAead) [] (record ++ garbage) greedy none rfl _ _ collect [] 3 _
    (replay_across_buffers hwhole hlen)
  rw [hall] at hsame
  have hcount : 1 = 2 := congrArg Replayed.count hsame
  exact absurd hcount (by decide)

end Aqueduct.Aal
