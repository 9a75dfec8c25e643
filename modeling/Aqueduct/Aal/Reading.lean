import Aqueduct.Aal

/-!
`Replay` under the slowest reads, one byte at a time. The buffer then holds
nothing but the front of one record, so a run can be followed record by record
even where the records do not decode; and whatever happens, a frame that is
handed on has its record in the bytes that are left (`replayLoop_sizes`).
-/

namespace Aqueduct.Aal

open ByteStr Framing

/-- Only what was sealed is opened. -/
def Aead.Authentic (a : Aead) : Prop :=
  ∀ nonce cipher plain, a.openBytes nonce cipher = some plain → cipher = a.sealBytes nonce plain

/-- `Replay` of the file hands on exactly these frames, for every handler that
takes them and however the file is read. -/
def Replays (newGCM : Bytes → Aead) (key file : Bytes) (frames : List Bytes) : Prop :=
  ∀ (σ ε : Type) (handler : σ → Bytes → σ × Option ε) (st : σ) (pick : Nat → Nat),
    (∀ st f, (handler st f).2 = none) →
    ∃ fuel, replay newGCM key handler pick fuel (some file) st =
      some ⟨handleAll handler st frames, frames.length, none⟩

/-! ## Buffers -/

section Buffers

variable {gcm : Option Aead}

theorem whole_header {record : Bytes} {a : Option Bytes} (h : (recordCutter gcm).Whole record a) :
    4 < record.length ∧ le (slice record 0 4) + 4 = record.length ∧
      record.length ≤ 4 + maxRecordLen ∧
      a = decryptReplayRecord gcm (slice record 4 (record.length - 4)) := by
  have hcut : cutRecord gcm record = .item a record.length := h
  unfold cutRecord at hcut
  dsimp only at hcut
  split at hcut
  · cases hcut
  split at hcut
  · cases hcut
  next hrange =>
  split at hcut
  · cases hcut
  simp only [Verdict.item.injEq] at hcut
  obtain ⟨hplain, hlen⟩ := hcut
  refine ⟨by omega, by omega, by omega, ?_⟩
  rw [← hplain, ← hlen, Nat.add_sub_cancel_left]

theorem torn_of_header {b : Bytes} (hpos : 0 < le (slice b 0 4))
    (hrange : le (slice b 0 4) ≤ maxRecordLen) (hshort : b.length < 4 + le (slice b 0 4)) :
    (recordCutter gcm).Torn b := by
  rintro p ⟨s, rfl⟩
  rw [List.length_append] at hshort
  rw [recordCutter_next, cutRecord]
  by_cases h4 : p.length < 4
  · rw [if_pos h4]
  · rw [if_neg h4]
    rw [slice_append_of_le (by omega)] at hpos hrange hshort
    dsimp only
    rw [if_neg (by omega), if_pos (by omega)]

theorem torn_short {b : Bytes} (h : b.length < 4) : (recordCutter gcm).Torn b := by
  intro p hp
  rw [recordCutter_next, cutRecord, if_pos (Nat.lt_of_le_of_lt hp.length_le h)]

theorem whole_of_header {b : Bytes} (hpos : 0 < le (slice b 0 4))
    (hrange : le (slice b 0 4) ≤ maxRecordLen) (hlen : b.length = 4 + le (slice b 0 4)) :
    (recordCutter gcm).Whole b (decryptReplayRecord gcm (slice b 4 (le (slice b 0 4)))) := by
  unfold Cutter.Whole
  rw [recordCutter_next, cutRecord, if_neg (by omega)]
  dsimp only
  rw [if_neg (by omega), if_neg (by omega), hlen]

/-- A frame that comes out of a record fills it. -/
theorem decrypt_recordLen (hauth : ∀ a ∈ gcm, a.Authentic) {recBytes plain : Bytes}
    (h : decryptReplayRecord gcm recBytes = some plain) :
    recordLen gcm plain = 4 + recBytes.length := by
  cases gcm with
  | none =>
    cases h
    rfl
  | some a =>
    simp only [decryptReplayRecord] at h
    split at h
    · cases h
    · have hseal := congrArg List.length (hauth a rfl _ _ _ h)
      rw [a.seal_length, List.length_drop] at hseal
      simp only [recordLen]
      omega

theorem whole_recordLen (hauth : ∀ a ∈ gcm, a.Authentic) {record plain : Bytes}
    (h : (recordCutter gcm).Whole record (some plain)) : recordLen gcm plain = record.length := by
  obtain ⟨hlen, -, -, hplain⟩ := whole_header h
  rw [decrypt_recordLen hauth hplain.symm, slice_length (by omega)]
  omega

end Buffers

section Loop

variable {σ ε : Type} {gcm : Option Aead} {handler : σ → Bytes → σ × Option ε}

theorem decodeReplayChunk_incomplete {b : Bytes} (h : cutRecord gcm b = .incomplete) (st : σ)
    (count : Nat) : decodeReplayChunk gcm handler b st count = ⟨b, st, count, none⟩ := by
  unfold decodeReplayChunk
  cases b with
  | nil => rfl
  | cons x b => exact decodeLoop_incomplete h _ st count

theorem decodeReplayChunk_whole {b : Bytes} {a : Option Bytes} (h : (recordCutter gcm).Whole b a)
    (hok : ∀ st f, (handler st f).2 = none) (st : σ) (count : Nat) :
    decodeReplayChunk gcm handler b st count =
      ⟨[], handleAll handler st a.toList, count + a.toList.length, none⟩ := by
  obtain ⟨n, hn⟩ : ∃ n, b.length = n + 1 := ⟨b.length - 1, by have := h.length_pos; omega⟩
  rw [decodeReplayChunk, hn, decodeLoop_item h fun f _ => hok st f, List.drop_length]
  cases n <;> simp [decodeLoop]

/-! ## Runs -/

/-- A run that ended ends in the same way when more reads are allowed. -/
theorem replayLoop_more {pick : Nat → Nat} {fuel i count : Nat} {data rest : Bytes} {st : σ}
    {res : Replayed σ ε} (h : replayLoop gcm handler pick fuel i data rest st count = some res)
    (extra : Nat) : replayLoop gcm handler pick (fuel + extra) i data rest st count = some res := by
  induction fuel generalizing i data rest st count with
  | zero => cases h
  | succ fuel ih =>
    rw [Nat.add_right_comm, replayLoop]
    rw [replayLoop] at h
    split at h
    · exact h
    · split at h
      · next hend => rw [if_pos hend]; exact h
      · next hend => rw [if_neg hend]; exact ih h

theorem replay_more {newGCM : Bytes → Aead} {key : Bytes} {pick : Nat → Nat} {fuel : Nat}
    {file : Option Bytes} {st : σ} {res : Replayed σ ε}
    (h : replay newGCM key handler pick fuel file st = some res) (extra : Nat) :
    replay newGCM key handler pick (fuel + extra) file st = some res := by
  cases file with
  | none => exact h
  | some bytes =>
    rw [replay] at h ⊢
    split at h
    · next hempty => rw [if_pos hempty]; exact h
    · next hempty =>
      rw [if_neg hempty]
      cases hgcm : newReplayCipher newGCM key with
      | error e =>
        rw [hgcm] at h
        exact h
      | ok gcm =>
        rw [hgcm] at h
        exact replayLoop_more h extra

/-- A read into a full buffer changes nothing, so the loop never ends. -/
theorem replayLoop_stuck {pick : Nat → Nat} {data : Bytes} (hfull : replayBufSize ≤ data.length)
    (hdata : cutRecord gcm data = .incomplete) (fuel i : Nat) (rest : Bytes) (st : σ)
    (count : Nat) : replayLoop gcm handler pick fuel i data rest st count = none := by
  induction fuel generalizing i with
  | zero => rfl
  | succ fuel ih =>
    have hspace : replayBufSize - data.length = 0 := by omega
    rw [replayLoop, hspace, Nat.zero_min, Nat.min_zero, List.take_zero, List.append_nil, List.drop_zero,
      decodeReplayChunk_incomplete hdata]
    dsimp only
    rw [if_neg (by omega)]
    exact ih (i + 1)

theorem replayLoop_end {pick : Nat → Nat} {data : Bytes} (hspace : data.length < replayBufSize)
    (hdata : cutRecord gcm data = .incomplete) (fuel i : Nat) (st : σ) (count : Nat) :
    replayLoop gcm handler pick (fuel + 1) i data [] st count = some ⟨st, count, none⟩ := by
  rw [replayLoop, List.take_nil, List.append_nil, decodeReplayChunk_incomplete hdata]
  dsimp only
  rw [if_pos ⟨rfl, by omega⟩]

/-! ## One byte at a time -/

def slowly : Nat → Nat := fun _ => 0

theorem replayLoop_byte (data : Bytes) (hspace : data.length < replayBufSize) {x : UInt8} {st : σ}
    {count : Nat} {d : Decoded σ ε} (hd : decodeReplayChunk gcm handler (data ++ [x]) st count = d)
    (herr : d.err = none) (fuel i : Nat) (rest : Bytes) :
    replayLoop gcm handler slowly (fuel + 1) i data (x :: rest) st count =
      replayLoop gcm handler slowly fuel (i + 1) d.unread rest d.state d.count := by
  have hn : min (slowly i + 1) (min (replayBufSize - data.length) (x :: rest).length) = 1 := by
    rw [List.length_cons]
    show min (0 + 1) _ = 1
    omega
  rw [replayLoop, hn, List.take_succ_cons, List.take_zero, hd, herr]
  dsimp only
  rw [if_neg fun h => List.cons_ne_nil x rest h.1, List.drop_succ_cons, List.drop_zero]

variable (gcm handler) in
theorem replayLoop_bytes (more : Bytes) : ∀ data : Bytes, (recordCutter gcm).Torn (data ++ more) →
    (data ++ more).length ≤ replayBufSize → ∀ (fuel i : Nat) (rest : Bytes) (st : σ) (count : Nat),
    replayLoop gcm handler slowly (fuel + more.length) i data (more ++ rest) st count =
      replayLoop gcm handler slowly fuel (i + more.length) (data ++ more) rest st count := by
  induction more with
  | nil =>
    intro data _ _ fuel i rest st count
    simp
  | cons x more ih =>
    intro data htorn hlen fuel i rest st count
    have hdata : cutRecord gcm (data ++ [x]) = .incomplete := htorn _ ⟨more, by simp⟩
    have hsplit : data ++ x :: more = data ++ [x] ++ more := by simp
    rw [hsplit] at htorn hlen ⊢
    have hspace : data.length < replayBufSize := by
      simp only [List.length_append, List.length_singleton] at hlen
      omega
    rw [List.length_cons, ← Nat.add_assoc, List.cons_append,
      replayLoop_byte data hspace (decodeReplayChunk_incomplete hdata st count) rfl]
    dsimp only
    rw [ih _ htorn hlen, Nat.add_assoc i, Nat.add_comm 1]

variable (hok : ∀ st f, (handler st f).2 = none)

include hok

theorem replayLoop_record {record : Bytes} {a : Option Bytes}
    (h : (recordCutter gcm).Whole record a) (hsize : record.length ≤ replayBufSize)
    (fuel i : Nat) (rest : Bytes) (st : σ) (count : Nat) :
    replayLoop gcm handler slowly (fuel + record.length) i [] (record ++ rest) st count =
      replayLoop gcm handler slowly fuel (i + record.length) [] rest
        (handleAll handler st a.toList) (count + a.toList.length) := by
  obtain ⟨front, x, rfl⟩ : ∃ front x, record = front ++ [x] :=
    ⟨_, _, (List.dropLast_append_getLast (List.ne_nil_of_length_pos h.length_pos)).symm⟩
  rw [List.length_append, List.length_singleton] at hsize
  have hfront : (recordCutter gcm).Torn front := by
    have htake := h.torn_take (k := front.length) (by simp)
    rwa [List.take_left] at htake
  have hchunk := decodeReplayChunk_whole h hok st count
  rw [List.append_assoc, List.length_append, List.length_singleton, ← Nat.add_assoc,
    Nat.add_right_comm, replayLoop_bytes gcm handler front [] (by simpa using hfront) (by simp; omega),
    List.nil_append, List.singleton_append, replayLoop_byte front (by omega) hchunk rfl]
  rfl

theorem replayLoop_items {items : List (Bytes × Bytes)}
    (hitems : ∀ p ∈ items, (recordCutter gcm).Whole p.1 (some p.2) ∧ p.1.length ≤ replayBufSize)
    (fuel i : Nat) (rest : Bytes) (st : σ) (count : Nat) :
    ∃ j, replayLoop gcm handler slowly (fuel + (items.map (·.1)).flatten.length) i []
        ((items.map (·.1)).flatten ++ rest) st count =
      replayLoop gcm handler slowly fuel j [] rest (handleAll handler st (items.map (·.2)))
        (count + items.length) := by
  induction items generalizing i st count with
  | nil => exact ⟨i, rfl⟩
  | cons p items ih =>
    obtain ⟨hwhole, hsize⟩ := hitems p List.mem_cons_self
    obtain ⟨j, hj⟩ := ih (fun q hq => hitems q (List.mem_cons_of_mem _ hq)) (i + p.1.length)
      (handleAll handler st [p.2]) (count + 1)
    refine ⟨j, ?_⟩
    rw [List.map_cons, List.flatten_cons, List.length_append, List.append_assoc,
      Nat.add_comm p.1.length, ← Nat.add_assoc, replayLoop_record hok hwhole hsize]
    refine hj.trans ?_
    rw [List.length_cons, Nat.add_assoc, Nat.add_comm 1]
    rfl

end Loop

/-! ## What can still be handed on -/

/-- A handler that keeps what it is given. -/
def collect (st : List Bytes) (f : Bytes) : List Bytes × Option Unit := (st ++ [f], none)

theorem handleAll_collect (st frames : List Bytes) : handleAll collect st frames = st ++ frames := by
  induction frames generalizing st with
  | nil => simp [handleAll]
  | cons f frames ih =>
    have hrest := ih (st ++ [f])
    rw [List.append_assoc, List.singleton_append] at hrest
    exact hrest

theorem Replays.unique {newGCM : Bytes → Aead} {key file : Bytes} {frames frames' : List Bytes}
    (h : Replays newGCM key file frames) (h' : Replays newGCM key file frames') : frames = frames' := by
  obtain ⟨fuel, hrun⟩ := h (List Bytes) Unit collect [] slowly fun _ _ => rfl
  obtain ⟨fuel', hrun'⟩ := h' (List Bytes) Unit collect [] slowly fun _ _ => rfl
  have hmore := replay_more hrun fuel'
  rw [Nat.add_comm, replay_more hrun' fuel, handleAll_collect, handleAll_collect] at hmore
  have hstate := congrArg (Option.map Replayed.state) hmore
  exact (Option.some.inj hstate).symm

variable {gcm : Option Aead}

theorem decodeLoop_sizes (hauth : ∀ a ∈ gcm, a.Authentic) (fuel : Nat) :
    ∀ (unread : Bytes) (st : List Bytes) (count : Nat),
      ∃ more, (decodeLoop gcm collect fuel unread st count).state = st ++ more ∧
        (decodeLoop gcm collect fuel unread st count).unread.length ≤ unread.length ∧
        ∀ f ∈ more, recordLen gcm f ≤ unread.length := by
  induction fuel with
  | zero => exact fun unread st count => ⟨[], by simp [decodeLoop]⟩
  | succ fuel ih =>
    intro unread st count
    rw [decodeLoop]
    -- a turn consumes a front of the buffer and hands on at most one frame
    have hnext : ∀ (n : Nat) (st' : List Bytes) (count' : Nat) (new : List Bytes),
        st' = st ++ new → (∀ f ∈ new, recordLen gcm f ≤ unread.length) →
        ∃ more, (decodeLoop gcm collect fuel (unread.drop n) st' count').state = st ++ more ∧
          (decodeLoop gcm collect fuel (unread.drop n) st' count').unread.length ≤ unread.length ∧
          ∀ f ∈ more, recordLen gcm f ≤ unread.length := by
      intro n st' count' new hst hnew
      have hdrop : (unread.drop n).length ≤ unread.length := by
        rw [List.length_drop]
        omega
      obtain ⟨more, hstate, hunread, hmore⟩ := ih (unread.drop n) st' count'
      refine ⟨new ++ more, by rw [hstate, hst, List.append_assoc], hunread.trans hdrop, ?_⟩
      intro f hf
      rcases List.mem_append.mp hf with hf | hf
      · exact hnew f hf
      · exact (hmore f hf).trans hdrop
    split
    · exact ⟨[], by simp⟩
    dsimp only
    split
    · exact hnext _ st count [] (by simp) (by simp)
    split
    · exact ⟨[], by simp⟩
    next hfit =>
    cases hplain : decryptReplayRecord gcm (slice unread 4 (le (slice unread 0 4))) with
    | none => exact hnext _ st count [] (by simp) (by simp)
    | some plain =>
      refine hnext _ (st ++ [plain]) (count + 1) [plain] rfl ?_
      intro f hf
      rw [List.mem_singleton.mp hf, decrypt_recordLen hauth hplain, slice_length (by omega)]
      omega

/-- Whatever is handed on from here has its record in the bytes that are left. -/
theorem replayLoop_sizes (hauth : ∀ a ∈ gcm, a.Authentic) {pick : Nat → Nat} {fuel i count : Nat}
    {data rest : Bytes} {st : List Bytes} {res : Replayed (List Bytes) Unit}
    (h : replayLoop gcm collect pick fuel i data rest st count = some res) :
    ∃ more, res.state = st ++ more ∧
      ∀ f ∈ more, recordLen gcm f ≤ data.length + rest.length := by
  induction fuel generalizing i data rest st count with
  | zero => cases h
  | succ fuel ih =>
    rw [replayLoop] at h
    generalize min (pick i + 1) (min (replayBufSize - data.length) rest.length) = n at h
    obtain ⟨more, hstate, hunread, hmore⟩ :=
      decodeLoop_sizes hauth (data ++ rest.take n).length (data ++ rest.take n) st count
    have hread : (data ++ rest.take n).length + (rest.drop n).length = data.length + rest.length := by
      rw [List.length_append, List.length_take, List.length_drop]
      omega
    rw [← decodeReplayChunk] at hstate hunread
    generalize decodeReplayChunk gcm collect (data ++ rest.take n) st count = d at h hstate hunread
    split at h
    · cases h
      exact ⟨more, hstate, fun f hf => (hmore f hf).trans (by omega)⟩
    · split at h
      · cases h
        exact ⟨more, hstate, fun f hf => (hmore f hf).trans (by omega)⟩
      · obtain ⟨more', hstate', hmore'⟩ := ih h
        refine ⟨more ++ more', by rw [hstate', hstate, List.append_assoc], ?_⟩
        intro f hf
        rcases List.mem_append.mp hf with hf | hf
        · exact (hmore f hf).trans (by omega)
        · exact (hmore' f hf).trans (by omega)

end Aqueduct.Aal
