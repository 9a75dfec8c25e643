import Aqueduct.Aal.Reading

/-!
A log whose last record was cut short by a crash, opened again and appended to.
`OpenEncrypted` appends behind the torn record without looking at it, so the
first record written after the crash is read as a part of the torn one. The log
stays readable when nothing is written behind, and it stays readable whatever is
written behind exactly when the cut left nothing of the record.
-/

namespace Aqueduct.Aal

open ByteStr Framing

/-- A frame whose record fits the buffer of `Replay`. -/
def Fits (key f : Bytes) : Prop := f ≠ [] ∧ (if key = [] then 4 else 32) + f.length ≤ 65536

instance (key f : Bytes) : Decidable (Fits key f) := inferInstanceAs (Decidable (_ ∧ _))

/-- After `frames`, `last` is written and a crash keeps `k` bytes of its record.
The file is opened again and `later` is written. `Replay` then hands on exactly
the frames whose records are whole. -/
def Readable (newGCM : Bytes → Aead) (key : Bytes) (noncePrefix noncePrefix' : UInt32)
    (frames : List Bytes) (last : Bytes) (k : Nat) (later : List Bytes) : Prop :=
  ∃ log before written reopened log', openEncrypted newGCM key [] noncePrefix = .ok log ∧
    frames.foldlM Log.writeFrame log = some before ∧ before.writeFrame last = some written ∧
    openEncrypted newGCM key (written.file.take (before.file.length + k)) noncePrefix' =
      .ok reopened ∧
    later.foldlM Log.writeFrame reopened = some log' ∧
    Replays newGCM key log'.file (frames ++ later)

/-! ## The file after the crash -/

variable {newGCM : Bytes → Aead} {key : Bytes}

theorem fits_recordLen {f : Bytes} (h : Fits key f) :
    recordLen (if key = [] then none else some (newGCM key)) f ≤ replayBufSize := by
  obtain ⟨-, hle⟩ := h
  split at hle
  · next hk => simpa [recordLen, hk, replayBufSize] using hle
  · next hk => simpa [recordLen, hk, replayBufSize] using hle

/-- Whole records, the front of a record, whole records. -/
theorem readable_iff (newGCM : Bytes → Aead) (hkey : key = [] ∨ key.length = 32)
    (noncePrefix noncePrefix' : UInt32) {frames : List Bytes} {last : Bytes}
    (hframes : ∀ f ∈ frames, Fits key f) (hlast : Fits key last) (later : List Bytes)
    (hlater : ∀ f ∈ later, Fits key f) (k : Nat) :
    ∃ (items items' : List (Bytes × Bytes)) (record : Bytes),
      items.map (·.2) = frames ∧ items'.map (·.2) = later ∧
      (∀ p ∈ items ++ items', (recordCutter (if key = [] then none else some (newGCM key))).Whole
        p.1 (some p.2) ∧ p.1.length ≤ replayBufSize) ∧
      (recordCutter (if key = [] then none else some (newGCM key))).Whole record (some last) ∧
      record.length = (if key = [] then 4 else 32) + last.length ∧
      (Readable newGCM key noncePrefix noncePrefix' frames last k later ↔
        Replays newGCM key ((items.map (·.1)).flatten ++
          (record.take k ++ (items'.map (·.1)).flatten)) (frames ++ later)) := by
  have hcipher := cipherFor_ok newGCM hkey
  generalize hg : (if key = [] then none else some (newGCM key)) = gcm at hcipher
  have hfits : ∀ f, Fits key f → recordLen gcm f ≤ replayBufSize := fun f hf => hg ▸ fits_recordLen hf
  have hopen : ∀ file np, openEncrypted newGCM key file np = .ok ⟨file, gcm, np, 0⟩ := by
    intro file np
    simp [openEncrypted, hcipher]
  obtain ⟨before, items, hrun, hitems, haead, hfile, hwhole⟩ := writeFrames_records
    ⟨[], gcm, noncePrefix, 0⟩ (fun f hf => (hframes f hf).1) fun f hf => hfits f (hframes f hf)
  change before.aead = gcm at haead
  obtain ⟨written, record, hwrite, hfile', -, hlen, hrecord⟩ :=
    writeFrame_record before (fun _ => hlast.1) (haead.symm ▸ hfits last hlast)
  rw [haead] at hlen hrecord
  have htorn : written.file.take (before.file.length + k) = before.file ++ record.take k := by
    rw [hfile', List.take_length_add_append]
  obtain ⟨log', items', hrun', hitems', -, hfile'', hwhole'⟩ := writeFrames_records
    ⟨before.file ++ record.take k, gcm, noncePrefix', 0⟩ (fun f hf => (hlater f hf).1)
    fun f hf => hfits f (hlater f hf)
  have hlast' : record.length = (if key = [] then 4 else 32) + last.length := by
    rw [hlen, ← hg]
    split <;> rfl
  refine ⟨items, items', record, hitems, hitems', ?_, hrecord, hlast', ?_⟩
  · intro p hp
    rcases List.mem_append.mp hp with hp | hp
    · exact hwhole p hp
    · exact hwhole' p hp
  have hall : log'.file = (items.map (·.1)).flatten ++
      (record.take k ++ (items'.map (·.1)).flatten) := by
    rw [hfile'', hfile, List.nil_append, List.append_assoc]
  rw [← hall]
  constructor
  · rintro ⟨_, _, _, _, _, hlog, hbefore, hwritten, hreopened, hend, hreplays⟩
    rw [hopen] at hlog
    cases hlog
    rw [hrun] at hbefore
    cases hbefore
    rw [hwrite] at hwritten
    cases hwritten
    rw [htorn, hopen] at hreopened
    cases hreopened
    rw [hrun'] at hend
    cases hend
    exact hreplays
  · intro hreplays
    exact ⟨_, before, written, _, log', hopen _ _, hrun, hwrite, by rw [htorn]; exact hopen _ _,
      hrun', hreplays⟩

/-! ## Nothing is lost -/

variable {gcm : Option Aead}

theorem replays_torn (hgcm : cipherFor newGCM key = .ok gcm) {items : List (Bytes × Bytes)}
    (hitems : ∀ p ∈ items, (recordCutter gcm).Whole p.1 (some p.2) ∧ p.1.length ≤ replayBufSize)
    {last : Bytes} (hlast : (recordCutter gcm).Torn last) (hshort : last.length < replayBufSize) :
    Replays newGCM key ((items.map (·.1)).flatten ++ last) (items.map (·.2)) := by
  intro σ ε handler st pick hok
  rw [List.length_map]
  exact ⟨_, replay_torn hgcm hitems hlast hshort (fun st f _ => hok st f) pick
    (Nat.lt_succ_self _) st⟩

/-! ## The first record after the crash -/

theorem four_bytes {b : Bytes} (h : 4 ≤ b.length) :
    ∃ x y z w rest, b = x :: y :: z :: w :: rest := by
  rcases b with _ | ⟨x, _ | ⟨y, _ | ⟨z, _ | ⟨w, rest⟩⟩⟩⟩
  iterate 4 · simp at h
  exact ⟨x, y, z, w, rest, rfl⟩

/-- A record with a short body: one digit of its length is not zero. -/
theorem small_header {record : Bytes} (h4 : 4 ≤ record.length) (hle : le (slice record 0 4) < 256) :
    ∃ x body, record = x :: 0 :: 0 :: 0 :: body ∧ x.toNat = le (slice record 0 4) := by
  obtain ⟨a, b, c, d, body, rfl⟩ := four_bytes h4
  have hval : le (slice (a :: b :: c :: d :: body) 0 4) =
      a.toNat + 256 * (b.toNat + 256 * (c.toNat + 256 * d.toNat)) := by
    simp [slice, le]
  rw [hval] at hle ⊢
  have hzero : ∀ y : UInt8, y.toNat = 0 → y = 0 := fun y hy => UInt8.toNat_inj.mp hy
  obtain rfl := hzero b (by omega)
  obtain rfl := hzero c (by omega)
  obtain rfl := hzero d (by omega)
  exact ⟨a, body, rfl, by simp⟩

theorem decodeReplayChunk_skip (gcm : Option Aead) {σ ε : Type} (handler : σ → Bytes → σ × Option ε)
    {b : Bytes} (hlen : b.length = 4) (hrange : maxRecordLen < le (slice b 0 4)) (st : σ) (count : Nat) :
    decodeReplayChunk gcm handler b st count = ⟨[], st, count, none⟩ := by
  have hskip : resyncToNextRecord b = 4 := by
    unfold resyncToNextRecord
    rw [hlen]
    rfl
  rw [decodeReplayChunk, hlen, decodeLoop, hlen, if_neg (by decide), if_pos (.inr hrange), hskip,
    ← hlen, List.drop_length]
  rfl

section Hidden

variable {fuel i count : Nat} {st : List Bytes} {res : Replayed (List Bytes) Unit} {f : Bytes}

/-- Bytes that wait for more until the end of the file hand on nothing. -/
theorem hidden_of_torn {b : Bytes} (h : (recordCutter gcm).Torn b) (hlen : b.length < replayBufSize)
    (hrun : replayLoop gcm collect slowly fuel i [] b st count = some res) :
    ∃ more, res.state = st ++ more ∧ f ∉ more := by
  have hbytes := replayLoop_bytes gcm collect b [] h (Nat.le_of_lt hlen) (fuel + 1) i [] st count
  rw [List.append_nil, List.nil_append, replayLoop_end hlen (h b (List.prefix_refl b)),
    Nat.add_assoc, replayLoop_more hrun] at hbytes
  cases hbytes
  exact ⟨[], (List.append_nil st).symm, List.not_mem_nil⟩

/-- Fewer bytes than the record of `f` do not hand on `f`. -/
theorem hidden_of_short (hauth : ∀ a ∈ gcm, a.Authentic) {v : Bytes}
    (hlen : v.length < recordLen gcm f)
    (hrun : replayLoop gcm collect slowly fuel i [] v st count = some res) :
    ∃ more, res.state = st ++ more ∧ f ∉ more := by
  obtain ⟨more, hstate, hmore⟩ := replayLoop_sizes hauth hrun
  refine ⟨more, hstate, fun hf => ?_⟩
  have hle := hmore f hf
  simp only [List.length_nil, Nat.zero_add] at hle
  omega

/-- Nor do they behind a record of another length. -/
theorem hidden_behind (hauth : ∀ a ∈ gcm, a.Authentic) {u v : Bytes} {a : Option Bytes}
    (hu : (recordCutter gcm).Whole u a) (hsize : u.length ≤ replayBufSize)
    (hne : u.length ≠ recordLen gcm f) (hlen : v.length < recordLen gcm f)
    (hrun : replayLoop gcm collect slowly fuel i [] (u ++ v) st count = some res) :
    ∃ more, res.state = st ++ more ∧ f ∉ more := by
  have hmore := replayLoop_more hrun u.length
  rw [replayLoop_record (fun _ _ => rfl) hu hsize, handleAll_collect] at hmore
  obtain ⟨more, hstate, hf⟩ := hidden_of_short hauth hlen hmore
  refine ⟨a.toList ++ more, by rw [hstate, List.append_assoc], ?_⟩
  intro hmem
  rcases List.mem_append.mp hmem with hmem | hmem
  · obtain rfl : a = some f := Option.mem_toList.mp hmem
    exact hne (whole_recordLen hauth hu).symm
  · exact hf hmem

variable {record r last : Bytes} (hrecord : (recordCutter gcm).Whole record (some last))
  (hsize : record.length ≤ replayBufSize) (hr : (recordCutter gcm).Whole r (some f))
  {k : Nat} (hk : k < record.length)
  (hrun : replayLoop gcm collect slowly fuel i [] (record.take k ++ r) st count = some res)

include hrecord hsize hr hk hrun

/-- When the length of the torn record is there, it takes in what follows. -/
theorem torn_body_hides (hauth : ∀ a ∈ gcm, a.Authentic) (hne : record.length ≠ r.length)
    (h4 : 4 ≤ k) : ∃ more, res.state = st ++ more ∧ f ∉ more := by
  obtain ⟨hmin, hhead, hmax, -⟩ := whole_header hrecord
  have hf := whole_recordLen hauth hr
  have hbuf : replayBufSize = 65536 := rfl
  have hlen : (record.take k ++ r).length = k + r.length := by
    rw [List.length_append, List.length_take]
    omega
  have hsame : slice (record.take k ++ r) 0 4 = slice record 0 4 := by
    rw [slice_append_of_le (by rw [List.length_take]; omega)]
    simp [slice, List.take_take, Nat.min_eq_left h4]
  by_cases hshort : k + r.length < record.length
  · have htorn : (recordCutter gcm).Torn (record.take k ++ r) :=
      torn_of_header (by rw [hsame]; omega) (by rw [hsame]; omega) (by rw [hsame, hlen]; omega)
    exact hidden_of_torn htorn (by omega) hrun
  · rw [← List.take_append_drop record.length (record.take k ++ r)] at hrun
    have hulen : ((record.take k ++ r).take record.length).length = record.length := by
      rw [List.length_take, hlen]
      omega
    have hvlen : ((record.take k ++ r).drop record.length).length < recordLen gcm f := by
      rw [List.length_drop, hlen]
      omega
    have huhead : slice ((record.take k ++ r).take record.length) 0 4 = slice record 0 4 := by
      rw [← hsame]
      simp [slice, List.take_take, Nat.min_eq_left (Nat.le_of_lt hmin)]
    have hu : (recordCutter gcm).Whole ((record.take k ++ r).take record.length) _ :=
      whole_of_header (by rw [huhead]; omega) (by rw [huhead]; omega)
        (by rw [huhead, hulen]; omega)
    exact hidden_behind hauth hu (by omega) (by omega) hvlen hrun

/-- With fewer bytes of the length its digits are completed by those of the next
length, and the sum is too large for the file or for a record. -/
theorem torn_digits_hide (hauth : ∀ a ∈ gcm, a.Authentic) (hsmall : r.length ≤ 163) (hpos : 0 < k)
    (h4 : k < 4) : ∃ more, res.state = st ++ more ∧ f ∉ more := by
  obtain ⟨hmin, -, -, -⟩ := whole_header hrecord
  obtain ⟨hmin', hhead', -, -⟩ := whole_header hr
  have hf := whole_recordLen hauth hr
  have hbuf : replayBufSize = 65536 := rfl
  have hrange : maxRecordLen = 10485760 := rfl
  obtain ⟨x, body, rfl, hx⟩ := small_header (Nat.le_of_lt hmin') (by omega)
  have hxpos : 0 < x.toNat ∧ x.toNat ≤ 159 ∧ body.length = x.toNat := by
    simp only [List.length_cons] at hhead' hsmall hmin'
    omega
  obtain ⟨a, b, c, d, rest, rfl⟩ := four_bytes (Nat.le_of_lt hmin)
  have ha := a.toNat_lt
  have hb := b.toNat_lt
  have hc := c.toNat_lt
  obtain rfl | rfl | rfl : k = 1 ∨ k = 2 ∨ k = 3 := by omega
  · have hval : le (slice (a :: x :: 0 :: 0 :: 0 :: body) 0 4) = a.toNat + 256 * x.toNat := by
      simp [slice, le]
    have htorn : (recordCutter gcm).Torn (a :: x :: 0 :: 0 :: 0 :: body) :=
      torn_of_header (by omega) (by omega) (by simp only [List.length_cons]; omega)
    exact hidden_of_torn htorn (by simp only [List.length_cons]; omega) hrun
  · have hval : le (slice (a :: b :: x :: 0 :: 0 :: 0 :: body) 0 4) =
        a.toNat + 256 * (b.toNat + 256 * x.toNat) := by
      simp [slice, le]
    have htorn : (recordCutter gcm).Torn (a :: b :: x :: 0 :: 0 :: 0 :: body) :=
      torn_of_header (by omega) (by omega) (by simp only [List.length_cons]; omega)
    exact hidden_of_torn htorn (by simp only [List.length_cons]; omega) hrun
  · have hval : le (slice [a, b, c, x] 0 4) =
        a.toNat + 256 * (b.toNat + 256 * (c.toNat + 256 * x.toNat)) := by
      simp [slice, le]
    have hthree := replayLoop_bytes gcm collect [a, b, c] [] (torn_short (by simp))
      (by simp only [List.nil_append, List.length_cons, List.length_nil]; omega)
      (fuel + 1) i (x :: 0 :: 0 :: 0 :: body) st count
    have hskip := decodeReplayChunk_skip gcm collect (b := [a, b, c, x]) rfl (by omega) st count
    have hfour := replayLoop_byte [a, b, c]
      (by simp only [List.length_cons, List.length_nil]; omega) hskip rfl fuel (i + 3)
      (0 :: 0 :: 0 :: body)
    have hrest := (hthree.trans hfour).symm.trans (replayLoop_more hrun 4)
    exact hidden_of_short hauth (by rw [hf]; simp) hrest

end Hidden

/-! ## Crash and append -/

section Crash

variable (hkey : key = [] ∨ key.length = 32) (noncePrefix noncePrefix' : UInt32)
  {frames : List Bytes} {last : Bytes} (hframes : ∀ f ∈ frames, Fits key f) (hlast : Fits key last)
  {k : Nat} (hk : k < (if key = [] then 4 else 32) + last.length)

include hkey hframes hlast

theorem readable_nothing_left {later : List Bytes} (hlater : ∀ f ∈ later, Fits key f) :
    Readable newGCM key noncePrefix noncePrefix' frames last 0 later := by
  obtain ⟨items, items', record, rfl, rfl, hitems, -, -, hiff⟩ :=
    readable_iff newGCM hkey noncePrefix noncePrefix' hframes hlast _ hlater 0
  rw [hiff, List.take_zero, List.nil_append, ← List.flatten_append, ← List.map_append,
    ← List.map_append, ← List.append_nil (List.flatten _)]
  exact replays_torn (cipherFor_ok newGCM hkey) hitems Cutter.torn_nil (by decide)

include hk

theorem readable_nothing_behind :
    Readable newGCM key noncePrefix noncePrefix' frames last k [] := by
  obtain ⟨items, items', record, rfl, hitems', hitems, hrecord, hlen, hiff⟩ :=
    readable_iff newGCM hkey noncePrefix noncePrefix' hframes hlast [] (by simp) k
  obtain rfl : items' = [] := List.map_eq_nil_iff.mp hitems'
  have hbuf : replayBufSize = 65536 := rfl
  have hsize := hlast.2
  rw [hiff, List.append_nil]
  rw [List.append_nil] at hitems
  refine replays_torn (cipherFor_ok newGCM hkey) hitems ?_ ?_
  · simpa using hrecord.torn_take (k := k) (by omega)
  · simp only [List.map_nil, List.flatten_nil, List.append_nil, List.length_take]
    omega

/-- A short frame written behind a torn record is not handed on. -/
theorem not_readable (hauth : ∀ key, (newGCM key).Authentic) (hpos : 0 < k) {f : Bytes}
    (hf : Fits key f) (hsmall : (if key = [] then 4 else 32) + f.length ≤ 163)
    (hne : f.length ≠ last.length) :
    ¬ Readable newGCM key noncePrefix noncePrefix' frames last k [f] := by
  obtain ⟨items, items', record, rfl, hitems', hitems, hrecord, hlen, hiff⟩ :=
    readable_iff newGCM hkey noncePrefix noncePrefix' hframes hlast [f] (by simpa using hf) k
  rw [hiff]
  intro hreplays
  have hgcm : ∀ a ∈ (if key = [] then none else some (newGCM key)), a.Authentic := by
    intro a ha
    split at ha
    · cases ha
    · cases ha
      exact hauth key
  have hoverhead : ∀ g, recordLen (if key = [] then none else some (newGCM key)) g =
      (if key = [] then 4 else 32) + g.length := by
    intro g
    split <;> rfl
  have hcipher := cipherFor_ok newGCM hkey
  generalize (if key = [] then none else some (newGCM key)) = gcm at *
  obtain ⟨r, rfl⟩ : ∃ r, items' = [(r, f)] := by
    obtain ⟨⟨r, f'⟩, rest, rfl, rfl, hrest⟩ := List.map_eq_cons_iff.mp hitems'
    exact ⟨r, by rw [List.map_eq_nil_iff.mp hrest]⟩
  have hr : (recordCutter gcm).Whole r (some f) := (hitems (r, f) (by simp)).1
  have hrlen := whole_recordLen hgcm hr
  obtain ⟨fuel, hrun⟩ := hreplays (List Bytes) Unit collect [] slowly fun _ _ => rfl
  have htail : (List.map (·.1) [(r, f)]).flatten = r := by simp
  rw [htail, replay] at hrun
  have hfile : ¬ ((items.map (·.1)).flatten ++ (record.take k ++ r)).length = 0 := by
    have hrpos := hr.length_pos
    simp only [List.length_append]
    omega
  rw [if_neg hfile, newReplayCipher, hcipher] at hrun
  have hmore := replayLoop_more hrun (items.map (·.1)).flatten.length
  have hcollect : ∀ st f, (collect st f).2 = none := fun _ _ => rfl
  have hfront : ∀ p ∈ items, (recordCutter gcm).Whole p.1 (some p.2) ∧ p.1.length ≤ replayBufSize :=
    fun p hp => hitems p (List.mem_append_left _ hp)
  obtain ⟨j, hj⟩ := replayLoop_items hcollect hfront fuel 0 (record.take k ++ r) [] 0
  rw [hj, handleAll_collect, handleAll_collect] at hmore
  have hbuf : replayBufSize = 65536 := rfl
  have hsize := hlast.2
  have hlens := hoverhead f
  obtain ⟨more, hstate, hnot⟩ : ∃ more, _ = _ ++ more ∧ f ∉ more := by
    by_cases h4 : 4 ≤ k
    · exact torn_body_hides hrecord (by omega) hr (by omega) hmore hgcm (by omega) h4
    · exact torn_digits_hide hrecord (by omega) hr (by omega) hmore hgcm (by omega) hpos (by omega)
  have hmem : more = [f] := by simpa using hstate.symm
  exact hnot (by simp [hmem])

end Crash

/-- **Torn logs.** A crash inside the last record leaves a log from which the
earlier frames are replayed. Whatever is appended to it can be replayed as well
exactly when the crash kept nothing of the torn record. -/
theorem torn_log_readable_iff (newGCM : Bytes → Aead) (hauth : ∀ key, (newGCM key).Authentic)
    (key : Bytes) (hkey : key = [] ∨ key.length = 32) (noncePrefix noncePrefix' : UInt32)
    (frames : List Bytes) (hframes : ∀ f ∈ frames, Fits key f) (last : Bytes)
    (hlast : Fits key last) (k : Nat) (hk : k < (if key = [] then 4 else 32) + last.length) :
    Readable newGCM key noncePrefix noncePrefix' frames last k [] ∧
      ((∀ later, (∀ f ∈ later, Fits key f) →
        Readable newGCM key noncePrefix noncePrefix' frames last k later) ↔ k = 0) := by
  refine ⟨readable_nothing_behind hkey noncePrefix noncePrefix' hframes hlast hk, ?_, ?_⟩
  · intro hall
    by_contra hne
    -- a frame of one byte, or of two if the torn one has one
    have hsmall : ∃ f : Bytes, Fits key f ∧ (if key = [] then 4 else 32) + f.length ≤ 163 ∧
        f.length ≠ last.length := by
      by_cases hone : last.length = 1
      · refine ⟨[0, 0], ⟨by simp, ?_⟩, ?_, by simp [hone]⟩ <;> split <;> decide
      · refine ⟨[0], ⟨by simp, ?_⟩, ?_, by simpa using Ne.symm hone⟩ <;> split <;> decide
    obtain ⟨f, hf, hsize, hdiff⟩ := hsmall
    exact not_readable hkey noncePrefix noncePrefix' hframes hlast hk hauth (by omega) hf hsize hdiff
      (hall [f] (by simpa using hf))
  · rintro rfl later hlater
    exact readable_nothing_left hkey noncePrefix noncePrefix' hframes hlast hlater

theorem tagged_length (_ plain : Bytes) :
    (plain ++ List.replicate 16 0).length = plain.length + 16 := by
  rw [List.length_append, List.length_replicate]

/-- No cipher, but tags are checked: they are sixteen zeros. -/
def taggedAead : Aead where
  sealBytes := fun _ plain => plain ++ List.replicate 16 0
  openBytes := fun _ cipher =>
    if cipher.drop (cipher.length - 16) = List.replicate 16 0 then
      some (cipher.take (cipher.length - 16))
    else none
  open_seal := by intro _ plain; simp
  seal_length := tagged_length

theorem taggedAead_authentic : taggedAead.Authentic := by
  intro nonce cipher plain h
  obtain ⟨htag, hplain⟩ := Option.ite_none_right_eq_some.mp h
  cases hplain
  show cipher = cipher.take (cipher.length - 16) ++ List.replicate 16 0
  rw [← htag, List.take_append_drop]

/-- A publish to `a` and a publish to `bc`, as they are logged. -/
def publishA : Bytes := [0x1F, 1, 0, 0, 0, 0, 1, 0, 0, 0, 0x61]
def publishBC : Bytes := [0x1F, 1, 0, 0, 0, 0, 2, 0, 0, 0, 0x62, 0x63]

theorem torn_publish_readable :
    Readable (fun _ => taggedAead) (List.replicate 32 7) 1 2 [publishBC] publishA 20 [] ∧
      ¬ ∀ later, (∀ f ∈ later, Fits (List.replicate 32 7) f) →
        Readable (fun _ => taggedAead) (List.replicate 32 7) 1 2 [publishBC] publishA 20 later := by
  obtain ⟨hreadable, hiff⟩ := torn_log_readable_iff (fun _ => taggedAead)
    (fun _ => taggedAead_authentic) (List.replicate 32 7) (.inr rfl) 1 2 [publishBC] (by decide)
    publishA (by decide) 20 (by decide)
  exact ⟨hreadable, fun hall => absurd (hiff.mp hall) (by decide)⟩

/-- Five bytes of a record of eleven bytes are kept: the record that is written
behind them is not replayed. -/
theorem torn_record_hides_next :
    ¬ ∀ (newGCM : Bytes → Aead), (∀ key, (newGCM key).Authentic) → ∀ key : Bytes,
      key = [] ∨ key.length = 32 → ∀ (noncePrefix noncePrefix' : UInt32) (frames : List Bytes),
      (∀ f ∈ frames, Fits key f) → ∀ last, Fits key last →
      ∀ k < (if key = [] then 4 else 32) + last.length, ∀ later, (∀ f ∈ later, Fits key f) →
        Readable newGCM key noncePrefix noncePrefix' frames last k later := by
  intro h
  have hnot : ¬ Readable (fun _ => taggedAead) [] 0 0 [] publishA 5 [publishBC] :=
    not_readable (.inl rfl) 0 0 (by simp) (by decide) (by decide) (fun _ => taggedAead_authentic)
      (by decide) (by decide) (by decide) (by decide)
  exact hnot (h _ (fun _ => taggedAead_authentic) [] (.inl rfl) 0 0 [] (by simp) publishA (by decide)
    5 (by decide) [publishBC] (by decide))

end Aqueduct.Aal
