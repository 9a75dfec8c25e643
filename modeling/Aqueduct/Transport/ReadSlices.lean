import Aqueduct.Transport.Mediation
import Aqueduct.Transport.Reassembly

/-!
The slices that the read loop hands to `stream.Read`. The loop takes the buffer
for full when its data reaches the capacity, but reads into `buf[off:]`, which
ends at the length. `GetBuf` returns a pooled buffer at the length asked for,
whatever its capacity, so a buffer can have no room left and still not count as
full: the loop then reads into an empty slice over and over.

`observeReads` is the read loop that also reports the sizes of these slices. They
are positive as long as length and capacity agree, or when no partial frame fills
the length.
-/

namespace Aqueduct.Transport

open ByteStr Aqueduct.Protocol Aqueduct.Broker

def LoopState.room (st : LoopState) : Nat := st.len - st.data.length

/-- The read loop with the sizes of the slices it reads into, the last one being
that of the read after all chunks. -/
def observeReads (b : Broker) (stream : Stream) (clientID : Bytes) :
    LoopState → List Bytes → List Handled × List Nat
  | st, [] =>
    match (beforeRead b stream clientID st).2 with
    | none => ([], [])
    | some st' => ([], [st'.room])
  | st, chunk :: chunks =>
    let (hs, st') := beforeRead b stream clientID st
    match st' with
    | none => (hs, [])
    | some st' =>
      if chunk.length > st'.room then (hs, [st'.room])
      else if chunk = [] then
        let (rest, sizes) := observeReads b stream clientID st' chunks
        (hs ++ rest, st'.room :: sizes)
      else
        match dispatchFrames b stream clientID (st'.data ++ chunk) st'.decompressedBytes with
        | (hs', .error _, _) => (hs ++ hs', [st'.room])
        | (hs', .ok data, total) =>
          let (rest, sizes) := observeReads b stream clientID
            { st' with data := data, decompressedBytes := total } chunks
          (hs ++ hs' ++ rest, st'.room :: sizes)

/-- Observing the reads changes nothing. -/
theorem observeReads_fst (b : Broker) (stream : Stream) (clientID : Bytes) (st : LoopState)
    (chunks : List Bytes) : (observeReads b stream clientID st chunks).1 =
      runStreamReadLoop b stream clientID st chunks := by
  induction chunks generalizing st with
  | nil =>
    rw [observeReads]
    split <;> rfl
  | cons chunk chunks ih =>
    rw [observeReads, runStreamReadLoop]
    dsimp only
    cases (beforeRead b stream clientID st).2 with
    | none => rfl
    | some st' =>
      have hroom : st'.len - st'.data.length = st'.room := rfl
      dsimp only
      rw [hroom]
      by_cases hlong : chunk.length > st'.room
      · rw [if_pos hlong, if_pos hlong]
      · rw [if_neg hlong, if_neg hlong]
        by_cases hempty : chunk = []
        · rw [if_pos hempty, if_pos hempty, ih]
        · rw [if_neg hempty, if_neg hempty]
          cases dispatchFrames b stream clientID (st'.data ++ chunk) st'.decompressedBytes with
          | mk hs out =>
            obtain ⟨out, total⟩ := out
            cases out with
            | error e => rfl
            | ok data =>
              dsimp only
              rw [ih]

variable {b : Broker} {stream : Stream} {clientID : Bytes} {st st' : LoopState}
  {hs : List Handled} {total : Int}

theorem observeReads_nil (hbefore : beforeRead b stream clientID st = (hs, some st')) :
    (observeReads b stream clientID st []).2 = [st'.room] := by
  rw [observeReads, hbefore]

theorem observeReads_cons {hs' : List Handled} {chunk data : Bytes}
    (hbefore : beforeRead b stream clientID st = (hs, some st')) (hne : chunk ≠ [])
    (hfits : chunk.length ≤ st'.room)
    (hdispatch : dispatchFrames b stream clientID (st'.data ++ chunk) st'.decompressedBytes =
      (hs', .ok data, total)) (chunks : List Bytes) :
    (observeReads b stream clientID st (chunk :: chunks)).2 = st'.room ::
      (observeReads b stream clientID { st' with data := data, decompressedBytes := total }
        chunks).2 := by
  rw [observeReads, hbefore]
  dsimp only
  rw [if_neg (Nat.not_lt.mpr hfits), if_neg hne, hdispatch]

/-! ## What is left after a dispatch -/

/-- A partial frame is shorter than the largest frame that is let in. -/
theorem prepareFrame_incomplete (hmax : headerSize ≤ b.maxBufSize) {unread : Bytes} {t t' : Int}
    (h : prepareFrame b clientID unread t = (.incomplete, t')) :
    unread.length < min b.maxBufSize (2 ^ 32 + 9) := by
  have hdeclared := (payloadLenAt unread).toNat_lt
  unfold prepareFrame at h
  unfold headerSize at hmax h
  split at h
  · omega
  · dsimp only at h
    split at h
    · cases h
    · split at h
      · omega
      · split at h
        · cases h
        · unfold admitFrame at h
          split at h
          · cases h
          · cases h
          · split at h <;> cases h

/-- What a dispatch leaves is a partial frame. -/
theorem dispatchLoop_rest (hmax : headerSize ≤ b.maxBufSize) {fuel : Nat} {unread : Bytes}
    (hfuel : unread.length ≤ fuel) {total' : Int} {rest : Bytes}
    (h : dispatchLoop b stream clientID fuel unread total = (hs, .ok rest, total')) :
    rest.length ≤ unread.length ∧ rest.length < min b.maxBufSize (2 ^ 32 + 9) := by
  have hnil : ([] : Bytes).length < min b.maxBufSize (2 ^ 32 + 9) := by
    unfold headerSize at hmax
    rw [List.length_nil]
    omega
  induction fuel generalizing unread total hs with
  | zero =>
    cases h
    rw [List.eq_nil_of_length_eq_zero (Nat.le_zero.mp hfuel)]
    exact ⟨Nat.le_refl _, hnil⟩
  | succ fuel ih =>
    unfold dispatchLoop at h
    split at h
    · cases h
      exact ⟨Nat.zero_le _, hnil⟩
    · split at h
      · next hincomplete =>
        cases h
        exact ⟨Nat.le_refl _, prepareFrame_incomplete hmax hincomplete⟩
      · cases h
      · next hready =>
        have hsize := (prepareFrame_handedOn hready).size
        unfold headerSize at hsize
        obtain ⟨hle, hlt⟩ := ih (by rw [List.length_drop]; omega) (Prod.ext rfl (Prod.mk.inj h).2)
        rw [List.length_drop] at hle
        exact ⟨by omega, hlt⟩

theorem dispatchFrames_rest (hmax : headerSize ≤ b.maxBufSize) {buf : Bytes} {total' : Int}
    {rest : Bytes} (h : dispatchFrames b stream clientID buf total = (hs, .ok rest, total')) :
    rest.length ≤ buf.length ∧ rest.length < min b.maxBufSize (2 ^ 32 + 9) :=
  dispatchLoop_rest hmax (Nat.le_refl _) h

/-! ## Invariants of the loop -/

/-- If the loop keeps `I` and a state with `I` has room before a read, then
every slice is positive. -/
theorem observeReads_pos {I : LoopState → Prop}
    (hbefore : ∀ st st', I st → (beforeRead b stream clientID st).2 = some st' →
      I st' ∧ 0 < st'.room) (hread : ∀ st chunk hs data total, I st → chunk.length ≤ st.room →
      dispatchFrames b stream clientID (st.data ++ chunk) st.decompressedBytes =
        (hs, .ok data, total) → I { st with data := data, decompressedBytes := total }) (hst : I st)
    (chunks : List Bytes) : ∀ n ∈ (observeReads b stream clientID st chunks).2, 0 < n := by
  induction chunks generalizing st with
  | nil =>
    rw [observeReads]
    cases hst' : (beforeRead b stream clientID st).2 with
    | none => exact fun n hn => absurd hn List.not_mem_nil
    | some st' => exact List.forall_mem_singleton.mpr (hbefore st st' hst hst').2
  | cons chunk chunks ih =>
    rw [observeReads]
    dsimp only
    cases hst' : (beforeRead b stream clientID st).2 with
    | none => exact fun n hn => absurd hn List.not_mem_nil
    | some st' =>
      obtain ⟨hkept, hroom⟩ := hbefore st st' hst hst'
      dsimp only
      split
      · exact List.forall_mem_singleton.mpr hroom
      · next hfits =>
        split
        · exact List.forall_mem_cons.mpr ⟨hroom, ih hkept⟩
        · split
          · exact List.forall_mem_singleton.mpr hroom
          · next hdispatch =>
            have hnext := hread st' chunk _ _ _ hkept (Nat.le_of_not_lt hfits) hdispatch
            exact List.forall_mem_cons.mpr ⟨hroom, ih hnext⟩

/-- The whole capacity is in use. -/
structure Extended (st : LoopState) : Prop where
  full : st.len = st.cap
  fits : st.data.length ≤ st.cap
  pos : 0 < st.cap

theorem Extended.beforeRead (hmax : headerSize ≤ b.maxBufSize) (h : Extended st)
    (hst' : (beforeRead b stream clientID st).2 = some st') : Extended st' ∧ 0 < st'.room := by
  obtain ⟨hfull, hfits, hpos⟩ := h
  unfold Transport.beforeRead at hst'
  split at hst'
  · unfold drainAndMaybeGrow at hst'
    split at hst'
    · cases hst'
    · next hdispatch =>
      have hle := (dispatchFrames_rest hmax hdispatch).1
      split at hst'
      · cases hst'
        refine ⟨⟨hfull, ?_, hpos⟩, ?_⟩
        · dsimp only
          omega
        · unfold LoopState.room
          dsimp only
          omega
      · split at hst'
        · cases hst'
        · cases hst'
          refine ⟨⟨rfl, ?_, ?_⟩, ?_⟩
          · dsimp only
            omega
          · dsimp only
            omega
          · unfold LoopState.room
            dsimp only
            omega
  · cases hst'
    refine ⟨⟨hfull, hfits, hpos⟩, ?_⟩
    unfold LoopState.room
    omega

theorem Extended.read (hmax : headerSize ≤ b.maxBufSize) {chunk data : Bytes} (h : Extended st)
    (hchunk : chunk.length ≤ st.room)
    (hdispatch : dispatchFrames b stream clientID (st.data ++ chunk) st.decompressedBytes =
      (hs, .ok data, total)) : Extended { st with data := data, decompressedBytes := total } := by
  obtain ⟨hfull, hfits, hpos⟩ := h
  have hle := (dispatchFrames_rest hmax hdispatch).1
  rw [List.length_append] at hle
  unfold LoopState.room at hchunk
  refine ⟨hfull, ?_, hpos⟩
  dsimp only
  omega

/-- The length is one that no partial frame reaches. -/
structure Roomy (b : Broker) (st : LoopState) : Prop where
  bound : min b.maxBufSize (2 ^ 32 + 9) ≤ st.len
  len_le : st.len ≤ st.cap
  partialFrame : st.data.length < st.len

theorem Roomy.beforeRead (h : Roomy b st) (hst' : (beforeRead b stream clientID st).2 = some st') :
    Roomy b st' ∧ 0 < st'.room := by
  have hlt := h.partialFrame
  have hle := h.len_le
  unfold Transport.beforeRead at hst'
  rw [if_neg (by omega)] at hst'
  cases hst'
  refine ⟨h, ?_⟩
  unfold LoopState.room
  omega

theorem Roomy.read (hmax : headerSize ≤ b.maxBufSize) {buf data : Bytes} (h : Roomy b st)
    {total' : Int}
    (hdispatch : dispatchFrames b stream clientID buf total' = (hs, .ok data, total)) :
    Roomy b { st with data := data, decompressedBytes := total } :=
  ⟨h.bound, h.len_le, Nat.lt_of_lt_of_le (dispatchFrames_rest hmax hdispatch).2 h.bound⟩

/-! ## The buffer from the pool -/

theorem startLoop_extended (hread : 0 < b.readBufSize) {pool : ReadBufPool} {i : Nat}
    (hpool : pool.pick i ≤ b.readBufSize) : Extended (startLoop b pool i) := by
  have hcap : (getBuf (pool.pick i) b.readBufSize).2 = b.readBufSize := by
    unfold getBuf
    split
    · rfl
    · dsimp only
      omega
  rw [startLoop, hcap]
  exact ⟨rfl, Nat.zero_le _, hread⟩

theorem startLoop_roomy (hread : 0 < b.readBufSize) (pool : ReadBufPool) (i : Nat)
    (hbound : min b.maxBufSize (2 ^ 32 + 9) ≤ b.readBufSize) : Roomy b (startLoop b pool i) := by
  refine ⟨hbound, ?_, hread⟩
  unfold startLoop initialLoop getBuf
  dsimp only
  split
  · exact Nat.le_refl _
  · dsimp only
    omega

theorem startLoop_of_lt {pool : ReadBufPool} {i : Nat} (hpool : b.readBufSize < pool.pick i) :
    startLoop b pool i = ⟨[], b.readBufSize, pool.pick i, 0⟩ := by
  rw [startLoop, getBuf, if_neg (by omega)]
  rfl

/-! ## A partial frame that fills the length -/

/-- The first `n` bytes of a frame of `n + 1` bytes. -/
def allButOne (n : Nat) : Bytes := toLE 6 0 ++ toLE 4 (n + 1 - headerSize) ++ toLE (n - headerSize) 0

theorem allButOne_length {n : Nat} (hn : headerSize ≤ n) : (allButOne n).length = n := by
  unfold allButOne
  rw [List.length_append, List.length_append, toLE_length, toLE_length, toLE_length]
  unfold headerSize at hn ⊢
  omega

theorem allButOne_ne_nil {n : Nat} (hn : headerSize ≤ n) : allButOne n ≠ [] := by
  refine List.ne_nil_of_length_pos ?_
  rw [allButOne_length hn]
  exact Nat.lt_of_lt_of_le (by decide) hn

theorem dispatchFrames_allButOne {n : Nat} (hn : headerSize ≤ n)
    (hbound : n < min b.maxBufSize (2 ^ 32 + 9)) (stream : Stream) (clientID : Bytes) (total : Int) :
    dispatchFrames b stream clientID (allButOne n) total = ([], .ok (allButOne n), total) := by
  have hlen := allButOne_length hn
  have hne := allButOne_ne_nil hn
  have hdeclared : (payloadLenAt (allButOne n)).toNat = n + 1 - headerSize := by
    rw [payloadLenAt_toNat (by omega), allButOne, List.append_assoc,
      show (6 : Nat) = 6 + 0 from rfl, slice_append_right (toLE_length 6 0),
      slice_append_left (toLE_length 4 _), le_toLE]
    unfold headerSize
    omega
  have hincomplete : prepareFrame b clientID (allButOne n) total = (.incomplete, total) := by
    unfold prepareFrame
    rw [if_neg (by omega)]
    dsimp only
    rw [hdeclared, hlen, if_neg (by omega), if_pos (by omega)]
  unfold dispatchFrames
  obtain ⟨fuel, hfuel⟩ := Nat.exists_eq_succ_of_ne_zero (mt List.eq_nil_of_length_eq_zero hne)
  rw [hfuel, dispatchLoop, if_neg hne, hincomplete]

/-- After that the loop asks for nothing. -/
theorem observeReads_allButOne {n cap : Nat} (hn : headerSize ≤ n)
    (hbound : n < min b.maxBufSize (2 ^ 32 + 9)) (hcap : n < cap) (stream : Stream)
    (clientID : Bytes) :
    (observeReads b stream clientID ⟨[], n, cap, 0⟩ [allButOne n]).2 = [n, 0] := by
  have hlen := allButOne_length hn
  have hfirst : beforeRead b stream clientID ⟨[], n, cap, 0⟩ = ([], some ⟨[], n, cap, 0⟩) := by
    refine if_neg ?_
    dsimp only [List.length_nil]
    omega
  have hsecond : beforeRead b stream clientID ⟨allButOne n, n, cap, 0⟩ =
      ([], some ⟨allButOne n, n, cap, 0⟩) := by
    refine if_neg ?_
    dsimp only
    omega
  have hdispatch := dispatchFrames_allButOne hn hbound stream clientID 0
  rw [observeReads_cons hfirst (allButOne_ne_nil hn) (Nat.le_of_eq hlen) hdispatch,
    observeReads_nil hsecond]
  simp [LoopState.room, hlen]

/-- **The read loop does not spin.** Whatever a stream delivers, each read is
given a slice of positive size, exactly if the pooled buffer is no larger than
the size asked for or no admitted frame is. -/
theorem reads_nonempty_iff {b : Broker} (hread : 10 ≤ b.readBufSize) (hmax : 10 ≤ b.maxBufSize)
    (stream : Stream) (clientID : Bytes) (pool : ReadBufPool) (i : Nat) :
    (∀ chunks, ∀ n ∈ (observeReads b stream clientID (startLoop b pool i) chunks).2, 0 < n) ↔
      pool.pick i ≤ b.readBufSize ∨ min b.maxBufSize (2 ^ 32 + 9) ≤ b.readBufSize := by
  constructor
  · intro hpos
    by_contra hnot
    obtain ⟨hlarge, hsmall⟩ := not_or.mp hnot
    have hsizes := observeReads_allButOne hread (Nat.lt_of_not_le hsmall) (Nat.lt_of_not_le hlarge)
      stream clientID
    rw [← startLoop_of_lt (Nat.lt_of_not_le hlarge)] at hsizes
    exact Nat.lt_irrefl 0 (hpos [allButOne b.readBufSize] 0 (by rw [hsizes]; simp))
  · rintro (hpool | hbound) chunks
    · exact observeReads_pos (fun _ _ h => h.beforeRead hmax)
        (fun _ _ _ _ _ h hchunk hdispatch => h.read hmax hchunk hdispatch)
        (startLoop_extended (by omega) hpool) chunks
    · exact observeReads_pos (fun _ _ h => h.beforeRead)
        (fun _ _ _ _ _ h _ hdispatch => h.read hmax hdispatch)
        (startLoop_roomy (by omega) pool i hbound) chunks

/-- A broker with the default sizes and a pool with a smaller buffer: two reads. -/
theorem default_reads_nonempty :
    (observeReads routedBroker ⟨0, 0⟩ (ascii "c") (startLoop routedBroker ⟨[512], []⟩ 0)
        [serializeFrame cmdPublish 0 (ascii "t")]).2 = [1024, 1024] ∧
      ∀ n ∈ (observeReads routedBroker ⟨0, 0⟩ (ascii "c") (startLoop routedBroker ⟨[512], []⟩ 0)
        [serializeFrame cmdPublish 0 (ascii "t")]).2, 0 < n :=
  ⟨by decide, (reads_nonempty_iff (by decide) (by decide) ⟨0, 0⟩ (ascii "c") ⟨[512], []⟩ 0).mpr
    (.inl (by decide)) [serializeFrame cmdPublish 0 (ascii "t")]⟩

/-- With buffers of ten bytes and a new one from the pool: the header of a
publish fills the length, and the reads after it are given nothing. -/
theorem small_buffer_spins :
    (observeReads { routedBroker with readBufSize := 10 } ⟨0, 0⟩ (ascii "c")
        (startLoop { routedBroker with readBufSize := 10 } ⟨[], []⟩ 0)
        [(serializeFrame cmdPublish 0 (ascii "t")).take 10, [], []]).2 = [10, 0, 0, 0] := by
  decide

end Aqueduct.Transport
