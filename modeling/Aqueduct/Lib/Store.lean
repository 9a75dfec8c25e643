import Aqueduct.Lib.Bytes

/-!
An explicit store of byte buffers. A slice names a range of one buffer and
owns nothing: what it reads changes with every write to that buffer. A write
outside the range, or to another buffer, leaves it alone (`read_write`).
-/

namespace ByteStr

abbrev Store := Nat → Bytes

/-- The bytes `[start, start + len)` of buffer `buf`. -/
structure Slice where
  buf : Nat
  start : Nat
  len : Nat
  deriving DecidableEq, Repr

/-- `bytes` copied into buffer `buf` from position `start` on. -/
structure Write where
  buf : Nat
  start : Nat
  bytes : Bytes
  deriving DecidableEq, Repr

/-- Copies into a buffer without changing its length. -/
def overwrite (b : Bytes) (start : Nat) (bytes : Bytes) : Bytes :=
  b.mapIdx fun k x => if start ≤ k then bytes.getD (k - start) x else x

namespace Store

def read (st : Store) (s : Slice) : Bytes := slice (st s.buf) s.start s.len

def set (st : Store) (buf : Nat) (bytes : Bytes) : Store :=
  fun k => if k = buf then bytes else st k

def write (st : Store) (w : Write) : Store :=
  st.set w.buf (overwrite (st w.buf) w.start w.bytes)

end Store

/-- The write touches no byte of the slice. -/
def Write.Avoids (w : Write) (s : Slice) : Prop :=
  w.buf = s.buf → w.start + w.bytes.length ≤ s.start ∨ s.start + s.len ≤ w.start

instance (w : Write) (s : Slice) : Decidable (w.Avoids s) :=
  inferInstanceAs (Decidable (_ → _))

theorem slice_overwrite (b : Bytes) {start i n : Nat} {bytes : Bytes}
    (h : start + bytes.length ≤ i ∨ i + n ≤ start) :
    slice (overwrite b start bytes) i n = slice b i n := by
  apply List.ext_getElem?
  intro k
  unfold slice overwrite
  rw [List.getElem?_take, List.getElem?_take]
  by_cases hk : k < n
  · rw [if_pos hk, if_pos hk, List.getElem?_drop, List.getElem?_drop, List.getElem?_mapIdx]
    cases hb : b[i + k]? with
    | none => rfl
    | some x =>
      by_cases hs : start ≤ i + k
      · have hlen : bytes.length ≤ i + k - start := by omega
        simp [hs, List.getElem?_eq_none hlen]
      · simp [hs]
  · rw [if_neg hk, if_neg hk]

theorem Store.read_write (st : Store) {w : Write} {s : Slice} (h : w.Avoids s) :
    (st.write w).read s = st.read s := by
  unfold Store.read Store.write Store.set
  by_cases hb : s.buf = w.buf
  · rw [if_pos hb, slice_overwrite _ (h hb.symm), hb]
  · rw [if_neg hb]

theorem Store.read_set (st : Store) {buf : Nat} {bytes : Bytes} {s : Slice} (h : s.buf ≠ buf) :
    (st.set buf bytes).read s = st.read s := by
  unfold Store.read Store.set
  rw [if_neg h]

end ByteStr
