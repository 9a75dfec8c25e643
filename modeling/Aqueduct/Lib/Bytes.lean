import Mathlib.Algebra.Group.Nat.Defs
import Mathlib.Data.List.Basic
import Mathlib.Data.List.Infix

/-!
Byte strings as lists, with the little-endian, search, text and decimal
primitives a wire format needs. Search and splitting follow the usual
left-to-right, non-overlapping convention; text is UTF-8; the decimal readers
report a range error at the first digit that overflows, before looking at what
follows it.
-/

namespace ByteStr

abbrev Bytes := List UInt8

/-- The bytes of a string of one-byte characters. -/
def ascii (s : String) : Bytes := s.toList.map fun c => UInt8.ofNat c.toNat

/-- The window of `n` bytes of `b` at position `i`. -/
def slice (b : Bytes) (i n : Nat) : Bytes := (b.drop i).take n

/-! ## Little-endian integers -/

def le : Bytes → Nat
  | [] => 0
  | b :: bs => b.toNat + 256 * le bs

/-- The low `n` little-endian digits of `v`. -/
def toLE : Nat → Nat → Bytes
  | 0, _ => []
  | n + 1, v => UInt8.ofNat v :: toLE n (v / 256)

@[simp] theorem toLE_length (n v : Nat) : (toLE n v).length = n := by
  induction n generalizing v with
  | zero => rfl
  | succ n ih => simp [toLE, ih]

theorem le_toLE (n v : Nat) (h : v < 256 ^ n) : le (toLE n v) = v := by
  induction n generalizing v with
  | zero => simp at h; simp [toLE, le, h]
  | succ n ih =>
    have hd : v / 256 < 256 ^ n := Nat.div_lt_of_lt_mul (by rwa [Nat.pow_succ, Nat.mul_comm] at h)
    simp only [toLE, le, ih _ hd, UInt8.toNat_ofNat']
    omega

theorem toLE_inj {n v w : Nat} (hv : v < 256 ^ n) (hw : w < 256 ^ n) (h : toLE n v = toLE n w) :
    v = w := by
  rw [← le_toLE n v hv, h, le_toLE n w hw]

theorem le_lt (b : Bytes) : le b < 256 ^ b.length := by
  induction b with
  | nil => simp [le]
  | cons x b ih =>
    have hx := x.toNat_lt
    simp only [le, List.length_cons, Nat.pow_succ]
    omega

theorem toLE_le (b : Bytes) : toLE b.length (le b) = b := by
  induction b with
  | nil => rfl
  | cons x b ih =>
    have hx := x.toNat_lt
    have hd : (x.toNat + 256 * le b) / 256 = le b := by omega
    have hm : UInt8.ofNat (x.toNat + 256 * le b) = x := by
      apply UInt8.toNat_inj.mp
      rw [UInt8.toNat_ofNat']
      omega
    simp only [List.length_cons, toLE, le, hd, hm, ih]

/-! ## Searching -/

def index (sep : Bytes) : Bytes → Option Nat
  | [] => if sep = [] then some 0 else none
  | b :: bs => if sep.isPrefixOf (b :: bs) then some 0 else (index sep bs).map (· + 1)

def indexByte (c : UInt8) : Bytes → Option Nat
  | [] => none
  | b :: bs => if b = c then some 0 else (indexByte c bs).map (· + 1)

/-- At most `n` cuts at successive occurrences of `sep`. -/
def splitN (sep : Bytes) : Nat → Bytes → List Bytes
  | 0, s => [s]
  | n + 1, s =>
    match index sep s with
    | none => [s]
    | some i => s.take i :: splitN sep n (s.drop (i + sep.length))

/-- All parts of `s` between occurrences of a non-empty `sep`. -/
def split (sep s : Bytes) : List Bytes := splitN sep s.length s

theorem index_isSome_iff (sep s : Bytes) : (index sep s).isSome ↔ sep <:+: s := by
  induction s with
  | nil => by_cases h : sep = [] <;> simp [index, h]
  | cons b s ih =>
    by_cases h : sep.isPrefixOf (b :: s)
    · simp [index, h, (List.isPrefixOf_iff_prefix.mp h).isInfix]
    · have hp : ¬ sep <+: b :: s := fun hp => h (List.isPrefixOf_iff_prefix.mpr hp)
      simp only [index, h, Bool.false_eq_true, ↓reduceIte, Option.isSome_map, ih,
        List.infix_cons_iff, hp, false_or]

theorem index_eq_none_iff (sep s : Bytes) : index sep s = none ↔ ¬ sep <:+: s := by
  rw [← index_isSome_iff, Option.isSome_iff_ne_none, not_not]

theorem index_eq_some {sep s : Bytes} {i : Nat} (h : index sep s = some i) :
    sep <+: s.drop i ∧ i + sep.length ≤ s.length := by
  induction s generalizing i with
  | nil =>
    by_cases hs : sep = []
    · simp only [index, hs, ↓reduceIte, Option.some.injEq] at h
      subst h
      simp [hs]
    · simp [index, hs] at h
  | cons b s ih =>
    by_cases hp : sep.isPrefixOf (b :: s)
    · simp only [index, hp, ↓reduceIte, Option.some.injEq] at h
      subst h
      have hp' := List.isPrefixOf_iff_prefix.mp hp
      exact ⟨hp', by simpa using hp'.length_le⟩
    · simp only [index, hp, Bool.false_eq_true, ↓reduceIte, Option.map_eq_some_iff] at h
      obtain ⟨j, hj, rfl⟩ := h
      obtain ⟨h1, h2⟩ := ih hj
      exact ⟨by simpa using h1, by simp only [List.length_cons]; omega⟩

theorem indexByte_eq_some_iff {c : UInt8} {s : Bytes} {i : Nat} :
    indexByte c s = some i ↔ ∃ pre post, s = pre ++ c :: post ∧ c ∉ pre ∧ pre.length = i := by
  induction s generalizing i with
  | nil => simp [indexByte]
  | cons b s ih =>
    by_cases hb : b = c
    · subst hb
      simp only [indexByte, ↓reduceIte, Option.some.injEq]
      constructor
      · rintro rfl
        exact ⟨[], s, rfl, by simp, rfl⟩
      · rintro ⟨pre, post, he, hc, rfl⟩
        cases pre with
        | nil => rfl
        | cons x pre =>
          simp only [List.cons_append, List.cons.injEq] at he
          exact absurd (by simp [he.1]) hc
    · simp only [indexByte, hb, ↓reduceIte, Option.map_eq_some_iff]
      constructor
      · rintro ⟨j, hj, rfl⟩
        obtain ⟨pre, post, rfl, hc, rfl⟩ := ih.mp hj
        exact ⟨b :: pre, post, rfl, by simp [hc, Ne.symm hb], rfl⟩
      · rintro ⟨pre, post, he, hc, rfl⟩
        cases pre with
        | nil =>
          simp only [List.nil_append, List.cons.injEq] at he
          exact absurd he.1 hb
        | cons x pre =>
          simp only [List.cons_append, List.cons.injEq] at he
          simp only [List.mem_cons, not_or] at hc
          exact ⟨pre.length, ih.mpr ⟨pre, post, he.2, hc.2, rfl⟩, rfl⟩

theorem split_head (sep s : Bytes) :
    ∃ rest, split sep s = s.take ((index sep s).getD s.length) :: rest := by
  unfold split
  cases s with
  | nil =>
    refine ⟨[], ?_⟩
    simp [splitN]
  | cons b s =>
    simp only [List.length_cons, splitN]
    cases hi : index sep (b :: s) with
    | none => exact ⟨[], by simp⟩
    | some i => exact ⟨_, rfl⟩

/-! ## Text -/

/-- The Unicode white space characters in UTF-8. -/
def spaces : List Bytes :=
  [[9], [10], [11], [12], [13], [32], [0xC2, 0x85], [0xC2, 0xA0], [0xE1, 0x9A, 0x80]] ++
    (List.range 11).map (fun k => [0xE2, 0x80, 0x80 + UInt8.ofNat k]) ++
    [[0xE2, 0x80, 0xA8], [0xE2, 0x80, 0xA9], [0xE2, 0x80, 0xAF], [0xE2, 0x81, 0x9F],
      [0xE3, 0x80, 0x80]]

/-- Drops the characters in `chars` from the front of a string. -/
def trimLeft (chars : List Bytes) : Nat → Bytes → Bytes
  | 0, s => s
  | fuel + 1, s =>
    match chars.find? (·.isPrefixOf s) with
    | some c => trimLeft chars fuel (s.drop c.length)
    | none => s

/-- Without the white space at both ends. A character is found from its last
byte as well as from its first, so the end is the front of the reversed
string. -/
def trimSpace (s : Bytes) : Bytes :=
  let s := trimLeft spaces s.length s
  (trimLeft (spaces.map List.reverse) s.length s.reverse).reverse

/-- A string in lower case, if that is pure ASCII. Besides the letters A to Z
only U+0130 and U+212A have a lower case in ASCII. -/
def toLowerASCII : Bytes → Option Bytes
  | [] => some []
  | 0xC4 :: 0xB0 :: s => (toLowerASCII s).map (105 :: ·)
  | 0xE2 :: 0x84 :: 0xAA :: s => (toLowerASCII s).map (107 :: ·)
  | c :: s =>
    if c < 128 then (toLowerASCII s).map ((if 65 ≤ c ∧ c ≤ 90 then c + 32 else c) :: ·) else none

/-! ## Decimal numbers -/

inductive NumError
  | syntaxError
  | rangeError
  deriving DecidableEq, Repr

/-- Digits of an unsigned 64-bit number after the value `n` read so far. -/
def parseDigits (n : Nat) : Bytes → Except NumError Nat
  | [] => .ok n
  | c :: cs =>
    if 48 ≤ c ∧ c ≤ 57 then
      if n * 10 + (c.toNat - 48) < 2 ^ 64 then parseDigits (n * 10 + (c.toNat - 48)) cs
      else .error .rangeError
    else .error .syntaxError

def parseUint (s : Bytes) : Except NumError Nat :=
  if s = [] then .error .syntaxError else parseDigits 0 s

/-- Signed 64-bit decimal with an optional sign. -/
def parseInt (s : Bytes) : Except NumError Int :=
  let neg := s.head? = some 45
  let digits := if s.head? = some 45 ∨ s.head? = some 43 then s.tail else s
  match parseUint digits with
  | .error e => .error e
  | .ok un =>
    if neg then if un ≤ 2 ^ 63 then .ok (-un) else .error .rangeError
    else if un < 2 ^ 63 then .ok un else .error .rangeError

/-! ## Slices -/

theorem slice_append_right {a b : Bytes} {i n : Nat} (h : a.length = i) (k : Nat) :
    slice (a ++ b) (i + k) n = slice b k n := by
  subst h
  simp [slice, ← List.drop_drop]

theorem slice_append_left {a b : Bytes} {n : Nat} (h : a.length = n) : slice (a ++ b) 0 n = a := by
  subst h
  simp [slice]

theorem slice_append_of_le {a b : Bytes} {i n : Nat} (h : i + n ≤ a.length) :
    slice (a ++ b) i n = slice a i n := by
  unfold slice
  rw [List.drop_append_of_le_length (by omega), List.take_append_of_le_length]
  rw [List.length_drop]
  omega

theorem slice_length {b : Bytes} {i n : Nat} (h : i + n ≤ b.length) : (slice b i n).length = n := by
  rw [slice, List.length_take, List.length_drop]
  omega

theorem slice_split (b : Bytes) (i k n : Nat) (h : k ≤ n) :
    slice b i k ++ slice b (i + k) (n - k) = slice b i n := by
  unfold slice
  rw [← List.drop_drop]
  have hk : k + (n - k) = n := by omega
  conv_rhs => rw [← hk, List.take_add]

theorem slice_slice (b : Bytes) {i n j m : Nat} (h : j + m ≤ n) :
    slice (slice b i n) j m = slice b (i + j) m := by
  unfold slice
  rw [List.drop_take, List.take_take, List.drop_drop]
  congr 1
  omega

theorem getD_append_add (a b : Bytes) (i : Nat) : (a ++ b).getD (a.length + i) 0 = b.getD i 0 := by
  rw [List.getD_eq_getElem?_getD, List.getElem?_append_right (Nat.le_add_right _ _),
    Nat.add_sub_cancel_left, List.getD_eq_getElem?_getD]

/-! ## Checked accesses

What an access that must not leave the buffer gives: `none` is a fault. -/

def at? (b : Bytes) (i : Nat) : Option UInt8 := b[i]?

def slice? (b : Bytes) (i n : Nat) : Option Bytes :=
  if i + n ≤ b.length then some (slice b i n) else none

/-- `b` with the bytes at `i` overwritten by `xs`. -/
def write? (b : Bytes) (i : Nat) (xs : Bytes) : Option Bytes :=
  if i + xs.length ≤ b.length then some (b.take i ++ (xs ++ b.drop (i + xs.length))) else none

theorem at?_eq {b : Bytes} {i : Nat} (h : i < b.length) : at? b i = some (b.getD i 0) := by
  rw [at?, List.getD_eq_getElem?_getD, List.getElem?_eq_getElem h, Option.getD_some]

theorem slice?_eq {b : Bytes} {i n : Nat} (h : i + n ≤ b.length) :
    slice? b i n = some (slice b i n) :=
  if_pos h

theorem write?_append {done junk xs : Bytes} {i : Nat} (hi : i = done.length)
    (h : xs.length ≤ junk.length) :
    write? (done ++ junk) i xs = some (done ++ xs ++ junk.drop xs.length) := by
  subst hi
  have hfit : done.length + xs.length ≤ (done ++ junk).length := by
    rw [List.length_append]
    omega
  rw [write?, if_pos hfit, List.take_left, List.drop_append, List.drop_eq_nil_of_le (by omega),
    Nat.add_sub_cancel_left, List.nil_append, List.append_assoc]

end ByteStr
