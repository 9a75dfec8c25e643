import Aqueduct.Lib.Bytes

/-!
Decimal texts of numbers, and that the 64-bit readers of `Bytes` read them
back. What a reader has accumulated is `Nat.ofDigitChars` of the digits before
it; the accumulator only grows, so a value in range is in range throughout.
-/

namespace ByteStr

def decimal (n : Nat) : Bytes := (Nat.toDigits 10 n).map fun c => UInt8.ofNat c.toNat

def decimalInt : Int → Bytes
  | .ofNat n => decimal n
  | .negSucc n => 45 :: decimal (n + 1)

/-! ## Digits -/

theorem digit_byte {c : Char} (h : c.isDigit = true) :
    (UInt8.ofNat c.toNat).toNat = c.toNat ∧ 48 ≤ c.toNat ∧ c.toNat ≤ 57 := by
  have hrange : 48 ≤ c.toNat ∧ c.toNat ≤ 57 := Char.isDigit_iff_toNat.mp h
  rw [UInt8.toNat_ofNat']
  omega

theorem isDigit_of_mem {n : Nat} {c : Char} (h : c ∈ Nat.toDigits 10 n) : c.isDigit = true :=
  Nat.isDigit_of_mem_toDigits (by decide) (by decide) h

theorem decimal_ne_nil (n : Nat) : decimal n ≠ [] := by
  simp [decimal]

theorem digit_of_mem_decimal {n : Nat} {b : UInt8} (h : b ∈ decimal n) :
    48 ≤ b.toNat ∧ b.toNat ≤ 57 := by
  obtain ⟨c, hc, rfl⟩ := List.mem_map.mp h
  obtain ⟨hbyte, hrange⟩ := digit_byte (isDigit_of_mem hc)
  rw [hbyte]
  exact hrange

theorem not_mem_decimal {b : UInt8} (h : ¬ (48 ≤ b.toNat ∧ b.toNat ≤ 57)) (n : Nat) :
    b ∉ decimal n :=
  fun hb => h (digit_of_mem_decimal hb)

theorem not_mem_decimalInt {b : UInt8} (h : ¬ (48 ≤ b.toNat ∧ b.toNat ≤ 57)) (hminus : b ≠ 45)
    (i : Int) : b ∉ decimalInt i := by
  cases i with
  | ofNat n => exact not_mem_decimal h n
  | negSucc n => exact List.not_mem_cons_of_ne_of_not_mem hminus (not_mem_decimal h (n + 1))

/-! ## Reading back -/

theorem le_ofDigitChars (cs : List Char) (n : Nat) : n ≤ Nat.ofDigitChars 10 cs n := by
  induction cs generalizing n with
  | nil => exact Nat.le_refl n
  | cons c cs ih =>
    rw [Nat.ofDigitChars_cons]
    exact Nat.le_trans (by omega) (ih _)

theorem parseDigits_map {cs : List Char} (hdigits : ∀ c ∈ cs, c.isDigit = true) {n : Nat}
    (h : Nat.ofDigitChars 10 cs n < 2 ^ 64) :
    parseDigits n (cs.map fun c => UInt8.ofNat c.toNat) = .ok (Nat.ofDigitChars 10 cs n) := by
  induction cs generalizing n with
  | nil => rfl
  | cons c cs ih =>
    obtain ⟨hbyte, hlo, hhi⟩ := digit_byte (hdigits c List.mem_cons_self)
    rw [Nat.ofDigitChars_cons, show '0'.toNat = 48 from rfl, Nat.mul_comm] at h ⊢
    have hnow := Nat.lt_of_le_of_lt (le_ofDigitChars cs (n * 10 + (c.toNat - 48))) h
    have hdigit : 48 ≤ UInt8.ofNat c.toNat ∧ UInt8.ofNat c.toNat ≤ 57 := by
      rw [UInt8.le_iff_toNat_le, UInt8.le_iff_toNat_le, hbyte]
      exact ⟨hlo, hhi⟩
    rw [List.map_cons, parseDigits, if_pos hdigit, hbyte, if_pos hnow]
    exact ih (fun d hd => hdigits d (List.mem_cons_of_mem c hd)) h

theorem parseUint_decimal {n : Nat} (h : n < 2 ^ 64) : parseUint (decimal n) = .ok n := by
  have hvalue : Nat.ofDigitChars 10 (Nat.toDigits 10 n) 0 = n :=
    Nat.ofDigitChars_toDigits (by decide) (by decide)
  have hread : parseDigits 0 ((Nat.toDigits 10 n).map fun c => UInt8.ofNat c.toNat) =
      .ok (Nat.ofDigitChars 10 (Nat.toDigits 10 n) 0) :=
    parseDigits_map (fun c hc => isDigit_of_mem hc) (by rw [hvalue]; exact h)
  rw [parseUint, if_neg (decimal_ne_nil n), decimal, hread, hvalue]

theorem head_decimal {n : Nat} {b : UInt8} (h : (decimal n).head? = some b) :
    b ≠ 45 ∧ b ≠ 43 := by
  have hmem := List.mem_of_mem_head? h
  constructor
  · rintro rfl
    exact not_mem_decimal (by decide) n hmem
  · rintro rfl
    exact not_mem_decimal (by decide) n hmem

theorem parseInt_decimalInt (i : Int64) : parseInt (decimalInt i.toInt) = .ok i.toInt := by
  have hlo := i.le_toInt
  have hhi := i.toInt_lt
  cases hi : i.toInt with
  | ofNat n =>
    rw [hi, Int.ofNat_eq_natCast] at hhi
    have hlt : n < 2 ^ 63 := by omega
    have hread := parseUint_decimal (n := n) (by omega)
    have hunsigned : ∀ b, b = 45 ∨ b = 43 → (decimal n).head? ≠ some b := by
      rintro b hb hhead
      obtain ⟨h45, h43⟩ := head_decimal hhead
      exact hb.elim h45 h43
    simp only [decimalInt, parseInt, hunsigned 45 (.inl rfl), hunsigned 43 (.inr rfl), or_self,
      if_false, hread, hlt, if_true]
    rfl
  | negSucc n =>
    rw [hi, Int.negSucc_eq] at hlo
    have hle : n + 1 ≤ 2 ^ 63 := by omega
    have hread := parseUint_decimal (n := n + 1) (by omega)
    simp only [decimalInt, parseInt, List.head?_cons, List.tail_cons, true_or, if_true, hread, hle]
    rfl

end ByteStr
