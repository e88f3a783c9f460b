import RecordStore.Number.Digits
import Mathlib

/-!
# Digits and the number they spell

`ofNat` and `toNat` are inverse on what `ofNat` writes. A text of digits is told from what follows
it by the first character that is no digit, and it starts with a zero only if it is `0`.
-/

namespace RecordStore.Digits

theorem isDigit_eq (c : Char) : isDigit c = c.isDigit := by
  unfold isDigit Char.isDigit
  rw [Bool.decide_and]
  rfl

/-- A number is written with digits. -/
theorem isDigit_of_mem_ofNat {n : Nat} {c : Char} (h : c ∈ ofNat n) : isDigit c = true := by
  rw [isDigit_eq]
  exact Nat.isDigit_of_mem_toDigits (by decide) (by decide) h

theorem ofNat_ne_nil (n : Nat) : ofNat n ≠ [] := Nat.toDigits_ne_nil

/-- Digits are read as the library reads them. -/
theorem toNat_eq (digits : List Char) : toNat digits = Nat.ofDigitChars 10 digits 0 := by
  unfold toNat
  rw [Nat.ofDigitChars_eq_foldl]
  simp only [Nat.mul_comm]
  rfl

/-- A number is read back from its digits. -/
@[simp] theorem toNat_ofNat (n : Nat) : toNat (ofNat n) = n := by
  rw [toNat_eq]
  exact Nat.ofDigitChars_ten_toDigits

/-- Further digits shift those in front of them. -/
theorem toNat_append (a b : List Char) : toNat (a ++ b) = toNat a * 10 ^ b.length + toNat b := by
  rw [toNat_eq, toNat_eq, toNat_eq, Nat.ofDigitChars_append, Nat.ofDigitChars_eq_ofDigitChars_zero,
    Nat.mul_comm]

@[simp] theorem toNat_zeros (count : Nat) : toNat (zeros count) = 0 := by
  rw [toNat_eq]
  unfold zeros
  rw [Nat.ofDigitChars_replicate_zero, Nat.mul_zero]

@[simp] theorem length_zeros (count : Nat) : (zeros count).length = count :=
  List.length_replicate

/-- Only zero itself is written with a zero in front. -/
theorem ofNat_of_head {n : Nat} (h : (ofNat n).head? = some '0') : n = 0 := by
  induction n using Nat.strongRecOn with
  | ind n ih =>
    by_cases hlt : n < 10
    · unfold ofNat at h
      rw [Nat.toDigits_of_lt_base hlt] at h
      have hzero : n.digitChar = '0' := Option.some.inj h
      rw [← Nat.toNat_digitChar_sub_48_of_lt_ten hlt, hzero]
      rfl
    · unfold ofNat at h
      rw [Nat.toDigits_of_base_le (by decide) (by omega), List.head?_append,
        List.head?_eq_some_head Nat.toDigits_ne_nil, Option.some_or,
        ← List.head?_eq_some_head Nat.toDigits_ne_nil] at h
      have := ih (n / 10) (by omega) h
      omega

theorem ofNat_zero : ofNat 0 = ['0'] := Nat.toDigits_zero 10

/-- A power of ten is so many zeros behind the digits. -/
theorem ofNat_mul_tenTo {n : Nat} (hn : n ≠ 0) (count : Nat) :
    ofNat (n * tenTo count) = ofNat n ++ zeros count := by
  unfold ofNat tenTo zeros
  induction count with
  | zero => simp
  | succ count ih =>
    have hpow : n * Nat.pow 10 (count + 1) = n * Nat.pow 10 count * 10 := by
      rw [Nat.pow_eq, Nat.pow_eq, Nat.pow_succ, Nat.mul_assoc]
    have hpos : 0 < n * Nat.pow 10 count :=
      Nat.mul_pos (Nat.pos_of_ne_zero hn) (Nat.pow_pos (by decide))
    rw [hpow, Nat.toDigits_of_base_le (by decide) (by omega), Nat.mul_div_cancel _ (by decide), ih,
      Nat.mul_mod_left, List.replicate_succ', List.append_assoc]
    rfl

/-- What goes on as long as a test holds ends where the test fails first. -/
theorem takeWhile_stops {p : Char → Bool} {cs rest : List Char} (hcs : ∀ c ∈ cs, p c = true)
    (hrest : ∀ c, rest.head? = some c → p c = false) :
    (cs ++ rest).takeWhile p = cs ∧ (cs ++ rest).dropWhile p = rest := by
  rw [List.takeWhile_append_of_pos hcs, List.dropWhile_append_of_pos hcs]
  cases rest with
  | nil => simp
  | cons c rest =>
    have hc : p c = false := hrest c rfl
    rw [List.takeWhile_cons_of_neg (by simp [hc]), List.dropWhile_cons_of_neg (by simp [hc])]
    simp

end RecordStore.Digits
