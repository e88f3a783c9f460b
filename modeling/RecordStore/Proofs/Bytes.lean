import RecordStore.Text.Utf8
import Mathlib

/-!
# The order of byte strings

Byte strings are compared byte by byte: beginnings of one length decide before what follows them
(`compare_append_of_length_eq`). A number in big-endian form reads back (`toNat_ofNat`), and among
forms of one width the byte order is the order of the numbers (`compare_ofNat`). A text reads back from
its UTF-8 form (`ofUtf8?_utf8`).
-/

namespace RecordStore

@[simp] theorem Text.ofUtf8?_utf8 (s : String) : ofUtf8? (utf8 s) = some s := by
  unfold ofUtf8? utf8 String.fromUTF8?
  rw [Array.toArray_toList, dif_pos s.isValidUTF8]
  rfl

namespace Bytes

theorem compare_byte (a b : UInt8) : compare a b = compare a.toNat b.toNat := by
  show compareOfLessAndEq a b = compareOfLessAndEq a.toNat b.toNat
  unfold compareOfLessAndEq
  simp only [UInt8.lt_iff_toNat_lt, ← UInt8.toNat_inj]

/-- Beginnings of one length decide before what follows them. -/
theorem compare_append_of_length_eq :
    ∀ {a b : Bytes}, a.length = b.length → ∀ x y : Bytes,
      compare (a ++ x) (b ++ y) = (compare a b).then (compare x y)
  | [], [], _, _, _ => rfl
  | a :: as, b :: bs, h, x, y => by
    rw [List.cons_append, List.cons_append, List.compare_cons_cons, List.compare_cons_cons,
      compare_append_of_length_eq (Nat.succ.inj h) x y, Ordering.then_assoc]

/-! ## Big-endian numbers -/

/-- The first of `width + 1` bytes of a number counts the multiples of `256 ^ width`. -/
theorem toNat_leadingByte (width n : Nat) :
    (UInt8.ofNat (n >>> (8 * width))).toNat = n / 256 ^ width % 256 := by
  rw [UInt8.toNat_ofNat', Nat.shiftRight_eq_div_pow, Nat.pow_mul]

theorem mod_pow_succ (width n : Nat) :
    n % 256 ^ (width + 1) = n / 256 ^ width % 256 * 256 ^ width + n % 256 ^ width := by
  rw [Nat.pow_succ, Nat.mod_mul, Nat.add_comm, Nat.mul_comm]

theorem foldl_ofNat (width n acc : Nat) :
    (ofNat width n).foldl (fun n b => n * 256 + b.toNat) acc
      = acc * 256 ^ width + n % 256 ^ width := by
  induction width generalizing acc with
  | zero => simp [ofNat, Nat.mod_one]
  | succ width ih =>
    rw [ofNat, List.foldl_cons, ih, toNat_leadingByte, mod_pow_succ, Nat.add_mul, Nat.mul_assoc,
      Nat.pow_succ', Nat.add_assoc]

/-- Of a number the low-order bytes are kept. -/
theorem toNat_ofNat_mod (width n : Nat) : toNat (ofNat width n) = n % 256 ^ width := by
  show (ofNat width n).foldl _ 0 = _
  rw [foldl_ofNat, Nat.zero_mul, Nat.zero_add]

/-- A number that fits reads back. -/
theorem toNat_ofNat {width n : Nat} (h : n < 256 ^ width) : toNat (ofNat width n) = n := by
  rw [toNat_ofNat_mod, Nat.mod_eq_of_lt h]

/-- Quotient and remainder decide the order of two numbers one after the other. -/
theorem compare_div_mod {m : Nat} (hm : 0 < m) (a b : Nat) :
    (compare (a / m) (b / m)).then (compare (a % m) (b % m)) = compare a b := by
  have ha := Nat.div_add_mod a m
  have hb := Nat.div_add_mod b m
  have hra := Nat.mod_lt a hm
  have hrb := Nat.mod_lt b hm
  rcases Nat.lt_trichotomy (a / m) (b / m) with hlt | heq | hgt
  · have hlt' : a < b := by
      rcases Nat.lt_or_ge a b with h | h
      · exact h
      · exact absurd (Nat.div_le_div_right (c := m) h) (by omega)
    rw [Nat.compare_eq_lt.mpr hlt, Nat.compare_eq_lt.mpr hlt']
    rfl
  -- Where the quotients are equal the remainders decide.
  · rw [Nat.compare_eq_eq.mpr heq]
    show compare (a % m) (b % m) = _
    rw [heq] at ha
    rcases Nat.lt_trichotomy (a % m) (b % m) with h | h | h
    · rw [Nat.compare_eq_lt.mpr h, Nat.compare_eq_lt.mpr (by omega)]
    · rw [Nat.compare_eq_eq.mpr h, Nat.compare_eq_eq.mpr (by omega)]
    · rw [Nat.compare_eq_gt.mpr h, Nat.compare_eq_gt.mpr (by omega)]
  · have hgt' : b < a := by
      rcases Nat.lt_or_ge b a with h | h
      · exact h
      · exact absurd (Nat.div_le_div_right (c := m) h) (by omega)
    rw [Nat.compare_eq_gt.mpr hgt, Nat.compare_eq_gt.mpr hgt']
    rfl

theorem compare_ofNat_mod (width a b : Nat) :
    compare (ofNat width a) (ofNat width b) = compare (a % 256 ^ width) (b % 256 ^ width) := by
  induction width with
  | zero => simp [ofNat, Nat.mod_one]
  | succ width ih =>
    have hpos : 0 < 256 ^ width := Nat.pos_of_ne_zero (by simp)
    rw [ofNat, ofNat, List.compare_cons_cons, ih, compare_byte, toNat_leadingByte,
      toNat_leadingByte, ← compare_div_mod hpos (a % 256 ^ (width + 1)), Nat.pow_succ,
      Nat.mod_mul_right_div_self, Nat.mod_mul_right_div_self, Nat.mod_mul_right_mod,
      Nat.mod_mul_right_mod]

/-- Big-endian forms of one width are ordered as the numbers are. -/
theorem compare_ofNat {width a b : Nat} (ha : a < 256 ^ width) (hb : b < 256 ^ width) :
    compare (ofNat width a) (ofNat width b) = compare a b := by
  rw [compare_ofNat_mod, Nat.mod_eq_of_lt ha, Nat.mod_eq_of_lt hb]

end Bytes

end RecordStore
