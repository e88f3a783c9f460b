import RecordStore.Number.Decimal
import RecordStore.Proofs.Digits

/-!
# Decimals as numbers

A decimal stands for the rational `toRat`, and comparing two decimals is comparing these
(`cmp_eq_compare_toRat`): a magnitude lies between the powers of ten that its width says, so different widths
decide the comparison, and if they are the same the coefficients are compared on one scale.
-/

namespace RecordStore.Decimal

/-- The number that a decimal stands for. -/
def toRat (d : Decimal) : Rat := d.coefficient * (10 : Rat) ^ (-d.scale)

/-- The number without its sign. -/
def magnitude (d : Decimal) : Rat := d.coefficient.natAbs * (10 : Rat) ^ (-d.scale)

/-- A magnitude is below the power of ten of its width. -/
theorem magnitude_lt (d : Decimal) : d.magnitude < (10 : Rat) ^ d.width := by
  have hdigits : d.coefficient.natAbs < 10 ^ (Digits.ofNat d.coefficient.natAbs).length :=
    (Nat.length_toDigits_le_iff (by decide) Nat.length_toDigits_pos).mp (Nat.le_refl _)
  unfold magnitude width
  rw [sub_eq_add_neg, zpow_add₀ (by norm_num), zpow_natCast]
  gcongr
  exact_mod_cast hdigits

/-- A magnitude that is not zero reaches the power of ten below its width. -/
theorem le_magnitude {d : Decimal} (h : d.coefficient ≠ 0) :
    (10 : Rat) ^ (d.width - 1) ≤ d.magnitude := by
  have hdigits : 10 ^ ((Digits.ofNat d.coefficient.natAbs).length - 1) ≤ d.coefficient.natAbs := by
    by_cases hone : (Digits.ofNat d.coefficient.natAbs).length ≤ 1
    · rw [Nat.sub_eq_zero_of_le hone, pow_zero]
      exact Nat.one_le_iff_ne_zero.mpr (Int.natAbs_ne_zero.mpr h)
    · rw [← Nat.not_lt, ← Nat.length_toDigits_le_iff (by decide) (by omega)]
      show ¬(Digits.ofNat d.coefficient.natAbs).length ≤ _
      omega
  have hlength : 1 ≤ (Digits.ofNat d.coefficient.natAbs).length := Nat.length_toDigits_pos
  have hwidth : d.width - 1 = ((Digits.ofNat d.coefficient.natAbs).length - 1 : Nat) + -d.scale := by
    unfold width
    omega
  unfold magnitude
  rw [hwidth, zpow_add₀ (by norm_num), zpow_natCast]
  gcongr
  exact_mod_cast hdigits

/-- The coefficient on a scale of more places. -/
theorem mul_tenTo (d : Decimal) (scale : Int) :
    ((d.coefficient.natAbs * Digits.tenTo (scale - d.scale).toNat : Nat) : Rat) =
      d.magnitude * (10 : Rat) ^ (max d.scale scale) := by
  have hplaces : ((scale - d.scale).toNat : Int) = -d.scale + max d.scale scale := by omega
  unfold magnitude Digits.tenTo
  rw [mul_assoc, ← zpow_add₀ (by norm_num), ← hplaces, zpow_natCast, Nat.pow_eq]
  push_cast
  rfl

/-- Comparing magnitudes by width and then by digits is comparing their values. -/
theorem compareMagnitude_eq {a b : Decimal} (ha : a.coefficient ≠ 0) (hb : b.coefficient ≠ 0) :
    a.compareMagnitude b = compare a.magnitude b.magnitude := by
  unfold compareMagnitude
  rcases lt_trichotomy a.width b.width with h | h | h
  · rw [compare_lt_iff_lt.mpr h, Ordering.lt_then, eq_comm, compare_lt_iff_lt]
    calc a.magnitude < 10 ^ a.width := a.magnitude_lt
      _ ≤ 10 ^ (b.width - 1) := zpow_le_zpow_right₀ (by norm_num) (by omega)
      _ ≤ b.magnitude := le_magnitude hb
  · have hscale : (0 : Rat) < 10 ^ max a.scale b.scale := by positivity
    rw [compare_eq_iff_eq.mpr h, Ordering.eq_then, ← cmp_eq_compare, ← cmp_eq_compare,
      ← cmp_mul_pos_right hscale, ← mul_tenTo, max_comm, ← mul_tenTo]
    exact (Nat.strictMono_cast.cmp_map_eq _ _).symm
  · rw [compare_gt_iff_gt.mpr h, Ordering.gt_then, eq_comm, compare_gt_iff_gt]
    calc b.magnitude < 10 ^ b.width := b.magnitude_lt
      _ ≤ 10 ^ (a.width - 1) := zpow_le_zpow_right₀ (by norm_num) (by omega)
      _ ≤ a.magnitude := le_magnitude ha

theorem magnitude_pos {d : Decimal} (h : d.coefficient ≠ 0) : 0 < d.magnitude :=
  lt_of_lt_of_le (by positivity) (le_magnitude h)

theorem toRat_of_nonneg {d : Decimal} (h : 0 ≤ d.coefficient) : d.toRat = d.magnitude := by
  unfold toRat magnitude
  rw [← Int.cast_natCast, Int.natAbs_of_nonneg h]

theorem toRat_of_neg {d : Decimal} (h : d.coefficient < 0) : d.toRat = -d.magnitude := by
  unfold toRat magnitude
  rw [← Int.cast_natCast, Int.ofNat_natAbs_of_nonpos h.le, Int.cast_neg, neg_mul, neg_neg]

/-- Signs that differ decide. -/
theorem toRat_lt_of_sign_lt {a b : Decimal} (h : a.coefficient.sign < b.coefficient.sign) :
    a.toRat < b.toRat := by
  rcases lt_or_ge a.coefficient 0 with ha | ha
  · have hb : 0 ≤ b.coefficient := by
      rw [Int.sign_eq_neg_one_of_neg ha] at h
      rw [← Int.sign_nonneg_iff]
      omega
    have hmagnitude : 0 ≤ b.magnitude := mul_nonneg (Nat.cast_nonneg _) (by positivity)
    rw [toRat_of_neg ha, toRat_of_nonneg hb]
    linarith only [magnitude_pos ha.ne, hmagnitude]
  · have hb : 0 < b.coefficient :=
      Int.sign_pos_iff.mp (lt_of_le_of_lt (Int.sign_nonneg_iff.mpr ha) h)
    have hzero : a.coefficient = 0 := by
      rw [Int.sign_eq_one_of_pos hb] at h
      refine le_antisymm (Int.sign_nonpos_iff.mp ?_) ha
      omega
    have hnothing : a.toRat = 0 := by
      unfold toRat
      rw [hzero, Int.cast_zero, zero_mul]
    rw [hnothing, toRat_of_nonneg hb.le]
    exact magnitude_pos hb.ne'

/-- Decimals compare as the numbers they stand for. -/
theorem cmp_eq_compare_toRat (a b : Decimal) : a.cmp b = compare a.toRat b.toRat := by
  unfold cmp
  rcases lt_trichotomy a.coefficient.sign b.coefficient.sign with h | h | h
  · rw [compare_lt_iff_lt.mpr h, Ordering.lt_then, compare_lt_iff_lt.mpr (toRat_lt_of_sign_lt h)]
  · rw [compare_eq_iff_eq.mpr h, Ordering.eq_then]
    rcases lt_trichotomy a.coefficient 0 with ha | ha | ha
    · have hb : b.coefficient < 0 := by
        rw [← Int.sign_eq_neg_one_iff_neg, ← h, Int.sign_eq_neg_one_iff_neg]
        exact ha
      rw [if_neg ha.ne, if_pos ha, compareMagnitude_eq hb.ne ha.ne, toRat_of_neg ha, toRat_of_neg hb,
        ← cmp_eq_compare, ← cmp_eq_compare]
      have hneg : StrictAnti fun x : Rat => -x := fun _ _ hlt => neg_lt_neg hlt
      exact (hneg.cmp_map_eq _ _).symm
    · have hb : b.coefficient = 0 := by
        rw [← Int.sign_eq_zero_iff_zero, ← h, Int.sign_eq_zero_iff_zero]
        exact ha
      rw [if_pos ha, eq_comm, compare_eq_iff_eq]
      unfold toRat
      rw [ha, hb, Int.cast_zero, zero_mul, zero_mul]
    · have hb : 0 < b.coefficient := by
        rw [← Int.sign_eq_one_iff_pos, ← h, Int.sign_eq_one_iff_pos]
        exact ha
      rw [if_neg ha.ne', if_neg ha.not_gt, compareMagnitude_eq ha.ne' hb.ne', toRat_of_nonneg ha.le,
        toRat_of_nonneg hb.le]
  · rw [compare_gt_iff_gt.mpr h, Ordering.gt_then, compare_gt_iff_gt.mpr (toRat_lt_of_sign_lt h)]

/-- Swapping two decimals swaps the answer. -/
theorem cmp_swap (a b : Decimal) : (a.cmp b).swap = b.cmp a := by
  rw [cmp_eq_compare_toRat, cmp_eq_compare_toRat, ← Std.OrientedCmp.eq_swap]

end RecordStore.Decimal
