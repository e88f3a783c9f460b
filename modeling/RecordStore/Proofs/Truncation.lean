import RecordStore.Number.Numeric
import RecordStore.Proofs.DecimalOrder
import RecordStore.Proofs.Transitivity

/-!
# Integer parts

The integer part of a number is the number it stands for without its places (`towardZero`). Doubles
and decimals are cut off to their integer parts without rounding first, and the only decimals that are
not cut off are too long for 64 bits. So what counts as an integer of 64 bits is exactly a number
whose integer part is one, and the double 2⁶³, which counts as one less than it is
(`toInt64?_eq_some_iff`).
-/

namespace RecordStore

/-- A number without its places. -/
def towardZero (q : Rat) : Int := if 0 ≤ q then ⌊q⌋ else ⌈q⌉

theorem towardZero_of_nonneg {q : Rat} (h : 0 ≤ q) : towardZero q = ⌊q⌋ := if_pos h

theorem towardZero_neg (q : Rat) : towardZero (-q) = -towardZero q := by
  rcases lt_trichotomy q 0 with h | h | h
  · unfold towardZero
    rw [if_pos (by linarith), if_neg (by linarith), Int.floor_neg]
  · rw [h]
    decide
  · unfold towardZero
    rw [if_neg (by linarith), if_pos h.le, Int.ceil_neg]

theorem towardZero_intCast (n : Int) : towardZero n = n := by
  unfold towardZero
  rw [Int.floor_intCast, Int.ceil_intCast, ite_self]

/-- A quotient of naturals rounds to the natural quotient. -/
theorem towardZero_div (m n : Nat) : towardZero ((m : Rat) / n) = (m / n : Nat) := by
  rw [towardZero_of_nonneg (by positivity), Rat.floor_natCast_div_natCast, Int.natCast_div]

namespace Binary64

/-- The number that a finite double stands for. -/
def toRat (x : Binary64) : Rat :=
  let magnitude : Rat := x.significand * (2 : Rat) ^ x.scale
  if x.negative then -magnitude else magnitude

/-- The magnitude of a finite double without its places. -/
def wholeMagnitude (x : Binary64) : Nat :=
  if 0 ≤ x.scale then x.significand <<< x.scale.toNat else x.significand >>> x.scale.natAbs

/-- A finite double truncates to its whole magnitude under its sign. -/
theorem truncate?_of_finite {x : Binary64} (h : x.isFinite = true) :
    x.truncate? = some (if x.negative then -(x.wholeMagnitude : Int) else x.wholeMagnitude) := if_pos h

/-- The whole magnitude of a double is its magnitude rounded toward zero. -/
theorem towardZero_magnitude (x : Binary64) :
    towardZero (x.significand * (2 : Rat) ^ x.scale) = x.wholeMagnitude := by
  unfold wholeMagnitude
  split
  next hscale =>
    have hpower : (2 : Rat) ^ x.scale = ((2 ^ x.scale.toNat : Nat) : Rat) := by
      rw [← Int.toNat_of_nonneg hscale, zpow_natCast, Int.toNat_natCast, Nat.cast_pow, Nat.cast_two]
    rw [hpower, ← Nat.cast_mul, Nat.shiftLeft_eq, ← Int.cast_natCast, towardZero_intCast]
  next hscale =>
    have hpower : (2 : Rat) ^ x.scale = ((2 ^ x.scale.natAbs : Nat) : Rat)⁻¹ := by
      rw [show x.scale = -(x.scale.natAbs : Int) by omega, zpow_neg, zpow_natCast, Int.natAbs_neg,
        Int.natAbs_natCast, Nat.cast_pow, Nat.cast_two]
    rw [hpower, ← div_eq_mul_inv, towardZero_div, Nat.shiftRight_eq_div_pow]

/-- A finite double is cut off to its integer part. -/
theorem truncate?_eq {x : Binary64} (h : x.isFinite = true) : x.truncate? = some (towardZero x.toRat) := by
  unfold toRat
  dsimp only
  rw [truncate?_of_finite h, apply_ite towardZero, towardZero_neg, towardZero_magnitude]

/-- An infinity and a NaN do not truncate. -/
theorem truncate?_eq_none {x : Binary64} (h : x.isFinite = false) : x.truncate? = none := by
  unfold truncate?
  rw [h]
  rfl

/-- The double 2⁶³. -/
def twoTo63 : Binary64 := ⟨0x43e0000000000000⟩

/-- The double `2 ^ 63` truncates to `2 ^ 63`, one past the largest 64-bit integer. -/
theorem truncate?_twoTo63 : twoTo63.truncate? = some 0x8000000000000000 := by decide

/-- A significand of 53 bits makes 2⁶³ with one power of two only. -/
theorem significand_of_mul_pow {m k : Nat} (hlow : 0x10000000000000 ≤ m) (hhigh : m < 0x20000000000000)
    (h : m * 2 ^ k = 0x8000000000000000) : k = 11 ∧ m = 0x10000000000000 := by
  have hpower : k = 11 := by
    rcases lt_trichotomy k 11 with hlt | heq | hgt
    · have hle : 2 ^ k ≤ 2 ^ 10 := Nat.pow_le_pow_right (by decide) (by omega)
      have hproduct : m * 2 ^ k ≤ 0x1fffffffffffff * 2 ^ 10 := Nat.mul_le_mul (by omega) hle
      omega
    · exact heq
    · have hle : 2 ^ 12 ≤ 2 ^ k := Nat.pow_le_pow_right (by decide) hgt
      have hproduct := Nat.mul_le_mul hlow hle
      omega
  subst hpower
  exact ⟨rfl, by omega⟩

/-- Only one double has 2⁶³ for its integer part. -/
theorem eq_twoTo63 {x : Binary64} (h : x.truncate? = some 0x8000000000000000) : x = twoTo63 := by
  have hfinite : x.isFinite = true := by
    by_contra hfinite
    rw [truncate?_eq_none (Bool.not_eq_true _ ▸ hfinite)] at h
    cases h
  rw [truncate?_of_finite hfinite, Option.some.injEq] at h
  have hsign : ¬x.negative = true := by
    intro hsign
    rw [if_pos hsign] at h
    omega
  have hwhole : x.wholeMagnitude = 0x8000000000000000 := by
    rw [if_neg hsign] at h
    omega
  have hfraction : x.fraction < 0x10000000000000 := Nat.mod_lt _ (by decide)
  have hhigh : x.significand < 0x20000000000000 := by
    unfold significand
    split <;> omega
  -- A magnitude of `2 ^ 63` needs the significand shifted up, and then its bits are fixed.
  unfold wholeMagnitude at hwhole
  split at hwhole
  next hscale =>
    rw [Nat.shiftLeft_eq] at hwhole
    have hsignificand : x.significand = x.fraction + 0x10000000000000 := by
      refine if_neg fun hzero => ?_
      unfold scale at hscale
      omega
    obtain ⟨hpower, hm⟩ := significand_of_mul_pow (by omega) hhigh hwhole
    have hexponent : x.exponentBits = 1086 := by
      unfold scale at hpower
      omega
    have hbits : x.bits.toNat = 0x43e0000000000000 := by
      have hlow : ¬0x8000000000000000 ≤ x.bits.toNat := fun hle => hsign (decide_eq_true hle)
      unfold exponentBits at hexponent
      have hzero : x.bits.toNat % 0x10000000000000 = 0 := by
        have hzero : x.fraction = 0 := by omega
        exact hzero
      omega
    exact congrArg Binary64.mk (UInt64.toNat_inj.mp hbits)
  next =>
    rw [Nat.shiftRight_eq_div_pow] at hwhole
    have hle := Nat.div_le_self x.significand (2 ^ x.scale.natAbs)
    omega

end Binary64

namespace Decimal

/-- The magnitude of a decimal is the quotient of its two naturals. -/
theorem magnitude_eq_div (d : Decimal) : d.magnitude = (d.numerator : Rat) / d.denominator := by
  have hscale : -d.scale = ((-d.scale).toNat : Int) - (d.scale.toNat : Int) := by omega
  unfold magnitude numerator denominator Digits.tenTo
  rw [hscale, zpow_sub₀ (by norm_num), zpow_natCast, zpow_natCast, ← hscale, Nat.cast_mul, Nat.pow_eq,
    Nat.pow_eq, Nat.cast_pow, Nat.cast_pow, Nat.cast_ofNat, mul_div_assoc]

/-- A decimal is rounded toward zero through its magnitude, the sign set aside. -/
theorem towardZero_toRat (d : Decimal) :
    towardZero d.toRat = d.coefficient.sign * towardZero d.magnitude := by
  rcases lt_trichotomy d.coefficient 0 with h | h | h
  · rw [toRat_of_neg h, towardZero_neg, Int.sign_eq_neg_one_of_neg h, neg_one_mul]
  · unfold toRat
    rw [h, Int.cast_zero, zero_mul, Int.sign_zero, zero_mul]
    decide
  · rw [toRat_of_nonneg h.le, Int.sign_eq_one_of_pos h, one_mul]

theorem magnitude_nonneg (d : Decimal) : 0 ≤ d.magnitude := by
  unfold magnitude
  positivity

/-- A decimal that is cut off is cut off to its integer part. -/
theorem truncate?_eq_some {d : Decimal} {n : Int} (h : d.truncate? = some n) :
    n = towardZero d.toRat := by
  rw [towardZero_toRat]
  unfold truncate? at h
  split at h
  next hsmall =>
    cases h
    rcases hsmall with hzero | hwidth
    · rw [hzero, Int.sign_zero, zero_mul]
    -- Without digits in front of the point the magnitude is below one.
    · have hone : d.magnitude < 1 := by
        calc d.magnitude < 10 ^ d.width := d.magnitude_lt
          _ ≤ 10 ^ (0 : Int) := zpow_le_zpow_right₀ (by norm_num) hwidth
          _ = 1 := zpow_zero _
      rw [towardZero_of_nonneg d.magnitude_nonneg, Int.floor_eq_zero_iff.mpr ⟨d.magnitude_nonneg, hone⟩,
        mul_zero]
  next =>
    split at h
    next => cases h
    next =>
      cases h
      rw [magnitude_eq_div, towardZero_div]
      rcases lt_trichotomy d.coefficient 0 with hc | hc | hc
      · rw [Int.sign_eq_neg_one_of_neg hc, neg_one_mul, neg_one_mul, Int.neg_tdiv, Int.natCast_div,
          Int.tdiv_eq_ediv_of_nonneg (Int.natCast_nonneg _)]
      · rw [hc, Int.sign_zero, zero_mul, zero_mul, Int.zero_tdiv]
      · rw [Int.sign_eq_one_of_pos hc, one_mul, one_mul, Int.natCast_div,
          Int.tdiv_eq_ediv_of_nonneg (Int.natCast_nonneg _)]

/-- A decimal that is not cut off has an integer part of more than thirty digits. -/
theorem truncate?_eq_none {d : Decimal} (h : d.truncate? = none) :
    10 ^ 30 ≤ (towardZero d.toRat).natAbs := by
  unfold truncate? at h
  split at h
  next => cases h
  next hlarge =>
    split at h
    next hwidth =>
      obtain ⟨hne, -⟩ := not_or.mp hlarge
      have hfloor : ((10 ^ 30 : Nat) : Int) ≤ ⌊d.magnitude⌋ := by
        rw [Int.le_floor]
        calc (((10 ^ 30 : Nat) : Int) : Rat) = 10 ^ (30 : Int) := by norm_num
          _ ≤ 10 ^ (d.width - 1) := zpow_le_zpow_right₀ (by norm_num) (by omega)
          _ ≤ d.magnitude := le_magnitude hne
      rw [towardZero_toRat, towardZero_of_nonneg d.magnitude_nonneg, Int.natAbs_mul,
        Int.natAbs_sign_of_ne_zero hne, one_mul]
      omega
    next => cases h

end Decimal

namespace Number

/-- The number that a number stands for, unless it is infinite or a NaN. -/
def rational? : Number → Option Rat
  | .float x => if x.isFinite then some x.toRat else none
  | x => x.toRat?

theorem rational?_float {x : Binary64} (h : x.isFinite = true) : (float x).rational? = some x.toRat :=
  if_pos h

/-- An integer of 64 bits with a sign. -/
def Fits (n : Int) : Prop := -0x8000000000000000 ≤ n ∧ n < 0x8000000000000000

instance (n : Int) : Decidable (Fits n) := inferInstanceAs (Decidable (_ ∧ _))

theorem fits_toInt (n : Int64) : Fits n.toInt := ⟨n.le_toInt, n.toInt_lt⟩

/-- The conversion to 64 bits answers exactly for the integers that fit, with the same integer. -/
theorem int64?_eq_some_iff {n : Int} {m : Int64} : int64? n = some m ↔ Fits n ∧ m.toInt = n := by
  unfold int64?
  constructor
  · intro h
    split at h
    next hfits =>
      cases h
      exact ⟨hfits, Int64.toInt_ofInt_of_le hfits.1 hfits.2⟩
    next => cases h
  · intro h
    obtain ⟨hfits, rfl⟩ := h
    exact (if_pos hfits).trans (congrArg some (Int64.ofInt_toInt m))

/-- An integer of more than thirty digits does not fit into 64 bits. -/
theorem not_fits_of_natAbs {n : Int} (h : 10 ^ 30 ≤ n.natAbs) : ¬Fits n := by
  unfold Fits
  omega

/-- A number that is neither a double nor too long is cut off to its integer part. -/
theorem int64?_truncate? {x : Number} {q : Rat} (hx : x.toRat? = some q) {n : Int64} :
    x.toInt64? = some n ↔ Fits (towardZero q) ∧ n.toInt = towardZero q := by
  cases x with
  | integer m =>
    cases hx
    rw [towardZero_intCast, ← int64?_eq_some_iff]
    exact Iff.rfl
  | decimal d =>
    cases hx
    show (d.truncate?.bind int64?) = some n ↔ _
    cases htruncate : d.truncate? with
    | none =>
      have hnot := not_fits_of_natAbs (Decimal.truncate?_eq_none htruncate)
      exact ⟨nofun, fun h => absurd h.1 hnot⟩
    | some m =>
      rw [← Decimal.truncate?_eq_some htruncate, ← int64?_eq_some_iff]
      exact Iff.rfl
  | float x => cases hx

/-- A finite double converts when its truncation fits; beyond that only `2 ^ 63` converts, to the
largest integer. -/
theorem toInt64?_float {x : Binary64} (h : x.isFinite = true) {n : Int64} :
    (float x).toInt64? = some n ↔ Fits (towardZero x.toRat) ∧ n.toInt = towardZero x.toRat ∨
      x = .twoTo63 ∧ n = Int64.maxValue := by
  have hpart := Binary64.truncate?_eq h
  have hcount : (float x).toInt64? = if towardZero x.toRat = 0x8000000000000000 then some Int64.maxValue
      else int64? (towardZero x.toRat) := by
    show (x.truncate?.bind _) = _
    rw [hpart]
    rfl
  rw [hcount, ← int64?_eq_some_iff]
  by_cases htop : towardZero x.toRat = 0x8000000000000000
  · have hnot : ¬Fits (towardZero x.toRat) := by
      rw [htop]
      decide
    rw [htop] at hpart
    rw [if_pos htop, Option.some.injEq, int64?_eq_some_iff, or_iff_right fun h => hnot h.1,
      and_iff_right (Binary64.eq_twoTo63 hpart), eq_comm]
  · rw [if_neg htop, or_iff_left]
    intro htwo
    rw [htwo.1, Binary64.truncate?_twoTo63, Option.some.injEq] at hpart
    rw [htwo.1] at htop
    exact htop hpart.symm

/-- A number counts as an integer of 64 bits just if its integer part is one, except for the double
2⁶³. -/
theorem toInt64?_eq_some_iff {x : Number} {n : Int64} : x.toInt64? = some n ↔
    ∃ q, x.rational? = some q ∧ (Fits (towardZero q) ∧ n.toInt = towardZero q ∨
      x = .float .twoTo63 ∧ n = Int64.maxValue) := by
  -- Integers and decimals have their rational at once; a float goes by its truncation.
  cases hrat : x.toRat? with
  | some q =>
    have hx : x.rational? = some q ∧ x ≠ .float .twoTo63 := by
      cases x with
      | integer m => exact ⟨hrat, nofun⟩
      | decimal d => exact ⟨hrat, nofun⟩
      | float x => cases hrat
    rw [int64?_truncate? hrat, hx.1]
    simp [hx.2]
  | none =>
    cases x with
    | integer m => cases hrat
    | decimal d => cases hrat
    | float x =>
      unfold rational?
      cases hfinite : x.isFinite with
      | true =>
        rw [toInt64?_float hfinite]
        simp [hfinite]
      | false =>
        have hcount : (float x).toInt64? = none := by
          show (x.truncate?.bind _) = _
          rw [Binary64.truncate?_eq_none hfinite]
          rfl
        rw [hcount]
        simp [hfinite]

end Number

namespace Value

variable {κ : Type} {v : Value κ}

/-- The number that a numeric value stands for, unless it is infinite or a NaN. -/
def rational? (v : Value κ) : Option Rat := v.number?.bind Number.rational?

theorem number?_eq_float {x : Binary64} : v.number? = some (.float x) ↔ v = .float x := by
  cases v <;> simp [number?]

/-- The float `2 ^ 63` has a rational, and it truncates to `2 ^ 63`. -/
theorem rational?_twoTo63 : ∃ q, (.float .twoTo63 : Value κ).rational? = some q ∧
    towardZero q = 0x8000000000000000 := by
  have hfinite : Binary64.twoTo63.isFinite = true := by decide
  refine ⟨Binary64.twoTo63.toRat, Number.rational?_float hfinite, ?_⟩
  have hpart := Binary64.truncate?_eq hfinite
  rw [Binary64.truncate?_twoTo63, Option.some.injEq] at hpart
  exact hpart.symm

/-- A value counts as an integer of 64 bits just if the integer part of its number is one, except for
the double 2⁶³. -/
theorem toInt64?_eq_some_iff {n : Int64} : v.toInt64? = some n ↔
    ∃ q, v.rational? = some q ∧ (Number.Fits (towardZero q) ∧ n.toInt = towardZero q ∨
      v = .float .twoTo63 ∧ n = Int64.maxValue) := by
  unfold toInt64? rational?
  rw [← number?_eq_float]
  cases v.number? with
  | none => simp
  | some x =>
    show x.toInt64? = some n ↔ _
    rw [Number.toInt64?_eq_some_iff, Option.some.injEq]
    rfl

end Value

end RecordStore
