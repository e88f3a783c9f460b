import RecordStore.Number.Binary64
import Mathlib

/-!
# Integers as doubles

Rounding to a double never turns two integers around (`orderKey_ofInt_le`), and up to 2⁵³ it keeps them
apart (`orderKey_ofInt_lt`). A natural number and the significand it is rounded to are the same up to
that limit; above it the significand stays between the powers of two that the exponent stands for, so
that the exponent decides first.
-/

namespace RecordStore.Binary64

/-! ## Rounded quotients -/

/-- The quotient is kept if the rest is at most half, and raised by one if it is at least that. -/
theorem divHalfEven_cases (num den : Nat) :
    divHalfEven num den = num / den ∧ 2 * (num % den) ≤ den ∨
      divHalfEven num den = num / den + 1 ∧ den ≤ 2 * (num % den) := by
  unfold divHalfEven
  rcases lt_trichotomy (2 * (num % den)) den with h | h | h
  · rw [Nat.compare_eq_lt.mpr h]
    exact .inl ⟨rfl, h.le⟩
  · rw [Nat.compare_eq_eq.mpr h]
    dsimp only
    split
    next => exact .inl ⟨rfl, h.le⟩
    next => exact .inr ⟨rfl, h.ge⟩
  · rw [Nat.compare_eq_gt.mpr h]
    exact .inr ⟨rfl, h.le⟩

theorem divHalfEven_one (n : Nat) : divHalfEven n 1 = n := by
  unfold divHalfEven
  rw [Nat.mod_one, Nat.div_one]
  rfl

/-- Rounding keeps the order of numerators. -/
theorem divHalfEven_le {m n : Nat} (den : Nat) (h : m ≤ n) :
    divHalfEven m den ≤ divHalfEven n den := by
  have hdiv : m / den ≤ n / den := Nat.div_le_div_right h
  by_cases hsame : m / den = n / den
  · have hm := Nat.div_add_mod m den
    have hn := Nat.div_add_mod n den
    rw [hsame] at hm
    obtain ⟨hm', hmhalf⟩ | ⟨hm', hmhalf⟩ := divHalfEven_cases m den
    · obtain ⟨hn', -⟩ | ⟨hn', -⟩ := divHalfEven_cases n den <;> omega
    · obtain ⟨hn', hnhalf⟩ | ⟨hn', -⟩ := divHalfEven_cases n den
      · -- Only the tie itself is as far up as down, and then the two are one number.
        have heq : m = n := by omega
        rw [heq]
      · omega
  · obtain ⟨hm', -⟩ | ⟨hm', -⟩ := divHalfEven_cases m den <;>
      obtain ⟨hn', -⟩ | ⟨hn', -⟩ := divHalfEven_cases n den <;> omega

/-! ## Natural numbers -/

theorem ratioLog2_one {n : Nat} (h : n ≠ 0) : ratioLog2 n 1 = n.log2 := by
  have hlog : Nat.log2 1 = 0 := by decide
  have hreaches : 1 <<< n.log2 ≤ n := by
    rw [Nat.one_shiftLeft]
    exact Nat.log2_self_le h
  unfold ratioLog2
  rw [hlog]
  dsimp only
  rw [Int.natCast_zero, Int.sub_zero]
  refine if_pos ?_
  rw [if_pos (Int.natCast_nonneg _), Int.toNat_natCast]
  exact hreaches

/-- The significand of 53 bits that a natural number is rounded to. -/
def significandOf (n : Nat) : Nat := divHalfEven (n <<< (52 - n.log2)) (1 <<< (n.log2 - 52))

/-- The bits of the double that a natural number is rounded to, if none is too large. -/
def naturalBits (n : Nat) : Nat :=
  if n = 0 then 0 else (n.log2 + 1022) * 0x10000000000000 + significandOf n

/-- A whole quotient is rounded as the natural number it is, and too large a one is infinite. -/
theorem ofRatio_one (negative : Bool) (n : Nat) :
    ofRatio negative n 1 = ofMagnitude negative (min (naturalBits n) infinityBits) := by
  unfold ofRatio naturalBits
  by_cases h : n = 0
  · rw [if_pos h, if_pos h, Nat.zero_min]
  · have hunit : max ((n.log2 : Int) - 52) (-1074) = n.log2 - 52 := by omega
    have hexponent : ((n.log2 : Int) - 52 + 1074).toNat = n.log2 + 1022 := by omega
    rw [if_neg h, if_neg h, ratioLog2_one h, hunit]
    dsimp only
    rw [hexponent]
    congr 3
    unfold significandOf
    by_cases hlarge : 52 ≤ n.log2
    · rw [if_pos (by omega), show ((n.log2 : Int) - 52).toNat = n.log2 - 52 by omega,
        Nat.sub_eq_zero_of_le hlarge, Nat.shiftLeft_zero]
    · rw [if_neg (by omega), show ((n.log2 : Int) - 52).natAbs = 52 - n.log2 by omega,
        Nat.sub_eq_zero_of_le (Nat.le_of_not_le hlarge), Nat.shiftLeft_zero]

/-- The significand has 53 bits, or is the power of two above them. -/
theorem significandOf_bounds {n : Nat} (h : n ≠ 0) :
    0x10000000000000 ≤ significandOf n ∧ significandOf n ≤ 0x20000000000000 := by
  have hscale : 2 ^ n.log2 * 2 ^ (52 - n.log2) = 0x10000000000000 * 2 ^ (n.log2 - 52) := by
    rw [show 0x10000000000000 = 2 ^ 52 by norm_num, ← Nat.pow_add, ← Nat.pow_add]
    congr 1
    omega
  have hpos : 0 < 2 ^ (n.log2 - 52) := by positivity
  have hlow : 0x10000000000000 ≤ n * 2 ^ (52 - n.log2) / 2 ^ (n.log2 - 52) := by
    rw [Nat.le_div_iff_mul_le hpos, ← hscale]
    exact Nat.mul_le_mul_right _ (Nat.log2_self_le h)
  have hhigh : n * 2 ^ (52 - n.log2) / 2 ^ (n.log2 - 52) < 0x20000000000000 := by
    rw [Nat.div_lt_iff_lt_mul hpos]
    calc n * 2 ^ (52 - n.log2) < 2 ^ (n.log2 + 1) * 2 ^ (52 - n.log2) :=
          Nat.mul_lt_mul_of_pos_right Nat.lt_log2_self (by positivity)
      _ = 2 * (2 ^ n.log2 * 2 ^ (52 - n.log2)) := by rw [Nat.pow_succ']; ring
      _ = 0x20000000000000 * 2 ^ (n.log2 - 52) := by rw [hscale]; ring
  unfold significandOf
  rw [Nat.shiftLeft_eq, Nat.one_shiftLeft]
  obtain ⟨hdown, -⟩ | ⟨hup, -⟩ :=
    divHalfEven_cases (n * 2 ^ (52 - n.log2)) (2 ^ (n.log2 - 52)) <;> omega

theorem log2_le_of_lt {n : Nat} (h : n < 0x20000000000000) : n.log2 ≤ 52 := by
  by_cases hzero : n = 0
  · rw [hzero]
    decide
  · have hlt := (Nat.log2_lt (k := 53) hzero).mpr h
    omega

/-- Below 2⁵³ nothing is rounded. -/
theorem significandOf_of_lt {n : Nat} (h : n < 0x20000000000000) :
    significandOf n = n * 2 ^ (52 - n.log2) := by
  unfold significandOf
  rw [Nat.sub_eq_zero_of_le (log2_le_of_lt h), Nat.shiftLeft_zero, divHalfEven_one,
    Nat.shiftLeft_eq]

/-- So there is no carry either. -/
theorem significandOf_lt {n : Nat} (h : n < 0x20000000000000) :
    significandOf n < 0x20000000000000 := by
  have hlog := log2_le_of_lt h
  rw [significandOf_of_lt h]
  calc n * 2 ^ (52 - n.log2) < 2 ^ (n.log2 + 1) * 2 ^ (52 - n.log2) :=
        Nat.mul_lt_mul_of_pos_right Nat.lt_log2_self (by positivity)
    _ = 2 ^ 53 := by
        rw [← Nat.pow_add]
        congr 1
        omega

theorem log2_le {m n : Nat} (h : m ≤ n) : m.log2 ≤ n.log2 := by
  rw [Nat.log2_eq_log_two, Nat.log2_eq_log_two]
  exact Nat.log_mono_right h

theorem naturalBits_le {m n : Nat} (h : m ≤ n) : naturalBits m ≤ naturalBits n := by
  by_cases hm : m = 0
  · unfold naturalBits
    rw [if_pos hm]
    exact Nat.zero_le _
  · have hn : n ≠ 0 := by omega
    have hbounds := significandOf_bounds hm
    have hbounds' := significandOf_bounds hn
    have hlog := log2_le h
    unfold naturalBits
    rw [if_neg hm, if_neg hn]
    by_cases hsame : m.log2 = n.log2
    · have hsignificand : significandOf m ≤ significandOf n := by
        unfold significandOf
        rw [hsame]
        refine divHalfEven_le _ ?_
        rw [Nat.shiftLeft_eq, Nat.shiftLeft_eq]
        exact Nat.mul_le_mul_right _ h
      omega
    · -- With a larger exponent the significand starts where it ended with the smaller one.
      omega

/-- Up to `2 ^ 53` a larger number gets larger bits. -/
theorem naturalBits_lt {m n : Nat} (h : m < n) (hn : n ≤ 0x20000000000000) :
    naturalBits m < naturalBits n := by
  have hbounds := significandOf_bounds (n := n) (by omega)
  have hn0 : n ≠ 0 := by omega
  by_cases hm : m = 0
  · unfold naturalBits
    rw [if_pos hm, if_neg hn0]
    omega
  · have hm' : m < 0x20000000000000 := by omega
    have hlog := log2_le h.le
    unfold naturalBits
    rw [if_neg hm, if_neg hn0]
    by_cases hsame : m.log2 = n.log2
    · have hn' : n < 0x20000000000000 := by
        have hlt : n < 2 ^ (n.log2 + 1) := Nat.lt_log2_self
        have hle : 2 ^ (n.log2 + 1) ≤ 2 ^ 53 :=
          Nat.pow_le_pow_right (by decide) (by have := log2_le_of_lt hm'; omega)
        omega
      have hsignificand : significandOf m < significandOf n := by
        rw [significandOf_of_lt hm', significandOf_of_lt hn', hsame]
        exact Nat.mul_lt_mul_of_pos_right h (by positivity)
      omega
    · have hcarry := significandOf_lt hm'
      omega

/-! ## Integers -/

/-- The order key of a magnitude goes up with its bits, or down if it is negative. -/
theorem orderKey_ofMagnitude (negative : Bool) {bits : Nat} (h : bits < 0x8000000000000000) :
    (ofMagnitude negative bits).orderKey =
      if negative then 0x7fffffffffffffff - bits else bits + 0x8000000000000000 := by
  have hword : ∀ k < UInt64.size, (UInt64.ofNat k).toNat = k := fun k hk =>
    UInt64.toNat_ofNat_of_lt' hk
  have hsize : UInt64.size = 0x10000000000000000 := rfl
  unfold orderKey Binary64.negative ofMagnitude
  cases negative with
  | true =>
    rw [if_pos rfl, if_pos rfl, hword _ (by omega), if_pos (by simp)]
    omega
  | false =>
    rw [if_neg Bool.false_ne_true, if_neg Bool.false_ne_true, hword _ (by omega),
      if_neg (by simpa using h)]

/-- The order key of a rounded integer, by its sign and the bits of its magnitude. -/
theorem orderKey_ofInt (n : Int) : (ofInt n).orderKey =
    if n < 0 then 0x7fffffffffffffff - min (naturalBits n.natAbs) infinityBits
    else min (naturalBits n.natAbs) infinityBits + 0x8000000000000000 := by
  have hbits : min (naturalBits n.natAbs) infinityBits < 0x8000000000000000 := by
    unfold infinityBits
    omega
  unfold ofInt
  rw [ofRatio_one, orderKey_ofMagnitude _ hbits]
  by_cases h : n < 0
  · rw [if_pos h, if_pos (decide_eq_true h)]
  · rw [if_neg h, if_neg (by simpa using h)]

/-- Rounding never turns integers around. -/
theorem orderKey_ofInt_le {m n : Int} (h : m ≤ n) : (ofInt m).orderKey ≤ (ofInt n).orderKey := by
  rw [orderKey_ofInt, orderKey_ofInt]
  by_cases hm : m < 0
  · by_cases hn : n < 0
    · have hbits := naturalBits_le (m := n.natAbs) (n := m.natAbs) (by omega)
      rw [if_pos hm, if_pos hn]
      omega
    · rw [if_pos hm, if_neg hn]
      omega
  · have hbits := naturalBits_le (m := m.natAbs) (n := n.natAbs) (by omega)
    rw [if_neg hm, if_neg (by omega)]
    omega

/-- Up to `2 ^ 53` no number is infinite. -/
theorem naturalBits_lt_infinity {n : Nat} (h : n ≤ 0x20000000000000) :
    naturalBits n < infinityBits := by
  have hlog : n.log2 ≤ 53 := (log2_le h).trans_eq (Nat.log2_two_pow (n := 53))
  unfold naturalBits infinityBits
  by_cases hzero : n = 0
  · rw [if_pos hzero]
    decide
  · have hbounds := significandOf_bounds hzero
    rw [if_neg hzero]
    omega

/-- Up to 2⁵³ it keeps them apart. -/
theorem orderKey_ofInt_lt {m n : Int} (h : m < n) (hm : m.natAbs ≤ 0x20000000000000)
    (hn : n.natAbs ≤ 0x20000000000000) : (ofInt m).orderKey < (ofInt n).orderKey := by
  have hm' := naturalBits_lt_infinity hm
  have hn' := naturalBits_lt_infinity hn
  rw [orderKey_ofInt, orderKey_ofInt, min_eq_left hm'.le, min_eq_left hn'.le]
  unfold infinityBits at hm' hn'
  by_cases hneg : m < 0
  · by_cases hneg' : n < 0
    · have hbits := naturalBits_lt (m := n.natAbs) (n := m.natAbs) (by omega) hm
      rw [if_pos hneg, if_pos hneg']
      omega
    · rw [if_pos hneg, if_neg hneg']
      omega
  · have hbits := naturalBits_lt (m := m.natAbs) (n := n.natAbs) (by omega) hn
    rw [if_neg hneg, if_neg (by omega)]
    omega

end RecordStore.Binary64
