import RecordStore.Proofs.DecimalOrder

/-!
# Decimals that went through their text

The text of a decimal does not tell how many zeros at the end of a whole number belong to its scale,
nor the scale of zero. `restored` is the decimal that a text is read as (`parse?_text`); it has the
same text (`text_restored`) and is the same number (`cmp_restored`), which is all that comparing
decimals goes by.
-/

namespace RecordStore.Decimal

/-- What is left of a decimal once it went through its text. -/
def restored (d : Decimal) : Decimal :=
  if d.coefficient = 0 then ⟨0, 0⟩
  else if d.scale < 0 ∧ -d.scale ≤ trailingZeroLimit then
    ⟨d.coefficient * Digits.tenTo (-d.scale).toNat, 0⟩
  else d

/-- The sign in front of a decimal. -/
def signOf (d : Decimal) : List Char := if d.coefficient < 0 then ['-'] else []

/-- The places behind a point, without a point if there are none. -/
def pointed (places : List Char) : List Char := if places = [] then [] else '.' :: places

/-- The sign and the digits of an exponent. -/
def exponentDigits (e : Int) : List Char := (if e < 0 then '-' else '+') :: Digits.ofNat e.natAbs

/-! ## Reading a text back -/

/-- The digits of an exponent are read back, if it has at most 128 bits. -/
theorem readExponent?_digits (e : Int) : readExponent? (exponentDigits e) =
    (some e).filter fun n => -exponentLimit ≤ n ∧ n < exponentLimit := by
  have hne : Digits.ofNat e.natAbs ≠ [] := Digits.ofNat_ne_nil _
  have hall : (Digits.ofNat e.natAbs).all Digits.isDigit = true :=
    List.all_eq_true.mpr fun c hc => Digits.isDigit_of_mem_ofNat hc
  have hnatAbs : (if e < 0 then -(e.natAbs : Int) else e.natAbs) = e := by
    split
    next => omega
    next => omega
  unfold exponentDigits readExponent?
  split at hnatAbs
  next hneg =>
    rw [if_pos hneg]
    simp only [ne_eq, hne, not_false_eq_true, hall, and_self, if_true, Digits.toNat_ofNat,
      Option.pure_def, Option.bind_eq_bind, Option.bind_some, Option.map_some, hnatAbs]
  next hneg =>
    rw [if_neg hneg]
    simp only [ne_eq, hne, not_false_eq_true, hall, and_self, if_true, Digits.toNat_ofNat,
      Option.map_some, Int.ofNat_eq_natCast, hnatAbs]

theorem ne_of_isDigit {c c' : Char} (h : Digits.isDigit c = true)
    (h' : Digits.isDigit c' = false) : c ≠ c' := by
  intro heq
  rw [heq, h'] at h
  cases h

/-- Digits after a sign are read as the number they spell. -/
theorem readInt?_digits {d : Decimal} {digits : List Char} (hne : digits ≠ [])
    (hdigits : ∀ c ∈ digits, Digits.isDigit c = true) :
    readInt? (d.signOf ++ digits) =
      some (if d.coefficient < 0 then -(Digits.toNat digits : Int) else Digits.toNat digits) := by
  obtain ⟨first, rest, rfl⟩ := List.exists_cons_of_ne_nil hne
  have hother : ∀ c : Char, Digits.isDigit c = false → first ≠ c := fun c =>
    ne_of_isDigit (hdigits first (List.mem_cons_self ..))
  have hkept : (first :: rest).filter (· != '_') = first :: rest := by
    refine List.filter_eq_self.mpr fun c hc => ?_
    rw [bne_iff_ne]
    exact ne_of_isDigit (hdigits c hc) rfl
  have hnat : readNat? (first :: rest) = some (Digits.toNat (first :: rest)) := by
    unfold readNat?
    split
    next heq => cases heq
    next heq => exact absurd (List.cons.inj heq).1 (hother '_' rfl)
    next =>
      rw [if_pos, hkept]
      refine List.all_eq_true.mpr fun c hc => ?_
      rw [hdigits c hc, Bool.true_or]
  unfold signOf
  split
  next =>
    unfold readInt?
    simp [hnat]
  next =>
    unfold readInt?
    rw [List.nil_append]
    split
    next heq => exact absurd (List.cons.inj heq).1 (hother '-' rfl)
    next heq => exact absurd (List.cons.inj heq).1 (hother '+' rfl)
    next =>
      rw [hnat]
      rfl

/-- What may follow the places: nothing, or a mark and an exponent. -/
def IsTail (tail : List Char) (exponent : Int) : Prop :=
  tail = [] ∧ exponent = 0 ∨
    ∃ mark, (mark == 'e' || mark == 'E') = true ∧ tail = mark :: exponentDigits exponent

section Spelled

variable {d e : Decimal} {whole places tail : List Char} {exponent : Int}

/-- The only sign that is written is the minus. -/
theorem mem_signOf {c : Char} (h : c ∈ d.signOf) : c = '-' := by
  unfold signOf at h
  split at h
  next => exact List.mem_singleton.mp h
  next => cases h

/-- An exponent is told by its mark, which is no character in front of it. -/
theorem tail_stops (hdigits : ∀ c ∈ whole ++ places, Digits.isDigit c = true)
    (htail : IsTail tail exponent) :
    (d.signOf ++ whole ++ pointed places ++ tail).takeWhile (fun c => !(c == 'e' || c == 'E')) =
        d.signOf ++ whole ++ pointed places ∧
      (d.signOf ++ whole ++ pointed places ++ tail).dropWhile
        (fun c => !(c == 'e' || c == 'E')) = tail := by
  refine Digits.takeWhile_stops (fun c hc => ?_) fun c hc => ?_
  -- In front of the exponent there are a sign, a point and digits.
  · have hkind : c = '-' ∨ c = '.' ∨ Digits.isDigit c = true := by
      rcases List.mem_append.mp hc with hc | hc
      · rcases List.mem_append.mp hc with hc | hc
        · exact .inl (mem_signOf hc)
        · exact .inr (.inr (hdigits c (List.mem_append_left _ hc)))
      · unfold pointed at hc
        split at hc
        next => cases hc
        next =>
          refine .inr ((List.mem_cons.mp hc).imp_right fun hc => ?_)
          exact hdigits c (List.mem_append_right _ hc)
    rw [Bool.not_eq_true', Bool.or_eq_false_iff, beq_eq_false_iff_ne, beq_eq_false_iff_ne]
    rcases hkind with rfl | rfl | hdigit
    · decide
    · decide
    · exact ⟨ne_of_isDigit hdigit rfl, ne_of_isDigit hdigit rfl⟩
  · rcases htail with ⟨rfl, -⟩ | ⟨mark, hmark, rfl⟩
    · cases hc
    · cases hc
      rw [hmark]
      rfl

/-- The whole part ends where the point is, if there is one. -/
theorem point_stops (hwhole : ∀ c ∈ whole, Digits.isDigit c = true) :
    (d.signOf ++ whole ++ pointed places).takeWhile (· != '.') = d.signOf ++ whole ∧
      (d.signOf ++ whole ++ pointed places).dropWhile (· != '.') = pointed places := by
  refine Digits.takeWhile_stops (fun c hc => ?_) fun c hc => ?_
  · rw [bne_iff_ne]
    rcases List.mem_append.mp hc with hc | hc
    · rw [mem_signOf hc]
      decide
    · exact ne_of_isDigit (hwhole c hc) rfl
  · unfold pointed at hc
    split at hc
    next => cases hc
    next =>
      cases hc
      rfl

theorem drop_pointed : (pointed places).drop 1 = places := by
  unfold pointed
  split
  next hnone =>
    rw [hnone]
    rfl
  next => rfl

/-- A text without a sign that spells `n / 10 ^ scale`: in parts, the digits are those of `n`, and
the places less the exponent are the scale, which the exponent does not exceed. -/
def Spells (text : List Char) (n : Nat) (scale : Int) : Prop :=
  ∃ whole places tail exponent, text = whole ++ pointed places ++ tail ∧ whole ≠ [] ∧
    (∀ c ∈ whole ++ places, Digits.isDigit c = true) ∧ IsTail tail exponent ∧
    Digits.toNat (whole ++ places) = n ∧ (places.length : Int) - exponent = scale ∧
    exponent.natAbs ≤ scale.natAbs

theorem bind_guard {α : Type} {p : Prop} [Decidable p] (r : Option α) :
    (do guard p; r) = if p then r else none := by
  by_cases h : p
  · simp [h]
  · simp [guard, h]

/-- A text is read as what it spells, if the scale is a signed number of 64 bits. -/
theorem parse?_of_spells {text : List Char} {n : Nat} {scale : Int}
    (hspells : Spells text n scale) :
    parse? (String.ofList (d.signOf ++ text)) =
      if -0x8000000000000000 ≤ scale ∧ scale < 0x8000000000000000 then
        some ⟨if d.coefficient < 0 then -(n : Int) else n, scale⟩
      else none := by
  obtain ⟨whole, places, tail, exponent, rfl, hwhole, hdigits, htail, rfl, rfl, hexponent⟩ :=
    hspells
  obtain ⟨htailTake, htailDrop⟩ := tail_stops (d := d) hdigits htail
  have hpoint : (d.signOf ++ whole ++ pointed places).takeWhile (· != '.') = d.signOf ++ whole ∧
      (d.signOf ++ whole ++ pointed places).dropWhile (· != '.') = pointed places :=
    point_stops fun c hc => hdigits c (List.mem_append_left _ hc)
  obtain ⟨hpointTake, hpointDrop⟩ := hpoint
  -- Digits are no underscores, so that every place counts.
  have hcount : places.filter (· != '_') = places := by
    refine List.filter_eq_self.mpr fun c hc => ?_
    rw [bne_iff_ne]
    exact ne_of_isDigit (hdigits c (List.mem_append_right _ hc)) rfl
  have hread := readInt?_digits (d := d) (by simp [hwhole]) hdigits
  rw [← List.append_assoc] at hread
  rw [← List.append_assoc, ← List.append_assoc]
  unfold parse?
  simp only [String.toList_ofList, htailTake, htailDrop, hpointTake, hpointDrop, drop_pointed,
    hcount, hread]
  rcases htail with ⟨rfl, rfl⟩ | ⟨mark, -, rfl⟩
  · dsimp only
    rw [Option.bind_eq_bind, Option.bind_some, bind_guard, Option.bind_some, Option.pure_def]
  · dsimp only
    rw [readExponent?_digits, Option.filter_some]
    by_cases hlimit : -exponentLimit ≤ exponent ∧ exponent < exponentLimit
    · rw [if_pos (decide_eq_true hlimit), Option.bind_eq_bind, Option.bind_some, bind_guard,
        Option.bind_some, Option.pure_def]
    · -- An exponent beyond 128 bits belongs to a scale beyond 64.
      have hscale : ¬(-0x8000000000000000 ≤ (places.length : Int) - exponent ∧
          (places.length : Int) - exponent < 0x8000000000000000) := by
        unfold exponentLimit at hlimit
        omega
      rw [if_neg (by simpa using hlimit), if_neg hscale]
      rfl

end Spelled

/-! ## What the text spells -/

section Forms

variable {n : Nat} {scale : Int}

theorem isDigit_of_mem_zeros {count : Nat} {c : Char} (h : c ∈ Digits.zeros count) :
    Digits.isDigit c = true := by
  rw [List.eq_of_mem_replicate h]
  rfl

/-- Digits alone spell a whole number. -/
theorem spells_whole (n : Nat) : Spells (Digits.ofNat n) n 0 := by
  refine ⟨Digits.ofNat n, [], [], 0, ?_, Digits.ofNat_ne_nil n, fun c hc => ?_, .inl ⟨rfl, rfl⟩,
    ?_, rfl, Nat.le_refl 0⟩
  · simp [pointed]
  · rw [List.append_nil] at hc
    exact Digits.isDigit_of_mem_ofNat hc
  · rw [List.append_nil, Digits.toNat_ofNat]

/-- Digits and an exponent that is not negative. -/
theorem spells_exponent (hscale : scale ≤ 0) :
    Spells (Digits.ofNat n ++ 'e' :: '+' :: Digits.ofNat scale.natAbs) n scale := by
  refine ⟨Digits.ofNat n, [], _, -scale, ?_, Digits.ofNat_ne_nil n, fun c hc => ?_,
    .inr ⟨'e', rfl, rfl⟩, ?_, by simp, by simp⟩
  · unfold exponentDigits
    rw [if_neg (by omega), Int.natAbs_neg]
    simp [pointed]
  · rw [List.append_nil] at hc
    exact Digits.isDigit_of_mem_ofNat hc
  · rw [List.append_nil, Digits.toNat_ofNat]

/-- Digits with a point, and zeros around it if they are too few. -/
theorem spells_positional (hscale : 0 < scale) :
    Spells (Digits.positional (Digits.ofNat n) (-scale)) n scale := by
  unfold Digits.positional
  rw [if_neg (by omega)]
  dsimp only
  rw [Int.natAbs_neg]
  split
  next hlength =>
    -- The point falls among the digits: the last ones are the places.
    have hplaces : ((Digits.ofNat n).drop ((Digits.ofNat n).length - scale.natAbs)).length =
        scale.natAbs := by
      rw [List.length_drop]
      omega
    refine ⟨(Digits.ofNat n).take ((Digits.ofNat n).length - scale.natAbs),
      (Digits.ofNat n).drop ((Digits.ofNat n).length - scale.natAbs), [], 0, ?_, ?_,
      fun c hc => ?_, .inl ⟨rfl, rfl⟩, ?_, ?_, Nat.zero_le _⟩
    · unfold pointed
      rw [if_neg, List.append_nil]
      intro hnil
      rw [hnil, List.length_nil] at hplaces
      omega
    · intro hnil
      have htake := congrArg List.length hnil
      rw [List.length_take, List.length_nil] at htake
      omega
    · rw [List.take_append_drop] at hc
      exact Digits.isDigit_of_mem_ofNat hc
    · rw [List.take_append_drop, Digits.toNat_ofNat]
    · rw [hplaces]
      omega
  next hlength =>
    -- The point falls in front of all digits: zeros fill the gap.
    refine ⟨['0'], Digits.zeros (scale.natAbs - (Digits.ofNat n).length) ++ Digits.ofNat n, [], 0,
      ?_, by simp, fun c hc => ?_, .inl ⟨rfl, rfl⟩, ?_, ?_, Nat.zero_le _⟩
    · unfold pointed
      rw [if_neg (by simp [Digits.ofNat_ne_nil n])]
      simp
    · rcases List.mem_append.mp hc with hc | hc
      · rw [List.mem_singleton.mp hc]
        rfl
      · exact (List.mem_append.mp hc).elim isDigit_of_mem_zeros Digits.isDigit_of_mem_ofNat
    · have hzero : Digits.toNat ['0'] = 0 := rfl
      rw [Digits.toNat_append, Digits.toNat_append, hzero, Digits.toNat_zeros, Digits.toNat_ofNat]
      omega
    · rw [List.length_append, Digits.length_zeros]
      omega

/-- One digit, the others behind a point, and a negative exponent. -/
theorem spells_scientific (hscale : (Digits.ofNat n).length ≤ scale) :
    Spells ((Digits.ofNat n).take 1 ++
      (if ((Digits.ofNat n).drop 1).isEmpty then [] else '.' :: (Digits.ofNat n).drop 1) ++
      'E' :: '-' :: Digits.ofNat (scale + 1 - (Digits.ofNat n).length).natAbs) n scale := by
  have hpositive : 0 < (Digits.ofNat n).length :=
    List.length_pos_iff.mpr (Digits.ofNat_ne_nil n)
  refine ⟨(Digits.ofNat n).take 1, (Digits.ofNat n).drop 1, _,
    -(scale + 1 - (Digits.ofNat n).length), ?_, ?_, fun c hc => ?_, .inr ⟨'E', rfl, rfl⟩, ?_, ?_,
    by omega⟩
  · have hneg : -(scale + 1 - (Digits.ofNat n).length) < 0 := by omega
    unfold pointed exponentDigits
    rw [if_pos hneg, Int.natAbs_neg]
    simp only [List.isEmpty_iff]
  · simp [Digits.ofNat_ne_nil n]
  · rw [List.take_append_drop] at hc
    exact Digits.isDigit_of_mem_ofNat hc
  · rw [List.take_append_drop, Digits.toNat_ofNat]
  · rw [List.length_drop]
    omega

end Forms

/-! ## The restored decimal -/

theorem tenTo_pos (count : Nat) : 0 < Digits.tenTo count := Nat.pow_pos (by decide)

@[simp] theorem sign_restored (d : Decimal) : d.restored.coefficient.sign = d.coefficient.sign := by
  unfold restored
  split
  next hzero => rw [hzero]
  next =>
    split
    next =>
      show (d.coefficient * _).sign = _
      rw [Int.sign_mul, Int.sign_natCast_of_ne_zero (Nat.ne_of_gt (tenTo_pos _)), Int.mul_one]
    next => rfl

/-- The text of a decimal spells the restored one. -/
theorem spells_magnitudeText (d : Decimal) (h : d.coefficient ≠ 0) :
    Spells (magnitudeText (Digits.ofNat d.coefficient.natAbs) d.scale)
      d.restored.coefficient.natAbs d.restored.scale := by
  unfold magnitudeText restored
  dsimp only
  rw [if_neg h]
  -- The four ways of writing: trailing zeros or an exponent, and places or an exponent.
  by_cases hscale : d.scale ≤ 0
  · rw [if_pos hscale]
    by_cases hlimit : -d.scale ≤ trailingZeroLimit
    · rw [if_pos hlimit, ← Digits.ofNat_mul_tenTo (Int.natAbs_ne_zero.mpr h)]
      split
      next =>
        rw [Int.natAbs_mul, Int.natAbs_natCast]
        exact spells_whole _
      next hneg =>
        have hzero : d.scale = 0 := by omega
        rw [hzero]
        show Spells (Digits.ofNat (d.coefficient.natAbs * 1)) d.coefficient.natAbs 0
        rw [Nat.mul_one]
        exact spells_whole _
    · have hkeeps : ¬(d.scale < 0 ∧ -d.scale ≤ trailingZeroLimit) := fun hc => hlimit hc.2
      rw [if_neg hlimit, if_neg hkeeps]
      exact spells_exponent hscale
  · have hkeeps : ¬(d.scale < 0 ∧ -d.scale ≤ trailingZeroLimit) := fun hc => hscale (by omega)
    rw [if_neg hscale, if_neg hkeeps]
    by_cases hlimit : d.scale - (Digits.ofNat d.coefficient.natAbs).length ≤ leadingZeroLimit
    · rw [if_pos hlimit]
      exact spells_positional (by omega)
    · rw [if_neg hlimit]
      unfold leadingZeroLimit at hlimit
      exact spells_scientific (by omega)

/-- A scale of 64 bits, as every decimal that is read has it. -/
def HasWordScale (d : Decimal) : Prop :=
  -0x8000000000000000 ≤ d.scale ∧ d.scale < 0x8000000000000000

instance (d : Decimal) : Decidable d.HasWordScale :=
  inferInstanceAs (Decidable (_ ∧ _))

/-- A restored scale fits into a word if the scale did. -/
theorem HasWordScale.restored {d : Decimal} (h : d.HasWordScale) : d.restored.HasWordScale := by
  unfold Decimal.restored
  split
  next => decide
  next =>
    split
    next =>
      show -0x8000000000000000 ≤ (0 : Int) ∧ (0 : Int) < 0x8000000000000000
      decide
    next => exact h

/-- A decimal is read back from its text as it is restored, if the scale is of 64 bits then. -/
theorem parse?_text_eq (d : Decimal) :
    parse? d.text = if d.restored.HasWordScale then some d.restored else none := by
  unfold text
  split
  next hzero =>
    have hread : parse? "0" = some ⟨0, 0⟩ := by decide
    unfold restored
    rw [if_pos hzero, hread, if_pos (by decide)]
  next hne =>
    have hsign := sign_restored d
    have hcoefficient : (if d.coefficient < 0 then -(d.restored.coefficient.natAbs : Int)
        else d.restored.coefficient.natAbs) = d.restored.coefficient := by
      split
      next hneg =>
        have hneg' : d.restored.coefficient < 0 :=
          Int.sign_eq_neg_one_iff_neg.mp (hsign.trans (Int.sign_eq_neg_one_of_neg hneg))
        omega
      next hneg =>
        have hpos : 0 < d.restored.coefficient :=
          Int.sign_eq_one_iff_pos.mp (hsign.trans (Int.sign_eq_one_of_pos (by omega)))
        omega
    show parse? (String.ofList (d.signOf ++ magnitudeText _ _)) = _
    rw [parse?_of_spells (spells_magnitudeText d hne), hcoefficient]
    exact if_congr Iff.rfl rfl rfl

/-- Nothing but the restored decimal is read. -/
theorem parse?_text {d e : Decimal} (h : parse? d.text = some e) : e = d.restored := by
  rw [parse?_text_eq] at h
  split at h
  next => exact (Option.some.inj h).symm
  next => cases h

/-- With a scale of 64 bits it is read. -/
theorem HasWordScale.parse?_text {d : Decimal} (h : d.HasWordScale) :
    parse? d.text = some d.restored := by
  rw [parse?_text_eq, if_pos h.restored]

/-- What is not zero is written as its sign and its magnitude. -/
theorem text_of_ne_zero {d : Decimal} (h : d.coefficient ≠ 0) : d.text =
    String.ofList (d.signOf ++ magnitudeText (Digits.ofNat d.coefficient.natAbs) d.scale) := by
  unfold text signOf
  rw [if_neg h]

theorem restored_ne_zero {d : Decimal} (h : d.coefficient ≠ 0) : d.restored.coefficient ≠ 0 := by
  rw [Ne, ← Int.sign_eq_zero_iff_zero, sign_restored, Int.sign_eq_zero_iff_zero]
  exact h

/-- A restored decimal has the same text. -/
@[simp] theorem text_restored (d : Decimal) : d.restored.text = d.text := by
  by_cases hzero : d.coefficient = 0
  · unfold text restored
    rw [if_pos hzero, if_pos hzero]
    rfl
  · by_cases hscale : d.scale < 0 ∧ -d.scale ≤ trailingZeroLimit
    · have hrestored : d.restored = ⟨d.coefficient * Digits.tenTo (-d.scale).toNat, 0⟩ := by
        unfold restored
        rw [if_neg hzero, if_pos hscale]
      have hsign : d.restored.signOf = d.signOf := by
        unfold signOf
        simp only [← Int.sign_eq_neg_one_iff_neg, sign_restored]
      rw [text_of_ne_zero (restored_ne_zero hzero), text_of_ne_zero hzero, hsign, hrestored]
      unfold magnitudeText
      dsimp only
      rw [if_pos (by decide), if_pos (by decide), if_pos (by omega), if_pos hscale.2,
        Int.natAbs_mul, Int.natAbs_natCast, Digits.ofNat_mul_tenTo (Int.natAbs_ne_zero.mpr hzero)]
      simp [Digits.zeros]
    · unfold restored
      rw [if_neg hzero, if_neg hscale]

/-! ## Comparing -/

/-- A restored decimal has the same value. -/
theorem toRat_restored (d : Decimal) : d.restored.toRat = d.toRat := by
  unfold restored
  split
  next hzero =>
    unfold toRat
    rw [hzero, Int.cast_zero, zero_mul, zero_mul]
  next =>
    split
    next hscale =>
      have hpower : (10 : Rat) ^ (-d.scale) = 10 ^ (-d.scale).toNat := by
        rw [← zpow_natCast, Int.toNat_of_nonneg (by omega)]
      unfold toRat Digits.tenTo
      rw [hpower, neg_zero, zpow_zero, mul_one, Nat.pow_eq]
      push_cast
      rfl
    next => rfl

/-- A restored decimal compares as the decimal did. -/
theorem cmp_restored (d e : Decimal) : d.restored.cmp e = d.cmp e := by
  rw [cmp_eq_compare_toRat, cmp_eq_compare_toRat, toRat_restored]

end RecordStore.Decimal
