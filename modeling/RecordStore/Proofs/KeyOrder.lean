import RecordStore.Value.Compare
import RecordStore.Proofs.Restored

/-!
# Key codes in value order

Within one kind the byte order of key codes is the order of the values, and integers of both kinds
count as one (`compare_escape`, `compare_encodeInt`, `compare_timestamp`). Between kinds it is not: all
that a walk in key order can rely on is that what has the smaller key code, if it can be compared at
all, is smaller (`lt_of_encode_lt`). Of decimals and values of the user's own kind this is not true, and
neither of integers in front of a double, which are therefore no operands to start at.
-/

namespace RecordStore.Keycode

/-! ## One kind -/

theorem compare_zero_byte {b : UInt8} (h : b ≠ 0x00) : compare 0x00 b = .lt := by
  rw [Bytes.compare_byte, Nat.compare_eq_lt]
  exact Nat.pos_of_ne_zero fun hzero => h (UInt8.toNat_inj.mp hzero)

theorem compare_byte_zero {b : UInt8} (h : b ≠ 0x00) : compare b 0x00 = .gt := by
  rw [Bytes.compare_byte, Nat.compare_eq_gt]
  exact Nat.pos_of_ne_zero fun hzero => h (UInt8.toNat_inj.mp hzero)

/-- The marks keep the order of byte strings: the end sorts below a marked zero, and both below any
other byte. -/
theorem compare_escape : ∀ a b : Bytes, compare (escape a) (escape b) = compare a b
  | [], [] => rfl
  | [], b :: bs => by
    rw [List.compare_nil_cons, escape, escape]
    -- A text that ends is closed by `0x00 0x00`, which is below whatever may stand there instead.
    by_cases hb : b = 0x00
    · rw [if_pos hb]
      rfl
    · rw [if_neg hb, List.compare_cons_cons, compare_zero_byte hb]
      rfl
  | a :: as, [] => by
    rw [List.compare_cons_nil, escape, escape]
    by_cases ha : a = 0x00
    · rw [if_pos ha]
      rfl
    · rw [if_neg ha, List.compare_cons_cons, compare_byte_zero ha]
      rfl
  | a :: as, b :: bs => by
    have ih := compare_escape as bs
    rw [escape, escape]
    by_cases ha : a = 0x00
    · by_cases hb : b = 0x00
      · rw [if_pos ha, if_pos hb, List.compare_cons_cons, List.compare_cons_cons,
          List.compare_cons_cons, ih, ha, hb]
        rfl
      · rw [if_pos ha, if_neg hb, List.compare_cons_cons, List.compare_cons_cons, ha,
          compare_zero_byte hb]
        rfl
    · by_cases hb : b = 0x00
      · rw [if_neg ha, if_pos hb, List.compare_cons_cons, List.compare_cons_cons, hb,
          compare_byte_zero ha]
        rfl
      · rw [if_neg ha, if_neg hb, List.compare_cons_cons, List.compare_cons_cons, ih]

theorem compare_toNat {m n : Int} (hm : 0 ≤ m) (hn : 0 ≤ n) :
    compare m.toNat n.toNat = compare m n := by
  rw [Nat.compare_eq_ite_lt, Int.compare_eq_ite_lt]
  simp only [show m.toNat < n.toNat ↔ m < n by omega, show n.toNat < m.toNat ↔ n < m by omega]

/-- Shifted by `2 ^ 63`, integers of 64 bits compare as before. -/
theorem compare_shifted {m n : Int} (hm : -0x8000000000000000 ≤ m) (hm' : m < 0x8000000000000000)
    (hn : -0x8000000000000000 ≤ n) (hn' : n < 0x8000000000000000) :
    compare (shifted m) (shifted n) = compare m n := by
  unfold shifted
  rw [Bytes.compare_ofNat (shifted_lt hm hm') (shifted_lt hn hn'),
    compare_toNat (by omega) (by omega), Int.compare_eq_ite_lt, Int.compare_eq_ite_lt]
  simp only [Int.add_lt_add_iff_right]

/-- The encodings of integers compare as the integers do. -/
theorem compare_encodeInt {m n : Int} (hm : -0x8000000000000000 ≤ m)
    (hm' : m < 0x10000000000000000) (hn : -0x8000000000000000 ≤ n)
    (hn' : n < 0x10000000000000000) : compare (encodeInt m) (encodeInt n) = compare m n := by
  unfold encodeInt
  by_cases hmneg : m < 0
  · by_cases hnneg : n < 0
    · rw [if_pos hmneg, if_pos hnneg, List.compare_cons_cons,
        compare_shifted hm (by omega) hn (by omega)]
      rfl
    · rw [if_pos hmneg, if_neg hnneg, List.compare_cons_cons, Int.compare_eq_lt.mpr (by omega)]
      rfl
  · by_cases hnneg : n < 0
    · rw [if_neg hmneg, if_pos hnneg, List.compare_cons_cons, Int.compare_eq_gt.mpr (by omega)]
      rfl
    · rw [if_neg hmneg, if_neg hnneg, List.compare_cons_cons,
        Bytes.compare_ofNat (by omega) (by omega), compare_toNat (by omega) (by omega)]
      rfl

theorem encodeInt_inj {m n : Int} (hm : -0x8000000000000000 ≤ m) (hm' : m < 0x10000000000000000)
    (hn : -0x8000000000000000 ≤ n) (hn' : n < 0x10000000000000000)
    (h : encodeInt m = encodeInt n) : m = n := by
  have hsame : compare (encodeInt m) (encodeInt n) = .eq := by
    rw [h]
    exact Std.ReflCmp.compare_self
  rw [compare_encodeInt hm hm' hn hn'] at hsame
  exact compare_eq_iff_eq.mp hsame

/-- Points in time are ordered by their seconds, then by the nanoseconds. -/
theorem compare_timestamp (s t : Timestamp) :
    compare (shifted s.seconds ++ Bytes.ofNat 4 s.nanos) (shifted t.seconds ++ Bytes.ofNat 4 t.nanos)
      = s.cmp t := by
  obtain ⟨sSeconds, sNanos, hs⟩ := s
  obtain ⟨tSeconds, tNanos, ht⟩ := t
  unfold Timestamp.IsValid Timestamp.firstSecond Timestamp.lastSecond at hs ht
  dsimp only
  have hlength : (shifted sSeconds).length = (shifted tSeconds).length := by
    unfold shifted
    rw [Bytes.length_ofNat, Bytes.length_ofNat]
  rw [Bytes.compare_append_of_length_eq hlength,
    compare_shifted (by omega) (by omega) (by omega) (by omega),
    Bytes.compare_ofNat (by omega) (by omega)]
  rfl

/-! ## All kinds -/

section Values

variable {κ : Type} [CustomKind κ]

/-- A key code begins with a tag, which is not below that of nothing. Only a value of the user's own
kind has the highest one. -/
theorem encode_eq_cons (v : Value κ) : ∃ tag more, encode v = tag :: more ∧
    compare nilTag tag ≠ .gt ∧ ((∀ c, v ≠ .custom c) → compare customTag tag = .gt) := by
  cases v with
  | custom c => exact ⟨_, _, rfl, by decide, fun h => absurd rfl (h c)⟩
  | int n | uint n =>
    unfold encode encodeInt
    split
    next => exact ⟨_, _, rfl, by decide, fun _ => by decide⟩
    next => exact ⟨_, _, rfl, by decide, fun _ => by decide⟩
  | _ => exact ⟨_, _, by rw [encode], by decide, fun _ => by decide⟩

/-- The key code of nothing is the smallest one. -/
theorem not_encode_lt_nil (w : Value κ) : compare (encode w) (encode (.nil : Value κ)) ≠ .lt := by
  obtain ⟨tag, more, hcode, htag, -⟩ := encode_eq_cons w
  intro hlt
  have hswap : compare tag nilTag = (compare nilTag tag).swap := Std.OrientedCmp.eq_swap
  rw [hcode, encode, List.compare_cons_cons, hswap] at hlt
  cases hc : compare nilTag tag with
  | lt =>
    rw [hc] at hlt
    cases hlt
  | eq =>
    rw [hc] at hlt
    cases more <;> cases hlt
  | gt => exact htag hc

/-- What is read as an integer has the encoding of that integer. -/
theorem encode_integer {w : Value κ} {n : Int} (h : w.number? = some (.integer n)) :
    encode w = encodeInt n ∧ -0x8000000000000000 ≤ n ∧ n < 0x10000000000000000 := by
  cases w with
  | int m =>
    cases h
    exact ⟨rfl, m.le_toInt, Int.lt_trans m.toInt_lt (by decide)⟩
  | uint m =>
    cases h
    have hlt := m.toNat_lt
    exact ⟨rfl, by omega, by omega⟩
  | _ => cases h

/-- Among integers the smaller key code is that of the smaller one. -/
theorem lt_of_encode_integer_lt {w v : Value κ} {m n : Int} (hw : w.number? = some (.integer m))
    (hv : v.number? = some (.integer n)) (hlt : compare (encode w) (encode v) = .lt) :
    compare m n = .lt := by
  obtain ⟨hwcode, hm, hm'⟩ := encode_integer hw
  obtain ⟨hvcode, hn, hn'⟩ := encode_integer hv
  rw [hwcode, hvcode, compare_encodeInt hm hm' hn hn'] at hlt
  exact hlt

/-- No other number has a smaller key code than an integer. -/
theorem not_encode_lt_integer {tag : UInt8} {more : Bytes} {v : Value κ} {n : Int}
    (htag : compare tag naturalTag = .gt) (hv : v.number? = some (.integer n)) :
    compare (tag :: more) (encode v) ≠ .lt := by
  have htag' : compare tag negativeTag = .gt := by
    rw [Bytes.compare_byte, Nat.compare_eq_gt] at htag ⊢
    exact Nat.lt_trans (by decide) htag
  intro hlt
  rw [(encode_integer hv).1] at hlt
  unfold encodeInt at hlt
  split at hlt
  next =>
    rw [List.compare_cons_cons, htag'] at hlt
    cases hlt
  next =>
    rw [List.compare_cons_cons, htag] at hlt
    cases hlt

/-- What has a smaller key code than an operand to start at is smaller, if the two compare. -/
theorem lt_of_encode_lt {w v : Value κ} {o : Ordering} (hw : ∀ c, w ≠ .custom c)
    (hkeeps : keepsOrder v = true) (hfloat : ∀ x, v ≠ .float x)
    (hlt : compare (encode w) (encode v) = .lt) (h : w.cmp v = .ok o) : o = .lt := by
  cases v with
  -- Nothing is below nil, and the next three kinds give no place to start at.
  | nil => exact absurd hlt (not_encode_lt_nil w)
  | float x => exact absurd rfl (hfloat x)
  | decimal d => cases hkeeps
  | custom c => cases hkeeps
  -- All others compare with nil, which is smaller, and with their own kind.
  | bool b =>
    cases w with
    | nil => cases h; rfl
    | bool a =>
      cases h
      cases a <;> cases b <;> first | rfl | cases hlt
    | custom c => exact absurd rfl (hw c)
    | _ => cases h
  | string s =>
    cases w with
    | nil => cases h; rfl
    | string r =>
      cases h
      rw [encode, encode, List.compare_cons_cons, compare_escape] at hlt
      exact hlt
    | custom c => exact absurd rfl (hw c)
    | _ => cases h
  | bytes b =>
    cases w with
    | nil => cases h; rfl
    | bytes a =>
      cases h
      rw [encode, encode, List.compare_cons_cons, compare_escape] at hlt
      exact hlt
    | custom c => exact absurd rfl (hw c)
    | _ => cases h
  | timestamp t =>
    cases w with
    | nil => cases h; rfl
    | timestamp s =>
      cases h
      rw [encode, encode, List.compare_cons_cons, compare_timestamp] at hlt
      exact hlt
    | custom c => exact absurd rfl (hw c)
    | _ => cases h
  | list items =>
    cases w with
    | nil => cases h; rfl
    | list items' =>
      cases h
      exact hlt
    | custom c => exact absurd rfl (hw c)
    | _ => cases h
  | map entries =>
    cases w with
    | nil => cases h; rfl
    | map entries' =>
      cases h
      exact hlt
    | custom c => exact absurd rfl (hw c)
    | _ => cases h
  | int n | uint n =>
    cases w with
    | nil => cases h; rfl
    | int m | uint m => cases h; exact lt_of_encode_integer_lt rfl rfl hlt
    -- Other numbers compare with integers by size, but their codes are all behind.
    | float x | decimal d => exact absurd hlt (not_encode_lt_integer (by decide) rfl)
    | custom c => exact absurd rfl (hw c)
    | _ => cases h

/-- The key code of a value of the user's own kind is behind those of all other kinds. -/
theorem not_encode_custom_lt {c : κ} {v : Value κ} (h : ∀ c, v ≠ .custom c) :
    compare (encode (.custom c)) (encode v) ≠ .lt := by
  obtain ⟨tag, more, hcode, -, htag⟩ := encode_eq_cons v
  intro hlt
  rw [hcode, encode, List.compare_cons_cons, htag h] at hlt
  cases hlt

/-- Only the encodings of values of the user's own kind are marked so. -/
theorem isCustom_encode {v : Value κ} (h : ∀ c, v ≠ .custom c) : isCustom (encode v) = false := by
  obtain ⟨tag, more, hcode, -, htag⟩ := encode_eq_cons v
  rw [hcode]
  refine decide_eq_false fun heq => ?_
  have hgt := htag h
  rw [heq] at hgt
  cases hgt

end Values

end RecordStore.Keycode
