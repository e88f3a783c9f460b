import RecordStore.Proofs.KeyOrder

/-!
# The order of values

A comparison that no value of the user's own kind decides is one of two (`cmp_eq`): two numbers compare
as numbers, and everything else that compares at all compares as its key codes do. So byte order is
value order wherever numbers keep to it (`compare_encode_of_cmp`), and a comparison comes out turned
around if it is made the other way around (`cmp_symmetric`).
-/

namespace RecordStore

/-- Whether values of a kind are numbers. -/
def Kind.isNumeric : Kind → Bool
  | .int | .uint | .float | .decimal => true
  | _ => false

namespace Number

/-- Numbers compare the other way around if they are turned around. -/
theorem cmp_swap (x y : Number) : (x.cmp y).swap = y.cmp x := by
  cases x with
  | integer m =>
    cases y with
    | integer n => exact Int.compare_swap m n
    | float y => exact Nat.compare_swap _ _
    | decimal e => exact Decimal.cmp_swap _ e
  | float x => cases y <;> exact Nat.compare_swap _ _
  | decimal d =>
    cases y with
    | integer n => exact Decimal.cmp_swap d _
    | float y => exact Nat.compare_swap _ _
    | decimal e => exact Decimal.cmp_swap d e

theorem cmp_self (x : Number) : x.cmp x = .eq := by
  have hswap := x.cmp_swap x
  cases h : x.cmp x with
  | eq => rfl
  | lt =>
    rw [h] at hswap
    cases hswap
  | gt =>
    rw [h] at hswap
    cases hswap

end Number

namespace Value

variable {κ : Type} [CustomKind κ] {a b : Value κ} {o : Ordering}

omit [CustomKind κ] in
/-- The numeric kinds are read as numbers, the others are not. -/
theorem isSome_number? (v : Value κ) : v.number?.isSome = v.kind.isNumeric := by
  cases v <;> rfl

/-! ## Key codes in value order -/

/-- `nil` has the smallest key code, and no other value has it. -/
theorem compare_encode_nil (v : Value κ) (h : v.kind ≠ .nil) :
    compare (Keycode.encode (.nil : Value κ)) (Keycode.encode v) = .lt := by
  cases v with
  | nil => exact absurd rfl h
  | int n | uint n =>
    unfold Keycode.encode Keycode.encodeInt
    split
    next => rfl
    next => rfl
  | _ =>
    unfold Keycode.encode
    rfl

/-- Every other encoding is above that of nil. -/
theorem compare_nil_encode (v : Value κ) (h : v.kind ≠ .nil) :
    compare (Keycode.encode v) (Keycode.encode (.nil : Value κ)) = .gt :=
  Std.OrientedCmp.gt_iff_lt.mpr (compare_encode_nil v h)

/-- Numbers compare as numbers; all other values compare as their key codes, if there is `nil` on one
side or one kind on both. -/
theorem cmp_eq (ha : ∀ c, a ≠ .custom c) (hb : ∀ c, b ≠ .custom c) :
    a.cmp b = match a.number?, b.number? with
      | some x, some y => .ok (x.cmp y)
      | _, _ =>
        if a.kind = .nil ∨ b.kind = .nil ∨ a.kind = b.kind then
          .ok (compare (Keycode.encode a) (Keycode.encode b))
        else .error (mismatch a b) := by
  -- The cases are those of the comparison. Where it does not go by the encodings itself, a lemma about
  -- the encoding of that kind says that it might as well.
  cases a with
  | custom c => exact absurd rfl (ha c)
  | nil =>
    cases b with
    | custom c => exact absurd rfl (hb c)
    | nil => rfl
    | _ => exact congrArg Except.ok (compare_encode_nil _ (by rintro ⟨⟩)).symm
  | int m | uint m | float x | decimal d =>
    cases b with
    | custom c => exact absurd rfl (hb c)
    | nil => exact congrArg Except.ok (compare_nil_encode _ (by rintro ⟨⟩)).symm
    | _ => rfl
  | bool p =>
    cases b with
    | custom c => exact absurd rfl (hb c)
    | nil => exact congrArg Except.ok (compare_nil_encode _ (by rintro ⟨⟩)).symm
    | bool q => cases p <;> cases q <;> rfl
    | _ => rfl
  | string r =>
    cases b with
    | custom c => exact absurd rfl (hb c)
    | nil => exact congrArg Except.ok (compare_nil_encode _ (by rintro ⟨⟩)).symm
    | string s =>
      refine congrArg Except.ok ?_
      rw [Keycode.encode, Keycode.encode, List.compare_cons_cons, Keycode.compare_escape]
      rfl
    | _ => rfl
  | bytes b' =>
    cases b with
    | custom c => exact absurd rfl (hb c)
    | nil => exact congrArg Except.ok (compare_nil_encode _ (by rintro ⟨⟩)).symm
    | bytes c' =>
      refine congrArg Except.ok ?_
      rw [Keycode.encode, Keycode.encode, List.compare_cons_cons, Keycode.compare_escape]
      rfl
    | _ => rfl
  | timestamp s =>
    cases b with
    | custom c => exact absurd rfl (hb c)
    | nil => exact congrArg Except.ok (compare_nil_encode _ (by rintro ⟨⟩)).symm
    | timestamp t =>
      refine congrArg Except.ok ?_
      rw [Keycode.encode, Keycode.encode, List.compare_cons_cons, Keycode.compare_timestamp]
      rfl
    | _ => rfl
  | list items | map entries =>
    cases b with
    | custom c => exact absurd rfl (hb c)
    | nil => exact congrArg Except.ok (compare_nil_encode _ (by rintro ⟨⟩)).symm
    | _ => rfl

omit [CustomKind κ] in
theorem exists_number?_iff : (∃ x y, a.number? = some x ∧ b.number? = some y) ↔
    a.kind.isNumeric = true ∧ b.kind.isNumeric = true := by
  rw [← isSome_number?, ← isSome_number?, Option.isSome_iff_exists, Option.isSome_iff_exists]
  exact exists_and_exists_comm.symm

/-- Two values compare as numbers if both are, and otherwise by their encodings if the kinds are equal
or one is nil. -/
theorem cmp_eq_ok_iff (ha : ∀ c, a ≠ .custom c) (hb : ∀ c, b ≠ .custom c) :
    a.cmp b = .ok o ↔ (∃ x y, a.number? = some x ∧ b.number? = some y ∧ x.cmp y = o) ∨
      ¬(a.kind.isNumeric = true ∧ b.kind.isNumeric = true) ∧
        (a.kind = .nil ∨ b.kind = .nil ∨ a.kind = b.kind) ∧
        compare (Keycode.encode a) (Keycode.encode b) = o := by
  rw [cmp_eq ha hb, ← exists_number?_iff]
  split
  next x y hx hy =>
    rw [Except.ok.injEq]
    constructor
    · intro h
      exact .inl ⟨x, y, hx, hy, h⟩
    · rintro (⟨x', y', hx', hy', h⟩ | ⟨hnot, -⟩)
      · rw [hx] at hx'
        rw [hy] at hy'
        cases hx'
        cases hy'
        exact h
      · exact absurd ⟨x, y, hx, hy⟩ hnot
  next hnot =>
    have hnot' : ¬∃ x y, a.number? = some x ∧ b.number? = some y := by
      rintro ⟨x, y, hx, hy⟩
      exact hnot x y hx hy
    have hcodes : ¬∃ x y, a.number? = some x ∧ b.number? = some y ∧ x.cmp y = o := by
      rintro ⟨x, y, hx, hy, -⟩
      exact hnot x y hx hy
    rw [or_iff_right hcodes, and_iff_right hnot']
    split
    next hkinds => rw [Except.ok.injEq, and_iff_right hkinds]
    next hkinds =>
      refine ⟨by rintro ⟨⟩, ?_⟩
      rintro ⟨h, -⟩
      exact absurd h hkinds

/-- Values fail to compare if they are of different kinds, neither is `nil`, and not both are
numbers. -/
theorem cmp_eq_error_iff (ha : ∀ c, a ≠ .custom c) (hb : ∀ c, b ≠ .custom c) {e : Error} :
    a.cmp b = .error e ↔ e = mismatch a b ∧ a.kind ≠ .nil ∧ b.kind ≠ .nil ∧
      ¬(a.kind.isNumeric = true ∧ b.kind.isNumeric = true) ∧ a.kind ≠ b.kind := by
  rw [cmp_eq ha hb, ← exists_number?_iff]
  split
  next x y hx hy =>
    refine ⟨by rintro ⟨⟩, ?_⟩
    rintro ⟨-, -, -, hnot, -⟩
    exact absurd ⟨x, y, hx, hy⟩ hnot
  next hnot =>
    have hnot' : ¬∃ x y, a.number? = some x ∧ b.number? = some y := by
      rintro ⟨x, y, hx, hy⟩
      exact hnot x y hx hy
    have hkinds : ¬(a.kind = .nil ∨ b.kind = .nil ∨ a.kind = b.kind) ↔
        a.kind ≠ .nil ∧ b.kind ≠ .nil ∧ a.kind ≠ b.kind := by
      rw [not_or, not_or]
    rw [and_iff_right hnot', ← hkinds]
    split
    next h =>
      refine ⟨by rintro ⟨⟩, ?_⟩
      rintro ⟨-, hne⟩
      exact absurd h hne
    next h => rw [Except.error.injEq, eq_comm, and_iff_left h]

/-- Integers of both kinds have key codes in their order, and so have doubles among themselves. -/
theorem compare_encode_of_numbers {x y : Number} (hx : a.number? = some x) (hy : b.number? = some y)
    (ha : Keycode.keepsOrder a = true) (hb : Keycode.keepsOrder b = true)
    (hab : a.kind = .float → b.kind ≠ .int ∧ b.kind ≠ .uint)
    (hba : b.kind = .float → a.kind ≠ .int ∧ a.kind ≠ .uint) :
    compare (Keycode.encode a) (Keycode.encode b) = x.cmp y := by
  have hintegers : ∀ {m n : Int}, a.number? = some (.integer m) → b.number? = some (.integer n) →
      compare (Keycode.encode a) (Keycode.encode b) = compare m n := by
    intro m n hm hn
    obtain ⟨hacode, hm, hm'⟩ := Keycode.encode_integer hm
    obtain ⟨hbcode, hn, hn'⟩ := Keycode.encode_integer hn
    rw [hacode, hbcode, Keycode.compare_encodeInt hm hm' hn hn']
  -- What remains are integers of either kind and two floats: mixed pairs and decimals are excluded.
  cases a with
  | int m =>
    cases b with
    | int n | uint n =>
      cases hx
      cases hy
      exact hintegers rfl rfl
    | float y => exact absurd rfl (hba rfl).1
    | decimal e => cases hb
    | _ => cases hy
  | uint m =>
    cases b with
    | int n | uint n =>
      cases hx
      cases hy
      exact hintegers rfl rfl
    | float y => exact absurd rfl (hba rfl).2
    | decimal e => cases hb
    | _ => cases hy
  | float x =>
    cases b with
    | float y =>
      cases hx
      cases hy
      rw [Keycode.encode, Keycode.encode, List.compare_cons_cons,
        Bytes.compare_ofNat x.orderKey_lt y.orderKey_lt]
      rfl
    | int n => exact absurd rfl (hab rfl).1
    | uint n => exact absurd rfl (hab rfl).2
    | decimal e => cases hb
    | _ => cases hy
  | decimal d => cases ha
  | _ => cases hx

omit [CustomKind κ] in
theorem ne_custom_of_keepsOrder (h : Keycode.keepsOrder a = true) (c : κ) : a ≠ .custom c := by
  rintro rfl
  cases h

/-- Byte order is value order: where two values compare their key codes compare alike, unless one of the
two is a decimal or of the user's own kind, or one is a double and the other an integer. -/
theorem compare_encode_of_cmp (ha : Keycode.keepsOrder a = true) (hb : Keycode.keepsOrder b = true)
    (hab : a.kind = .float → b.kind ≠ .int ∧ b.kind ≠ .uint)
    (hba : b.kind = .float → a.kind ≠ .int ∧ a.kind ≠ .uint) (h : a.cmp b = .ok o) :
    compare (Keycode.encode a) (Keycode.encode b) = o := by
  rw [cmp_eq_ok_iff (ne_custom_of_keepsOrder ha) (ne_custom_of_keepsOrder hb)] at h
  rcases h with ⟨x, y, hx, hy, h⟩ | ⟨-, -, h⟩
  · rw [compare_encode_of_numbers hx hy ha hb hab hba]
    exact h
  · exact h

/-- The integers at either end of their range, and two byte strings one of which starts the other. -/
theorem compare_encode_of_cmp_ends :
    compare (Keycode.encode (.int Int64.minValue : Value Empty))
      (Keycode.encode (.uint 0xffffffffffffffff : Value Empty)) = .lt ∧
    compare (Keycode.encode (.bytes [0x61, 0x00, 0x62] : Value Empty))
      (Keycode.encode (.bytes [0x61] : Value Empty)) = .gt :=
  ⟨compare_encode_of_cmp rfl rfl (by rintro ⟨⟩) (by rintro ⟨⟩) rfl,
    compare_encode_of_cmp rfl rfl (by rintro ⟨⟩) (by rintro ⟨⟩) rfl⟩

/-- Integers all have smaller key codes than doubles. -/
example : (.int 1 : Value Empty).cmp (.float ⟨0x3fe0000000000000⟩) = .ok .gt ∧
    compare (Keycode.encode (.int 1 : Value Empty))
      (Keycode.encode (.float ⟨0x3fe0000000000000⟩ : Value Empty)) = .lt := by
  decide +kernel

/-! ## Both ways around -/

/-- What compares, compares the other way around if it is turned around. -/
theorem cmp_swap (ha : ∀ c, a ≠ .custom c) (hb : ∀ c, b ≠ .custom c) (h : a.cmp b = .ok o) :
    b.cmp a = .ok o.swap := by
  rw [cmp_eq_ok_iff ha hb] at h
  rw [cmp_eq_ok_iff hb ha]
  rcases h with ⟨x, y, hx, hy, rfl⟩ | ⟨hnot, hkinds, rfl⟩
  · exact .inl ⟨y, x, hy, hx, (x.cmp_swap y).symm⟩
  · refine .inr ⟨fun h => hnot h.symm, ?_, Std.OrientedCmp.eq_swap⟩
    rcases hkinds with h | h | h
    · exact .inr (.inl h)
    · exact .inl h
    · exact .inr (.inr h.symm)

theorem cmp_self (ha : ∀ c, a ≠ .custom c) : a.cmp a = .ok .eq := by
  rw [cmp_eq_ok_iff ha ha]
  cases hx : a.number? with
  | some x => exact .inl ⟨x, x, rfl, rfl, x.cmp_self⟩
  | none =>
    refine .inr ⟨?_, .inr (.inr rfl), Std.ReflCmp.compare_self⟩
    rw [← isSome_number?, hx]
    exact fun h => Bool.noConfusion h.1

/-- A value compares equal to itself. Two values fail to compare whichever comes first, and that is if
they are of different kinds, neither is `nil` and not both are numbers. If they compare then turning
them around turns the answer around. -/
theorem cmp_symmetric (ha : ∀ c, a ≠ .custom c) (hb : ∀ c, b ≠ .custom c) :
    a.cmp a = .ok .eq ∧
    ((∃ e, a.cmp b = .error e) ↔ ∃ e, b.cmp a = .error e) ∧
    ((∃ e, a.cmp b = .error e) ↔ a.kind ≠ .nil ∧ b.kind ≠ .nil ∧
      ¬(a.kind.isNumeric = true ∧ b.kind.isNumeric = true) ∧ a.kind ≠ b.kind) ∧
    (∀ e, a.cmp b = .error e → e = mismatch a b) ∧
    ∀ o, a.cmp b = .ok o → b.cmp a = .ok o.swap := by
  have hfails : ∀ {v w : Value κ}, (∀ c, v ≠ .custom c) → (∀ c, w ≠ .custom c) →
      ((∃ e, v.cmp w = .error e) ↔ v.kind ≠ .nil ∧ w.kind ≠ .nil ∧
        ¬(v.kind.isNumeric = true ∧ w.kind.isNumeric = true) ∧ v.kind ≠ w.kind) := by
    intro v w hv hw
    simp only [cmp_eq_error_iff hv hw, exists_eq_left]
  refine ⟨cmp_self ha, ?_, hfails ha hb, fun e h => ((cmp_eq_error_iff ha hb).mp h).1,
    fun o h => cmp_swap ha hb h⟩
  rw [hfails ha hb, hfails hb ha]
  constructor
  · rintro ⟨hanil, hbnil, hnot, hne⟩
    exact ⟨hbnil, hanil, fun h => hnot h.symm, hne.symm⟩
  · rintro ⟨hbnil, hanil, hnot, hne⟩
    exact ⟨hanil, hbnil, fun h => hnot h.symm, hne.symm⟩

/-- A value that compares with nothing. -/
structure Sealed where
  content : Bytes

instance : CustomKind Sealed where
  compareTo c v := .error (mismatch (.custom c) v)
  toBytes := Sealed.content
  text _ := "sealed"

/-- Inside lists even values that compare with nothing have their place. -/
theorem cmp_symmetric_sealed :
    (.list [.custom ⟨[0x02]⟩] : Value Sealed).cmp (.list [.custom ⟨[0x01]⟩, .nil]) = .ok .gt ∧
    (.list [.custom ⟨[0x01]⟩, .nil] : Value Sealed).cmp (.list [.custom ⟨[0x02]⟩]) = .ok .lt :=
  ⟨rfl, (cmp_symmetric (by rintro c ⟨⟩) (by rintro c ⟨⟩)).2.2.2.2 .gt rfl⟩

end Value

end RecordStore
