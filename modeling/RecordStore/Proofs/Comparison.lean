import RecordStore.Query.Criterion
import RecordStore.Proofs.KeyOrder

/-!
# Conditions on restored values

A walk of an index asks its conditions of values that went through their key codes, and a walk of the
records asks them of the values themselves. Without a part of the user's own kind on either side the
answers are the same (`holdsOf_restored`), up to the text of an error; only the double that a decimal is
taken for, when it is compared with a double, may depend on how it was scaled, so that these comparisons
have to be the same by themselves (`KeepsDoubles`).
-/

namespace RecordStore

/-- The answers are the same; why there is none is left open. -/
def SameAnswer {α : Type} (x y : Except Error α) : Prop := ∀ a, x = .ok a ↔ y = .ok a

namespace SameAnswer

variable {α β : Type} {x y z : Except Error α}

theorem refl (x : Except Error α) : SameAnswer x x := fun _ => Iff.rfl

/-- Two failures are the same answer, for the reason is left open. -/
theorem error (e e' : Error) : SameAnswer (α := α) (.error e) (.error e') := by
  intro a
  constructor
  · intro h
    cases h
  · intro h
    cases h

/-- Either both fail or both give one answer. -/
theorem cases (h : SameAnswer x y) :
    (∃ a, x = .ok a ∧ y = .ok a) ∨ ∃ e e', x = .error e ∧ y = .error e' := by
  cases x with
  | ok a => exact .inl ⟨a, rfl, (h a).mp rfl⟩
  | error e =>
    cases y with
    | ok a => cases (h a).mpr rfl
    | error e' => exact .inr ⟨e, e', rfl, rfl⟩

theorem map (h : SameAnswer x y) (f : α → β) : SameAnswer (x.map f) (y.map f) := by
  rcases h.cases with ⟨a, rfl, rfl⟩ | ⟨e, e', rfl, rfl⟩
  · exact refl _
  · exact error e e'

/-- Searches give the same answer if they start so and go on in the same way where nothing is found yet. -/
theorem orElse {found found' rest rest' : Except Error Bool} :
    SameAnswer found found' → SameAnswer rest rest' →
    SameAnswer
      (match found with
        | .error e => .error e
        | .ok true => .ok true
        | .ok false => rest)
      (match found' with
        | .error e => .error e
        | .ok true => .ok true
        | .ok false => rest') := by
  intro h hrest
  rcases h.cases with ⟨b, rfl, rfl⟩ | ⟨e, e', rfl, rfl⟩
  · cases b with
    | true => exact refl _
    | false => exact hrest
  · exact error e e'

end SameAnswer

namespace Value

variable {κ : Type} [CustomKind κ]

/-- What a condition on a value compares: the value, the items of a list, the keys of a map. -/
def comparands : Value κ → List (Value κ)
  | .list items => .list items :: items
  | .map entries => .map entries :: entries.map (·.1)
  | v => [v]

/-- Comparing a decimal with a double comes out the same once it is restored. -/
def KeepsDouble (w v : Value κ) : Prop :=
  ∀ d x, w = .decimal d → v = .float x →
    d.restored.toBinary64.totalCompare x = d.toBinary64.totalCompare x

/-- The coefficient is rounded before the zero is counted in, and the key code has the zero in the
coefficient. -/
example : ¬(.decimal ⟨9007199254740993, -1⟩ : Value Empty).KeepsDouble
    (.float ⟨0x4374000000000000⟩) := by
  intro h
  exact absurd (h _ _ rfl rfl) (by decide +kernel)

omit [CustomKind κ] in
/-- A natural below `2 ^ 64` is read as the integer it is. -/
theorem number?_natural (n : UInt64) :
    (Keycode.natural n.toNat : Value κ).number? = some (.integer n.toNat) := by
  unfold Keycode.natural
  split
  next hsmall =>
    show some (Number.integer (Int64.ofNat n.toNat).toInt) = _
    rw [Int64.toInt_ofNat_of_lt hsmall]
  next =>
    rw [UInt64.ofNat_toNat]
    rfl

/-- A number compares with nothing, and with other numbers. -/
theorem cmp_of_number {w v : Value κ} {x : Number} (hw : w.number? = some x)
    (hv : v.hasCustomPart = false) :
    w.cmp v = if v.isNil then .ok .gt
      else match v.number? with
        | some y => .ok (x.cmp y)
        | none => .error (mismatch w v) := by
  cases v with
  | custom c => cases hv
  | _ =>
    cases w with
    | int n => cases hw; rfl
    | uint n => cases hw; rfl
    | float x => cases hw; rfl
    | decimal d => cases hw; rfl
    | _ => cases hw

/-- Numbers that compare alike with other numbers compare alike with everything. -/
theorem sameAnswer_of_numbers {w w' v : Value κ} {x x' : Number} (hw : w.number? = some x)
    (hw' : w'.number? = some x') (hv : v.hasCustomPart = false)
    (h : ∀ y, v.number? = some y → x.cmp y = x'.cmp y) : SameAnswer (w.cmp v) (w'.cmp v) := by
  rw [cmp_of_number hw hv, cmp_of_number hw' hv]
  split
  next => exact .refl _
  next =>
    cases hy : v.number? with
    | none => exact .error _ _
    | some y =>
      dsimp only
      rw [h y hy]
      exact .refl _

/-- A restored value compares as the value itself. -/
theorem cmp_restored {w v : Value κ} (hw : w.hasCustomPart = false) (hv : v.hasCustomPart = false)
    (hdouble : w.KeepsDouble v) : SameAnswer (w.restored.cmp v) (w.cmp v) := by
  have hcode := Keycode.encode_restored hw
  cases w with
  -- Only an unsigned integer and a decimal are restored to another value; the others keep their
  -- encoding.
  | uint n => exact sameAnswer_of_numbers (number?_natural n) rfl hv fun _ _ => rfl
  | decimal d =>
    have hcmp : ∀ y, v.number? = some y →
        (Number.decimal d.restored).cmp y = (Number.decimal d).cmp y := by
      intro y hy
      cases y with
      | integer n => exact Decimal.cmp_restored d _
      | decimal e => exact Decimal.cmp_restored d e
      | float x =>
        refine hdouble d x rfl ?_
        cases v with
        | float x' => cases hy; rfl
        | _ => cases hy
    exact sameAnswer_of_numbers rfl rfl hv hcmp
  | list items =>
    rw [restored] at hcode ⊢
    cases v with
    | list items' =>
      show SameAnswer (.ok (compare (Keycode.encode _) _)) (.ok (compare (Keycode.encode _) _))
      rw [hcode]
      exact .refl _
    | custom c => cases hv
    | nil => exact .refl _
    | _ => exact .error _ _
  | map entries =>
    rw [restored] at hcode ⊢
    cases v with
    | map entries' =>
      show SameAnswer (.ok (compare (Keycode.encode _) _)) (.ok (compare (Keycode.encode _) _))
      rw [hcode]
      exact .refl _
    | custom c => cases hv
    | nil => exact .refl _
    | _ => exact .error _ _
  | custom c => cases hw
  | _ => exact .refl _

omit [CustomKind κ] in
/-- No value has a custom part exactly if the list is found free of them. -/
theorem anyHasCustomPart_eq_false {vs : List (Value κ)} :
    anyHasCustomPart vs = false ↔ ∀ v ∈ vs, v.hasCustomPart = false := by
  induction vs with
  | nil => simp [anyHasCustomPart]
  | cons v vs ih => rw [anyHasCustomPart, Bool.or_eq_false_iff, ih, List.forall_mem_cons]

omit [CustomKind κ] in
theorem hasCustomPart_of_mem_keys {es : List (Value κ × Value κ)}
    (h : anyEntryHasCustomPart es = false) : ∀ k ∈ es.map (·.1), k.hasCustomPart = false := by
  induction es with
  | nil => simp
  | cons e es ih =>
    obtain ⟨k, v⟩ := e
    obtain ⟨hkv, hes⟩ := Bool.or_eq_false_iff.mp h
    rw [List.map_cons, List.forall_mem_cons]
    exact ⟨(Bool.or_eq_false_iff.mp hkv).1, ih hes⟩

end Value

namespace Condition

variable {κ ρ : Type} [CustomKind κ]

/-- Restoring the decimals that a condition compares with doubles changes no comparison. -/
def KeepsDoubles (c : Condition κ ρ) (w : Value κ) : Prop :=
  ∀ part ∈ w.comparands, ∀ v ∈ c.operands, part.KeepsDouble v

omit [CustomKind κ] in
theorem mem_comparands_self (w : Value κ) : w ∈ w.comparands := by
  cases w with
  | list items => exact List.mem_cons_self ..
  | map entries => exact List.mem_cons_self ..
  | _ => exact List.mem_singleton.mpr rfl

omit [CustomKind κ] in
/-- A condition may compare each item of the value. -/
theorem mem_comparands_of_mem_itemsOf {w item : Value κ} (h : item ∈ itemsOf w) :
    item ∈ w.comparands := by
  cases w with
  | nil => cases h
  | list items => exact List.mem_cons_of_mem _ h
  | map entries =>
    rw [List.mem_singleton.mp h]
    exact List.mem_cons_self ..
  | _ => exact h

/-- Items that compare alike with a value are searched for it alike. -/
theorem sameAnswer_isAmong {value : Value κ} {f : Value κ → Value κ} :
    ∀ {items : List (Value κ)}, (∀ item ∈ items, SameAnswer ((f item).cmp value) (item.cmp value)) →
      SameAnswer (isAmong value (items.map f)) (isAmong value items)
  | [], _ => .refl _
  | item :: items, h => by
    have hrest := sameAnswer_isAmong fun item' h' => h item' (List.mem_cons_of_mem _ h')
    rw [List.map_cons, isAmong, isAmong]
    exact ((h item (List.mem_cons_self ..)).map Ordering.isEq).orElse hrest

/-- Whether any wanted value is among the items goes by the comparisons alone. -/
theorem sameAnswer_anyAmong {f : Value κ → Value κ} {items : List (Value κ)} :
    ∀ {wanted : List (Value κ)},
      (∀ v ∈ wanted, ∀ item ∈ items, SameAnswer ((f item).cmp v) (item.cmp v)) →
      SameAnswer (anyAmong (items.map f) wanted) (anyAmong items wanted)
  | [], _ => .refl _
  | v :: wanted, h => by
    have hrest := sameAnswer_anyAmong fun v' h' => h v' (List.mem_cons_of_mem _ h')
    rw [anyAmong, anyAmong]
    exact (sameAnswer_isAmong (h v (List.mem_cons_self ..))).orElse hrest

/-- Whether all wanted values are among the items goes by the comparisons alone. -/
theorem sameAnswer_allAmong {f : Value κ → Value κ} {items : List (Value κ)} :
    ∀ {wanted : List (Value κ)},
      (∀ v ∈ wanted, ∀ item ∈ items, SameAnswer ((f item).cmp v) (item.cmp v)) →
      SameAnswer (allAmong (items.map f) wanted) (allAmong items wanted)
  | [], _ => .refl _
  | v :: wanted, h => by
    have hrest := sameAnswer_allAmong fun v' h' => h v' (List.mem_cons_of_mem _ h')
    rw [allAmong, allAmong]
    rcases (sameAnswer_isAmong (h v (List.mem_cons_self ..))).cases with
      ⟨b, hb, hb'⟩ | ⟨e, e', he, he'⟩
    · rw [hb, hb']
      cases b with
      | true => exact hrest
      | false => exact .refl _
    · rw [he, he']
      exact .error e e'

theorem itemsOf_restored (w : Value κ) : itemsOf w.restored = (itemsOf w).map Value.restored := by
  cases w with
  | list items =>
    rw [Value.restored, itemsOf, itemsOf, Value.restoredAll_eq_map]
  | uint n =>
    show itemsOf (Keycode.natural n.toNat) = [Keycode.natural n.toNat]
    unfold Keycode.natural
    split
    next => rfl
    next => rfl
  | _ => rfl

omit [CustomKind κ] in
theorem hasCustomPart_of_mem_itemsOf {w item : Value κ} (hw : w.hasCustomPart = false)
    (h : item ∈ itemsOf w) : item.hasCustomPart = false := by
  cases w with
  | nil => cases h
  | list items => exact Value.anyHasCustomPart_eq_false.mp hw item h
  | _ =>
    rw [List.mem_singleton.mp h]
    exact hw

theorem isNil_restored (w : Value κ) : w.restored.isNil = w.isNil := by
  cases w with
  | uint n =>
    show (Keycode.natural n.toNat : Value κ).isNil = false
    unfold Keycode.natural
    split
    next => rfl
    next => rfl
  | _ => rfl

/-- Without a part of the user's own kind a condition holds of a restored value exactly if it holds of
the value itself. -/
theorem holdsOf_restored {c : Condition κ ρ} {w : Value κ} (hw : w.hasCustomPart = false)
    (hc : c.mentionsCustom = false) (hdoubles : c.KeepsDoubles w) :
    SameAnswer (c.holdsOf w.restored) (c.holdsOf w) := by
  have hoperand : ∀ v ∈ c.operands, v.hasCustomPart = false := by
    intro v hv
    unfold mentionsCustom at hc
    exact Bool.eq_false_iff.mpr (List.any_eq_false.mp hc v hv)
  have hself : ∀ v ∈ c.operands, SameAnswer (w.restored.cmp v) (w.cmp v) := fun v hv =>
    Value.cmp_restored hw (hoperand v hv) (hdoubles w (mem_comparands_self w) v hv)
  have hitems : ∀ v ∈ c.operands, ∀ item ∈ itemsOf w,
      SameAnswer (item.restored.cmp v) (item.cmp v) := fun v hv item hitem =>
    Value.cmp_restored (hasCustomPart_of_mem_itemsOf hw hitem) (hoperand v hv)
      (hdoubles item (mem_comparands_of_mem_itemsOf hitem) v hv)
  cases c with
  | compares relation v => exact (hself v (List.mem_singleton.mpr rfl)).map _
  | isIn vs =>
    have hthis : ∀ v ∈ vs, ∀ item ∈ [w], SameAnswer (item.restored.cmp v) (item.cmp v) := by
      intro v hv item hitem
      rw [List.mem_singleton.mp hitem]
      exact hself v hv
    exact sameAnswer_anyAmong hthis
  | isLike pattern =>
    show SameAnswer (.ok (pattern.isFoundIn w.restored.text)) (.ok (pattern.isFoundIn w.text))
    rw [Value.text_restored hw]
    exact .refl _
  | satisfies predicate => exact .refl _
  | isNil =>
    show SameAnswer (.ok w.restored.isNil) (.ok w.isNil)
    rw [isNil_restored]
    exact .refl _
  | hasKey key =>
    cases w with
    | map entries =>
      show SameAnswer (isAmong key ((Value.restoredEntries entries).map (·.1)))
        (isAmong key (entries.map (·.1)))
      rw [Value.restoredEntries_keys]
      refine sameAnswer_isAmong fun k hk => ?_
      exact Value.cmp_restored (Value.hasCustomPart_of_mem_keys hw k hk)
        (hoperand key (List.mem_singleton.mpr rfl))
        (hdoubles k (List.mem_cons_of_mem _ hk) key (List.mem_singleton.mpr rfl))
    -- A restored unsigned integer is of another kind, but has no keys either.
    | uint n =>
      show SameAnswer (holdsOf (Keycode.natural n.toNat) (.hasKey key)) _
      unfold Keycode.natural
      split
      next => exact .error _ _
      next => exact .error _ _
    | nil => exact .refl _
    | custom c => cases hw
    | _ => exact .error _ _
  | contains v =>
    show SameAnswer (anyAmong (itemsOf w.restored) [v]) (anyAmong (itemsOf w) [v])
    rw [itemsOf_restored]
    exact sameAnswer_anyAmong hitems
  | containsAny vs =>
    show SameAnswer (anyAmong (itemsOf w.restored) vs) (anyAmong (itemsOf w) vs)
    rw [itemsOf_restored]
    exact sameAnswer_anyAmong hitems
  | containsAll vs =>
    show SameAnswer (allAmong (itemsOf w.restored) vs) (allAmong (itemsOf w) vs)
    rw [itemsOf_restored]
    exact sameAnswer_allAmong hitems

end Condition

namespace Criterion

variable {κ ρ : Type} [CustomKind κ]

/-- The same is true of criteria together. -/
theorem allHoldOf_restored {w : Value κ} (hw : w.hasCustomPart = false) :
    ∀ {criteria : List (Criterion κ ρ)},
      (∀ c ∈ criteria, c.condition.mentionsCustom = false ∧ c.condition.KeepsDoubles w) →
      SameAnswer (allHoldOf w.restored criteria) (allHoldOf w criteria)
  | [], _ => .refl _
  | c :: criteria, h => by
    have hrest := allHoldOf_restored hw fun c' hc' => h c' (List.mem_cons_of_mem _ hc')
    obtain ⟨hcustom, hdoubles⟩ := h c (List.mem_cons_self ..)
    rw [allHoldOf, allHoldOf]
    rcases (Condition.holdsOf_restored hw hcustom hdoubles).cases with
      ⟨b, hb, hb'⟩ | ⟨e, e', he, he'⟩
    · rw [hb, hb']
      dsimp only
      split
      next => exact .refl _
      next => exact hrest
    · rw [he, he']
      exact .error e e'

end Criterion

end RecordStore
