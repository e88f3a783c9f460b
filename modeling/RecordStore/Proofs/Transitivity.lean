import RecordStore.Proofs.DecimalOrder
import RecordStore.Proofs.Rounding
import RecordStore.Proofs.ValueOrder

/-!
# Where comparing is transitive

Without doubles integers and decimals compare as the numbers they stand for, doubles among themselves
by their ranks, and all else by key codes; each of these orders is transitive. A double compares with
another number after that was rounded, which may bring two numbers to the same place. So comparing is
transitive across doubles exactly where rounding keeps the order of the other two numbers
(`cmp_transitive`), and of integers it does up to 2⁵³.
-/

namespace RecordStore

/-- In a transitive order two steps that do not go down make one that does not, and it stays in place
only if both do. -/
theorem compare_climbs {α : Type} [Ord α] [Std.TransOrd α] {p q r : α}
    (hpq : compare p q ≠ .gt) (hqr : compare q r ≠ .gt) :
    compare p r ≠ .gt ∧ (compare p r = .eq → compare p q = .eq ∧ compare q r = .eq) := by
  have hpq' := Ordering.ne_gt_iff_isLE.mp hpq
  have hqr' := Ordering.ne_gt_iff_isLE.mp hqr
  refine ⟨Ordering.ne_gt_iff_isLE.mpr (Std.TransCmp.isLE_trans hpq' hqr'), fun heq => ⟨?_, ?_⟩⟩
  · cases h : compare p q with
    | eq => rfl
    | gt => exact absurd h hpq
    | lt =>
      rw [Std.TransCmp.lt_of_lt_of_isLE h hqr'] at heq
      cases heq
  · cases h : compare q r with
    | eq => rfl
    | gt => exact absurd h hqr
    | lt =>
      rw [Std.TransCmp.lt_of_isLE_of_lt hpq' h] at heq
      cases heq

namespace Number

/-- The number that an integer or a decimal stands for. -/
def toRat? : Number → Option Rat
  | .integer n => some n
  | .decimal d => some d.toRat
  | .float _ => none

theorem toRat_ofInt (n : Int) : (Decimal.ofInt n).toRat = n := by
  unfold Decimal.toRat Decimal.ofInt
  rw [neg_zero, zpow_zero, mul_one]

/-- Numbers with a rational value compare by it. -/
theorem cmp_toRat {x y : Number} {p q : Rat} (hx : x.toRat? = some p) (hy : y.toRat? = some q) :
    x.cmp y = compare p q := by
  cases x with
  | integer m =>
    cases hx
    cases y with
    | integer n =>
      cases hy
      show compare m n = _
      rw [← cmp_eq_compare, ← cmp_eq_compare]
      exact (Int.cast_strictMono.cmp_map_eq m n).symm
    | decimal e =>
      cases hy
      show (Decimal.ofInt m).cmp e = _
      rw [Decimal.cmp_eq_compare_toRat, toRat_ofInt]
    | float y => cases hy
  | decimal d =>
    cases hx
    cases y with
    | integer n =>
      cases hy
      show d.cmp (Decimal.ofInt n) = _
      rw [Decimal.cmp_eq_compare_toRat, toRat_ofInt]
    | decimal e =>
      cases hy
      exact d.cmp_eq_compare_toRat e
    | float y => cases hy
  | float x => cases hx

/-- Rounded to doubles two numbers compare as they do. -/
def RoundsInOrder (x y : Number) : Prop := x.toBinary64.totalCompare y.toBinary64 = x.cmp y

instance (x y : Number) : Decidable (x.RoundsInOrder y) := inferInstanceAs (Decidable (_ = _))

/-- A double is not rounded, and what is compared with it is rounded in any case. -/
theorem roundsInOrder_float (x : Binary64) (y : Number) : (float x).RoundsInOrder y := by
  cases y <;> rfl

theorem RoundsInOrder.symm {x y : Number} (h : x.RoundsInOrder y) : y.RoundsInOrder x := by
  unfold RoundsInOrder at h ⊢
  rw [← cmp_swap x y, ← h]
  exact (Nat.compare_swap _ _).symm

/-- Numbers without doubles among them compare transitively, and so do numbers that keep their order
when they are rounded. -/
theorem cmp_climbs {x y z : Number}
    (h : (∃ p q r, x.toRat? = some p ∧ y.toRat? = some q ∧ z.toRat? = some r) ∨
      x.RoundsInOrder y ∧ y.RoundsInOrder z ∧ x.RoundsInOrder z)
    (hxy : x.cmp y ≠ .gt) (hyz : y.cmp z ≠ .gt) :
    x.cmp z ≠ .gt ∧ (x.cmp z = .eq → x.cmp y = .eq ∧ y.cmp z = .eq) := by
  obtain ⟨p, q, r, hx, hy, hz⟩ | ⟨hxyRounds, hyzRounds, hxzRounds⟩ := h
  · rw [cmp_toRat hx hy] at hxy ⊢
    rw [cmp_toRat hy hz] at hyz ⊢
    rw [cmp_toRat hx hz]
    exact compare_climbs hxy hyz
  · rw [← hxyRounds] at hxy ⊢
    rw [← hyzRounds] at hyz ⊢
    rw [← hxzRounds]
    exact compare_climbs hxy hyz

/-- Integers keep their order when they are rounded, if none becomes the same double as a larger
one. -/
theorem roundsInOrder_of_lt {m n : Int}
    (hlt : m < n → (Binary64.ofInt m).orderKey < (Binary64.ofInt n).orderKey)
    (hgt : n < m → (Binary64.ofInt n).orderKey < (Binary64.ofInt m).orderKey) :
    (integer m).RoundsInOrder (integer n) := by
  show compare (Binary64.ofInt m).orderKey (Binary64.ofInt n).orderKey = compare m n
  rcases lt_trichotomy m n with h | h | h
  · rw [compare_lt_iff_lt.mpr h, Nat.compare_eq_lt]
    exact hlt h
  · rw [h, Nat.compare_eq_eq.mpr rfl, Int.compare_eq_eq.mpr rfl]
  · rw [compare_gt_iff_gt.mpr h, Nat.compare_eq_gt]
    exact hgt h

/-- So they do unless two of them become one double. -/
theorem roundsInOrder_integer (m n : Int) : (integer m).RoundsInOrder (integer n) ↔
    m = n ∨ Binary64.ofInt m ≠ Binary64.ofInt n := by
  constructor
  · intro h
    have h : compare (Binary64.ofInt m).orderKey (Binary64.ofInt n).orderKey = compare m n := h
    by_cases hsame : Binary64.ofInt m = Binary64.ofInt n
    · rw [hsame, Nat.compare_eq_eq.mpr rfl, eq_comm, Int.compare_eq_eq] at h
      exact .inl h
    · exact .inr hsame
  · intro h
    have hkeys : m ≠ n → (Binary64.ofInt m).orderKey ≠ (Binary64.ofInt n).orderKey := by
      intro hne hkey
      refine h.resolve_left hne ?_
      rw [← Binary64.ofOrderKey_orderKey (Binary64.ofInt m), hkey, Binary64.ofOrderKey_orderKey]
    exact roundsInOrder_of_lt
      (fun hlt => lt_of_le_of_ne (Binary64.orderKey_ofInt_le hlt.le) (hkeys hlt.ne))
      (fun hgt => lt_of_le_of_ne (Binary64.orderKey_ofInt_le hgt.le) (hkeys hgt.ne').symm)

/-- Up to 2⁵³ integers stay apart. -/
theorem roundsInOrder_of_le {m n : Int} (hm : m.natAbs ≤ 0x20000000000000)
    (hn : n.natAbs ≤ 0x20000000000000) : (integer m).RoundsInOrder (integer n) :=
  roundsInOrder_of_lt (fun hlt => Binary64.orderKey_ofInt_lt hlt hm hn)
    (fun hgt => Binary64.orderKey_ofInt_lt hgt hn hm)

/-- And not beyond. -/
example : ¬(integer 0x20000000000000).RoundsInOrder (integer 0x20000000000001) := by
  decide +kernel

end Number

namespace Value

variable {κ : Type} [CustomKind κ] {a b c : Value κ}

/-- Two steps of a comparison that do not go down make one that does not, and it stays in place only
if both do, provided that all three can be made. -/
def Transits (a b c : Value κ) : Prop :=
  ∀ o₁ o₂ o₃, a.cmp b = .ok o₁ → b.cmp c = .ok o₂ → a.cmp c = .ok o₃ → o₁ ≠ .gt → o₂ ≠ .gt →
    o₃ ≠ .gt ∧ (o₃ = .eq → o₁ = .eq ∧ o₂ = .eq)

/-- Two values keep their order when they are rounded to doubles, if both are numbers. -/
def RoundsInOrder (a b : Value κ) : Prop :=
  ∀ x y, a.number? = some x → b.number? = some y → x.RoundsInOrder y

omit [CustomKind κ] in
theorem RoundsInOrder.symm (h : a.RoundsInOrder b) : b.RoundsInOrder a :=
  fun x y hx hy => (h y x hy hx).symm

omit [CustomKind κ] in
theorem roundsInOrder_float (x : Binary64) (b : Value κ) : (Value.float x).RoundsInOrder b := by
  intro x' y hx _
  cases hx
  exact Number.roundsInOrder_float x y

omit [CustomKind κ] in
/-- Numbers but doubles stand for themselves. -/
theorem exists_toRat? {x : Number} (hx : a.number? = some x) (h : a.kind ≠ .float) :
    ∃ p, x.toRat? = some p := by
  cases a with
  | int n | uint n | decimal d =>
    cases hx
    exact ⟨_, rfl⟩
  | float x => exact absurd rfl h
  | _ => cases hx

/-! ## Three values -/

/-- Numbers compare as numbers. -/
theorem numbers_of_cmp {o : Ordering} (ha : ∀ c, a ≠ .custom c) (hb : ∀ c, b ≠ .custom c)
    (h : a.cmp b = .ok o) (hnumbers : a.kind.isNumeric = true ∧ b.kind.isNumeric = true) :
    ∃ x y, a.number? = some x ∧ b.number? = some y ∧ x.cmp y = o :=
  ((cmp_eq_ok_iff ha hb).mp h).resolve_right fun h => h.1 hnumbers

/-- All else compares as key codes. -/
theorem codes_of_cmp {o : Ordering} (ha : ∀ c, a ≠ .custom c) (hb : ∀ c, b ≠ .custom c)
    (h : a.cmp b = .ok o) (hnot : ¬(a.kind.isNumeric = true ∧ b.kind.isNumeric = true)) :
    (a.kind = .nil ∨ b.kind = .nil ∨ a.kind = b.kind) ∧
      compare (Keycode.encode a) (Keycode.encode b) = o := by
  obtain ⟨x, y, hx, hy, -⟩ | ⟨-, h⟩ := (cmp_eq_ok_iff ha hb).mp h
  · exact absurd (exists_number?_iff.mp ⟨x, y, hx, hy⟩) hnot
  · exact h

omit [CustomKind κ] in
/-- What compares with a number and is none is `nil`. -/
theorem eq_nil_of_kinds (ha : a.kind.isNumeric = true) (hb : ¬b.kind.isNumeric = true)
    (h : a.kind = .nil ∨ b.kind = .nil ∨ a.kind = b.kind) : b = .nil := by
  have hkind : b.kind = .nil := by
    rcases h with h | h | h
    · rw [h] at ha
      cases ha
    · exact h
    · rw [h] at ha
      exact absurd ha hb
  cases b with
  | nil => rfl
  | _ => cases hkind

omit [CustomKind κ] in
theorem ne_nil_of_isNumeric (h : a.kind.isNumeric = true) : a.kind ≠ .nil := by
  intro hnil
  rw [hnil] at h
  cases h

/-- Values of the built-in kinds compare transitively if there is no double among them, and if the
numbers among them keep their order when they are rounded. -/
theorem transits_of (ha : ∀ c, a ≠ .custom c) (hb : ∀ c, b ≠ .custom c) (hc : ∀ d, c ≠ .custom d)
    (h : a.kind ≠ .float ∧ b.kind ≠ .float ∧ c.kind ≠ .float ∨
      a.RoundsInOrder b ∧ b.RoundsInOrder c ∧ a.RoundsInOrder c) : a.Transits b c := by
  intro o₁ o₂ o₃ hab hbc hac hup hup'
  by_cases hnab : a.kind.isNumeric = true ∧ b.kind.isNumeric = true
  · by_cases hnc : c.kind.isNumeric = true
    · -- Three numbers.
      obtain ⟨x, y, hx, hy, rfl⟩ := numbers_of_cmp ha hb hab hnab
      obtain ⟨y', z, hy', hz, rfl⟩ := numbers_of_cmp hb hc hbc ⟨hnab.2, hnc⟩
      obtain ⟨x', z', hx', hz', rfl⟩ := numbers_of_cmp ha hc hac ⟨hnab.1, hnc⟩
      cases hx.symm.trans hx'
      cases hy.symm.trans hy'
      cases hz.symm.trans hz'
      refine Number.cmp_climbs ?_ hup hup'
      rcases h with ⟨hna, hnb, hnc⟩ | ⟨hrab, hrbc, hrac⟩
      · obtain ⟨p, hp⟩ := exists_toRat? hx hna
        obtain ⟨q, hq⟩ := exists_toRat? hy hnb
        obtain ⟨r, hr⟩ := exists_toRat? hz hnc
        exact .inl ⟨p, q, r, hp, hq, hr⟩
      · exact .inr ⟨hrab x y hx hy, hrbc y z hy hz, hrac x z hx hz⟩
    · -- `nil` comes before every number, so the second step would go down.
      obtain ⟨hkinds, rfl⟩ := codes_of_cmp hb hc hbc fun h => hnc h.2
      rw [eq_nil_of_kinds hnab.2 hnc hkinds] at hup'
      exact absurd (compare_nil_encode b (ne_nil_of_isNumeric hnab.2)) hup'
  · obtain ⟨hkinds, rfl⟩ := codes_of_cmp ha hb hab hnab
    by_cases hnbc : b.kind.isNumeric = true ∧ c.kind.isNumeric = true
    · -- Only `nil` steps up to a number without being one, and from it every step goes up.
      have hna : ¬a.kind.isNumeric = true := fun hna => hnab ⟨hna, hnbc.1⟩
      obtain ⟨-, rfl⟩ := codes_of_cmp ha hc hac fun h => hna h.1
      have hnil : a = .nil := by
        refine eq_nil_of_kinds hnbc.1 hna ?_
        rcases hkinds with h | h | h
        · exact .inr (.inl h)
        · exact .inl h
        · exact .inr (.inr h.symm)
      rw [hnil, compare_encode_nil c (ne_nil_of_isNumeric hnbc.2)]
      exact ⟨by decide, fun heq => Ordering.noConfusion heq⟩
    · obtain ⟨-, rfl⟩ := codes_of_cmp hb hc hbc hnbc
      by_cases hnac : a.kind.isNumeric = true ∧ c.kind.isNumeric = true
      · -- The first step would go down from a number to `nil`.
        have hnb : ¬b.kind.isNumeric = true := fun hnb => hnab ⟨hnac.1, hnb⟩
        rw [eq_nil_of_kinds hnac.1 hnb hkinds] at hup
        exact absurd (compare_nil_encode a (ne_nil_of_isNumeric hnac.1)) hup
      · obtain ⟨-, rfl⟩ := codes_of_cmp ha hc hac hnac
        -- All three compare by their encodings.
        exact compare_climbs hup hup'

/-- An order that goes up with another one, and down with it, is the other one. -/
theorem eq_of_climbs {t o : Ordering} (hup : t ≠ .gt → o ≠ .gt ∧ (o = .eq → t = .eq))
    (hdown : t.swap ≠ .gt → o.swap ≠ .gt ∧ (o.swap = .eq → t.swap = .eq)) : t = o := by
  cases t <;> cases o <;> simp_all

/-- It is enough to compare two values with the double that the first one is rounded to. -/
theorem roundsInOrder_of_transits (ha : ∀ c, a ≠ .custom c) (hb : ∀ c, b ≠ .custom c)
    (h : ∀ x, a.Transits (.float x) b ∧ b.Transits (.float x) a) : a.RoundsInOrder b := by
  intro p q hp hq
  have hfloat : ∀ c, (.float p.toBinary64 : Value κ) ≠ .custom c := by
    intro c hc
    cases hc
  have hsame : p.toBinary64.totalCompare p.toBinary64 = p.cmp (.float p.toBinary64) :=
    (Number.roundsInOrder_float p.toBinary64 p).symm
  have hother : p.toBinary64.totalCompare q.toBinary64 = (Number.float p.toBinary64).cmp q :=
    Number.roundsInOrder_float p.toBinary64 q
  have hpx : a.cmp (.float p.toBinary64) = .ok .eq := by
    refine (cmp_eq_ok_iff ha hfloat).mpr (.inl ⟨p, .float p.toBinary64, hp, rfl, ?_⟩)
    rw [← hsame]
    exact Nat.compare_eq_eq.mpr rfl
  have hxq : (.float p.toBinary64 : Value κ).cmp b =
      .ok (p.toBinary64.totalCompare q.toBinary64) :=
    (cmp_eq_ok_iff hfloat hb).mpr (.inl ⟨.float p.toBinary64, q, rfl, hq, hother.symm⟩)
  have hpq : a.cmp b = .ok (p.cmp q) := (cmp_eq_ok_iff ha hb).mpr (.inl ⟨p, q, hp, hq, rfl⟩)
  obtain ⟨hup, hdown⟩ := h p.toBinary64
  refine eq_of_climbs (fun ht => ?_) fun ht => ?_
  · obtain ⟨hle, heq⟩ := hup _ _ _ hpx hxq hpq (by decide) ht
    exact ⟨hle, fun ho => (heq ho).2⟩
  · obtain ⟨hle, heq⟩ := hdown _ _ _ (cmp_swap hfloat hb hxq) (cmp_swap ha hfloat hpx)
      (cmp_swap ha hb hpq) ht (by decide)
    exact ⟨hle, fun ho => (heq ho).1⟩

/-- Comparing is transitive without doubles, and with them as far as rounding keeps the order of the
numbers. It keeps the order of two values exactly if these compare transitively with all doubles, and
the order of two integers exactly if they are the same or become different doubles, which up to 2⁵³ all
do. -/
theorem cmp_transitive (ha : ∀ c, a ≠ .custom c) (hb : ∀ c, b ≠ .custom c)
    (hc : ∀ d, c ≠ .custom d) :
    (a.kind ≠ .float ∧ b.kind ≠ .float ∧ c.kind ≠ .float ∨
      a.RoundsInOrder b ∧ b.RoundsInOrder c ∧ a.RoundsInOrder c → a.Transits b c) ∧
    (a.RoundsInOrder b ↔
      ∀ x u v w, [u, v, w].Perm [a, b, .float x] → u.Transits v w) ∧
    ∀ m n, a.number? = some (.integer m) → b.number? = some (.integer n) →
      (a.RoundsInOrder b ↔ m = n ∨ Binary64.ofInt m ≠ Binary64.ofInt n) ∧
      (m.natAbs ≤ 2 ^ 53 → n.natAbs ≤ 2 ^ 53 → a.RoundsInOrder b) := by
  refine ⟨transits_of ha hb hc, ⟨fun h x u v w hperm => ?_, fun h => ?_⟩, fun m n hm hn => ?_⟩
  · have hcustom : ∀ t ∈ [u, v, w], ∀ c, t ≠ .custom c := by
      intro t ht
      have ht := hperm.mem_iff.mp ht
      simp only [List.mem_cons, List.not_mem_nil, or_false] at ht
      rcases ht with rfl | rfl | rfl
      · exact ha
      · exact hb
      · intro c hc
        cases hc
    -- A double needs no rounding, so that the pair decides for all three.
    have hrounds : [u, v, w].Pairwise RoundsInOrder := by
      refine (hperm.pairwise_iff RoundsInOrder.symm).mpr ?_
      simp only [List.pairwise_cons, List.mem_cons, List.not_mem_nil, or_false, forall_eq_or_imp,
        forall_eq, false_implies, implies_true, List.Pairwise.nil, and_true]
      exact ⟨⟨h, (roundsInOrder_float x a).symm⟩, (roundsInOrder_float x b).symm⟩
    simp only [List.pairwise_cons, List.mem_cons, List.not_mem_nil, or_false, forall_eq_or_imp,
      forall_eq] at hcustom hrounds
    exact transits_of hcustom.1 hcustom.2.1 hcustom.2.2
      (.inr ⟨hrounds.1.1, hrounds.2.1, hrounds.1.2⟩)
  · refine roundsInOrder_of_transits ha hb fun x => ⟨h x _ _ _ ?_, h x _ _ _ ?_⟩
    · exact (List.Perm.swap b (.float x) []).cons a
    · exact (List.reverse_perm [a, .float x, b]).trans ((List.Perm.swap b (.float x) []).cons a)
  -- The values are read as these integers and as no other numbers.
  · have hiff : a.RoundsInOrder b ↔ (Number.integer m).RoundsInOrder (.integer n) := by
      constructor
      · intro h
        exact h _ _ hm hn
      · intro h x y hx hy
        cases hm.symm.trans hx
        cases hn.symm.trans hy
        exact h
    rw [hiff]
    exact ⟨Number.roundsInOrder_integer m n, fun hm hn => Number.roundsInOrder_of_le hm hn⟩

/-- The first whole number that is no double becomes the one below it. -/
theorem cmp_transitive_decimals :
    ¬(∀ x u v w, [u, v, w].Perm
        [.decimal ⟨0x20000000000000, 0⟩, .decimal ⟨0x20000000000001, 0⟩, .float x] →
      (u : Value Empty).Transits v w) ∧
    ¬(.float ⟨0x4340000000000000⟩ : Value Empty).Transits (.decimal ⟨0x20000000000000, 0⟩)
      (.decimal ⟨0x20000000000001, 0⟩) := by
  constructor
  · intro h
    have hrounds := ((cmp_transitive (by rintro c ⟨⟩) (by rintro c ⟨⟩)
      (c := .nil) (by rintro c ⟨⟩)).2.1.mpr h) _ _ rfl rfl
    exact absurd hrounds (by decide +kernel)
  · intro h
    have hclimbs := h .eq .lt .eq (by decide +kernel) (by decide +kernel) (by decide +kernel)
      (by decide) (by decide)
    cases (hclimbs.2 rfl).2

end Value

end RecordStore
