import RecordStore.Proofs.GroupSort
import RecordStore.Proofs.Truncation

/-!
# Sums in integers

A sum in integers is the sum of what its members count as, and there is one just if every running
total is an integer of 64 bits (`sumInt_eq_ok_iff`). What a member counts as is its integer part,
except that the double 2⁶³ counts as one less; so a sum falls short of the exact one by the number of
these doubles (`sumInt_exact`). The order of the members decides whether the running totals stay
within 64 bits, not what the total is. Any order does if what the members gain and what they lose each
stay within 64 bits; otherwise, where the total itself does, some order fails and some other does not
(`sumInt_reordered`).
-/

namespace RecordStore

open Number

namespace Group

variable {κ ρ : Type} {schema : Schema κ ρ} {field : String} {g : Group κ ρ} {s : Int64}

/-! ## Running totals -/

/-- Every total on the way is an integer of 64 bits. -/
def RunsFrom (total : Int) (counted : List Int) : Prop :=
  ∀ front, front <+: counted → Fits (total + front.sum)

theorem runsFrom_nil {total : Int} : RunsFrom total [] ↔ Fits total := by
  unfold RunsFrom
  simp [List.prefix_nil]

/-- The totals on the way are the first one and those from the next one on. -/
theorem runsFrom_cons {total n : Int} {ns : List Int} :
    RunsFrom total (n :: ns) ↔ Fits total ∧ RunsFrom (total + n) ns := by
  unfold RunsFrom
  constructor
  · intro h
    refine ⟨by simpa using h [] List.nil_prefix, fun front hfront => ?_⟩
    have hall := h (n :: front) ((List.prefix_cons_inj n).mpr hfront)
    rwa [List.sum_cons, ← add_assoc] at hall
  · intro h front hfront
    cases front with
    | nil => simpa using h.1
    | cons m front =>
      obtain ⟨rfl, hrest⟩ := List.cons_prefix_cons.mp hfront
      rw [List.sum_cons, ← add_assoc]
      exact h.2 front hrest

theorem RunsFrom.fits_sum {total : Int} {counted : List Int} (h : RunsFrom total counted) :
    Fits (total + counted.sum) := h counted (List.prefix_refl _)

/-- What a member counts as in a sum. -/
def CountsAs (schema : Schema κ ρ) (field : String) (record : ρ) (n : Int) : Prop :=
  ∃ v m, schema.readField record field = .ok v ∧ v.toInt64? = some m ∧ m.toInt = n

theorem CountsAs.unique {record : ρ} {n m : Int} (hn : CountsAs schema field record n)
    (hm : CountsAs schema field record m) : n = m := by
  obtain ⟨v, n, hread, hcount, rfl⟩ := hn
  obtain ⟨v', m, hread', hcount', rfl⟩ := hm
  cases hread.symm.trans hread'
  cases hcount.symm.trans hcount'
  rfl

/-- What a member counts as is an integer of 64 bits. -/
theorem CountsAs.fits {record : ρ} {n : Int} (h : CountsAs schema field record n) : Fits n := by
  obtain ⟨-, m, -, -, rfl⟩ := h
  exact fits_toInt m

/-- The sum of some records from a total on. -/
def sumFrom (schema : Schema κ ρ) (field : String) (total : Int64) (records : List ρ) :
    Except Error Int64 :=
  (records.mapM fun record => schema.readField record field).bind (addInts total)

/-- A value is added if it counts as a number and the total does not overflow. -/
theorem addInts_cons {total : Int64} {v : Value κ} {vs : List (Value κ)} :
    addInts total (v :: vs) = .ok s ↔ ∃ m next, v.toInt64? = some m ∧
      int64? (total.toInt + m.toInt) = some next ∧ addInts next vs = .ok s := by
  rw [addInts]
  cases hcount : v.toInt64? with
  | none => simp
  | some m =>
    dsimp only
    cases hnext : int64? (total.toInt + m.toInt) with
    | none => simp [hnext]
    | some next => simp [hnext]

/-- A member is added if it counts as a number and the total does not overflow. -/
theorem sumFrom_cons {total : Int64} {record : ρ} {records : List ρ} :
    sumFrom schema field total (record :: records) = .ok s ↔
      ∃ n next, CountsAs schema field record n ∧ int64? (total.toInt + n) = some next ∧
        sumFrom schema field next records = .ok s := by
  unfold sumFrom CountsAs
  rw [List.mapM_cons]
  constructor
  · intro h
    obtain ⟨values, hvalues, hadd⟩ := bind_eq_ok.mp h
    obtain ⟨v, hread, hvalues⟩ := bind_eq_ok.mp hvalues
    obtain ⟨vs, hvs, hcons⟩ := bind_eq_ok.mp hvalues
    cases hcons
    obtain ⟨m, next, hcount, hnext, hrest⟩ := addInts_cons.mp hadd
    exact ⟨m.toInt, next, ⟨v, m, hread, hcount, rfl⟩, hnext, bind_eq_ok.mpr ⟨vs, hvs, hrest⟩⟩
  · intro h
    obtain ⟨_, next, ⟨v, m, hread, hcount, rfl⟩, hnext, hrest⟩ := h
    obtain ⟨vs, hvs, hrest⟩ := bind_eq_ok.mp hrest
    exact bind_eq_ok.mpr ⟨v :: vs, bind_eq_ok.mpr ⟨v, hread, bind_eq_ok.mpr ⟨vs, hvs, rfl⟩⟩,
      addInts_cons.mpr ⟨m, next, hcount, hnext, hrest⟩⟩

/-- There is a sum exactly if each member counts as a number and no total on the way overflows, and it
is the sum of these numbers. -/
theorem sumFrom_eq_ok_iff : ∀ {records : List ρ} {total : Int64},
    sumFrom schema field total records = .ok s ↔
      ∃ counted, List.Forall₂ (CountsAs schema field) records counted ∧ RunsFrom total.toInt counted ∧
        s.toInt = total.toInt + counted.sum
  | [], total => by
    have hnil : sumFrom schema field total [] = .ok total := rfl
    simp [hnil, runsFrom_nil, fits_toInt, Int64.toInt_inj, eq_comm]
  | record :: records, total => by
    rw [sumFrom_cons]
    constructor
    · intro h
      obtain ⟨n, next, hn, hnext, hrest⟩ := h
      obtain ⟨hfits, htotal⟩ := int64?_eq_some_iff.mp hnext
      obtain ⟨ns, hns, hruns, hs⟩ := sumFrom_eq_ok_iff.mp hrest
      rw [htotal] at hruns hs
      refine ⟨n :: ns, .cons hn hns, runsFrom_cons.mpr ⟨fits_toInt total, hruns⟩, ?_⟩
      rw [hs, List.sum_cons, add_assoc]
    · intro h
      obtain ⟨counted, hcounted, hruns, hs⟩ := h
      cases hcounted with
      | @cons _ n _ ns hn hns =>
        obtain ⟨-, hruns⟩ := runsFrom_cons.mp hruns
        have hfits : Fits (total.toInt + n) := by simpa using hruns [] List.nil_prefix
        -- The running total is checked after this addition, so that it is the exact one.
        have hnext : (Int64.ofInt (total.toInt + n)).toInt = total.toInt + n :=
          Int64.toInt_ofInt_of_le hfits.1 hfits.2
        refine ⟨n, Int64.ofInt (total.toInt + n), hn, int64?_eq_some_iff.mpr ⟨hfits, hnext⟩,
          sumFrom_eq_ok_iff.mpr ⟨ns, hns, ?_, ?_⟩⟩
        · rwa [hnext]
        · rw [hs, hnext, List.sum_cons, add_assoc]

/-- There is a sum just if every member counts and every running total is an integer of 64 bits. -/
theorem sumInt_eq_ok_iff : g.sumInt schema field = .ok s ↔
    ∃ counted, List.Forall₂ (CountsAs schema field) g.members counted ∧ RunsFrom 0 counted ∧
      s.toInt = counted.sum := by
  have h : sumFrom schema field 0 g.members = .ok s ↔
      ∃ counted, List.Forall₂ (CountsAs schema field) g.members counted ∧
        RunsFrom (0 : Int64).toInt counted ∧ s.toInt = (0 : Int64).toInt + counted.sum :=
    sumFrom_eq_ok_iff
  simp only [Int64.toInt_zero, zero_add] at h
  exact h

/-! ## Integer parts -/

/-- The integer part of the value of a field, where it is one of 64 bits or the value is the double
2⁶³. -/
def HasPart (schema : Schema κ ρ) (field : String) (record : ρ) (p : Int) : Prop :=
  ∃ v q, schema.readField record field = .ok v ∧ v.rational? = some q ∧ towardZero q = p ∧
    (Fits p ∨ v = .float .twoTo63)

/-- What an integer part counts as: 2⁶³ as one less, any other as it is. -/
def capped (p : Int) : Int := if p = 0x8000000000000000 then p - 1 else p

/-- An integer of 64 bits counts as itself. -/
theorem capped_of_fits {p : Int} (h : Fits p) : capped p = p := by
  refine if_neg fun htop => ?_
  rw [htop] at h
  exact absurd h (by decide)

/-- The sum is short by one for every 2⁶³ among the parts. -/
theorem sum_capped (parts : List Int) :
    (parts.map capped).sum = parts.sum - parts.count 0x8000000000000000 := by
  induction parts with
  | nil => rfl
  | cons p parts ih =>
    rw [List.map_cons, List.sum_cons, List.sum_cons, ih, capped, List.count_cons]
    by_cases htop : p = 0x8000000000000000
    · simp [htop]
      omega
    · simp [htop]
      omega

/-- The totals on the way are the sums of the parts so far, short by one for every 2⁶³ among them. -/
theorem runsFrom_capped {parts : List Int} : RunsFrom 0 (parts.map capped) ↔
    ∀ front, front <+: parts → Fits (front.sum - front.count 0x8000000000000000) := by
  constructor
  · intro h front hfront
    rw [← sum_capped, ← zero_add (List.sum _)]
    exact h _ (hfront.map capped)
  · intro h front hfront
    rw [List.prefix_iff_eq_take, ← List.map_take] at hfront
    rw [hfront, sum_capped, zero_add]
    exact h _ (List.take_prefix _ _)

/-- A member counts as its integer part, cut off at the largest integer of 64 bits. -/
theorem countsAs_iff {record : ρ} {n : Int} : CountsAs schema field record n ↔
    ∃ p, HasPart schema field record p ∧ capped p = n := by
  obtain ⟨top, htop, htopPart⟩ := Value.rational?_twoTo63 (κ := κ)
  constructor
  · intro h
    obtain ⟨v, m, hread, hcount, rfl⟩ := h
    obtain ⟨q, hq, ⟨hfits, hm⟩ | ⟨rfl, rfl⟩⟩ := Value.toInt64?_eq_some_iff.mp hcount
    · exact ⟨towardZero q, ⟨v, q, hread, hq, rfl, .inl hfits⟩, (capped_of_fits hfits).trans hm.symm⟩
    · exact ⟨_, ⟨_, top, hread, htop, htopPart, .inr rfl⟩, rfl⟩
  · intro h
    obtain ⟨_, ⟨v, q, hread, hq, rfl, hfits | rfl⟩, rfl⟩ := h
    · have hm : (Int64.ofInt (towardZero q)).toInt = towardZero q :=
        Int64.toInt_ofInt_of_le hfits.1 hfits.2
      exact ⟨v, Int64.ofInt (towardZero q), hread,
        Value.toInt64?_eq_some_iff.mpr ⟨q, hq, .inl ⟨hfits, hm⟩⟩, hm.trans (capped_of_fits hfits).symm⟩
    · cases htop.symm.trans hq
      rw [htopPart]
      exact ⟨_, Int64.maxValue, hread, Value.toInt64?_eq_some_iff.mpr ⟨top, htop, .inr ⟨rfl, rfl⟩⟩, rfl⟩

theorem counted_iff_parts : ∀ {records : List ρ} {counted : List Int},
    List.Forall₂ (CountsAs schema field) records counted ↔
      ∃ parts, List.Forall₂ (HasPart schema field) records parts ∧ parts.map capped = counted
  | [], counted => by simp [eq_comm]
  | record :: records, counted => by
    rw [List.forall₂_cons_left_iff]
    constructor
    · intro h
      obtain ⟨n, ns, hn, hns, rfl⟩ := h
      obtain ⟨p, hp, rfl⟩ := countsAs_iff.mp hn
      obtain ⟨parts, hparts, rfl⟩ := counted_iff_parts.mp hns
      exact ⟨p :: parts, .cons hp hparts, rfl⟩
    · intro h
      obtain ⟨_, hparts, rfl⟩ := h
      cases hparts with
      | cons hp hparts =>
        exact ⟨_, _, countsAs_iff.mpr ⟨_, hp, rfl⟩, counted_iff_parts.mpr ⟨_, hparts, rfl⟩, rfl⟩

/-- Integer parts are those of 64 bits just if no value is the double 2⁶³. -/
theorem fits_parts_iff : ∀ {records : List ρ} {parts : List Int},
    List.Forall₂ (HasPart schema field) records parts →
      ((∀ p ∈ parts, Fits p) ↔
        ∀ record ∈ records, schema.readField record field ≠ .ok (.float .twoTo63))
  | _, _, .nil => by simp
  | record :: _, p :: _, .cons hp hparts => by
    rw [List.forall_mem_cons, List.forall_mem_cons, fits_parts_iff hparts]
    refine and_congr_left fun _ => ?_
    obtain ⟨top, htop, htopPart⟩ := Value.rational?_twoTo63 (κ := κ)
    obtain ⟨v, q, hread, hq, rfl, hfits⟩ := hp
    constructor
    · intro hpart hsame
      cases hread.symm.trans hsame
      cases htop.symm.trans hq
      rw [htopPart] at hpart
      exact absurd hpart (by decide)
    · intro hother
      refine hfits.resolve_right fun hv => hother ?_
      rw [hread, hv]

/-- There is a sum just if every member has a number whose integer part is one of 64 bits, or is the
double 2⁶³, and no total on the way overflows. A total is that of the integer parts, less one for each
of these doubles; so the sum is that of integer parts of 64 bits just if there are none of them among
the members. -/
theorem sumInt_exact (schema : Schema κ ρ) (field : String) (g : Group κ ρ) (s : Int64) :
    (g.sumInt schema field = .ok s ↔
      ∃ parts, List.Forall₂ (HasPart schema field) g.members parts ∧
        (∀ front, front <+: parts → Fits (front.sum - front.count 0x8000000000000000)) ∧
        s.toInt = parts.sum - parts.count 0x8000000000000000) ∧
    (g.sumInt schema field = .ok s →
      ((∃ parts, List.Forall₂ (HasPart schema field) g.members parts ∧ (∀ p ∈ parts, Fits p) ∧
          s.toInt = parts.sum) ↔
        ∀ record ∈ g.members, schema.readField record field ≠ .ok (.float .twoTo63))) := by
  have hsum : g.sumInt schema field = .ok s ↔
      ∃ parts, List.Forall₂ (HasPart schema field) g.members parts ∧
        (∀ front, front <+: parts → Fits (front.sum - front.count 0x8000000000000000)) ∧
        s.toInt = parts.sum - parts.count 0x8000000000000000 := by
    rw [sumInt_eq_ok_iff]
    constructor
    · intro h
      obtain ⟨counted, hcounted, hruns, hs⟩ := h
      obtain ⟨parts, hparts, rfl⟩ := counted_iff_parts.mp hcounted
      exact ⟨parts, hparts, runsFrom_capped.mp hruns, hs.trans (sum_capped parts)⟩
    · intro h
      obtain ⟨parts, hparts, hruns, hs⟩ := h
      exact ⟨parts.map capped, counted_iff_parts.mpr ⟨parts, hparts, rfl⟩, runsFrom_capped.mpr hruns,
        hs.trans (sum_capped parts).symm⟩
  refine ⟨hsum, fun h => ⟨fun hexact => ?_, fun hother => ?_⟩⟩
  · obtain ⟨parts, hparts, hfits, -⟩ := hexact
    exact (fits_parts_iff hparts).mp hfits
  · obtain ⟨parts, hparts, -, hs⟩ := hsum.mp h
    have hfits := (fits_parts_iff hparts).mpr hother
    -- Parts that all fit are none of them `2 ^ 63`, so that nothing is taken off.
    have hnone : parts.count 0x8000000000000000 = 0 :=
      List.count_eq_zero.mpr fun htop => absurd (hfits _ htop) (by decide)
    rw [hnone, Nat.cast_zero, sub_zero] at hs
    exact ⟨parts, hparts, hfits, hs⟩

section Readings

/-- Readings of a meter, which are doubles. -/
def readings : Schema Empty Binary64 := ⟨"Reading", SortedMap.empty.insert "level" .float, .empty, .empty⟩

/-- The double 2⁶³ and the double -1. -/
def twoReadings : Group Empty Binary64 := ⟨[], [.twoTo63, ⟨0xbff0000000000000⟩], none⟩

/-- The sum is one less than it should be, for there is a member that counts as one less than it is.
-/
theorem sumInt_exact_readings :
    twoReadings.sumInt readings "level" = .ok (Int64.maxValue - 1) ∧
      ¬∃ parts, List.Forall₂ (HasPart readings "level") twoReadings.members parts ∧
        (∀ p ∈ parts, Fits p) ∧ (Int64.maxValue - 1).toInt = parts.sum := by
  have hsum : twoReadings.sumInt readings "level" = .ok (Int64.maxValue - 1) := by decide
  refine ⟨hsum, fun h => ?_⟩
  have hnone := ((sumInt_exact readings "level" twoReadings (Int64.maxValue - 1)).2 hsum).mp h
  exact hnone .twoTo63 List.mem_cons_self rfl

end Readings

/-! ## Orders of the members -/

/-- What is counted above zero, together. -/
def gains (counted : List Int) : Int := (counted.filter (0 < ·)).sum

/-- What is counted below zero, together. -/
def losses (counted : List Int) : Int := (counted.filter (· < 0)).sum

theorem gains_append (front back : List Int) : gains (front ++ back) = gains front + gains back := by
  unfold gains
  rw [List.filter_append, List.sum_append]

theorem losses_append (front back : List Int) :
    losses (front ++ back) = losses front + losses back := by
  unfold losses
  rw [List.filter_append, List.sum_append]

theorem sum_nonpos {counted : List Int} (h : ∀ n ∈ counted, n ≤ 0) : counted.sum ≤ 0 := by
  simpa using List.sum_le_sum (f := id) (g := fun _ => 0) h

theorem gains_nonneg (counted : List Int) : 0 ≤ gains counted :=
  List.sum_nonneg fun _ hn => (of_decide_eq_true (List.mem_filter.mp hn).2).le

theorem losses_nonpos (counted : List Int) : losses counted ≤ 0 :=
  sum_nonpos fun _ hn => (of_decide_eq_true (List.mem_filter.mp hn).2).le

theorem sum_eq_gains_add_losses (counted : List Int) : counted.sum = gains counted + losses counted := by
  induction counted with
  | nil => rfl
  | cons n ns ih =>
    unfold gains losses at ih ⊢
    rw [List.sum_cons, ih, List.filter_cons, List.filter_cons]
    rcases lt_trichotomy n 0 with h | h | h
    · simp [h, h.le.not_gt, add_left_comm]
    · simp [h]
    · simp [h, h.le.not_gt, add_assoc]

/-- What has gains and losses that are each within 64 bits can be added in any order. -/
theorem runsFrom_of_fits {counted : List Int} (hgains : Fits (gains counted))
    (hlosses : Fits (losses counted)) : RunsFrom 0 counted := by
  intro front hfront
  obtain ⟨back, rfl⟩ := hfront
  rw [gains_append] at hgains
  rw [losses_append] at hlosses
  rw [sum_eq_gains_add_losses]
  have hback := gains_nonneg back
  have hback' := losses_nonpos back
  have hfront := gains_nonneg front
  have hfront' := losses_nonpos front
  unfold Fits at *
  omega

/-- If every order is without overflow then so are the gains alone and the losses alone, which come
first in some order. -/
theorem fits_of_runsFrom {counted : List Int}
    (h : ∀ counted' : List Int, counted'.Perm counted → RunsFrom 0 counted') :
    Fits (gains counted) ∧ Fits (losses counted) := by
  have hfirst : ∀ p : Int → Bool, Fits (counted.filter p).sum := by
    intro p
    have hruns := h _ (List.filter_append_perm p counted) _ (List.prefix_append _ _)
    rwa [zero_add] at hruns
  exact ⟨hfirst _, hfirst _⟩

/-- As long as something is left to be added and all of it together does not overflow, one of it can
come next. -/
theorem exists_fits_add {total : Int} {counted : List Int} (hne : counted ≠ []) (htotal : Fits total)
    (hsum : Fits (total + counted.sum)) (hcounted : ∀ n ∈ counted, Fits n) :
    ∃ n ∈ counted, Fits (total + n) := by
  by_cases hback : ∃ n ∈ counted, 0 ≤ total ∧ n ≤ 0 ∨ total < 0 ∧ 0 ≤ n
  · -- Something leads back to zero.
    obtain ⟨n, hn, hsign⟩ := hback
    have hfits := hcounted n hn
    refine ⟨n, hn, ?_⟩
    unfold Fits at *
    omega
  · -- All that is left leads away from zero, and the last total is the farthest.
    obtain ⟨n, ns, rfl⟩ := List.exists_cons_of_ne_nil hne
    have haway : ∀ m ∈ n :: ns, 0 ≤ total ∧ 0 < m ∨ total < 0 ∧ m < 0 := by
      intro m hm
      have hnot : ¬(0 ≤ total ∧ m ≤ 0 ∨ total < 0 ∧ 0 ≤ m) := fun hsign => hback ⟨m, hm, hsign⟩
      omega
    have hn := haway n List.mem_cons_self
    have hrest : 0 ≤ total ∧ 0 ≤ ns.sum ∨ total < 0 ∧ ns.sum ≤ 0 := by
      rcases hn with ⟨hsign, -⟩ | ⟨hsign, -⟩
      · refine .inl ⟨hsign, List.sum_nonneg fun m hm => ?_⟩
        have hm := haway m (List.mem_cons_of_mem _ hm)
        omega
      · refine .inr ⟨hsign, sum_nonpos fun m hm => ?_⟩
        have hm := haway m (List.mem_cons_of_mem _ hm)
        omega
    rw [List.sum_cons] at hsum
    refine ⟨n, List.mem_cons_self, ?_⟩
    unfold Fits at *
    omega

/-- What does not overflow in the end can be added in some order. -/
theorem exists_runsFrom : ∀ {counted : List Int} {total : Int}, Fits total →
    Fits (total + counted.sum) → (∀ n ∈ counted, Fits n) →
    ∃ counted' : List Int, counted'.Perm counted ∧ RunsFrom total counted'
  | counted, total, htotal, hsum, hcounted => by
    by_cases hne : counted = []
    · exact ⟨[], hne ▸ .refl _, runsFrom_nil.mpr htotal⟩
    · obtain ⟨n, hn, hnext⟩ := exists_fits_add hne htotal hsum hcounted
      have hperm := List.perm_cons_erase hn
      have hlength : (counted.erase n).length < counted.length := by
        rw [hperm.length_eq]
        exact Nat.lt_succ_self _
      rw [hperm.sum_eq, List.sum_cons, ← add_assoc] at hsum
      obtain ⟨rest, hrest, hruns⟩ := exists_runsFrom hnext hsum
        fun m hm => hcounted m (List.mem_of_mem_erase hm)
      exact ⟨n :: rest, (hrest.cons n).trans hperm.symm, runsFrom_cons.mpr ⟨htotal, hruns⟩⟩
termination_by counted => counted.length

/-- Members in another order count as the same numbers in another order. -/
theorem counted_of_perm {records records' : List ρ} {counted : List Int} (h : records'.Perm records)
    (hcounted : List.Forall₂ (CountsAs schema field) records counted) :
    ∃ counted', List.Forall₂ (CountsAs schema field) records' counted' ∧ counted'.Perm counted :=
  List.perm_comp_forall₂ h hcounted

/-- Every order of the numbers is that of some order of the members. -/
theorem exists_perm_of_counted {records : List ρ} {counted counted' : List Int}
    (h : counted'.Perm counted) (hcounted : List.Forall₂ (CountsAs schema field) records counted) :
    ∃ records', records'.Perm records ∧ List.Forall₂ (CountsAs schema field) records' counted' := by
  obtain ⟨records', hrecords', hperm⟩ := List.perm_comp_forall₂ h hcounted.flip
  exact ⟨records', hperm, hrecords'.flip⟩

theorem counted_unique {records : List ρ} {counted counted' : List Int}
    (h : List.Forall₂ (CountsAs schema field) records counted)
    (h' : List.Forall₂ (CountsAs schema field) records counted') : counted = counted' := by
  have hunique : Relator.RightUnique (CountsAs schema field) := fun _ _ _ => CountsAs.unique
  exact List.right_unique_forall₂' hunique h h'

theorem fits_of_counted : ∀ {records : List ρ} {counted : List Int},
    List.Forall₂ (CountsAs schema field) records counted → ∀ n ∈ counted, Fits n
  | _, _, .nil => fun _ h => absurd h List.not_mem_nil
  | _, _, .cons h hrest => List.forall_mem_cons.mpr ⟨h.fits, fits_of_counted hrest⟩

/-- Members in another order can only count as the same numbers in another order. -/
theorem perm_of_counted {records records' : List ρ} {counted counted' : List Int}
    (hperm : records'.Perm records) (h : List.Forall₂ (CountsAs schema field) records counted)
    (h' : List.Forall₂ (CountsAs schema field) records' counted') : counted'.Perm counted := by
  obtain ⟨counted'', hcounted'', hperm'⟩ := counted_of_perm hperm h
  rw [counted_unique h' hcounted'']
  exact hperm'

/-- Whatever the order of the members, no running total overflows unless their total does. -/
def SafeInAnyOrder (schema : Schema κ ρ) (field : String) (records : List ρ) : Prop :=
  ∀ counted, List.Forall₂ (CountsAs schema field) records counted → Fits counted.sum →
    Fits (gains counted) ∧ Fits (losses counted)

/-- What members count as can be added in any order of them if the gains and the losses do not
overflow. -/
theorem sumInt_of_counted {g' : Group κ ρ} {counted : List Int} (hperm : g'.members.Perm g.members)
    (hcounted : List.Forall₂ (CountsAs schema field) g.members counted)
    (hgains : Fits (gains counted)) (hlosses : Fits (losses counted)) (hs : s.toInt = counted.sum) :
    g'.sumInt schema field = .ok s := by
  obtain ⟨counted', hcounted', hperm'⟩ := counted_of_perm hperm hcounted
  have hgains' : gains counted' = gains counted := (hperm'.filter _).sum_eq
  have hlosses' : losses counted' = losses counted := (hperm'.filter _).sum_eq
  exact sumInt_eq_ok_iff.mpr ⟨counted', hcounted',
    runsFrom_of_fits (hgains' ▸ hgains) (hlosses' ▸ hlosses), hs.trans hperm'.sum_eq.symm⟩

/-- Members that are safe in any order have a sum in any order if they have one in some order. -/
theorem sumInt_of_perm {g' g'' : Group κ ρ} (hsafe : SafeInAnyOrder schema field g.members)
    (hperm : g'.members.Perm g.members) (hperm' : g''.members.Perm g.members)
    (h : g'.sumInt schema field = .ok s) : g''.sumInt schema field = .ok s := by
  obtain ⟨counted', hcounted', hruns, hs⟩ := sumInt_eq_ok_iff.mp h
  obtain ⟨counted, hcounted, hsame⟩ := counted_of_perm hperm.symm hcounted'
  have hfits : Fits counted.sum := by
    have hfits := hruns.fits_sum
    rwa [zero_add, ← hsame.sum_eq] at hfits
  obtain ⟨hgains, hlosses⟩ := hsafe counted hcounted hfits
  exact sumInt_of_counted hperm' hcounted hgains hlosses (hs.trans hsame.sum_eq.symm)

/-- Two orders of the members never have different sums. -/
theorem sumInt_unique {g' : Group κ ρ} {s' : Int64} (hperm : g'.members.Perm g.members)
    (h : g.sumInt schema field = .ok s) (h' : g'.sumInt schema field = .ok s') : s' = s := by
  obtain ⟨counted, hcounted, -, hs⟩ := sumInt_eq_ok_iff.mp h
  obtain ⟨counted', hcounted', -, hs'⟩ := sumInt_eq_ok_iff.mp h'
  rw [← Int64.toInt_inj, hs, hs']
  exact (perm_of_counted hperm hcounted hcounted').sum_eq

/-- A member that does not count as a number, and numbers whose total overflows, make the sum fail in
every order of the members. -/
theorem sumInt_fails {g' : Group κ ρ}
    (h : (∃ record ∈ g.members, ∀ n, ¬CountsAs schema field record n) ∨
      ∃ counted, List.Forall₂ (CountsAs schema field) g.members counted ∧ ¬Fits counted.sum)
    (hperm : g'.members.Perm g.members) : ∃ e, g'.sumInt schema field = .error e := by
  cases hsum : g'.sumInt schema field with
  | error e => exact ⟨e, rfl⟩
  | ok s =>
    obtain ⟨counted', hcounted', hruns, -⟩ := sumInt_eq_ok_iff.mp hsum
    obtain ⟨there, hthere, hsame⟩ := counted_of_perm hperm.symm hcounted'
    rcases h with ⟨record, hrecord, hnot⟩ | ⟨counted, hcounted, hover⟩
    · obtain ⟨i, hi, rfl⟩ := List.mem_iff_getElem.mp hrecord
      exact absurd (hthere.get hi (hthere.length_eq ▸ hi)) (hnot _)
    · have hfits := hruns.fits_sum
      rw [zero_add, ← hsame.sum_eq, counted_unique hthere hcounted] at hfits
      exact absurd hfits hover

theorem toOption_eq_some {ε α : Type} {x : Except ε α} {a : α} : x.toOption = some a ↔ x = .ok a := by
  cases x with
  | error e => exact ⟨nofun, nofun⟩
  | ok b => exact ⟨fun h => by cases h; rfl, fun h => by cases h; rfl⟩

/-- Members that have the same sum, or none, in every order are safe in any order. -/
theorem safeInAnyOrder_of_sumInt
    (h : ∀ g' : Group κ ρ, g'.members.Perm g.members →
      (g'.sumInt schema field).toOption = (g.sumInt schema field).toOption) :
    SafeInAnyOrder schema field g.members := by
  intro counted hcounted hfits
  have hall : ∀ counted' : List Int, counted'.Perm counted → ∃ g' : Group κ ρ,
      g'.members.Perm g.members ∧ List.Forall₂ (CountsAs schema field) g'.members counted' := by
    intro counted' hperm
    obtain ⟨records, hrecords, hcounted'⟩ := exists_perm_of_counted hperm hcounted
    exact ⟨⟨[], records, none⟩, hrecords, hcounted'⟩
  -- There is a sum in some order, so there is one in every order.
  have hsum : ∃ s, g.sumInt schema field = .ok s := by
    obtain ⟨counted', hperm, hruns⟩ := exists_runsFrom (show Fits 0 by decide)
      ((zero_add counted.sum).symm ▸ hfits) (fits_of_counted hcounted)
    obtain ⟨g', hg', hcounted'⟩ := hall counted' hperm
    refine ⟨Int64.ofInt counted.sum, toOption_eq_some.mp ?_⟩
    rw [← h g' hg', toOption_eq_some]
    exact sumInt_eq_ok_iff.mpr ⟨counted', hcounted', hruns,
      (Int64.toInt_ofInt_of_le hfits.1 hfits.2).trans hperm.sum_eq.symm⟩
  obtain ⟨s, hs⟩ := hsum
  refine fits_of_runsFrom fun counted' hperm => ?_
  obtain ⟨g', hg', hcounted'⟩ := hall counted' hperm
  have hs' : g'.sumInt schema field = .ok s := by
    rw [← toOption_eq_some, h g' hg', toOption_eq_some]
    exact hs
  obtain ⟨counted'', hcounted'', hruns, -⟩ := sumInt_eq_ok_iff.mp hs'
  rw [counted_unique hcounted' hcounted'']
  exact hruns

section Calls

variable [CustomKind κ]

/-- Two orders of the members of a group never have different sums. They all have a sum or none of
them has one, just if the members are safe in any order; so are then the orders that sorting leaves
the members in, if no sort stops the program. None has one if a member does not count as a number, or
if the total overflows. -/
theorem sumInt_reordered (schema : Schema κ ρ) (field : String) (g : Group κ ρ) :
    (∀ g' : Group κ ρ, g'.members.Perm g.members → ∀ s s', g.sumInt schema field = .ok s →
      g'.sumInt schema field = .ok s' → s' = s) ∧
    ((∀ g' : Group κ ρ, g'.members.Perm g.members →
        (g'.sumInt schema field).toOption = (g.sumInt schema field).toOption) ↔
      SafeInAnyOrder schema field g.members) ∧
    (SafeInAnyOrder schema field g.members → ∀ calls : List Call,
      (∀ call ∈ calls, schema.fields.contains call.field = true) → ¬g.Stopped schema calls →
        ((g.after schema calls).sumInt schema field).toOption =
          (g.sumInt schema field).toOption) ∧
    ((∃ record ∈ g.members, ∀ n, ¬CountsAs schema field record n) ∨
        (∃ counted, List.Forall₂ (CountsAs schema field) g.members counted ∧ ¬Fits counted.sum) →
      ∀ g' : Group κ ρ, g'.members.Perm g.members → ∃ e, g'.sumInt schema field = .error e) := by
  have hsame : SafeInAnyOrder schema field g.members → ∀ g' : Group κ ρ, g'.members.Perm g.members →
      (g'.sumInt schema field).toOption = (g.sumInt schema field).toOption := by
    intro hsafe g' hperm
    refine Option.ext fun s => ?_
    rw [toOption_eq_some, toOption_eq_some]
    exact ⟨sumInt_of_perm hsafe hperm (.refl _), sumInt_of_perm hsafe (.refl _) hperm⟩
  exact ⟨fun g' hperm s s' => sumInt_unique hperm, ⟨safeInAnyOrder_of_sumInt, hsame⟩,
    fun hsafe calls hcalls hgoes => hsame hsafe _ (perm_members_after g calls hcalls hgoes),
    fun h _ => sumInt_fails h⟩

section Amounts

/-- Amounts of money, in cents. -/
def amounts : Schema Empty Int64 := ⟨"Amount", SortedMap.empty.insert "cents" .int, .empty, .empty⟩

/-- A fortune, a cent that is gained and a cent that is lost. -/
def fortune : Group Empty Int64 := ⟨[], [Int64.maxValue, 1, -1], none⟩

/-- In the order they are in the amounts overflow, and in ascending order they have a sum. -/
theorem sumInt_fortune :
    (fortune.after amounts [.sort "cents"]).members.Perm fortune.members ∧
      fortune.sumInt amounts "cents" = .error (.typeMismatch "Int" "overflowing sum") ∧
      (fortune.after amounts [.sort "cents"]).sumInt amounts "cents" = .ok Int64.maxValue := by
  refine ⟨perm_members_after fortune [.sort "cents"] (by decide) ?_, by decide, by decide⟩
  exact not_stopped_of_few (by decide) _

/-- Without the cent that is gained the amounts are safe in any order. Without the one that is lost they
have no sum, whichever comes first. -/
theorem sumInt_reordered_amounts :
    (SafeInAnyOrder amounts "cents" [Int64.maxValue, -1] ∧
      (after amounts (⟨[], [Int64.maxValue, -1], none⟩ : Group Empty Int64) [.sort "cents"]).sumInt
        amounts "cents" = .ok (Int64.maxValue - 1)) ∧
    ∃ e, sumInt amounts (⟨[], [1, Int64.maxValue], none⟩ : Group Empty Int64) "cents" = .error e := by
  have hthere : ∀ n : Int64, (Value.int n : Value Empty).toInt64? = some n →
      List.Forall₂ (CountsAs amounts "cents") [Int64.maxValue, n] [Int64.maxValue.toInt, n.toInt] :=
    fun n hn => .cons ⟨_, _, rfl, rfl, rfl⟩ (.cons ⟨_, _, rfl, hn, rfl⟩ .nil)
  have hsafe : SafeInAnyOrder amounts "cents" [Int64.maxValue, -1] := by
    intro counted hcounted _
    rw [counted_unique hcounted (hthere (-1) rfl)]
    decide
  refine ⟨⟨hsafe, toOption_eq_some.mp ?_⟩, ?_⟩
  · have hcalls := (sumInt_reordered amounts "cents" ⟨[], [Int64.maxValue, -1], none⟩).2.2.1
    rw [hcalls hsafe [.sort "cents"] (by decide) (not_stopped_of_few (by decide) _)]
    decide
  · have hfails := (sumInt_reordered amounts "cents" ⟨[], [Int64.maxValue, 1], none⟩).2.2.2
    exact hfails (.inr ⟨_, hthere 1 rfl, by decide⟩) _ (List.Perm.swap ..)

end Amounts

end Calls

end Group

end RecordStore
