import RecordStore.Proofs.IndexScan
import RecordStore.Proofs.ValueOrder

/-!
# Verdicts on index entries

The walk of a scalar index that settles the criteria on its field has only the entry to go by. An
entry for a value of the user's own kind it passes on, and leaves the record to be checked; any other
entry it judges by what is read back from it. That is the verdict on the value itself if reading back
loses nothing that the criteria ask about (`index_verdict`). A part of the user's own kind inside a
list or a map is lost, and a decimal may be read back as one that is taken for another double; there
is then always a criterion that tells the value that is read back from the value that was filed.
-/

namespace RecordStore

/-- Whether an entry was found to stand for keys of candidates. -/
def Candidates.Expansion.accepted : Candidates.Expansion → Bool
  | .nothing => false
  | _ => true

/-- Different doubles differ in the order of all doubles. -/
theorem Binary64.eq_of_totalCompare {x y : Binary64} (h : x.totalCompare y = .eq) : x = y := by
  have hkeys : x.orderKey = y.orderKey := Nat.compare_eq_eq.mp h
  rw [← ofOrderKey_orderKey x, hkeys, ofOrderKey_orderKey]

namespace Value

variable {κ : Type} [CustomKind κ] {w : Value κ}

/-- What is read back compares with the value as unequal if a part of the user's own kind is inside
it. -/
theorem cmp_restored_ne (hw : ∀ c, w ≠ .custom c) (hpart : w.hasCustomPart = true) :
    ∃ o, w.cmp w.restored = .ok o ∧ o ≠ .eq := by
  have hcodes : Keycode.encode w ≠ Keycode.encode w.restored := by
    intro h
    rw [Keycode.encode_restored_iff.mp h.symm] at hpart
    cases hpart
  cases w with
  | custom c => exact absurd rfl (hw c)
  | list items => exact ⟨_, rfl, fun h => hcodes (Std.LawfulEqOrd.eq_of_compare h)⟩
  | map entries => exact ⟨_, rfl, fun h => hcodes (Std.LawfulEqOrd.eq_of_compare h)⟩
  | _ => cases hpart

/-- A sealed value in a list is read back as its bytes, and these come first. -/
example : (.list [.custom ⟨[0x01]⟩] : Value Sealed).cmp
    (.list [.custom ⟨[0x01]⟩] : Value Sealed).restored = .ok .gt := by
  decide +kernel

end Value

namespace Criterion

variable {κ ρ : Type} [CustomKind κ] {w : Value κ}

/-- A criterion that holds of what is read back and not of the value. -/
def ToldApart (c : Criterion κ ρ) (w : Value κ) : Prop :=
  c.condition.isPredicate = false ∧ c.condition.mentionsCustom = false ∧
    allHoldOf w.restored [c] = .ok true ∧ allHoldOf w [c] = .ok false

/-- A part of the user's own kind inside a list or a map is always missed by some criterion. -/
theorem exists_toldApart (hw : ∀ c, w ≠ .custom c) (hpart : w.hasCustomPart = true) :
    ∃ c : Criterion κ ρ, c.ToldApart w := by
  obtain ⟨o, ho, hne⟩ := Value.cmp_restored_ne hw hpart
  have hself : w.restored.cmp w.restored = .ok .eq := Value.cmp_self w.restored_ne_custom
  refine ⟨⟨.compares .eq w.restored, false⟩, rfl, ?_, allHoldOf_equals.mpr ⟨.eq, hself, rfl⟩,
    allHoldOf_equals.mpr ⟨o, ho, ?_⟩⟩
  · show (w.restored.hasCustomPart || false) = false
    rw [Value.hasCustomPart_restored, Bool.or_false]
  · cases o with
    | eq => exact absurd rfl hne
    | lt => rfl
    | gt => rfl

/-- And so is a decimal that is taken for another double once it is read back. -/
theorem exists_toldApart_decimal {d : Decimal} (h : d.restored.toBinary64 ≠ d.toBinary64) :
    ∃ c : Criterion κ ρ, c.ToldApart (.decimal d) := by
  have hcmp : ∀ e x, (.decimal e : Value κ).cmp (.float x) = .ok (e.toBinary64.totalCompare x) :=
    fun _ _ => rfl
  refine ⟨⟨.compares .eq (.float d.restored.toBinary64), false⟩, rfl, rfl,
    allHoldOf_equals.mpr ⟨_, hcmp d.restored _, ?_⟩, allHoldOf_equals.mpr ⟨_, hcmp d _, ?_⟩⟩
  · unfold Binary64.totalCompare
    rw [Nat.compare_eq_eq.mpr rfl]
    rfl
  · cases ho : d.toBinary64.totalCompare d.restored.toBinary64 with
    | eq => exact absurd (Binary64.eq_of_totalCompare ho).symm h
    | lt => rfl
    | gt => rfl

end Criterion

namespace Candidates

variable {κ ρ : Type} [CustomKind κ] {c : Candidates κ ρ} {w : Value κ} {bytes : Bytes} {x : Expansion}

/-- The verdict of a walk on the entry of a value is what it makes of the value that is read back. -/
theorem acceptsValue_of_expand (hscan : c.scan = .index)
    (hx : c.expand (Keycode.encode w, bytes) = .ok x) :
    c.acceptsValue (Keycode.encode w) w.restored = .ok x.accepted := by
  obtain ⟨value, met, hvalue, hmet, hx⟩ := (expand_index (.inl hscan)).mp hx
  rw [← Keycode.decode_encode hvalue, hmet]
  cases met with
  | true =>
    obtain ⟨l, -, rfl⟩ := hx
    rfl
  | false =>
    rw [if_neg Bool.false_ne_true] at hx
    rw [hx]
    rfl

omit [CustomKind κ] in
/-- A walk of an index leaves the keys of an entry to be checked if the entry is of the user's own
kind. -/
theorem leavesUnchecked_index (hscan : c.scan = .index) (code : Bytes) :
    c.leavesUnchecked code = (Keycode.isCustom code && !c.criteria.isEmpty) := by
  unfold leavesUnchecked
  rw [hscan, decide_eq_true rfl, Bool.and_true]

end Candidates

namespace Store

variable {κ ρ : Type} [CustomKind κ] {s : Store} {type : RecordType κ ρ} {b : Buckets}
  {t : Term κ ρ} {index : String} {plan : Plan}

omit [CustomKind κ] in
/-- A plan that settles the criteria on a field walks the index on that field, and these criteria ask
for no value of the user's own kind. -/
theorem plan_settles (hplan : (s.view type b).plan t = .ok plan) (hscan : plan.scan = .index)
    (hcovered : plan.covered = some index) : plan = indexPlan type t index ∧
      (t.criteriaOn index).any (·.condition.mentionsCustom) = false := by
  rcases Plan.ofTerm_cases hplan with ⟨rfl, -⟩ | ⟨hint, -, -, -, hcases⟩
  · cases hscan
  · rcases hcases with rfl | ⟨-, -, ⟨-, -, rfl⟩ | ⟨-, rfl⟩⟩
    · cases hscan
    · cases hscan
    · cases hcustom : (t.criteriaOn hint).any (·.condition.mentionsCustom) with
      | true =>
        rw [hcustom] at hcovered
        cases hcovered
      | false =>
        rw [hcustom] at hcovered
        cases hcovered
        refine ⟨?_, hcustom⟩
        unfold indexPlan
        rw [hcustom]
        rfl

/-- How the walk of an index that settles the criteria on its field judges the entry of a value. A
value of the user's own kind is accepted, and the record is left to be checked. For any other value
the verdict is on what is read back from the entry, and is final; it is the verdict on the value
itself if no part of it is of the user's own kind and the criteria compare no decimal in it with a
double that tells it apart. Where such a part is inside it, or the value is a decimal that is taken
for another double once it is read back, there is a criterion with which the walk accepts the entry of
a value that does not meet it. -/
theorem index_verdict {w : Value κ} {bytes : Bytes} {x : Candidates.Expansion}
    (hplan : (s.view type b).plan t = .ok plan) (hscan : plan.scan = .index)
    (hcovered : plan.covered = some index)
    (hx : ((s.view type b).candidates plan t).expand (Keycode.encode w, bytes) = .ok x) :
    ((∃ k, w = .custom k) → x.accepted = true ∧ (t.criteriaOn index = [] ∨
      ((s.view type b).candidates plan t).leavesUnchecked (Keycode.encode w) = true)) ∧
    ((∀ k, w ≠ .custom k) →
      ((s.view type b).candidates plan t).leavesUnchecked (Keycode.encode w) = false ∧
      Criterion.allHoldOf w.restored (t.criteriaOn index) = .ok x.accepted) ∧
    (w.hasCustomPart = false → (∀ c ∈ t.criteriaOn index, c.condition.KeepsDoubles w) →
      Criterion.allHoldOf w (t.criteriaOn index) = .ok x.accepted) ∧
    ((∀ k, w ≠ .custom k) → w.hasCustomPart = true → ∃ c : Criterion κ ρ, c.ToldApart w) ∧
    ∀ d, w = .decimal d → d.restored.toBinary64 ≠ d.toBinary64 →
      ∃ c : Criterion κ ρ, c.ToldApart w := by
  obtain ⟨rfl, hcustom⟩ := plan_settles hplan hscan hcovered
  have hcriteria : ((s.view type b).candidates (indexPlan type t index) t).criteria =
      t.criteriaOn index := criteria_indexPlan_covering _ hcustom
  have haccepts := Candidates.acceptsValue_of_expand hscan hx
  rw [acceptsValue_index hscan, hcriteria] at haccepts
  have hunchecked := Candidates.leavesUnchecked_index
    (c := (s.view type b).candidates (indexPlan type t index) t) hscan (Keycode.encode w)
  rw [hcriteria] at hunchecked
  -- An entry that is no custom value is asked, of the value read back.
  have hother : (∀ k, w ≠ .custom k) →
      Criterion.allHoldOf w.restored (t.criteriaOn index) = .ok x.accepted := by
    intro hw
    rw [Keycode.isCustom_encode hw, if_neg Bool.false_ne_true] at haccepts
    exact haccepts
  refine ⟨fun hw => ?_, fun hw => ⟨?_, hother hw⟩, fun hplain hdoubles => ?_,
    fun hw hpart => Criterion.exists_toldApart hw hpart, fun d hd hne => ?_⟩
  · -- The verdict is the same whatever is read back.
    obtain ⟨k, rfl⟩ := hw
    have hown : Keycode.isCustom (Keycode.encode (.custom k : Value κ)) = true := rfl
    rw [hown, if_pos rfl] at haccepts
    refine ⟨(Except.ok.inj haccepts).symm, ?_⟩
    rw [hunchecked, hown]
    cases t.criteriaOn index with
    | nil => exact .inl rfl
    | cons c criteria => exact .inr rfl
  · rw [hunchecked, Keycode.isCustom_encode hw, Bool.false_and]
  · have hw : ∀ k, w ≠ .custom k := by
      intro k hk
      rw [hk] at hplain
      cases hplain
    refine (Criterion.allHoldOf_restored hplain (fun c hc => ⟨?_, hdoubles c hc⟩) _).mp (hother hw)
    exact Bool.eq_false_iff.mpr (List.any_eq_false.mp hcustom c hc)
  · rw [hd]
    exact Criterion.exists_toldApart_decimal hne

section Parcels

/-- The walk accepts the entry of the parcels that weigh 30. -/
theorem expand_weighsTwo {b : Buckets} :
    ((standard.view parcels b).candidates
      ⟨.index, "_index:Parcels:weight", some "weight", some "weight", false⟩
      { weighsTwo with index := some "weight" }).expand
        (Keycode.encode (weightOf true), Text.utf8 "[[4,0,0,0,0,0,0,0,3]]") =
          .ok (.keys [[4, 0, 0, 0, 0, 0, 0, 0, 3]]) := by
  refine (Candidates.expand_index (.inl rfl)).mpr ⟨.int 30, true, by cbv, ?_, _, decodeKeys_heavy, rfl⟩
  rw [acceptsValue_index rfl]
  cbv

/-- As the weight of 30 itself does. -/
theorem index_verdict_parcels : ∃ plan x,
    (standard.view parcels twoParcels).plan { weighsTwo with index := some "weight" } = .ok plan ∧
    plan.scan = .index ∧ plan.covered = some "weight" ∧
    ((standard.view parcels twoParcels).candidates plan
      { weighsTwo with index := some "weight" }).expand
        (Keycode.encode (weightOf true), Text.utf8 "[[4,0,0,0,0,0,0,0,3]]") = .ok x ∧
    Criterion.allHoldOf (weightOf true) (weighsTwo.criteriaOn "weight") = .ok x.accepted := by
  have hhas : twoParcels.has "_index:Parcels:weight" = true :=
    Buckets.has_of_entries (by simp [weights_twoParcels])
  have hdoubles : ∀ c ∈ weighsTwo.criteriaOn "weight",
      c.condition.KeepsDoubles (weightOf true) := by
    intro c hc part hpart v hv d x hd
    rw [List.mem_singleton.mp hpart] at hd
    cases hd
  refine ⟨_, _, plan_weighsTwo hhas, rfl, rfl, expand_weighsTwo, ?_⟩
  exact (index_verdict (plan_weighsTwo hhas) rfl rfl expand_weighsTwo).2.2.1 rfl hdoubles

end Parcels

end Store

end RecordStore
