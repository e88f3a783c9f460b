import RecordStore.Proofs.Find

/-!
# What a term selects

`Matches` says what a term is to select, without a word about walks: the stored records of which
every criterion can be evaluated and comes out as it should. What a query of a single term delivers
is what its candidates stand for, in their order, if it meets the criteria that the walk has left
open, and it delivers that whenever nothing on the way fails (`rows_of_term`).
-/

namespace RecordStore

namespace Condition

variable {κ ρ : Type} [CustomKind κ]

/-- What can be told from a value alone is what is told of a record with this value. -/
theorem holds_of_holdsOf {c : Condition κ ρ} {access : Access κ ρ} {b : Bool}
    (h : c.holdsOf access.field = .ok b) : (c.holds access).result = .ok b := by
  cases c with
  | satisfies predicate => cases h
  | _ => exact h

/-- Only predicates need more than the value. -/
theorem holds_eq_holdsOf {c : Condition κ ρ} (access : Access κ ρ) (h : c.isPredicate = false) :
    (c.holds access).result = c.holdsOf access.field := by
  cases c with
  | satisfies predicate => cases h
  | _ => rfl

end Condition

namespace Criterion

variable {κ ρ : Type} [CustomKind κ]

/-- Criteria hold together exactly if each one holds, or fails to if it is negated. -/
theorem allHold_eq_true {access : Access κ ρ} : ∀ {criteria : List (Criterion κ ρ)},
    (allHold access criteria).result = .ok true ↔
      ∀ c ∈ criteria, (c.condition.holds access).result = .ok (!c.negated)
  | [] => by
    constructor
    · intro _ c hc
      cases hc
    · intro _
      rfl
  | c :: criteria => by
    rw [allHold, Traced.result_bind_eq_ok, List.forall_mem_cons, ← allHold_eq_true]
    constructor
    · intro h
      obtain ⟨b, hb, h⟩ := h
      split at h
      next => cases h
      next hne =>
        refine ⟨?_, h⟩
        rw [hb, Bool.eq_not.mpr hne]
    · intro h
      refine ⟨_, h.1, ?_⟩
      rw [if_neg (by simp)]
      exact h.2

/-- Asked of a value alone, criteria hold together exactly if each one holds, or fails to if it is
negated. -/
theorem allHoldOf_eq_true {value : Value κ} : ∀ {criteria : List (Criterion κ ρ)},
    allHoldOf value criteria = .ok true ↔
      ∀ c ∈ criteria, c.condition.holdsOf value = .ok (!c.negated)
  | [] => by
    constructor
    · intro _ c hc
      cases hc
    · intro _
      rfl
  | c :: criteria => by
    rw [allHoldOf, List.forall_mem_cons, ← allHoldOf_eq_true]
    cases hb : c.condition.holdsOf value with
    | error e => simp
    | ok b =>
      dsimp only
      split
      next heq => simp [heq]
      next hne => simp [Bool.eq_not.mpr hne]

/-- Criteria that do not hold are told so by one of them. -/
theorem allHoldOf_eq_false {value : Value κ} : ∀ {criteria : List (Criterion κ ρ)},
    allHoldOf value criteria = .ok false →
      ∃ c ∈ criteria, c.condition.holdsOf value = .ok c.negated
  | c :: criteria, h => by
    unfold allHoldOf at h
    cases hb : c.condition.holdsOf value with
    | error e =>
      rw [hb] at h
      cases h
    | ok b =>
      rw [hb] at h
      dsimp only at h
      split at h
      next heq => exact ⟨c, List.mem_cons_self .., heq ▸ hb⟩
      next =>
        obtain ⟨c', hc', hfalse⟩ := allHoldOf_eq_false h
        exact ⟨c', List.mem_cons_of_mem _ hc', hfalse⟩

/-- A criterion that asks for a value is told by comparing with it. -/
theorem allHoldOf_equals {value v : Value κ} {met : Bool} :
    allHoldOf value [(⟨.compares .eq v, false⟩ : Criterion κ ρ)] = .ok met ↔
      ∃ o, value.cmp v = .ok o ∧ met = o.isEq := by
  have hholds : (Condition.compares .eq v : Condition κ ρ).holdsOf value =
      (value.cmp v).map Relation.eq.allows := rfl
  rw [allHoldOf, hholds]
  cases value.cmp v with
  | error e => exact ⟨by rintro ⟨⟩, by rintro ⟨o, ⟨⟩, -⟩⟩
  | ok o => cases o <;> simp [Except.map, Relation.allows, allHoldOf, eq_comm]

end Criterion

namespace Delivery

variable {κ ρ : Type} {d : Delivery (List (Row κ ρ))}

/-- Rows are neither skipped nor limited. -/
structure TakesAll {σ : Type} (d : Delivery σ) : Prop where
  skip : d.skip = 0
  remaining : d.remaining = none

theorem hasSeen_of_none {σ : Type} {d : Delivery σ} (h : d.seen = none) (key : Bytes) :
    d.hasSeen key = false := by
  unfold hasSeen
  rw [h]
  rfl

/-- Takes a row, unless one of its key was selected before. -/
def take (d : Delivery (List (Row κ ρ))) (row : Row κ ρ) : Delivery (List (Row κ ρ)) :=
  if d.hasSeen row.rawKey then d
  else { d.mark row.rawKey with delivered := d.delivered + 1, inner := row :: d.inner }

theorem TakesAll.take (hd : d.TakesAll) (row : Row κ ρ) : (d.take row).TakesAll := by
  unfold Delivery.take
  split
  next => exact hd
  next => exact ⟨hd.skip, hd.remaining⟩

/-- What was seen stays so. -/
theorem hasSeen_take {row : Row κ ρ} {key : Bytes} (h : d.hasSeen key = true) :
    (d.take row).hasSeen key = true := by
  unfold Delivery.take
  split
  next => exact h
  next =>
    obtain ⟨keys, hkeys, hkey⟩ := (Option.any_eq_true _ _).mp h
    refine (Option.any_eq_true _ _).mpr ⟨row.rawKey :: keys, ?_, ?_⟩
    · exact Option.map_eq_some_iff.mpr ⟨keys, hkeys, rfl⟩
    · rw [List.contains_cons, hkey, Bool.or_true]

/-- After a row was taken its key has been seen, and otherwise those from before. -/
theorem eq_or_hasSeen_of_take {row : Row κ ρ} {key : Bytes}
    (h : (d.take row).hasSeen key = true) : key = row.rawKey ∨ d.hasSeen key = true := by
  unfold Delivery.take at h
  split at h
  next => exact .inr h
  next =>
    obtain ⟨keys, hkeys, hkey⟩ := (Option.any_eq_true _ _).mp h
    obtain ⟨old, hold, rfl⟩ := Option.map_eq_some_iff.mp hkeys
    rw [List.contains_cons, Bool.or_eq_true, beq_iff_eq] at hkey
    exact hkey.imp_right fun hkey => (Option.any_eq_true _ _).mpr ⟨old, hold, hkey⟩

end Delivery

namespace View

variable {κ ρ : Type} [CustomKind κ] {v : View κ ρ} {t : Term κ ρ}

/-- A field of a record has a value of which every criterion holds, or does not if it is negated. -/
def MeetsOn (v : View κ ρ) (key : Value κ) (record : ρ) (field : String)
    (criteria : List (Criterion κ ρ)) : Prop :=
  ∃ value, v.type.schema.valueOf key record field = .ok value ∧ ∀ c ∈ criteria,
    (c.condition.holds ⟨v.options, v.buckets, key, record, value⟩).result = .ok (!c.negated)

/-- A row that a term is to select: a stored record that meets the criteria on each field. -/
structure Matches (v : View κ ρ) (t : Term κ ρ) (row : Row κ ρ) : Prop where
  stores : v.Stores row
  meets : ∀ field criteria, t.criteria.find? field = some criteria →
    v.MeetsOn row.key row.record field criteria

/-- A record meets the criteria exactly if it does on each field that is not covered, or has to be
checked. -/
theorem meets_eq_true {plan : Plan} {key : Value κ} {record : ρ} {recheck : Bool} :
    ∀ {fields : List (String × List (Criterion κ ρ))},
      (v.meets plan key record recheck fields).result = .ok true ↔
        ∀ e ∈ fields, (recheck = true ∨ plan.covers e.1 = false) → v.MeetsOn key record e.1 e.2
  | [] => by
    constructor
    · intro _ e he
      cases he
    · intro _
      rfl
  | (field, criteria) :: fields => by
    rw [meets, List.forall_mem_cons, ← meets_eq_true]
    split
    next hcovered =>
      obtain ⟨hrecheck, hcovers⟩ := Bool.and_eq_true_iff.mp hcovered
      -- A covered field is skipped unless the record has to be checked.
      have hopen : ¬(recheck = true ∨ plan.covers field = false) := by
        rw [Bool.not_eq_true'] at hrecheck
        rw [hrecheck, hcovers]
        decide
      constructor
      · intro h
        exact ⟨fun hopen' => absurd hopen' hopen, h⟩
      · exact And.right
    next hcovered =>
      have hopen : recheck = true ∨ plan.covers field = false := by
        cases recheck with
        | true => exact .inl rfl
        | false => exact .inr (by simpa using hcovered)
      rw [forall_prop_of_true hopen, Traced.result_bind_eq_ok]
      constructor
      · intro h
        obtain ⟨value, hvalue, h⟩ := h
        obtain ⟨b, hb, h⟩ := Traced.result_bind_eq_ok.mp h
        cases b with
        | true => exact ⟨⟨value, hvalue, Criterion.allHold_eq_true.mp hb⟩, h⟩
        | false => cases h
      · intro h
        obtain ⟨⟨value, hvalue, hall⟩, h⟩ := h
        refine ⟨value, hvalue, Traced.result_bind_eq_ok.mpr ⟨true, ?_, h⟩⟩
        exact Criterion.allHold_eq_true.mpr hall

/-! ## The rows of a term -/

/-- The row of a candidate, if it meets the criteria that are left open. -/
def answer (v : View κ ρ) (t : Term κ ρ) (plan : Plan) (x : Entry × Bool) :
    Except Error (Option (Row κ ρ)) := do
  let key : Value κ ← Keycode.decode x.1.1
  let record ← v.decode x.1.2
  let met ← (v.meets plan key record x.2 t.criteria.toList).result
  return if met then some ⟨key, record, x.1.1⟩ else none

/-- A candidate is answered if its key and record decode and the criteria can be told, and with a row if
they are met. -/
theorem answer_eq_ok {plan : Plan} {x : Entry × Bool} {row? : Option (Row κ ρ)} :
    v.answer t plan x = .ok row? ↔ ∃ key record met, Keycode.decode x.1.1 = .ok key ∧
      v.decode x.1.2 = .ok record ∧
      (v.meets plan key record x.2 t.criteria.toList).result = .ok met ∧
      row? = if met then some ⟨key, record, x.1.1⟩ else none := by
  unfold answer
  constructor
  · intro h
    obtain ⟨key, hkey, h⟩ := bind_eq_ok.mp h
    obtain ⟨record, hrecord, h⟩ := bind_eq_ok.mp h
    obtain ⟨met, hmet, h⟩ := bind_eq_ok.mp h
    cases h
    exact ⟨key, record, met, hkey, hrecord, hmet, rfl⟩
  · intro h
    obtain ⟨key, record, met, hkey, hrecord, hmet, rfl⟩ := h
    exact bind_eq_ok.mpr ⟨key, hkey, bind_eq_ok.mpr ⟨record, hrecord,
      bind_eq_ok.mpr ⟨met, hmet, rfl⟩⟩⟩

/-- The row of a candidate that has one. -/
def rowOf? (v : View κ ρ) (t : Term κ ρ) (plan : Plan) (x : Entry × Bool) : Option (Row κ ρ) :=
  match v.answer t plan x with
  | .ok row? => row?
  | .error _ => none

/-- With nothing to skip and no limit, a candidate adds its row if it has one and its key is new. -/
theorem ends_consider_takesAll {plan : Plan} {e : Entry} {recheck : Bool}
    {d d' : Delivery (List (Row κ ρ))} {demand : Demand} (hd : d.TakesAll) :
    (v.consider t plan keepRow e recheck).Ends d demand d' ↔ demand = .more ∧
      if d.hasSeen e.1 then d' = d
      else ∃ row?, v.answer t plan (e, recheck) = .ok row? ∧
        d' = row?.toList.foldl Delivery.take d := by
  rw [ends_consider]
  split
  next => exact Iff.rfl
  next hnew =>
    -- Without paging a new row is always taken, and more are wanted.
    have hoffer : ∀ key record,
        (Delivery.offer keepRow ⟨key, record, e.1⟩).Ends d demand d' ↔
          demand = .more ∧ d' = d.take ⟨key, record, e.1⟩ := by
      intro key record
      rw [ends_offer_keepRow, if_neg (by simp [hd.skip]), Delivery.take, if_neg hnew]
      simp only [Delivery.mark, hd.remaining]
      rfl
    constructor
    · rintro ⟨key, record, met, hkey, hrecord, hmet, h⟩
      cases met with
      | false =>
        exact ⟨h.1, none, answer_eq_ok.mpr ⟨key, record, false, hkey, hrecord, hmet, rfl⟩, h.2⟩
      | true =>
        obtain ⟨hmore, h⟩ := (hoffer key record).mp h
        exact ⟨hmore, some _, answer_eq_ok.mpr ⟨key, record, true, hkey, hrecord, hmet, rfl⟩, h⟩
    · rintro ⟨hmore, row?, hanswer, h⟩
      obtain ⟨key, record, met, hkey, hrecord, hmet, rfl⟩ := answer_eq_ok.mp hanswer
      refine ⟨key, record, met, hkey, hrecord, hmet, ?_⟩
      cases met with
      | false => exact ⟨hmore, h⟩
      | true => exact (hoffer key record).mpr ⟨hmore, h⟩

/-- Without keys in mind it adds its row in any case. -/
theorem ends_consider_keepRow {plan : Plan} {e : Entry} {recheck : Bool} {delivered : Nat}
    {inner : List (Row κ ρ)} {d' : Delivery (List (Row κ ρ))} {demand : Demand} :
    (v.consider t plan keepRow e recheck).Ends ⟨none, 0, none, delivered, inner⟩ demand d' ↔
      ∃ row?, v.answer t plan (e, recheck) = .ok row? ∧ demand = .more ∧
        d' = ⟨none, 0, none, delivered + row?.toList.length, row?.toList ++ inner⟩ := by
  have htake : ∀ row? : Option (Row κ ρ),
      row?.toList.foldl Delivery.take ⟨none, 0, none, delivered, inner⟩ =
        ⟨none, 0, none, delivered + row?.toList.length, row?.toList ++ inner⟩ := by
    intro row?
    cases row? <;> rfl
  rw [ends_consider_takesAll ⟨rfl, rfl⟩, if_neg (by simp [Delivery.hasSeen])]
  simp only [htake]
  constructor
  · intro h
    obtain ⟨hmore, row?, hanswer, h⟩ := h
    exact ⟨row?, hanswer, hmore, h⟩
  · intro h
    obtain ⟨row?, hanswer, hmore, h⟩ := h
    exact ⟨hmore, row?, hanswer, h⟩

/-- So going through candidates adds the rows of all of them, the last one first. -/
theorem ends_sift_keepRow {plan : Plan} :
    ∀ {items : List (Entry × Bool)} {delivered : Nat} {inner : List (Row κ ρ)}
      {d' : Delivery (List (Row κ ρ))} {demand : Demand},
      (v.sift t plan keepRow items).Ends ⟨none, 0, none, delivered, inner⟩ demand d' ↔
        (∀ x ∈ items, ∃ row?, v.answer t plan x = .ok row?) ∧ demand = .more ∧
          d' = ⟨none, 0, none, delivered + (items.filterMap (v.rowOf? t plan)).length,
            (items.filterMap (v.rowOf? t plan)).reverse ++ inner⟩
  | [], delivered, inner, d', demand => by
    show (pure .more : Step _ Demand).Ends _ _ _ ↔ _
    rw [Step.ends_pure]
    simp
  | (e, recheck) :: items, delivered, inner, d', demand => by
    -- The first candidate gives its row, if it has one, and the others theirs.
    have hhead : ∀ row?, v.answer t plan (e, recheck) = .ok row? →
        ((e, recheck) :: items).filterMap (v.rowOf? t plan) =
          row?.toList ++ items.filterMap (v.rowOf? t plan) := by
      intro row? hrow
      have hrowOf : v.rowOf? t plan (e, recheck) = row? := by
        unfold rowOf?
        rw [hrow]
      rw [List.filterMap_cons, hrowOf]
      cases row? with
      | none => rfl
      | some row => rfl
    rw [ends_sift_cons, List.forall_mem_cons]
    constructor
    · intro h
      rcases h with ⟨h, -⟩ | ⟨d₁, h₁, h⟩
      · obtain ⟨_, -, hmore, -⟩ := ends_consider_keepRow.mp h
        cases hmore
      · obtain ⟨row?, hrow, -, rfl⟩ := ends_consider_keepRow.mp h₁
        obtain ⟨hanswers, hmore, rfl⟩ := ends_sift_keepRow.mp h
        refine ⟨⟨⟨row?, hrow⟩, hanswers⟩, hmore, ?_⟩
        rw [hhead row? hrow]
        cases row? <;> simp [Nat.add_assoc, Nat.add_comm]
    · intro h
      obtain ⟨⟨⟨row?, hrow⟩, hanswers⟩, hmore, rfl⟩ := h
      refine .inr ⟨_, ends_consider_keepRow.mpr ⟨row?, hrow, rfl, rfl⟩,
        ends_sift_keepRow.mpr ⟨hanswers, hmore, ?_⟩⟩
      rw [hhead row? hrow]
      cases row? <;> simp [Nat.add_assoc, Nat.add_comm]

/-- A candidate gives a row exactly if it decodes to it and meets the criteria on all fields that are
tested. -/
theorem rowOf?_eq_some {plan : Plan} {x : Entry × Bool} {row : Row κ ρ} :
    v.rowOf? t plan x = some row ↔ row.rawKey = x.1.1 ∧ Keycode.decode x.1.1 = .ok row.key ∧
      v.decode x.1.2 = .ok row.record ∧ ∀ field criteria, t.criteria.find? field = some criteria →
        (x.2 = true ∨ plan.covers field = false) → v.MeetsOn row.key row.record field criteria := by
  -- Going through the listed criteria is asking every field that has some.
  have hfields : ∀ {key : Value κ} {record : ρ},
      (v.meets plan key record x.2 t.criteria.toList).result = .ok true ↔
        ∀ field criteria, t.criteria.find? field = some criteria →
          (x.2 = true ∨ plan.covers field = false) → v.MeetsOn key record field criteria := by
    intro key record
    rw [meets_eq_true]
    constructor
    · intro h field criteria hfind
      exact h (field, criteria) (t.criteria.mem_toList_iff.mpr hfind)
    · intro h e he
      exact h e.1 e.2 (t.criteria.mem_toList_iff.mp he)
  constructor
  · intro h
    unfold rowOf? at h
    split at h
    next row? hrow =>
      obtain ⟨key, record, met, hkey, hrecord, hmet, rfl⟩ := answer_eq_ok.mp hrow
      cases met with
      | false => cases h
      | true =>
        cases h
        exact ⟨rfl, hkey, hrecord, hfields.mp hmet⟩
    next => cases h
  · intro h
    obtain ⟨hraw, hkey, hrecord, hmeets⟩ := h
    have hanswer : v.answer t plan x = .ok (some row) := by
      refine answer_eq_ok.mpr
        ⟨row.key, row.record, true, hkey, hrecord, hfields.mpr hmeets, ?_⟩
      rw [if_pos rfl, ← hraw]
    unfold rowOf?
    rw [hanswer]

theorem ends_answerTerms_singleton {d d' : Delivery (List (Row κ ρ))} {demand : Demand} :
    (v.answerTerms keepRow [t]).Ends d demand d' ↔ (v.answerTerm keepRow t).Ends d demand d' := by
  unfold answerTerms
  rw [Step.ends_bind]
  constructor
  · intro h
    obtain ⟨demand₁, d₁, hterm, h⟩ := h
    cases demand₁ with
    | enough =>
      obtain ⟨rfl, rfl⟩ := Step.ends_pure.mp h
      exact hterm
    | more =>
      obtain ⟨rfl, rfl⟩ := Step.ends_pure.mp h
      exact hterm
  · intro h
    refine ⟨demand, d', h, ?_⟩
    cases demand with
    | enough => exact Step.ends_pure.mpr ⟨rfl, rfl⟩
    | more => exact Step.ends_pure.mpr ⟨rfl, rfl⟩

/-- The rows of a query of one term are those that answering the term keeps. -/
theorem rows_ofSelection_eq_ok {rows : List (Row κ ρ)} :
    (v.rows (.ofSelection (.mk t []))).result = .ok rows ↔
      ∃ demand d, (v.answerTerm keepRow t).Ends ⟨none, 0, none, 0, []⟩ demand d ∧
        d.inner.reverse = rows := by
  rw [rows_eq_ok]
  show (∃ n kept, (v.select (.ofSelection (.mk t [])) 0 none keepRow).Ends [] n kept ∧ _) ↔ _
  constructor
  · intro h
    obtain ⟨n, kept, hselect, hkept⟩ := h
    obtain ⟨demand, d, hterms, -, rfl⟩ := ends_select.mp hselect
    exact ⟨demand, d, ends_answerTerms_singleton.mp hterms, hkept⟩
  · intro h
    obtain ⟨demand, d, hterm, hkept⟩ := h
    exact ⟨_, _, ends_select.mpr ⟨demand, d, ends_answerTerms_singleton.mpr hterm, rfl, rfl⟩, hkept⟩

/-- A query of one term delivers what the candidates of its plan stand for, in their order. It
succeeds exactly if all of these can be evaluated and all entries ahead can be told. -/
theorem rows_of_term {rows : List (Row κ ρ)}
    (hcandidates : ∀ plan, v.plan t = .ok plan → (v.candidates plan t).Sound ∧
      ∀ x ∈ (v.candidates plan t).pending, v.buckets.get? v.typeName x.1.1 = some x.1.2) :
    (v.rows (.ofSelection (.mk t []))).result = .ok rows ↔
      v.checkFields t = .ok () ∧ ∃ plan, v.plan t = .ok plan ∧
        (v.buckets.has v.typeName = true →
          ∀ e ∈ (v.candidates plan t).ahead, (v.candidates plan t).Tells e) ∧
        (∀ x ∈ (v.candidates plan t).pending, ∃ row?, v.answer t plan x = .ok row?) ∧
        rows = (v.candidates plan t).pending.filterMap (v.rowOf? t plan) := by
  -- Without a bucket of records there are no candidates.
  have hnone : ∀ plan, v.plan t = .ok plan → ¬v.buckets.has v.typeName = true →
      (v.candidates plan t).pending = [] := by
    intro plan hplan hhas
    refine List.eq_nil_iff_forall_not_mem.mpr fun x hx => hhas ?_
    exact Buckets.has_of_get? ((hcandidates plan hplan).2 x hx)
  rw [rows_ofSelection_eq_ok]
  constructor
  · intro h
    obtain ⟨demand, d, hterm, rfl⟩ := h
    obtain ⟨hcheck, plan, hplan, hwalk⟩ := ends_answerTerm.mp hterm
    refine ⟨hcheck, plan, hplan, ?_⟩
    split at hwalk
    next hhas =>
      obtain ⟨hsift, htold⟩ := drain_sift (hcandidates plan hplan).1.orderly hwalk
      obtain ⟨hanswers, hmore, rfl⟩ := ends_sift_keepRow.mp hsift
      refine ⟨fun _ => htold hmore, hanswers, ?_⟩
      rw [List.append_nil, List.reverse_reverse]
    next hhas =>
      obtain ⟨-, rfl⟩ := hwalk
      rw [hnone plan hplan hhas]
      exact ⟨fun h => absurd h hhas, by simp, rfl⟩
  · intro h
    obtain ⟨hcheck, plan, hplan, htold, hanswers, rfl⟩ := h
    by_cases hhas : v.buckets.has v.typeName = true
    · have hsift : (v.sift t plan keepRow (v.candidates plan t).pending).Ends ⟨none, 0, none, 0, []⟩
          .more _ := ends_sift_keepRow.mpr ⟨hanswers, rfl, rfl⟩
      have hterm := ends_answerTerm.mpr ⟨hcheck, plan, hplan, by
        rw [if_pos hhas]
        exact drain_of_sift (hcandidates plan hplan).1.orderly (htold hhas) hsift⟩
      refine ⟨_, _, hterm, ?_⟩
      rw [List.append_nil, List.reverse_reverse]
    · refine ⟨.more, ⟨none, 0, none, 0, []⟩, ends_answerTerm.mpr ⟨hcheck, plan, hplan, ?_⟩, ?_⟩
      · rw [if_neg hhas]
        exact ⟨rfl, rfl⟩
      · rw [hnone plan hplan hhas]
        rfl

/-- A term has rows if every entry of its plan can be told and every record can be answered. -/
theorem exists_rows {plan : Plan} (hcheck : v.checkFields t = .ok ()) (hplan : v.plan t = .ok plan)
    (hcandidates : (v.candidates plan t).Sound ∧
      ∀ x ∈ (v.candidates plan t).pending, v.buckets.get? v.typeName x.1.1 = some x.1.2)
    (htold : ∀ e ∈ v.buckets.entries plan.bucket, (v.candidates plan t).Tells e)
    (hanswers : ∀ e ∈ v.buckets.entries v.typeName, ∀ recheck,
      ∃ row?, v.answer t plan (e, recheck) = .ok row?) :
    ∃ rows, (v.rows (.ofSelection (.mk t []))).result = .ok rows := by
  have hone : ∀ plan', v.plan t = .ok plan' → plan' = plan := fun plan' h =>
    Except.ok.inj (h.symm.trans hplan)
  refine ⟨_, (rows_of_term fun plan' h => hone plan' h ▸ hcandidates).mpr
    ⟨hcheck, plan, hplan, fun _ e he => ?_, fun x hx => ?_, rfl⟩⟩
  · exact htold e ((ahead_candidates_suffix v plan t).subset he)
  · exact hanswers x.1 (Buckets.mem_entries_iff.mpr (hcandidates.2 x hx)) x.2

end View

end RecordStore
