import RecordStore.Proofs.IndexScan

/-!
# Scans of a slice index

A slice index only narrows a term down. Its walk tests the items one by one against a single criterion
that asks for an item, and every record behind an accepted item is checked in full, so its rows are the
matching records with an accepted item, each once (`mem_rows_slice`). The test must not reject all the
items of a record that matches. It never does, whatever the other criteria are, unless a decimal among the
items is asked for by a double (`find_sliced`).
-/

namespace RecordStore

namespace Condition

variable {κ ρ : Type} [CustomKind κ]

/-! ## Searching items -/

theorem exists_of_isAmong {value : Value κ} : ∀ {items : List (Value κ)},
    isAmong value items = .ok true → ∃ item ∈ items, item.cmp value = .ok .eq
  | item :: items, h => by
    unfold isAmong Value.equals at h
    cases hcmp : item.cmp value with
    | error e =>
      rw [hcmp] at h
      cases h
    | ok o =>
      rw [hcmp] at h
      cases o with
      | eq => exact ⟨item, List.mem_cons_self .., hcmp⟩
      | lt =>
        obtain ⟨item', hitem', hequal⟩ := exists_of_isAmong h
        exact ⟨item', List.mem_cons_of_mem _ hitem', hequal⟩
      | gt =>
        obtain ⟨item', hitem', hequal⟩ := exists_of_isAmong h
        exact ⟨item', List.mem_cons_of_mem _ hitem', hequal⟩

/-- Wanted values that are among the items are so by one that equals an item. -/
theorem exists_of_anyAmong {items : List (Value κ)} : ∀ {wanted : List (Value κ)},
    anyAmong items wanted = .ok true →
      ∃ v ∈ wanted, ∃ item ∈ items, item.cmp v = .ok .eq
  | v :: wanted, h => by
    unfold anyAmong at h
    cases hamong : isAmong v items with
    | error e =>
      rw [hamong] at h
      cases h
    | ok found =>
      rw [hamong] at h
      cases found with
      | true => exact ⟨v, List.mem_cons_self .., exists_of_isAmong hamong⟩
      | false =>
        obtain ⟨v', hv', hequal⟩ := exists_of_anyAmong h
        exact ⟨v', List.mem_cons_of_mem _ hv', hequal⟩

/-- A single item that equals none of the wanted values is told so of each. -/
theorem ne_of_anyAmong {item : Value κ} : ∀ {wanted : List (Value κ)},
    anyAmong [item] wanted = .ok false → ∀ v ∈ wanted, item.cmp v ≠ .ok .eq
  | [], _ => by simp
  | v :: wanted, h => by
    unfold anyAmong isAmong Value.equals at h
    intro v' hv' hequal
    rcases List.mem_cons.mp hv' with rfl | hv'
    · rw [hequal] at h
      cases h
    · cases hcmp : item.cmp v with
      | error e =>
        rw [hcmp] at h
        cases h
      | ok o =>
        rw [hcmp] at h
        cases o with
        | eq => cases h
        | lt => exact ne_of_anyAmong h v' hv' hequal
        | gt => exact ne_of_anyAmong h v' hv' hequal

/-- A condition that asks for an item searches the items for its operands. -/
theorem holdsOf_of_asks {c : Condition κ ρ} (h : c.asksForItem = true) (w : Value κ) :
    c.holdsOf w = anyAmong (itemsOf w) c.operands := by
  cases c with
  | contains v => rfl
  | containsAny vs => rfl
  | _ => cases h

end Condition

namespace Value

variable {κ : Type} [CustomKind κ]

/-- What equals an operand still does when it was read back. A list or a map may hold values of the
user's own kind that are lost on the way, but it is compared by its key code, which is not. -/
theorem cmp_restored_of_eq {w v value : Value κ} (hw : ∀ c, w ≠ .custom c)
    (hv : v.hasCustomPart = false) (hdouble : w.KeepsDouble v)
    (hdecode : Keycode.decode (Keycode.encode w) = .ok value) (h : w.cmp v = .ok .eq) :
    w.restored.cmp v = .ok .eq := by
  cases hcustom : w.hasCustomPart with
  | false => exact (cmp_restored hcustom hv hdouble .eq).mpr h
  | true =>
    -- A custom part inside a list or a map is compared by its bytes, and equal bytes are read back
    -- alike.
    have hcode : Keycode.encode w = Keycode.encode v →
        compare (Keycode.encode w.restored) (Keycode.encode v) = .eq := by
      intro hsame
      have hread := Keycode.decode_encode hdecode
      rw [hsame] at hdecode
      rw [← hread, Keycode.decode_encode hdecode, Keycode.encode_restored hv]
      exact Std.ReflCmp.compare_self
    cases w with
    | custom c => exact absurd rfl (hw c)
    | list items =>
      cases v with
      | list items' =>
        exact congrArg Except.ok (hcode (Std.LawfulEqCmp.eq_of_compare (Except.ok.inj h)))
      | custom c => cases hv
      | _ => cases h
    | map entries =>
      cases v with
      | map entries' =>
        exact congrArg Except.ok (hcode (Std.LawfulEqCmp.eq_of_compare (Except.ok.inj h)))
      | custom c => cases hv
      | _ => cases h
    | _ => cases hcustom

end Value

namespace Candidates

variable {κ ρ : Type} [CustomKind κ]

/-- A criterion that asks for an item gives no place to start at. -/
theorem startCode?_of_asks {criteria : List (Criterion κ ρ)}
    (h : criteria.any (fun c => !c.negated && c.condition.asksForItem) = true) :
    startCode? criteria = none := by
  cases hstart : startCode? criteria with
  | none => rfl
  | some target =>
    obtain ⟨relation, v, rfl, -⟩ := startCode?_eq_some hstart
    cases h

omit [CustomKind κ] in
/-- A criterion to narrow down by is one that asks for an item. -/
theorem narrowing?_of_asks {criteria : List (Criterion κ ρ)}
    (h : criteria.any (fun c => !c.negated && c.condition.asksForItem) = true) :
    ∃ c ∈ criteria, narrowing? criteria = some c ∧ c.negated = false ∧
      c.condition.asksForItem = true := by
  cases hfind : narrowing? criteria with
  | none =>
    obtain ⟨c, hc, hasks⟩ := List.any_eq_true.mp h
    exact absurd hasks (List.find?_eq_none.mp hfind c hc)
  | some c =>
    have hasks := List.find?_some hfind
    rw [Bool.and_eq_true, Bool.not_eq_true'] at hasks
    exact ⟨c, List.mem_of_find?_eq_some hfind, rfl, hasks.1, hasks.2⟩

/-- So does the test of a single item, unless an operand is a value of the user's own kind. -/
theorem narrowingAccepts_of_asks {c : Criterion κ ρ} (h : c.condition.asksForItem = true)
    (item : Value κ) : narrowingAccepts c item =
      if c.condition.mentionsCustom then .ok true
      else Condition.anyAmong [item] c.condition.operands := by
  obtain ⟨condition, negated⟩ := c
  cases condition with
  | contains v => rfl
  | containsAny vs => rfl
  | _ => cases h

end Candidates

namespace Store

variable {κ ρ : Type} [CustomKind κ] {s : Store} {type : RecordType κ ρ} {b : Buckets}
  {t : Term κ ρ} {index : String} {get : ρ → Value κ}

/-! ## The rows of a walk of a slice index -/

/-- The plan of a walk of the slice index. -/
def slicePlan (type : RecordType κ ρ) (index : String) : Plan :=
  ⟨.sliceIndex, Index.bucketName type.name index, some index, none, false⟩

/-- Whether the walk accepts what is filed under a value. -/
def Narrowed (criteria : List (Criterion κ ρ)) (code : Bytes) : Prop :=
  ∃ c value, Candidates.narrowing? criteria = some c ∧ Keycode.decode code = .ok value ∧
    (Keycode.isCustom code = true ∨ Candidates.narrowingAccepts c value = .ok true)

theorem acceptsValue_slice {c : Candidates κ ρ} (hscan : c.scan = .sliceIndex) {code : Bytes}
    {value : Value κ} {criterion : Criterion κ ρ}
    (hnarrowing : Candidates.narrowing? c.criteria = some criterion) :
    c.acceptsValue code value =
      if Keycode.isCustom code then .ok true else Candidates.narrowingAccepts criterion value := by
  unfold Candidates.acceptsValue
  rw [if_pos hscan, hnarrowing]

theorem criteria_slicePlan (v : View κ ρ) :
    (v.candidates (slicePlan type index) t).criteria = t.criteriaOn index := by
  show (if Scan.sliceIndex = .full then [] else t.criteriaOn index) = _
  rw [if_neg (by decide)]

/-- It walks all entries. -/
theorem ahead_slicePlan
    (hasks : (t.criteriaOn index).any (fun c => !c.negated && c.condition.asksForItem) = true) :
    ((s.view type b).candidates (slicePlan type index) t).ahead =
      b.entries (Index.bucketName type.name index) := by
  show Candidates.walkFrom _ ((s.view type b).candidates (slicePlan type index) t).criteria = _
  unfold Candidates.walkFrom
  rw [criteria_slicePlan, Candidates.startCode?_of_asks hasks]
  rfl

/-- The rows are the matching records that the index covers, with a value that the walk accepts. -/
theorem mem_rows_slice {row : Row κ ρ} {covers : Bytes → Prop} (hcodec : s.codec.KeepsKeyLists)
    (hlists : Index.Lists s.codec b (Index.bucketName type.name index) fun v k =>
      covers k ∧ s.Filed type b index v k)
    (hasks : (t.criteriaOn index).any (fun c => !c.negated && c.condition.asksForItem) = true) :
    row ∈ ((s.view type b).candidates (slicePlan type index) t).pending.filterMap
        ((s.view type b).rowOf? t (slicePlan type index)) ↔
      covers row.rawKey ∧ (s.view type b).Matches t row ∧
        ∃ code, s.Filed type b index code row.rawKey ∧ Narrowed (t.criteriaOn index) code := by
  have hahead : ((s.view type b).candidates (slicePlan type index) t).ahead =
      b.entries (Index.bucketName type.name index) := ahead_slicePlan hasks
  obtain ⟨c, -, hnarrowing, -, -⟩ := Candidates.narrowing?_of_asks hasks
  -- A slice index asks its entries the narrowing criterion only.
  have haccepts : ∀ code value,
      ((s.view type b).candidates (slicePlan type index) t).acceptsValue code value = .ok true ↔
        Keycode.isCustom code = true ∨ Candidates.narrowingAccepts c value = .ok true := by
    intro code value
    rw [acceptsValue_slice rfl (by rw [criteria_slicePlan, hnarrowing])]
    cases Keycode.isCustom code with
    | true => simp
    | false => simp
  have hpending := (Candidates.stream_slice (c := (s.view type b).candidates (slicePlan type index) t)
    rfl ((s.view type b).candidates (slicePlan type index) t).ahead []).1
  rw [List.mem_filterMap, View.pending_candidates]
  constructor
  · intro h
    obtain ⟨x, hx, hrow⟩ := h
    obtain ⟨-, -, ⟨e, he, hkey⟩, hget⟩ := (hpending x).mp hx
    obtain ⟨hraw, hdecode, hrecord, hmeets⟩ := View.rowOf?_eq_some.mp hrow
    obtain ⟨value, l, hvalue, haccepted, hl, hkey⟩ := (Candidates.mem_entryKeys (.inr rfl)).mp hkey
    rw [hahead] at he
    obtain ⟨l', hl', -, hmem⟩ := hlists.decodeKeys hcodec (Buckets.mem_entries_iff.mp he)
    have hl : Index.decodeKeys s.codec e.2 = .ok l := hl
    rw [hl] at hl'
    cases hl'
    rw [← hraw] at hkey
    -- The entry says where the key is filed; the criteria have been checked on the record.
    obtain ⟨hcovered, hfiled⟩ := (hmem _).mp hkey
    exact ⟨hcovered, ⟨⟨x.1.2, hraw ▸ hget, hraw ▸ hdecode, hrecord⟩, fun field criteria hfind =>
      hmeets field criteria hfind (.inr rfl)⟩, e.1, hfiled, c, value, hnarrowing, hvalue,
      (haccepts _ _).mp haccepted⟩
  · intro h
    obtain ⟨hcovered, ⟨⟨stored, hget, hdecode, hrecord⟩, hmeets⟩, code, hfiled, c', value, hc', hvalue,
      haccepted⟩ := h
    rw [hnarrowing] at hc'
    cases hc'
    obtain ⟨bytes, hbytes⟩ := (hlists.present code).mpr ⟨_, hcovered, hfiled⟩
    obtain ⟨l, hl, -, hmem⟩ := hlists.decodeKeys hcodec hbytes
    refine ⟨((row.rawKey, stored), false), (hpending _).mpr ⟨rfl, by simp, ⟨(code, bytes), ?_, ?_⟩,
      hget⟩, View.rowOf?_eq_some.mpr ⟨rfl, hdecode, hrecord, fun field criteria hfind _ =>
        hmeets field criteria hfind⟩⟩
    · rw [hahead]
      exact Buckets.mem_entries_iff.mpr hbytes
    · exact (Candidates.mem_entryKeys (.inr rfl)).mpr
        ⟨value, l, hvalue, (haccepts _ _).mpr haccepted, hl, (hmem _).mpr ⟨hcovered, hfiled⟩⟩

/-- A list is filed under each of its items. -/
theorem yields_item {record : ρ} {items : List (Value κ)} {item : Value κ}
    (h : type.schema.IndexesItems index get) (hget : get record = .list items) (hitem : item ∈ items) :
    Index.Yields type.schema index record (Keycode.encode item) := by
  obtain ⟨codes, hcodes, hmem⟩ := Schema.itemCodes_list items
  exact .inr ⟨_, codes, h.slice, by rw [hget, hcodes], (hmem _).mpr ⟨item, hitem, rfl⟩⟩

/-- No matching record is lost: what it has been asked for is filed, and accepted. -/
theorem narrowed_of_matches {row : Row κ ρ} {covers : Bytes → Prop}
    (hfield : type.schema.IndexesItems index get)
    (hlists : Index.Lists s.codec b (Index.bucketName type.name index) fun v k =>
      covers k ∧ s.Filed type b index v k)
    (hasks : (t.criteriaOn index).any (fun c => !c.negated && c.condition.asksForItem) = true)
    (htold : b.has type.name = true →
      ∀ e ∈ ((s.view type b).candidates (slicePlan type index) t).ahead,
        ((s.view type b).candidates (slicePlan type index) t).Tells e)
    (hvalue : get row.record = .nil ∨ ∃ items, get row.record = .list items)
    (hdoubles : ∀ c ∈ t.criteriaOn index, c.condition.KeepsDoubles (get row.record))
    (hcovered : covers row.rawKey) (h : (s.view type b).Matches t row) :
    ∃ code, s.Filed type b index code row.rawKey ∧ Narrowed (t.criteriaOn index) code := by
  obtain ⟨c, hc, hnarrowing, hnegated, hasked⟩ := Candidates.narrowing?_of_asks hasks
  have hw : type.schema.valueOf row.key row.record index = .ok (get row.record) :=
    Schema.valueOf_field hfield.ne_key hfield.field
  have hpredicate : c.condition.isPredicate = false := by
    cases hcondition : c.condition with
    | satisfies predicate =>
      rw [hcondition] at hasked
      cases hasked
    | _ => rfl
  -- The record has the item that the criterion asks for, and the item is filed.
  have hholds := (View.meetsOn_criteriaOn h.meets hw).holdsOf hw c hc hpredicate
  rw [hnegated, Condition.holdsOf_of_asks hasked] at hholds
  obtain ⟨v, hv, item, hitem, hequal⟩ := Condition.exists_of_anyAmong hholds
  have hdouble := hdoubles c hc item (Condition.mem_comparands_of_mem_itemsOf hitem) v hv
  obtain ⟨items, hitems⟩ : ∃ items, get row.record = .list items := by
    refine hvalue.resolve_left fun hnil => ?_
    rw [hnil] at hitem
    cases hitem
  rw [hitems] at hitem
  have hfiled : s.Filed type b index (Keycode.encode item) row.rawKey :=
    ⟨row.record, read?_of_stores h.stores, yields_item hfield hitems hitem⟩
  obtain ⟨bytes, hbytes⟩ := (hlists.present _).mpr ⟨_, hcovered, hfiled⟩
  have he : (Keycode.encode item, bytes) ∈
      ((s.view type b).candidates (slicePlan type index) t).ahead := by
    rw [ahead_slicePlan hasks]
    exact Buckets.mem_entries_iff.mpr hbytes
  -- The walk has told its entry, so the test of the item has an answer; it cannot be a rejection.
  obtain ⟨stored, hstored, -⟩ := h.stores
  obtain ⟨x, hx⟩ := htold (Buckets.has_of_get? hstored) _ he
  obtain ⟨value, met, hvalue, hmet, -⟩ := (Candidates.expand_index (.inr rfl)).mp hx
  refine ⟨_, hfiled, c, value, hnarrowing, hvalue, ?_⟩
  cases hown : Keycode.isCustom (Keycode.encode item) with
  | true => exact .inl rfl
  | false =>
    right
    rw [acceptsValue_slice rfl (by rw [criteria_slicePlan, hnarrowing]), hown,
      if_neg Bool.false_ne_true, Candidates.narrowingAccepts_of_asks hasked] at hmet
    rw [Candidates.narrowingAccepts_of_asks hasked]
    cases hcustom : c.condition.mentionsCustom with
    | true => rfl
    | false =>
      rw [hcustom, if_neg Bool.false_ne_true] at hmet
      have hv' : v.hasCustomPart = false := Bool.eq_false_iff.mpr (List.any_eq_false.mp hcustom v hv)
      have hitem' : ∀ k, item ≠ .custom k := by
        intro k hk
        rw [hk] at hown
        cases hown
      have hread := Value.cmp_restored_of_eq hitem' hv' hdouble hvalue hequal
      rw [← Keycode.decode_encode hvalue] at hread
      cases met with
      | true => exact hmet
      | false => exact absurd hread (Condition.ne_of_anyAmong hmet v hv)

/-! ## Scans with and without the slice index -/

/-- The plan of a term that is hinted: to walk the slice index, or all records if it cannot serve. -/
theorem plan_sliced {plan : Plan} (hfield : type.schema.IndexesItems index get)
    (h : (s.view type b).plan { t with index := some index } = .ok plan) :
    plan = .fallback type.name index ∨ plan = slicePlan type index ∧
      b.has (Index.bucketName type.name index) = true ∧
      (t.criteriaOn index).any (fun c => !c.negated && c.condition.asksForItem) = true := by
  rcases Plan.ofTerm_cases h with ⟨-, hnone | hkey⟩ | ⟨i, hi, -, -, hcases⟩
  · cases hnone
  · cases hkey
    exact absurd rfl hfield.ne_key
  · cases hi
    rcases hcases with rfl | ⟨hhas, -, ⟨-, hasks, rfl⟩ | ⟨hslice, -⟩⟩
    · exact .inl rfl
    · exact .inr ⟨rfl, hhas, hasks⟩
    · have hslice : (type.schema.sliceIndexes.find? index).isSome = false := hslice
      rw [hfield.slice] at hslice
      cases hslice

/-- What the plan of a hinted term leads to, if the index covers some of the records. -/
theorem mem_rows_sliced {plan : Plan} {covers : Bytes → Prop} (hcodec : s.codec.KeepsKeyLists)
    (hfield : type.schema.IndexesItems index get)
    (hlists : b.has (Index.bucketName type.name index) = true →
      Index.Lists s.codec b (Index.bucketName type.name index) fun v k =>
        covers k ∧ s.Filed type b index v k)
    (hplan : (s.view type b).plan { t with index := some index } = .ok plan)
    (htold : b.has type.name = true → ∀ e ∈ ((s.view type b).candidates plan t).ahead,
      ((s.view type b).candidates plan t).Tells e) :
    plan.scan ≠ .sliceIndex ∧ (∀ row,
      row ∈ ((s.view type b).candidates plan t).pending.filterMap ((s.view type b).rowOf? t plan) ↔
        (s.view type b).Matches t row) ∨
    plan.scan = .sliceIndex ∧ (∀ row,
      row ∈ ((s.view type b).candidates plan t).pending.filterMap ((s.view type b).rowOf? t plan) ↔
        covers row.rawKey ∧ (s.view type b).Matches t row ∧
          ∃ code, s.Filed type b index code row.rawKey ∧ Narrowed (t.criteriaOn index) code) ∧
      ∀ row, (get row.record = .nil ∨ ∃ items, get row.record = .list items) →
        (∀ c ∈ t.criteriaOn index, c.condition.KeepsDoubles (get row.record)) →
        covers row.rawKey → (s.view type b).Matches t row →
        ∃ code, s.Filed type b index code row.rawKey ∧ Narrowed (t.criteriaOn index) code := by
  rcases plan_sliced hfield hplan with rfl | ⟨rfl, hhas, hasks⟩
  · exact .inl ⟨Scan.noConfusion, View.mem_rows_full (t := t) rfl rfl (fun _ => rfl)⟩
  · exact .inr ⟨rfl, fun _ => mem_rows_slice hcodec (hlists hhas) hasks, fun _ =>
      narrowed_of_matches hfield (hlists hhas) hasks htold⟩

/-- The rows of a hinted term. -/
theorem rows_of_sliced {hinted : List (Row κ ρ)} (hcodec : s.codec.KeepsKeyLists)
    (hfield : type.schema.IndexesItems index get) (hstep : s.InStepIfThere type b)
    (hhinted : (s.find type b (.ofSelection (.mk { t with index := some index } []))).result =
      .ok hinted) :
    (hinted.map (·.rawKey)).Nodup ∧
    ∃ plan, (s.view type b).plan { t with index := some index } = .ok plan ∧
      (plan.scan ≠ .sliceIndex ∧ (∀ row, row ∈ hinted ↔ (s.view type b).Matches t row) ∨
        plan.scan = .sliceIndex ∧
        (∀ row, row ∈ hinted ↔ (s.view type b).Matches t row ∧
          ∃ code, s.Filed type b index code row.rawKey ∧ Narrowed (t.criteriaOn index) code) ∧
        ∀ row, (get row.record = .nil ∨ ∃ items, get row.record = .list items) →
          (∀ c ∈ t.criteriaOn index, c.condition.KeepsDoubles (get row.record)) →
          (s.view type b).Matches t row →
          ∃ code, s.Filed type b index code row.rawKey ∧ Narrowed (t.criteriaOn index) code) := by
  have hlists := hstep.listsAll hfield.hasIndex
  have hcandidates : ∀ plan, (s.view type b).plan { t with index := some index } = .ok plan →
      ((s.view type b).candidates plan { t with index := some index }).Sound ∧
      ∀ x ∈ ((s.view type b).candidates plan { t with index := some index }).pending,
        (s.view type b).buckets.get? (s.view type b).typeName x.1.1 = some x.1.2 := by
    intro plan hplan
    rcases plan_sliced hfield hplan with rfl | ⟨rfl, -, -⟩
    · exact View.sound_records (.inl rfl) rfl
    · exact View.sound_slice rfl
  obtain ⟨-, plan, hplan, htold, -, hrows⟩ := (View.rows_of_term hcandidates).mp hhinted
  have hkeys : (hinted.map (·.rawKey)).Sublist _ := hrows ▸ View.rawKeys_sublist _
  refine ⟨(hcandidates plan hplan).1.nodup.sublist hkeys, plan, hplan, ?_⟩
  rw [hrows]
  refine (mem_rows_sliced hcodec hfield hlists hplan htold).imp_right fun h => ?_
  obtain ⟨hscan, hmem, hkept⟩ := h
  exact ⟨hscan, fun row => (hmem row).trans (and_iff_right trivial), fun row hvalue hdoubles =>
    hkept row hvalue hdoubles trivial⟩

/-- What a hint at a slice index does to the rows of a term is to leave out those whose items the walk
rejects. -/
theorem find_sliced {declarations : List (Schema.Declaration κ ρ)} {hinted plain : List (Row κ ρ)}
    (hcodec : s.codec.KeepsKeyLists)
    (hbuild : Schema.build type.name declarations = .ok type.schema)
    (hdeclared : .sliceIndex index get ∈ declarations)
    (hstep : s.InStepIfThere type b) (hkeys : (s.view type b).KeysAreCodes) (hhint : t.index = none)
    (hhinted : (s.find type b (.ofSelection (.mk { t with index := some index } []))).result =
      .ok hinted)
    (hplain : (s.find type b (.ofSelection (.mk t []))).result = .ok plain) :
    ((∀ row, row ∈ hinted ↔ row ∈ plain) ↔
      ∀ plan, (s.view type b).plan { t with index := some index } = .ok plan →
        plan.scan = .sliceIndex → ∀ row, (s.view type b).Matches t row →
          ∃ code, s.Filed type b index code row.rawKey ∧ Narrowed (t.criteriaOn index) code) ∧
    ((∀ row, (s.view type b).Stores row →
        (get row.record = .nil ∨ ∃ items, get row.record = .list items) ∧
          ∀ c ∈ t.criteriaOn index, c.condition.KeepsDoubles (get row.record)) →
      ∀ row, row ∈ hinted ↔ row ∈ plain) ∧
    (hinted.map (·.rawKey)).Nodup ∧ (plain.map (·.rawKey)).Nodup := by
  have hfield := Schema.build_sliceIndex hbuild hdeclared
  obtain ⟨hnodup, plan, hplan, hcases⟩ := rows_of_sliced hcodec hfield hstep hhinted
  have hone : ∀ plan', (s.view type b).plan { t with index := some index } = .ok plan' →
      plan' = plan := fun plan' hplan' => Except.ok.inj (hplan'.symm.trans hplan)
  have hmatches := mem_of_plain hkeys hhint hplain
  refine ⟨?_, fun hkeeps row => ?_, hnodup, nodup_of_plain hhint hplain⟩
  · constructor
    · intro h plan' hplan' hscan row hrow
      rw [hone plan' hplan'] at hscan
      -- A plan that does not walk the slice index answers what matches.
      rcases hcases with ⟨hne, -⟩ | ⟨-, hrows, -⟩
      · exact absurd hscan hne
      · exact ((hrows row).mp ((h row).mpr ((hmatches row).mpr hrow))).2
    · intro h row
      rw [hmatches]
      rcases hcases with ⟨-, hrows⟩ | ⟨hscan, hrows, -⟩
      · exact hrows row
      · rw [hrows]
        exact and_iff_left_of_imp (h plan hplan hscan row)
  · rw [hmatches]
    rcases hcases with ⟨-, hrows⟩ | ⟨-, hrows, hkept⟩
    · exact hrows row
    · rw [hrows]
      refine and_iff_left_of_imp fun hrow => ?_
      obtain ⟨hvalue, hdoubles⟩ := hkeeps row hrow.stores
      exact hkept row hvalue hdoubles hrow

section Parcels

/-- The heavy parcel is listed under both of its sizes. -/
theorem sizes_twoParcels :
    twoParcels.entries "_index:Parcels:sizes" =
      [(Keycode.encode (.int 2 : Value Empty), Text.utf8 "[[5,192,4,0,0,0,0,0,0]]"),
        (Keycode.encode (.int 8 : Value Empty), Text.utf8 "[[4,0,0,0,0,0,0,0,3]]"),
        (Keycode.encode (.int 9 : Value Empty), Text.utf8 "[[4,0,0,0,0,0,0,0,3]]")] := by
  decide +kernel

/-- Parcels with something of size eight or nine. -/
def holdsEightOrNine : Term Empty Bool :=
  Term.all.addCriterion "sizes" ⟨.containsAny [.int 8, .int 9], false⟩

theorem exists_hinted_sizes : ∃ rows, (standard.find parcels twoParcels (.ofSelection (.mk
    { holdsEightOrNine with index := some "sizes" } []))).result = .ok rows := by
  have hrecords := entries_twoParcels
  have hsizes := sizes_twoParcels
  generalize twoParcels = b at hrecords hsizes
  have hhas : b.has "_index:Parcels:sizes" = true := Buckets.has_of_entries (by simp [hsizes])
  have hplan : (standard.view parcels b).plan { holdsEightOrNine with index := some "sizes" } =
      .ok ⟨.sliceIndex, "_index:Parcels:sizes", some "sizes", none, false⟩ := by
    show Except.ok (if !b.has "_index:Parcels:sizes" then _ else _) = _
    rw [hhas]
    rfl
  have haccepts : ∀ code value, ((standard.view parcels b).candidates
      ⟨.sliceIndex, "_index:Parcels:sizes", some "sizes", none, false⟩
        { holdsEightOrNine with index := some "sizes" }).acceptsValue code value =
      if Keycode.isCustom code then .ok true
        else Candidates.narrowingAccepts ⟨.containsAny [.int 8, .int 9], false⟩ value :=
    fun code value => acceptsValue_slice rfl rfl
  refine View.exists_rows (v := standard.view parcels b) (by cbv) hplan (View.sound_slice rfl) ?_ ?_
  · show ∀ e ∈ b.entries "_index:Parcels:sizes", _
    simp only [hsizes, List.forall_mem_cons]
    refine ⟨⟨_, (Candidates.expand_index (.inr rfl)).mpr ⟨.int 2, false, by cbv, ?_, rfl⟩⟩,
      ⟨_, (Candidates.expand_index (.inr rfl)).mpr
        ⟨.int 8, true, by cbv, ?_, _, decodeKeys_heavy, rfl⟩⟩,
      ⟨_, (Candidates.expand_index (.inr rfl)).mpr
        ⟨.int 9, true, by cbv, ?_, _, decodeKeys_heavy, rfl⟩⟩, by simp⟩
    · rw [haccepts]
      cbv
    · rw [haccepts]
      cbv
    · rw [haccepts]
      cbv
  · show ∀ e ∈ b.entries parcels.name, _
    simp only [hrecords, List.forall_mem_cons, Bool.forall_bool]
    exact ⟨⟨⟨_, by cbv⟩, ⟨_, by cbv⟩⟩, ⟨⟨_, by cbv⟩, ⟨_, by cbv⟩⟩, by simp⟩

/-- The heavy parcel is found by both of its sizes, and is there once. -/
theorem find_sliced_parcels :
    Codec.json.KeepsKeyLists ∧
      Schema.build parcels.name [.indexedField "weight" weightOf, .sliceIndex "sizes" sizesOf] =
        .ok parcels.schema ∧
      standard.InStepIfThere parcels twoParcels ∧
      (standard.view parcels twoParcels).KeysAreCodes ∧ holdsEightOrNine.index = none ∧
      ∃ hinted plain,
        (standard.find parcels twoParcels (.ofSelection (.mk
          { holdsEightOrNine with index := some "sizes" } []))).result = .ok hinted ∧
        (standard.find parcels twoParcels (.ofSelection (.mk holdsEightOrNine []))).result =
          .ok plain ∧
        ∀ row, row ∈ hinted ↔ row ∈ plain := by
  obtain ⟨hinted, hhinted⟩ := exists_hinted_sizes
  obtain ⟨plain, hplain⟩ : ∃ rows, (standard.find parcels twoParcels (.ofSelection
      (.mk holdsEightOrNine []))).result = .ok rows :=
    exists_plain (fun b => by cbv) (fun b => by cbv) (fun b => ⟨⟨_, by cbv⟩, ⟨_, by cbv⟩⟩)
      fun b recheck => by cases recheck <;> exact ⟨⟨_, by cbv⟩, ⟨_, by cbv⟩⟩
  refine ⟨Codec.keepsKeyLists_json, build_parcels, inStepIfThere_twoParcels, keysAreCodes_twoParcels,
    rfl, hinted, plain, hhinted, hplain, ?_⟩
  have hdoubles : ∀ heavy, ∀ c ∈ holdsEightOrNine.criteriaOn "sizes",
      c.condition.KeepsDoubles (sizesOf heavy) := by
    intro heavy c hc part hpart v hv d x hd hx
    have hc : c ∈ [⟨.containsAny [.int 8, .int 9], false⟩] := hc
    rw [List.mem_singleton.mp hc] at hv
    have hv : v ∈ [.int 8, .int 9] := hv
    simp only [List.mem_cons, List.not_mem_nil, or_false] at hv
    rcases hv with rfl | rfl
    · cases hx
    · cases hx
  exact (find_sliced (s := standard) Codec.keepsKeyLists_json build_parcels
    (List.mem_cons_of_mem _ (List.mem_cons_self ..)) inStepIfThere_twoParcels keysAreCodes_twoParcels
    rfl hhinted hplain).2.1 fun row _ => ⟨.inr ⟨_, rfl⟩, hdoubles row.record⟩

end Parcels

end Store

end RecordStore
