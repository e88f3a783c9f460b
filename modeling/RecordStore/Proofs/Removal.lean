import RecordStore.Proofs.Alternatives
import RecordStore.Proofs.History
import RecordStore.Proofs.SliceScan

/-!
# Removed indexes

While the bucket of a removed index is not there, a term that is hinted at it walks all records. The
bucket is there again as soon as a record is filed, and the index then covers only what was written
after its removal: a term that walks it misses every other record, until the index is built anew
(`find_removed`).
-/

namespace RecordStore

/-! ## Queries without a hint -/

section Hints

variable {κ ρ : Type}

/-- The term without the hint at an index. -/
def Term.withoutHint (index : String) (t : Term κ ρ) : Term κ ρ :=
  if t.index = some index then { t with index := none } else t

namespace Selection

mutual

/-- The selection without the hints at an index. -/
def withoutHint (index : String) : Selection κ ρ → Selection κ ρ
  | .mk term branches => .mk (term.withoutHint index) (branchesWithoutHint index branches)

/-- The branches without the hints at an index. -/
def branchesWithoutHint (index : String) : List (Selection κ ρ) → List (Selection κ ρ)
  | [] => []
  | b :: bs => withoutHint index b :: branchesWithoutHint index bs

end

mutual

/-- The terms of a selection without the hint are its terms, each without it. -/
theorem terms_withoutHint (index : String) : ∀ s : Selection κ ρ,
    (s.withoutHint index).terms = s.terms.map (Term.withoutHint index)
  | .mk term branches => by
    rw [withoutHint, terms, terms, List.map_cons, branchTerms_withoutHint index branches]

theorem branchTerms_withoutHint (index : String) : ∀ bs : List (Selection κ ρ),
    branchTerms (branchesWithoutHint index bs) = (branchTerms bs).map (Term.withoutHint index)
  | [] => rfl
  | b :: bs => by
    rw [branchesWithoutHint, branchTerms, branchTerms, List.map_append, terms_withoutHint index b,
      branchTerms_withoutHint index bs]

end

end Selection

/-- A term is not hinted at an index, or it is what a term without a hint becomes by the hint. -/
theorem Term.withoutHint_cases (index : String) (t : Term κ ρ) :
    t.index ≠ some index ∧ t.withoutHint index = t ∨
      ∃ t' : Term κ ρ, t'.index = none ∧ t = { t' with index := some index } ∧
        t.withoutHint index = t' := by
  unfold withoutHint
  by_cases hindex : t.index = some index
  · refine .inr ⟨{ t with index := none }, rfl, ?_, if_pos hindex⟩
    cases t
    cases hindex
    rfl
  · exact .inl ⟨hindex, if_neg hindex⟩

end Hints

/-! ## Terms that walk an index -/

namespace View

variable {κ ρ : Type}

/-- The plan of a term is to walk the bucket of an index. -/
def Walks (v : View κ ρ) (index : String) (t : Term κ ρ) : Prop :=
  ∃ plan, v.plan t = .ok plan ∧ plan.bucket = Index.bucketName v.typeName index

/-- A hint is nothing that a record has to meet. -/
theorem matches_hint [CustomKind κ] {v : View κ ρ} {t : Term κ ρ} {hint : Option String}
    {row : Row κ ρ} : v.Matches { t with index := hint } row ↔ v.Matches t row :=
  ⟨fun h => ⟨h.stores, h.meets⟩, fun h => ⟨h.stores, h.meets⟩⟩

/-- The index of a field can answer a term: for all records that are stored, the criteria on the field
say the same of what is read back from the index as of the field. -/
def IndexAnswers [CustomKind κ] (v : View κ ρ) (declarations : List (Schema.Declaration κ ρ))
    (index : String) (get : ρ → Value κ) (t : Term κ ρ) : Prop :=
  (.indexedField index get ∈ declarations ∧
      (∀ row, v.Stores row → (get row.record).CustomAtTop) ∨
    .sliceIndex index get ∈ declarations ∧
      ∀ row, v.Stores row → get row.record = .nil ∨ ∃ items, get row.record = .list items) ∧
  ∀ row, v.Stores row → ∀ c ∈ t.criteriaOn index, c.condition.KeepsDoubles (get row.record)

end View

namespace Store

variable {κ ρ : Type} [CustomKind κ] {s : Store} {type : RecordType κ ρ} {b b' : Buckets}
  {index : String} {t : Term κ ρ} {row : Row κ ρ}

omit [CustomKind κ] in
/-- A term walks the records, or the index that it is hinted at. -/
theorem walks_cases {plan : Plan} (h : (s.view type b).plan t = .ok plan) :
    plan = .primaryKey type.name ∨ (∃ index, plan = .fallback type.name index) ∨
      ∃ index, t.index = some index ∧ plan.bucket = Index.bucketName type.name index ∧
        b.has (Index.bucketName type.name index) = true ∧
        (plan.scan = .index ∨ plan.scan = .sliceIndex) := by
  rcases Plan.ofTerm_cases h with ⟨rfl, -⟩ | ⟨index, hindex, -, -, hcases⟩
  · exact .inl rfl
  · rcases hcases with rfl | ⟨hhas, -, ⟨-, -, rfl⟩ | ⟨-, rfl⟩⟩
    · exact .inr (.inl ⟨index, rfl⟩)
    · exact .inr (.inr ⟨index, hindex, rfl, hhas, .inr rfl⟩)
    · exact .inr (.inr ⟨index, hindex, rfl, hhas, .inl rfl⟩)

omit [CustomKind κ] in
/-- No term walks an index while its bucket is not there. -/
theorem not_walks_of_not_has (h : b.has (Index.bucketName type.name index) = false) :
    ¬(s.view type b).Walks index t := by
  rintro ⟨plan, hplan, hbucket⟩
  have hbucket : plan.bucket = Index.bucketName type.name index := hbucket
  rcases walks_cases hplan with rfl | ⟨i, rfl⟩ | ⟨i, -, hi, hhas, -⟩
  · exact bucketName_ne _ _ hbucket.symm
  · exact bucketName_ne _ _ hbucket.symm
  · rw [← hi, hbucket, h] at hhas
    cases hhas

/-- A term that does not walk an index finds what matches. -/
theorem finds_of_not_walks (hkeys : (s.view type b).KeysAreCodes) (htold : (s.view type b).Told t)
    (hwalks : ∀ i, t.index = some i → ¬(s.view type b).Walks i t) :
    (s.view type b).Finds t row ↔ (s.view type b).Matches t row := by
  obtain ⟨plan, hplan, htold⟩ := htold
  rw [View.finds_iff hplan]
  rcases walks_cases hplan with rfl | ⟨i, rfl⟩ | ⟨i, hi, hbucket, -, -⟩
  · exact View.mem_rows_primaryKey hkeys htold row
  · exact View.mem_rows_full rfl rfl (fun _ => rfl) row
  · exact absurd ⟨plan, hplan, hbucket⟩ (hwalks i hi)

/-- Without an index a term finds what it matches. -/
theorem finds_of_plain (hkeys : (s.view type b).KeysAreCodes) (htold : (s.view type b).Told t)
    (hnone : t.index = none) : (s.view type b).Finds t row ↔ (s.view type b).Matches t row := by
  refine finds_of_not_walks hkeys htold fun i hi => ?_
  rw [hnone] at hi
  cases hi

/-- A term that walks an index finds what the index covers. -/
theorem covered_of_walks {covers : Bytes → Prop} (hcodec : s.codec.KeepsKeyLists)
    (hlists : Index.Lists s.codec b (Index.bucketName type.name index) fun v k =>
      covers k ∧ s.Filed type b index v k)
    (hwalks : (s.view type b).Walks index t) (h : (s.view type b).Finds t row) :
    covers row.rawKey := by
  obtain ⟨plan, hplan, hbucket⟩ := hwalks
  have hbucket : plan.bucket = Index.bucketName type.name index := hbucket
  obtain ⟨x, hx, hrow⟩ := List.mem_filterMap.mp ((View.finds_iff hplan row).mp h)
  obtain ⟨hraw, -, -, -⟩ := View.rowOf?_eq_some.mp hrow
  -- The key was listed in one of the entries.
  obtain ⟨e, he, l, hl, hkey⟩ : ∃ e ∈ ((s.view type b).candidates plan t).ahead, ∃ l,
      Index.decodeKeys s.codec e.2 = .ok l ∧ x.1.1 ∈ l.keys := by
    have hlisted : ∀ e ∈ ((s.view type b).candidates plan t).ahead,
        plan.scan = .index ∨ plan.scan = .sliceIndex →
        x.1.1 ∈ ((s.view type b).candidates plan t).entryKeys e →
        ∃ e ∈ ((s.view type b).candidates plan t).ahead, ∃ l,
          Index.decodeKeys s.codec e.2 = .ok l ∧ x.1.1 ∈ l.keys := by
      intro e he hscan hkey
      obtain ⟨-, l, -, -, hl, hkey⟩ := (Candidates.mem_entryKeys
        (c := (s.view type b).candidates plan t) hscan).mp hkey
      exact ⟨e, he, l, hl, hkey⟩
    rcases walks_cases hplan with rfl | ⟨i, rfl⟩ | ⟨-, -, -, -, hscan | hscan⟩
    · exact absurd hbucket.symm (bucketName_ne _ _)
    · exact absurd hbucket.symm (bucketName_ne _ _)
    · obtain ⟨e, he, hkey, -⟩ := (mem_pending_index hscan).mp hx
      exact hlisted e he (.inl hscan) hkey
    · have hstream := Candidates.stream_slice (c := (s.view type b).candidates plan t) hscan
        ((s.view type b).candidates plan t).ahead []
      obtain ⟨-, -, ⟨e, he, hkey⟩, -⟩ := (hstream.1 x).mp hx
      exact hlisted e he (.inr hscan) hkey
  have hentry := (View.ahead_candidates_suffix (s.view type b) plan t).subset he
  rw [hbucket] at hentry
  obtain ⟨l', hl', -, hmem⟩ := hlists.decodeKeys hcodec (Buckets.mem_entries_iff.mp hentry)
  rw [hl] at hl'
  cases hl'
  rw [hraw]
  exact ((hmem _).mp hkey).1

/-- If the index can answer, a term that is hinted at it finds what matches; but if it walks the index,
only what the index covers. -/
theorem finds_hinted {declarations : List (Schema.Declaration κ ρ)} {get : ρ → Value κ}
    {covers : Bytes → Prop} (hcodec : s.codec.KeepsKeyLists)
    (hbuild : Schema.build type.name declarations = .ok type.schema)
    (hanswers : (s.view type b).IndexAnswers declarations index get t)
    (hlists : Index.Lists s.codec b (Index.bucketName type.name index) fun v k =>
      covers k ∧ s.Filed type b index v k)
    (hkeys : (s.view type b).KeysAreCodes)
    (htold : (s.view type b).Told { t with index := some index }) :
    (s.view type b).Finds { t with index := some index } row ↔
      ((s.view type b).Walks index { t with index := some index } → covers row.rawKey) ∧
        (s.view type b).Matches t row := by
  by_cases hwalks : (s.view type b).Walks index { t with index := some index }
  -- Without a walk of the index the hint changes nothing.
  case neg =>
    rw [finds_of_not_walks hkeys htold (fun i hi => Option.some.inj hi ▸ hwalks), View.matches_hint]
    exact (and_iff_right fun h => absurd h hwalks).symm
  rw [forall_prop_of_true hwalks]
  obtain ⟨plan, hplan, htold⟩ := htold
  rw [View.finds_iff hplan]
  obtain ⟨plan', hplan', hbucket⟩ := hwalks
  rw [hplan] at hplan'
  cases hplan'
  have hbucket : plan.bucket = Index.bucketName type.name index := hbucket
  obtain ⟨hdeclared, hdoubles⟩ := hanswers
  rcases hdeclared with ⟨hdeclared, htop⟩ | ⟨hdeclared, hvalue⟩
  -- A scalar index asks its criteria of the value read back, which answers as the record does.
  · have hfield := Schema.build_indexedField hbuild hdeclared
    have hmem := mem_rows_hinted hcodec hfield (fun _ => hlists) hplan htold
    split at hmem
    next =>
      obtain ⟨hpredicate, hcustom, hmem⟩ := hmem
      refine (hmem row).trans (and_congr_right fun _ => ?_)
      rw [matches_iff (Schema.valueOf_field hfield.ne_key hfield.field) hpredicate]
      refine and_congr_right fun hbut => ?_
      exact surviveIndex (htop row hbut.stores) hcustom (hdoubles row hbut.stores)
    next =>
      refine (hmem row).trans (and_congr_left' (forall_prop_of_true ?_))
      rcases plan_hinted hfield hplan with rfl | ⟨rfl, -, -⟩
      · exact absurd hbucket.symm (bucketName_ne _ _)
      · rfl
  -- A slice index keeps every match among its candidates.
  · have hfield := Schema.build_sliceIndex hbuild hdeclared
    rcases mem_rows_sliced hcodec hfield (fun _ => hlists) hplan htold with
      ⟨hscan, -⟩ | ⟨-, hmem, hkept⟩
    · rcases plan_sliced hfield hplan with rfl | ⟨rfl, -, -⟩
      · exact absurd hbucket.symm (bucketName_ne _ _)
      · exact absurd rfl hscan
    · refine (hmem row).trans (and_congr_right fun hcovered => and_iff_left_of_imp fun h => ?_)
      exact hkept row (hvalue row h.stores) (hdoubles row h.stores) hcovered h

/-- A hint that is not followed changes nothing. -/
theorem finds_withoutHint (hkeys : (s.view type b).KeysAreCodes) (htold : (s.view type b).Told t)
    (htold' : (s.view type b).Told (t.withoutHint index))
    (hwalks : ¬(s.view type b).Walks index t) :
    (s.view type b).Finds t row ↔ (s.view type b).Finds (t.withoutHint index) row := by
  rcases t.withoutHint_cases index with ⟨-, hsame⟩ | ⟨t', hnone, rfl, hsame⟩
  · rw [hsame]
  · rw [hsame] at htold' ⊢
    rw [finds_of_not_walks hkeys htold (fun i hi => Option.some.inj hi ▸ hwalks),
      finds_of_plain hkeys htold' hnone, View.matches_hint]

/-- Nor does one that is followed to an index that can answer, as far as the index covers the
records. -/
theorem finds_covered {declarations : List (Schema.Declaration κ ρ)} {get : ρ → Value κ}
    {covers : Bytes → Prop} (hcodec : s.codec.KeepsKeyLists)
    (hbuild : Schema.build type.name declarations = .ok type.schema)
    (hanswers : t.index = some index → (s.view type b).IndexAnswers declarations index get t)
    (hlists : Index.Lists s.codec b (Index.bucketName type.name index) fun v k =>
      covers k ∧ s.Filed type b index v k)
    (hkeys : (s.view type b).KeysAreCodes) (htold : (s.view type b).Told t)
    (htold' : (s.view type b).Told (t.withoutHint index)) (hcovered : covers row.rawKey) :
    (s.view type b).Finds t row ↔ (s.view type b).Finds (t.withoutHint index) row := by
  rcases t.withoutHint_cases index with ⟨-, hsame⟩ | ⟨t', hnone, rfl, hsame⟩
  · rw [hsame]
  · rw [hsame] at htold' ⊢
    rw [finds_hinted (t := t') hcodec hbuild (hanswers rfl) hlists hkeys htold,
      finds_of_plain hkeys htold' hnone]
    exact and_iff_right fun _ => hcovered

/-! ## Removing an index -/

omit [CustomKind κ] in
/-- Removing an index drops its bucket and changes nothing else. -/
theorem inStepIfThere_removeIndex {u : Unit} (hb : s.InStepIfThere type b)
    (h : (s.removeIndex type index).Ends b u b') :
    s.InStepIfThere type b' ∧ b'.has (Index.bucketName type.name index) = false := by
  unfold removeIndex at h
  dsimp only at h
  rw [Step.ends_get_bind] at h
  split at h
  next =>
    obtain ⟨_, b₁, hdelete, hreport⟩ := Step.ends_bind.mp h
    rw [Step.ends_report.mp hreport]
    have hget := Buckets.get?_deleteBucket hdelete
    have hhas := Buckets.has_deleteBucket hdelete
    refine ⟨fun i hi => ?_, by rw [hhas, if_pos rfl]⟩
    by_cases heq : Index.bucketName type.name i = Index.bucketName type.name index
    · exact .inl (by rw [hhas, if_pos heq])
    · refine (hb i hi).imp (fun hmissing => by rw [hhas, if_neg heq, hmissing]) fun hlists => ?_
      refine hlists.congr (fun v => by rw [hget, if_neg heq]) fun v k => filed_congr ?_
      rw [hget, if_neg (bucketName_ne _ _).symm]
  next => exact absurd h Step.ends_fail

/-- After the removal of an index and writes, a term that walks the index misses every record that none
of the writes has filed; and it misses nothing else. -/
theorem find_removed {declarations : List (Schema.Declaration κ ρ)} {b₁ : Buckets} {u u' : Unit}
    {ws : List (Write κ ρ)} {selection : Selection κ ρ} {hinted plain : List (Row κ ρ)}
    (hcodec : s.codec.KeepsKeyLists) (hvalues : s.KeepsValues type)
    (hbuild : Schema.build type.name declarations = .ok type.schema)
    (hdeclared : type.schema.hasIndex index = true) (hstep : s.InStepIfThere type b)
    (hremove : (s.removeIndex type index).Ends b u b₁)
    (hwrites : (ws.forM (Write.run s type)).Ends b₁ u' b') (hkeys : (s.view type b').KeysAreCodes)
    (hhinted : (s.find type b' (.ofSelection selection)).result = .ok hinted)
    (hplain : (s.find type b' (.ofSelection (selection.withoutHint index))).result = .ok plain) :
    (b'.has (Index.bucketName type.name index) = false → ∀ row, row ∈ hinted ↔ row ∈ plain) ∧
    (∀ row ∈ hinted, s.filedBy type b₁ ws row.rawKey ∨
      ∃ t ∈ selection.terms, ¬(s.view type b').Walks index t ∧ (s.view type b').Finds t row) ∧
    ∀ get, (∀ t ∈ selection.terms, t.index = some index →
        (s.view type b').IndexAnswers declarations index get t) →
      ∀ row, row ∈ hinted ↔ row ∈ plain ∧ (s.filedBy type b₁ ws row.rawKey ∨
        ∃ t ∈ selection.terms, ¬(s.view type b').Walks index t ∧ (s.view type b').Finds t row) := by
  obtain ⟨hstep₁, hmissing⟩ := inStepIfThere_removeIndex hstep hremove
  -- The removed index covers what was filed since.
  have hstep' := inStepFor_forM hcodec hvalues ws hstep₁.for hwrites
  have hone := hstep'.oneValueEach hcodec
  have hlists : Index.Lists s.codec b' (Index.bucketName type.name index) fun v k =>
      s.filedBy type b₁ ws k ∧ s.Filed type b' index v k := by
    refine (hstep' index hdeclared).congr (fun _ => rfl) fun v k => and_congr_left' ?_
    show b₁.has (Index.bucketName type.name index) = true ∨ s.filedBy type b₁ ws k ↔ _
    rw [hmissing]
    exact or_iff_right Bool.false_ne_true
  obtain ⟨hmem, htold⟩ := View.mem_rows_terms hone hhinted
  obtain ⟨hmem', htold'⟩ := View.mem_rows_terms hone hplain
  rw [Selection.terms_withoutHint] at hmem' htold'
  have hmem' : ∀ row, row ∈ plain ↔
      ∃ t ∈ selection.terms, (s.view type b').Finds (t.withoutHint index) row := by
    intro row
    rw [hmem']
    exact ⟨fun ⟨t', ht', hrow⟩ => by
      obtain ⟨t, ht, rfl⟩ := List.mem_map.mp ht'
      exact ⟨t, ht, hrow⟩, fun ⟨t, ht, hrow⟩ => ⟨_, List.mem_map_of_mem ht, hrow⟩⟩
  have htold' : ∀ t ∈ selection.terms, (s.view type b').Told (t.withoutHint index) :=
    fun t ht => htold' _ (List.mem_map_of_mem ht)
  refine ⟨fun hmissing' row => ?_, fun row hrow => ?_, fun get hanswers row => ?_⟩
  · rw [hmem, hmem']
    exact exists_congr fun t => and_congr_right fun ht =>
      finds_withoutHint hkeys (htold t ht) (htold' t ht) (not_walks_of_not_has hmissing')
  · obtain ⟨t, ht, hfinds⟩ := (hmem row).mp hrow
    by_cases hwalks : (s.view type b').Walks index t
    · exact .inl (covered_of_walks hcodec hlists hwalks hfinds)
    · exact .inr ⟨t, ht, hwalks, hfinds⟩
  · have hcovered : ∀ t ∈ selection.terms, s.filedBy type b₁ ws row.rawKey →
        ((s.view type b').Finds t row ↔ (s.view type b').Finds (t.withoutHint index) row) :=
      fun t ht => finds_covered hcodec hbuild (hanswers t ht) hlists hkeys (htold t ht) (htold' t ht)
    rw [hmem, hmem']
    constructor
    · rintro ⟨t, ht, hfinds⟩
      by_cases hwalks : (s.view type b').Walks index t
      · have hfiled := covered_of_walks hcodec hlists hwalks hfinds
        exact ⟨⟨t, ht, (hcovered t ht hfiled).mp hfinds⟩, .inl hfiled⟩
      · exact ⟨⟨t, ht, (finds_withoutHint hkeys (htold t ht) (htold' t ht) hwalks).mp hfinds⟩,
          .inr ⟨t, ht, hwalks, hfinds⟩⟩
    · rintro ⟨⟨t, ht, hfinds⟩, hfiled | ⟨t', ht', -, hfinds'⟩⟩
      · exact ⟨t, ht, (hcovered t ht hfiled).mpr hfinds⟩
      · exact ⟨t', ht', hfinds'⟩

section Parcels

/-- The heavy parcel is there without its weight being listed. -/
def unweighedParcel : Buckets := (standard.removeIndex parcels "weight" heavyParcel).2

/-- Storing the light parcel brings the bucket of the index back. -/
def lightAfterRemoval : Write Empty Bool := .insert (.float ⟨0x4004000000000000⟩) false

/-- Both parcels, of which only the light one is listed under its weight. -/
def halfWeighed : Buckets := (lightAfterRemoval.run standard parcels unweighedParcel).2

theorem entries_halfWeighed :
    halfWeighed.entries parcels.name = twoParcels.entries parcels.name := by
  decide +kernel

/-- The index lists the parcel that was stored after the removal only. -/
theorem weights_halfWeighed : halfWeighed.entries "_index:Parcels:weight" =
    [(Keycode.encode (weightOf false), Text.utf8 "[[5,192,4,0,0,0,0,0,0]]")] := by
  decide +kernel

theorem keysAreCodes_halfWeighed : (standard.view parcels halfWeighed).KeysAreCodes := by
  intro k bytes hget
  refine keysAreCodes_twoParcels k bytes (Buckets.mem_entries_iff.mp ?_)
  show (k, bytes) ∈ twoParcels.entries parcels.name
  rw [← entries_halfWeighed]
  exact Buckets.mem_entries_iff.mpr hget

theorem ends_unweighedParcel :
    (standard.removeIndex parcels "weight").Ends heavyParcel () unweighedParcel :=
  ⟨by decide +kernel, rfl⟩

theorem ends_halfWeighed : ([lightAfterRemoval].forM (Write.run standard parcels)).Ends
    unweighedParcel () halfWeighed :=
  Step.ends_bind.mpr ⟨(), halfWeighed, ⟨by decide +kernel, rfl⟩, Step.ends_pure.mpr ⟨rfl, rfl⟩⟩

theorem inStepIfThere_heavyParcel : standard.InStepIfThere parcels heavyParcel :=
  fun index hindex => .inr (inStep_heavyParcel index hindex)

/-- All parcels, by the index on their weight. -/
def allByWeight : Term Empty Bool := { Term.all with index := some "weight" }

/-- With the bucket of the index there, the hint is followed. -/
theorem plan_allByWeight {b : Buckets} (hhas : b.has "_index:Parcels:weight" = true) :
    (standard.view parcels b).plan allByWeight =
      .ok ⟨.index, "_index:Parcels:weight", some "weight", some "weight", false⟩ := by
  show Except.ok (if !b.has "_index:Parcels:weight" then _ else _) = _
  rw [hhas]
  rfl

/-- All parcels are found by their weight where the index lists no others. -/
theorem exists_byWeight {b : Buckets} (hone : (standard.view parcels b).OneValueEach)
    (hhas : b.has "_index:Parcels:weight" = true)
    (hweights : b.entries "_index:Parcels:weight" ⊆ twoParcels.entries "_index:Parcels:weight")
    (hrecords : b.entries parcels.name = twoParcels.entries parcels.name) : ∃ rows,
    (standard.find parcels b (.ofSelection (.mk allByWeight []))).result = .ok rows := by
  rw [weights_twoParcels] at hweights
  rw [entries_twoParcels] at hrecords
  refine View.exists_rows (v := standard.view parcels b) (by cbv) (plan_allByWeight hhas)
    (View.sound_index rfl (hone "weight" rfl rfl)) ?_ ?_
  · show ∀ e ∈ b.entries "_index:Parcels:weight", _
    intro e he
    rcases List.mem_cons.mp (hweights he) with rfl | he
    · exact ⟨_, (Candidates.expand_index (.inl rfl)).mpr
        ⟨.int 1, true, by cbv, by cbv, _, decodeKeys_light, rfl⟩⟩
    · rw [List.mem_singleton.mp he]
      exact ⟨_, (Candidates.expand_index (.inl rfl)).mpr
        ⟨.int 30, true, by cbv, by cbv, _, decodeKeys_heavy, rfl⟩⟩
  · show ∀ e ∈ b.entries parcels.name, _
    simp only [hrecords, List.forall_mem_cons, Bool.forall_bool]
    exact ⟨⟨⟨_, by cbv⟩, ⟨_, by cbv⟩⟩, ⟨⟨_, by cbv⟩, ⟨_, by cbv⟩⟩, by simp⟩

theorem exists_byWeight_halfWeighed : ∃ rows,
    (standard.find parcels halfWeighed (.ofSelection (.mk allByWeight []))).result = .ok rows := by
  have hstep := inStepFor_forM (s := standard) Codec.keepsKeyLists_json keepsValues_parcels
    [lightAfterRemoval] (inStepIfThere_removeIndex inStepIfThere_heavyParcel
      ends_unweighedParcel).1.for ends_halfWeighed
  refine exists_byWeight (InStepFor.oneValueEach (s := standard) Codec.keepsKeyLists_json hstep)
    (Buckets.has_of_entries (by simp [weights_halfWeighed])) ?_ entries_halfWeighed
  rw [weights_halfWeighed, weights_twoParcels]
  simp

theorem withoutHint_allByWeight :
    (Selection.mk allByWeight []).withoutHint "weight" = .mk Term.all [] := by
  rw [Selection.withoutHint, Term.withoutHint,
    if_pos (show allByWeight.index = some "weight" from rfl)]
  rfl

/-- The row of the heavy parcel. -/
def heavyRow : Row Empty Bool := ⟨.int 3, true, Keycode.encode (.uint 3 : Value Empty)⟩

theorem matches_heavyRow {b : Buckets}
    (hrecords : b.entries parcels.name = twoParcels.entries parcels.name) :
    (standard.view parcels b).Matches Term.all heavyRow := by
  refine ⟨⟨Text.utf8 "true", Buckets.mem_entries_iff.mp ?_, by cbv, by cbv⟩, ?_⟩
  · show _ ∈ b.entries parcels.name
    rw [hrecords, entries_twoParcels]
    exact List.mem_cons_self ..
  · intro field criteria hfind
    cases hfind

/-- The heavy parcel is there, and is not found by its weight. -/
theorem find_removed_parcels :
    Codec.json.KeepsKeyLists ∧ standard.KeepsValues parcels ∧
      Schema.build parcels.name [.indexedField "weight" weightOf, .sliceIndex "sizes" sizesOf] =
        .ok parcels.schema ∧
      parcels.schema.hasIndex "weight" = true ∧ standard.InStepIfThere parcels heavyParcel ∧
      (standard.removeIndex parcels "weight").Ends heavyParcel () unweighedParcel ∧
      ([lightAfterRemoval].forM (Write.run standard parcels)).Ends unweighedParcel () halfWeighed ∧
      (standard.view parcels halfWeighed).KeysAreCodes ∧
      ∃ hinted plain,
        (standard.find parcels halfWeighed (.ofSelection (.mk allByWeight []))).result =
          .ok hinted ∧
        (standard.find parcels halfWeighed
          (.ofSelection ((Selection.mk allByWeight []).withoutHint "weight"))).result = .ok plain ∧
        ∃ row ∈ plain, row ∉ hinted := by
  rw [withoutHint_allByWeight]
  obtain ⟨hinted, hhinted⟩ := exists_byWeight_halfWeighed
  obtain ⟨plain, hplain⟩ : ∃ rows, (standard.find parcels halfWeighed (.ofSelection (.mk Term.all
      []))).result = .ok rows :=
    exists_plain (fun b => by cbv) (fun b => by cbv) (fun b => ⟨⟨_, by cbv⟩, ⟨_, by cbv⟩⟩)
      (fun b recheck => by cases recheck <;> exact ⟨⟨_, by cbv⟩, ⟨_, by cbv⟩⟩) entries_halfWeighed
  refine ⟨Codec.keepsKeyLists_json, keepsValues_parcels, build_parcels, rfl,
    inStepIfThere_heavyParcel, ends_unweighedParcel, ends_halfWeighed, keysAreCodes_halfWeighed, hinted,
    plain, hhinted, hplain, heavyRow, ?_, fun hrow => ?_⟩
  · exact (mem_of_plain keysAreCodes_halfWeighed rfl hplain _).mpr
      (matches_heavyRow entries_halfWeighed)
  · rw [← withoutHint_allByWeight] at hplain
    rcases (find_removed (s := standard) Codec.keepsKeyLists_json keepsValues_parcels build_parcels
      rfl inStepIfThere_heavyParcel ends_unweighedParcel ends_halfWeighed keysAreCodes_halfWeighed
      hhinted hplain).2.1 _ hrow with hfiled | ⟨t, ht, hwalks, -⟩
    · rcases hfiled with hlight | hnone
      · have hlight : heavyRow.rawKey = Keycode.encode (.float ⟨0x4004000000000000⟩ : Value Empty) :=
          hlight
        exact absurd hlight (by decide +kernel)
      · exact hnone
    · cases List.mem_singleton.mp ht
      refine hwalks ⟨_, plan_allByWeight ?_, rfl⟩
      exact Buckets.has_of_entries (by simp [weights_halfWeighed])

end Parcels

end Store

end RecordStore
