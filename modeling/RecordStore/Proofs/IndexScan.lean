import RecordStore.Proofs.Declared
import RecordStore.Proofs.InStep
import RecordStore.Proofs.Scan

/-!
# Scans of a scalar index

A term that is hinted walks the index if it can. An entry stands for the records that have its value, and
the walk settles the criteria on the field by the value that is read back from the entry, so its rows are
the records whose value meets the criteria once it is read back (`rows_of_hinted`). A value of the user's
own kind cannot be read back and is checked on the record. Everything else is checked on the record too,
which is why a hint changes the rows exactly if reading back changes what the criteria say of a value
(`find_indexed`), and that is so for decimals alone, when they are compared with doubles.
-/

namespace RecordStore

/-- The value that the walk of an index asks the criteria of. -/
def Value.readBack {κ : Type} [CustomKind κ] : Value κ → Value κ
  | .custom c => .custom c
  | v => v.restored

/-- No value of the user's own kind is inside a list or a map. -/
def Value.CustomAtTop {κ : Type} (v : Value κ) : Prop :=
  (∃ c, v = .custom c) ∨ v.hasCustomPart = false

/-- Criteria hold of a value that was read back exactly if they hold of the value itself. -/
def Criterion.SurviveIndex {κ ρ : Type} [CustomKind κ] (criteria : List (Criterion κ ρ))
    (w : Value κ) : Prop :=
  (∀ c ∈ criteria, c.condition.holdsOf w.readBack = .ok (!c.negated)) ↔
    ∀ c ∈ criteria, c.condition.holdsOf w = .ok (!c.negated)

namespace View

variable {κ ρ : Type} [CustomKind κ]

/-- A stored record that meets the criteria on every field but one. -/
structure MatchesBut (v : View κ ρ) (t : Term κ ρ) (index : String) (row : Row κ ρ) : Prop where
  stores : v.Stores row
  meets : ∀ field criteria, field ≠ index → t.criteria.find? field = some criteria →
    v.MeetsOn row.key row.record field criteria

end View

namespace Store

variable {κ ρ : Type} [CustomKind κ] {s : Store} {type : RecordType κ ρ} {b : Buckets}
  {t : Term κ ρ} {index : String} {get : ρ → Value κ}

/-! ## What is filed -/

/-- A record is filed under the key code of its field. -/
theorem yields_field {record : ρ} {code : Bytes} (h : type.schema.IndexesField index get) :
    Index.Yields type.schema index record code ↔ code = Keycode.encode (get record) := by
  unfold Index.Yields
  rw [h.index, h.slice]
  constructor
  · intro hyields
    rcases hyields with ⟨file, hfile, hyield⟩ | ⟨file, _, hfile, -⟩
    · cases hfile
      cases hyield
      rfl
    · cases hfile
  · intro hcode
    exact .inl ⟨_, rfl, by rw [hcode]⟩

/-- A stored record is filed under the encoding of its value and under nothing else. -/
theorem filed_of_stores {row : Row κ ρ} {code : Bytes} (h : type.schema.IndexesField index get)
    (hrow : (s.view type b).Stores row) :
    s.Filed type b index code row.rawKey ↔ code = Keycode.encode (get row.record) :=
  (filed_iff (read?_of_stores hrow)).trans (yields_field h)

/-! ## The rows of a walk of the index -/

/-- A walk of an index yields the records of the keys of accepted entries. -/
theorem mem_pending_index {v : View κ ρ} {plan : Plan} (hscan : plan.scan = .index)
    {x : Entry × Bool} : x ∈ (v.candidates plan t).pending ↔
      ∃ e ∈ (v.candidates plan t).ahead, x.1.1 ∈ (v.candidates plan t).entryKeys e ∧
        v.buckets.get? v.typeName x.1.1 = some x.1.2 ∧
        x.2 = (v.candidates plan t).leavesUnchecked e.1 := by
  rw [View.pending_candidates, Candidates.stream_index (c := v.candidates plan t) hscan,
    List.mem_flatMap]
  refine exists_congr fun e => and_congr_right fun _ => ?_
  rw [List.mem_map]
  constructor
  · intro h
    obtain ⟨e', he', rfl⟩ := h
    obtain ⟨key, hkey, he'⟩ := List.mem_filterMap.mp he'
    obtain ⟨rfl, hget⟩ := Candidates.entryOf?_eq_some.mp he'
    exact ⟨hkey, hget, rfl⟩
  · intro h
    obtain ⟨hkey, hget, hmark⟩ := h
    refine ⟨x.1, List.mem_filterMap.mpr ⟨x.1.1, hkey, ?_⟩, Prod.ext rfl hmark.symm⟩
    exact Candidates.entryOf?_eq_some.mpr ⟨rfl, hget⟩

/-- So its rows are the stored records that the index covers and whose entry is reached and accepted,
if they meet the criteria that are left open. -/
theorem mem_rows_reached {plan : Plan} {row : Row κ ρ} {covers : Bytes → Prop}
    (hcodec : s.codec.KeepsKeyLists)
    (hscan : plan.scan = .index) (hfield : type.schema.IndexesField index get)
    (hlists : Index.Lists s.codec b plan.bucket fun v k => covers k ∧ s.Filed type b index v k) :
    row ∈ ((s.view type b).candidates plan t).pending.filterMap ((s.view type b).rowOf? t plan) ↔
      (s.view type b).Stores row ∧ covers row.rawKey ∧
      (∃ bytes value,
        (Keycode.encode (get row.record), bytes) ∈ ((s.view type b).candidates plan t).ahead ∧
        Keycode.decode (Keycode.encode (get row.record)) = .ok value ∧
        ((s.view type b).candidates plan t).acceptsValue (Keycode.encode (get row.record)) value
          = .ok true) ∧
      ∀ field criteria, t.criteria.find? field = some criteria →
        (((s.view type b).candidates plan t).leavesUnchecked (Keycode.encode (get row.record)) = true
          ∨ plan.covers field = false) →
        (s.view type b).MeetsOn row.key row.record field criteria := by
  have hahead := View.ahead_candidates_suffix (s.view type b) plan t
  rw [List.mem_filterMap]
  constructor
  · intro h
    obtain ⟨x, hx, hrow⟩ := h
    obtain ⟨e, he, hkey, hget, hmark⟩ := (mem_pending_index hscan).mp hx
    obtain ⟨hraw, hdecode, hrecord, hmeets⟩ := View.rowOf?_eq_some.mp hrow
    obtain ⟨value, l, hvalue, haccepts, hl, hkey⟩ :=
      (Candidates.mem_entryKeys (.inl hscan)).mp hkey
    have hstores : (s.view type b).Stores row :=
      ⟨x.1.2, hraw ▸ hget, hraw ▸ hdecode, hrecord⟩
    -- An entry lists the keys of the records that have its value.
    obtain ⟨l', hl', -, hmem⟩ :=
      hlists.decodeKeys hcodec (Buckets.mem_entries_iff.mp (hahead.subset he))
    have hl : Index.decodeKeys s.codec e.2 = .ok l := hl
    rw [hl] at hl'
    cases hl'
    rw [← hraw] at hkey
    obtain ⟨hcovered, hfiled⟩ := (hmem _).mp hkey
    have hcode : e.1 = Keycode.encode (get row.record) := (filed_of_stores hfield hstores).mp hfiled
    rw [hmark, hcode] at hmeets
    rw [hcode] at hvalue haccepts
    exact ⟨hstores, hcovered, ⟨e.2, value, hcode ▸ he, hvalue, haccepts⟩, hmeets⟩
  · intro h
    obtain ⟨hstores, hcovered, ⟨bytes, value, he, hvalue, haccepts⟩, hmeets⟩ := h
    obtain ⟨record, hget, hdecode, hrecord⟩ := hstores
    obtain ⟨l, hl, -, hmem⟩ :=
      hlists.decodeKeys hcodec (Buckets.mem_entries_iff.mp (hahead.subset he))
    have hkey : row.rawKey ∈ l.keys :=
      (hmem _).mpr ⟨hcovered, (filed_of_stores hfield ⟨record, hget, hdecode, hrecord⟩).mpr rfl⟩
    refine ⟨((row.rawKey, record), _), (mem_pending_index hscan).mpr
      ⟨_, he, (Candidates.mem_entryKeys (.inl hscan)).mpr ⟨value, l, hvalue, haccepts, hl, hkey⟩,
        hget, rfl⟩, ?_⟩
    exact View.rowOf?_eq_some.mpr ⟨rfl, hdecode, hrecord, hmeets⟩

/-- The plan of a walk of the index. -/
def indexPlan (type : RecordType κ ρ) (t : Term κ ρ) (index : String) : Plan :=
  ⟨.index, Index.bucketName type.name index, some index,
    if (t.criteriaOn index).any (·.condition.mentionsCustom) then none else some index, false⟩

/-- What is asked of a stored record is what is asked of its field, and the rest. -/
theorem matches_iff {row : Row κ ρ} {w : Value κ}
    (hw : type.schema.valueOf row.key row.record index = .ok w)
    (hpredicate : (t.criteriaOn index).any (·.condition.isPredicate) = false) :
    (s.view type b).Matches t row ↔ (s.view type b).MatchesBut t index row ∧
      ∀ c ∈ t.criteriaOn index, c.condition.holdsOf w = .ok (!c.negated) := by
  have hplain : ∀ c ∈ t.criteriaOn index, c.condition.isPredicate = false := by
    intro c hc
    exact Bool.eq_false_iff.mpr (List.any_eq_false.mp hpredicate c hc)
  constructor
  · intro h
    refine ⟨⟨h.stores, fun field criteria _ => h.meets field criteria⟩, fun c hc => ?_⟩
    exact (View.meetsOn_criteriaOn h.meets hw).holdsOf hw c hc (hplain c hc)
  · intro h
    obtain ⟨hbut, hholds⟩ := h
    refine ⟨hbut.stores, fun field criteria hfind => ?_⟩
    by_cases hfield : field = index
    · subst hfield
      refine ⟨w, hw, fun c hc => Condition.holds_of_holdsOf (hholds c ?_)⟩
      rw [View.criteriaOn_of_find? hfind]
      exact hc
    · exact hbut.meets field criteria hfield hfind

/-- A walk of an index tests the value read back, unless that is of the user's own kind. -/
theorem acceptsValue_index {c : Candidates κ ρ} (hscan : c.scan = .index) (code : Bytes)
    (value : Value κ) : c.acceptsValue code value =
      if Keycode.isCustom code then .ok true else Criterion.allHoldOf value c.criteria := by
  unfold Candidates.acceptsValue
  rw [if_neg (by rw [hscan]; decide)]

section Walk

variable {row : Row κ ρ} {covers : Bytes → Prop} (hcodec : s.codec.KeepsKeyLists)
  (hfield : type.schema.IndexesField index get)
  (hlists : Index.Lists s.codec b (Index.bucketName type.name index) fun v k =>
    covers k ∧ s.Filed type b index v k)
  (htold : b.has type.name = true →
    ∀ e ∈ ((s.view type b).candidates (indexPlan type t index) t).ahead,
      ((s.view type b).candidates (indexPlan type t index) t).Tells e)

/-- The criteria that a walk of the index settles. -/
theorem criteria_indexPlan (v : View κ ρ) :
    (v.candidates (indexPlan type t index) t).criteria =
      if (t.criteriaOn index).any (·.condition.mentionsCustom) then [] else t.criteriaOn index := by
  show (if Scan.index = .full then [] else (indexPlan type t index).walkCriteria t) = _
  rw [if_neg (by decide)]
  show (if (if _ then none else some index : Option String).isSome then _ else _) = _
  cases (t.criteriaOn index).any (·.condition.mentionsCustom) <;> rfl

/-- A covering walk tests the criteria on the field of the index. -/
theorem criteria_indexPlan_covering (v : View κ ρ)
    (hcustom : (t.criteriaOn index).any (·.condition.mentionsCustom) = false) :
    (v.candidates (indexPlan type t index) t).criteria = t.criteriaOn index := by
  rw [criteria_indexPlan, hcustom]
  rfl

include hfield hlists in
/-- A stored record that is covered has an entry. -/
theorem exists_entry (hstores : (s.view type b).Stores row) (hcovered : covers row.rawKey) :
    ∃ bytes, (Keycode.encode (get row.record), bytes) ∈
      b.entries (Index.bucketName type.name index) := by
  obtain ⟨bytes, hbytes⟩ :=
    (hlists.present _).mpr ⟨row.rawKey, hcovered, (filed_of_stores hfield hstores).mpr rfl⟩
  exact ⟨bytes, Buckets.mem_entries_iff.mpr hbytes⟩

include htold in
/-- An entry that the walk reaches can be told. -/
theorem accepts_of_told {e : Entry} (hstores : (s.view type b).Stores row)
    (he : e ∈ ((s.view type b).candidates (indexPlan type t index) t).ahead) :
    ∃ value met, Keycode.decode e.1 = .ok value ∧
      ((s.view type b).candidates (indexPlan type t index) t).acceptsValue e.1 value = .ok met := by
  obtain ⟨stored, hstored, -⟩ := hstores
  obtain ⟨x, hx⟩ := htold (Buckets.has_of_get? hstored) _ he
  obtain ⟨value, met, hvalue, hmet, -⟩ := (Candidates.expand_index (.inl rfl)).mp hx
  exact ⟨value, met, hvalue, hmet⟩

include hcodec hfield hlists htold in
/-- If an operand is a value of the user's own kind, every entry is accepted and every criterion is left
open. -/
theorem mem_rows_open
    (hcustom : (t.criteriaOn index).any (·.condition.mentionsCustom) = true) :
    row ∈ ((s.view type b).candidates (indexPlan type t index) t).pending.filterMap
        ((s.view type b).rowOf? t (indexPlan type t index)) ↔
      covers row.rawKey ∧ (s.view type b).Matches t row := by
  have hcovers : ∀ field, (indexPlan type t index).covers field = false := by
    intro field
    unfold Plan.covers indexPlan
    rw [if_pos hcustom]
    rfl
  have hcriteria : ((s.view type b).candidates (indexPlan type t index) t).criteria = [] := by
    rw [criteria_indexPlan, if_pos hcustom]
  rw [mem_rows_reached hcodec rfl hfield hlists]
  constructor
  · intro h
    obtain ⟨hstores, hcovered, -, hmeets⟩ := h
    exact ⟨hcovered, hstores, fun field criteria hfind =>
      hmeets field criteria hfind (.inr (hcovers field))⟩
  · intro h
    obtain ⟨hcovered, h⟩ := h
    refine ⟨h.stores, hcovered, ?_, fun field criteria hfind _ => h.meets field criteria hfind⟩
    obtain ⟨bytes, he⟩ := exists_entry hfield hlists h.stores hcovered
    have he : (Keycode.encode (get row.record), bytes) ∈
        ((s.view type b).candidates (indexPlan type t index) t).ahead := by
      -- Without criteria there is no place to start at but the first entry.
      show _ ∈ Candidates.walkFrom _
        ((s.view type b).candidates (indexPlan type t index) t).criteria
      rw [hcriteria]
      exact he
    obtain ⟨value, _, hvalue, -⟩ := accepts_of_told htold h.stores he
    refine ⟨bytes, value, he, hvalue, ?_⟩
    rw [acceptsValue_index rfl, hcriteria]
    split <;> rfl

variable (hcustom : (t.criteriaOn index).any (·.condition.mentionsCustom) = false)

omit [CustomKind κ] in
include hcustom in
theorem covers_indexPlan (field : String) :
    (indexPlan type t index).covers field = decide (index = field) := by
  unfold Plan.covers indexPlan
  rw [if_neg (by rw [hcustom]; exact Bool.false_ne_true)]
  simp

include hcodec hfield hlists htold hcustom in
/-- Otherwise the walk settles the criteria on the field. A value of the user's own kind it accepts as it
is, and leaves the record to be checked. -/
theorem mem_rows_own {k : κ} (hown : get row.record = .custom k) :
    row ∈ ((s.view type b).candidates (indexPlan type t index) t).pending.filterMap
        ((s.view type b).rowOf? t (indexPlan type t index)) ↔
      covers row.rawKey ∧ (s.view type b).Matches t row := by
  have hcriteria : ((s.view type b).candidates (indexPlan type t index) t).criteria =
      t.criteriaOn index := criteria_indexPlan_covering _ hcustom
  have hcode : Keycode.isCustom (Keycode.encode (get row.record)) = true := by
    rw [hown]
    rfl
  rw [mem_rows_reached hcodec rfl hfield hlists]
  constructor
  · intro h
    obtain ⟨hstores, hcovered, -, hmeets⟩ := h
    refine ⟨hcovered, hstores, fun field criteria hfind => ?_⟩
    by_cases hindex : index = field
    · subst hindex
      have hon := View.criteriaOn_of_find? hfind
      cases criteria with
      | nil => exact ⟨_, Schema.valueOf_field hfield.ne_key hfield.field, by simp⟩
      | cons c criteria =>
        refine hmeets index _ hfind (.inl ?_)
        unfold Candidates.leavesUnchecked
        rw [hcriteria, hcode, hon]
        rfl
    · refine hmeets field criteria hfind (.inr ?_)
      rw [covers_indexPlan hcustom, decide_eq_false hindex]
  · intro h
    obtain ⟨hcovered, h⟩ := h
    refine ⟨h.stores, hcovered, ?_, fun field criteria hfind _ => h.meets field criteria hfind⟩
    obtain ⟨bytes, he⟩ := exists_entry hfield hlists h.stores hcovered
    have hreached : (Keycode.encode (get row.record), bytes) ∈
        ((s.view type b).candidates (indexPlan type t index) t).ahead := by
      -- The place to start at is never behind it, as no operand is of the user's own kind.
      refine Candidates.mem_walkFrom he fun target htarget => ?_
      obtain ⟨_, v, -, -, hkeeps, -, rfl⟩ := Candidates.startCode?_eq_some htarget
      rw [hown]
      refine Keycode.not_encode_custom_lt fun k' hv => ?_
      rw [hv] at hkeeps
      cases hkeeps
    obtain ⟨value, _, hvalue, -⟩ := accepts_of_told htold h.stores hreached
    refine ⟨bytes, value, hreached, hvalue, ?_⟩
    rw [acceptsValue_index rfl, if_pos hcode]

include hcodec hfield hlists htold hcustom in
/-- All other values it reads back. -/
theorem mem_rows_restored (hother : ∀ k, get row.record ≠ .custom k) :
    row ∈ ((s.view type b).candidates (indexPlan type t index) t).pending.filterMap
        ((s.view type b).rowOf? t (indexPlan type t index)) ↔
      covers row.rawKey ∧ (s.view type b).MatchesBut t index row ∧
        ∀ c ∈ t.criteriaOn index, c.condition.holdsOf (get row.record).restored =
          .ok (!c.negated) := by
  have hcriteria : ((s.view type b).candidates (indexPlan type t index) t).criteria =
      t.criteriaOn index := criteria_indexPlan_covering _ hcustom
  have hcode := Keycode.isCustom_encode hother
  rw [mem_rows_reached hcodec rfl hfield hlists]
  constructor
  · intro h
    obtain ⟨hstores, hcovered, ⟨bytes, value, -, hvalue, haccepts⟩, hmeets⟩ := h
    refine ⟨hcovered,
      ⟨hstores, fun field criteria hne hfind => hmeets field criteria hfind (.inr ?_)⟩, ?_⟩
    · rw [covers_indexPlan hcustom, decide_eq_false (Ne.symm hne)]
    · rw [acceptsValue_index rfl, hcode, if_neg Bool.false_ne_true, hcriteria,
        Keycode.decode_encode hvalue] at haccepts
      exact Criterion.allHoldOf_eq_true.mp haccepts
  · intro h
    obtain ⟨hcovered, hbut, hholds⟩ := h
    obtain ⟨bytes, he⟩ := exists_entry hfield hlists hbut.stores hcovered
    -- The code of what was read back is not behind the entry, so the start is not either.
    have hreached : (Keycode.encode (get row.record), bytes) ∈
        ((s.view type b).candidates (indexPlan type t index) t).ahead := by
      refine Candidates.mem_walkFrom_of_holds he (Value.restored_ne_custom (get row.record))
        (Keycode.below_encode_restored _).order fun c hc _ => hholds c ?_
      rw [← hcriteria]
      exact hc
    obtain ⟨value, _, hvalue, -⟩ := accepts_of_told htold hbut.stores hreached
    refine ⟨hbut.stores, hcovered, ⟨bytes, value, hreached, hvalue, ?_⟩,
      fun field criteria hfind hopen => ?_⟩
    · rw [acceptsValue_index rfl, hcode, if_neg Bool.false_ne_true, hcriteria,
        Keycode.decode_encode hvalue]
      exact Criterion.allHoldOf_eq_true.mpr hholds
    · refine hbut.meets field criteria (fun heq => ?_) hfind
      rcases hopen with hmarked | hcovers
      · unfold Candidates.leavesUnchecked at hmarked
        rw [hcode] at hmarked
        cases hmarked
      · rw [covers_indexPlan hcustom, decide_eq_true heq.symm] at hcovers
        cases hcovers

end Walk

/-! ## The order of a walk of the index -/

/-- One key comes before another in an index: it has a smaller value, or the same and is smaller. -/
def FiledBefore (s : Store) (type : RecordType κ ρ) (b : Buckets) (index : String) (k k' : Bytes) :
    Prop :=
  ∀ code code', s.Filed type b index code k → s.Filed type b index code' k' →
    compare code code' = .lt ∨ code = code' ∧ compare k k' = .lt

/-- A scalar index files a record under one value. -/
theorem filed_unique (hfield : type.schema.IndexesField index get) {k code code' : Bytes}
    (h : s.Filed type b index code k) (h' : s.Filed type b index code' k) : code = code' := by
  obtain ⟨record, hread, hyields⟩ := h
  have hyields' := (filed_iff hread).mp h'
  rw [(yields_field hfield).mp hyields, (yields_field hfield).mp hyields']

/-- The candidates of a walk of an index come in the order in which it lists them. -/
theorem pendingKeys_filedBefore {plan : Plan} {covers : Bytes → Prop}
    (hcodec : s.codec.KeepsKeyLists)
    (hscan : plan.scan = .index) (hfield : type.schema.IndexesField index get)
    (hlists : Index.Lists s.codec b plan.bucket fun v k => covers k ∧ s.Filed type b index v k) :
    ((s.view type b).candidates plan t).pendingKeys.Pairwise (s.FiledBefore type b index) := by
  have hahead := View.ahead_candidates_suffix (s.view type b) plan t
  -- Each entry yields keys of its own list, in order.
  have hlist : ∀ e ∈ ((s.view type b).candidates plan t).ahead, ∃ l : KeyList, l.Ascends ∧
      (((s.view type b).candidates plan t).entryKeys e).Sublist l.keys ∧
      ∀ k ∈ l.keys, s.Filed type b index e.1 k := by
    intro e he
    obtain ⟨l, hl, hascends, hmem⟩ :=
      hlists.decodeKeys hcodec (Buckets.mem_entries_iff.mp (hahead.subset he))
    refine ⟨l, hascends, ?_, fun k hk => ((hmem k).mp hk).2⟩
    rcases Candidates.entryKeys_eq (c := (s.view type b).candidates plan t) (.inl hscan) e with
      hnone | ⟨l', hl', heq⟩
    · rw [hnone]
      exact List.nil_sublist _
    · have hl' : Index.decodeKeys s.codec e.2 = .ok l' := hl'
      rw [hl] at hl'
      cases hl'
      rw [heq]
  have hsub := Candidates.keys_filterMap_sublist ((s.view type b).candidates plan t)
  unfold Candidates.pendingKeys
  rw [View.pending_candidates, Candidates.stream_index (c := (s.view type b).candidates plan t) hscan,
    List.map_flatMap, List.pairwise_flatMap]
  constructor
  · -- Under one value the keys ascend.
    intro e he
    obtain ⟨l, hascends, hkeys, hfiled⟩ := hlist e he
    refine List.Pairwise.imp_of_mem ?_ (List.Pairwise.sublist ((hsub _ _).trans hkeys) hascends)
    intro k k' hk hk' hlt code code' hcode hcode'
    have hk := hfiled k (hkeys.subset ((hsub _ _).subset hk))
    have hk' := hfiled k' (hkeys.subset ((hsub _ _).subset hk'))
    refine .inr ⟨?_, hlt⟩
    rw [filed_unique hfield hcode hk, filed_unique hfield hcode' hk']
  · -- The values ascend from entry to entry.
    refine List.Pairwise.imp_of_mem ?_
      (List.Pairwise.sublist hahead.sublist (Buckets.keysAscend_entries _ _))
    intro e e' he he' hlt k hk k' hk' code code' hcode hcode'
    obtain ⟨l, -, hkeys, hfiled⟩ := hlist e he
    obtain ⟨l', -, hkeys', hfiled'⟩ := hlist e' he'
    have hk := hfiled k (hkeys.subset ((hsub _ _).subset hk))
    have hk' := hfiled' k' (hkeys'.subset ((hsub _ _).subset hk'))
    left
    rw [filed_unique hfield hcode hk, filed_unique hfield hcode' hk']
    exact hlt

/-! ## Scans with and without the index -/

/-- The plan of a term that is hinted: to walk the index, or all records if it cannot serve. -/
theorem plan_hinted {plan : Plan} (hfield : type.schema.IndexesField index get)
    (h : (s.view type b).plan { t with index := some index } = .ok plan) :
    plan = .fallback type.name index ∨ plan = indexPlan type t index ∧
      b.has (Index.bucketName type.name index) = true ∧
      (t.criteriaOn index).any (·.condition.isPredicate) = false := by
  rcases Plan.ofTerm_cases h with ⟨-, hnone | hkey⟩ | ⟨i, hi, -, -, hcases⟩
  · cases hnone
  · cases hkey
    exact absurd rfl hfield.ne_key
  · cases hi
    rcases hcases with rfl | ⟨hhas, hpredicate, ⟨hslice, -, -⟩ | ⟨-, rfl⟩⟩
    · exact .inl rfl
    · have hslice : (type.schema.sliceIndexes.find? index).isSome = true := hslice
      rw [hfield.slice] at hslice
      cases hslice
    · exact .inr ⟨rfl, hhas, hpredicate⟩

/-- What is not of the user's own kind is read back restored. -/
theorem readBack_eq {w : Value κ} (h : ∀ k, w ≠ .custom k) : w.readBack = w.restored := by
  cases w with
  | custom k => exact absurd rfl (h k)
  | _ => rfl

/-- What was read back without loss answers as it did before. -/
theorem surviveIndex {criteria : List (Criterion κ ρ)} {w : Value κ} (hw : w.CustomAtTop)
    (hcustom : criteria.any (·.condition.mentionsCustom) = false)
    (hdoubles : ∀ c ∈ criteria, c.condition.KeepsDoubles w) :
    Criterion.SurviveIndex criteria w := by
  rcases hw with ⟨k, rfl⟩ | hw
  · exact Iff.rfl
  · refine forall₂_congr fun c hc => ?_
    have hother : c.condition.mentionsCustom = false :=
      Bool.eq_false_iff.mpr (List.any_eq_false.mp hcustom c hc)
    have hread : w.readBack = w.restored := by
      refine readBack_eq fun k hk => ?_
      rw [hk] at hw
      cases hw
    rw [hread]
    exact Condition.holdsOf_restored hw hother (hdoubles c hc) (!c.negated)

/-- The rows of a query of a single term have the keys of its candidates, in their order. -/
theorem rawKeys_of_rows {v : View κ ρ} {plan : Plan} {rows : List (Row κ ρ)}
    (hrows : rows = (v.candidates plan t).pending.filterMap (v.rowOf? t plan)) :
    (rows.map (·.rawKey)).Sublist (v.candidates plan t).pendingKeys := by
  rw [hrows]
  exact View.rawKeys_sublist _

/-- What the plan of a hinted term leads to, if the index covers some of the records. -/
theorem mem_rows_hinted {plan : Plan} {covers : Bytes → Prop} (hcodec : s.codec.KeepsKeyLists)
    (hfield : type.schema.IndexesField index get)
    (hlists : b.has (Index.bucketName type.name index) = true →
      Index.Lists s.codec b (Index.bucketName type.name index) fun v k =>
        covers k ∧ s.Filed type b index v k)
    (hplan : (s.view type b).plan { t with index := some index } = .ok plan)
    (htold : b.has type.name = true → ∀ e ∈ ((s.view type b).candidates plan t).ahead,
      ((s.view type b).candidates plan t).Tells e) :
    if plan.covers index then (t.criteriaOn index).any (·.condition.isPredicate) = false ∧
      (t.criteriaOn index).any (·.condition.mentionsCustom) = false ∧
      ∀ row,
        row ∈ ((s.view type b).candidates plan t).pending.filterMap ((s.view type b).rowOf? t plan) ↔
          covers row.rawKey ∧ (s.view type b).MatchesBut t index row ∧
            ∀ c ∈ t.criteriaOn index, c.condition.holdsOf (get row.record).readBack = .ok (!c.negated)
    else ∀ row,
      row ∈ ((s.view type b).candidates plan t).pending.filterMap ((s.view type b).rowOf? t plan) ↔
        (plan.scan = .index → covers row.rawKey) ∧ (s.view type b).Matches t row := by
  rcases plan_hinted hfield hplan with rfl | ⟨rfl, hhas, hpredicate⟩
  · rw [if_neg (by simp [Plan.covers, Plan.fallback])]
    intro row
    rw [View.mem_rows_full (t := t) rfl rfl (fun _ => rfl) row]
    exact (and_iff_right Scan.noConfusion).symm
  · cases hcustom : (t.criteriaOn index).any (·.condition.mentionsCustom) with
    | true =>
      -- The criteria mention a custom value, so that every candidate is checked on its record.
      rw [if_neg (by simp [Plan.covers, indexPlan, hcustom])]
      intro row
      rw [mem_rows_open hcodec hfield (hlists hhas) htold hcustom]
      exact and_congr_left' ⟨fun hcovered _ => hcovered, fun h => h rfl⟩
    | false =>
      rw [if_pos (by simp [covers_indexPlan hcustom])]
      refine ⟨hpredicate, rfl, fun row => ?_⟩
      -- An entry of a custom value is accepted unasked and checked on its record; any other is asked.
      by_cases hown : ∃ k, get row.record = .custom k
      · obtain ⟨k, hk⟩ := hown
        refine (mem_rows_own hcodec hfield (hlists hhas) htold hcustom hk).trans ?_
        rw [matches_iff (Schema.valueOf_field hfield.ne_key hfield.field) hpredicate, hk]
        exact Iff.rfl
      · have hother : ∀ k, get row.record ≠ .custom k := fun k hk => hown ⟨k, hk⟩
        rw [readBack_eq hother]
        exact mem_rows_restored hcodec hfield (hlists hhas) htold hcustom hother

/-- The rows of a hinted term. -/
theorem rows_of_hinted {hinted : List (Row κ ρ)} (hcodec : s.codec.KeepsKeyLists)
    (hfield : type.schema.IndexesField index get) (hstep : s.InStepIfThere type b)
    (hhinted : (s.find type b (.ofSelection (.mk { t with index := some index } []))).result =
      .ok hinted) :
    ∃ plan, (s.view type b).plan { t with index := some index } = .ok plan ∧
      (if plan.covers index then (t.criteriaOn index).any (·.condition.isPredicate) = false ∧
          (t.criteriaOn index).any (·.condition.mentionsCustom) = false ∧
          ∀ row, row ∈ hinted ↔ (s.view type b).MatchesBut t index row ∧
            ∀ c ∈ t.criteriaOn index, c.condition.holdsOf (get row.record).readBack =
              .ok (!c.negated)
        else ∀ row, row ∈ hinted ↔ (s.view type b).Matches t row) ∧
      (hinted.map (·.rawKey)).Nodup ∧
      (plan.scan = .index →
        (hinted.map (·.rawKey)).Pairwise (s.FiledBefore type b index)) := by
  have hlists := hstep.listsAll hfield.hasIndex
  -- Every plan that the hint may lead to walks distinct stored keys.
  have hcandidates : ∀ plan, (s.view type b).plan { t with index := some index } = .ok plan →
      ((s.view type b).candidates plan { t with index := some index }).Sound ∧
      ∀ x ∈ ((s.view type b).candidates plan { t with index := some index }).pending,
        (s.view type b).buckets.get? (s.view type b).typeName x.1.1 = some x.1.2 := by
    intro plan hplan
    rcases plan_hinted hfield hplan with rfl | ⟨rfl, hhas, -⟩
    · exact View.sound_records (.inl rfl) rfl
    · exact View.sound_index rfl (oneValueEach_of_lists hcodec (hlists hhas)
        fun _ _ _ hcode hcode' => filed_unique hfield hcode.2 hcode'.2)
  obtain ⟨-, plan, hplan, htold, -, hrows⟩ := (View.rows_of_term hcandidates).mp hhinted
  have hkeys := rawKeys_of_rows hrows
  have hmem := mem_rows_hinted hcodec hfield hlists hplan htold
  refine ⟨plan, hplan, ?_, (hcandidates plan hplan).1.nodup.sublist hkeys, fun hscan => ?_⟩
  · rw [hrows]
    split at hmem
    next hcovers =>
      rw [if_pos hcovers]
      exact ⟨hmem.1, hmem.2.1, fun row => (hmem.2.2 row).trans (and_iff_right trivial)⟩
    next hcovers =>
      rw [if_neg hcovers]
      exact fun row => (hmem row).trans (and_iff_right fun _ => trivial)
  · rcases plan_hinted hfield hplan with rfl | ⟨rfl, hhas, -⟩
    · cases hscan
    · exact (pendingKeys_filedBefore hcodec rfl hfield (hlists hhas)).sublist hkeys

/-- What a hint does to the rows of a term is what reading a value back does to the criteria on the
field. -/
theorem find_indexed {declarations : List (Schema.Declaration κ ρ)} {hinted plain : List (Row κ ρ)}
    (hcodec : s.codec.KeepsKeyLists)
    (hbuild : Schema.build type.name declarations = .ok type.schema)
    (hdeclared : .indexedField index get ∈ declarations)
    (hstep : s.InStepIfThere type b) (hkeys : (s.view type b).KeysAreCodes) (hhint : t.index = none)
    (hhinted : (s.find type b (.ofSelection (.mk { t with index := some index } []))).result =
      .ok hinted)
    (hplain : (s.find type b (.ofSelection (.mk t []))).result = .ok plain) :
    ((∀ row, row ∈ hinted ↔ row ∈ plain) ↔
      ∀ plan, (s.view type b).plan { t with index := some index } = .ok plan →
        plan.covers index = true → ∀ row, (s.view type b).MatchesBut t index row →
          Criterion.SurviveIndex (t.criteriaOn index) (get row.record)) ∧
    ((∀ row, (s.view type b).Stores row → (get row.record).CustomAtTop ∧
        ∀ c ∈ t.criteriaOn index, c.condition.KeepsDoubles (get row.record)) →
      ∀ row, row ∈ hinted ↔ row ∈ plain) ∧
    (hinted.map (·.rawKey)).Nodup ∧ (plain.map (·.rawKey)).Nodup ∧
    ∀ plan, (s.view type b).plan { t with index := some index } = .ok plan → plan.scan = .index →
      hinted.Pairwise fun row row' =>
        compare (Keycode.encode (get row.record)) (Keycode.encode (get row'.record)) = .lt ∨
          Keycode.encode (get row.record) = Keycode.encode (get row'.record) ∧
            compare row.rawKey row'.rawKey = .lt := by
  have hfield := Schema.build_indexedField hbuild hdeclared
  obtain ⟨plan, hplan, hrows, hnodup, hordered⟩ := rows_of_hinted hcodec hfield hstep hhinted
  have hone : ∀ plan', (s.view type b).plan { t with index := some index } = .ok plan' →
      plan' = plan := fun plan' hplan' => Except.ok.inj (hplan'.symm.trans hplan)
  have hmatches := mem_of_plain hkeys hhint hplain
  have hstored : ∀ row ∈ hinted, (s.view type b).Stores row := by
    intro row hrow
    split at hrows
    next => exact ((hrows.2.2 row).mp hrow).1.stores
    next => exact ((hrows row).mp hrow).stores
  have hsurvive : (∀ row, row ∈ hinted ↔ row ∈ plain) ↔
      (plan.covers index = true → ∀ row, (s.view type b).MatchesBut t index row →
        Criterion.SurviveIndex (t.criteriaOn index) (get row.record)) := by
    cases hcovers : plan.covers index with
    | false =>
      -- A plan that leaves everything open has the rows of the plain scan in any case.
      rw [if_neg (by rw [hcovers]; exact Bool.false_ne_true)] at hrows
      refine ⟨fun _ h => absurd h Bool.false_ne_true, fun _ row => ?_⟩
      exact (hrows row).trans (hmatches row).symm
    | true =>
      rw [if_pos hcovers] at hrows
      obtain ⟨hpredicate, -, hrows⟩ := hrows
      rw [forall_prop_of_true rfl]
      refine forall_congr' fun row => ?_
      have hvalue : type.schema.valueOf row.key row.record index = .ok (get row.record) :=
        Schema.valueOf_field hfield.ne_key hfield.field
      -- Both scans ask the same of the other fields, so it comes down to the field itself.
      rw [hrows, hmatches, matches_iff hvalue hpredicate, and_congr_right_iff]
      exact Iff.rfl
  refine ⟨?_, fun hkeeps => ?_, hnodup, nodup_of_plain hhint hplain, fun plan' hplan' hscan => ?_⟩
  · rw [hsurvive]
    constructor
    · intro h plan' hplan'
      rw [hone plan' hplan']
      exact h
    · intro h
      exact h plan hplan
  · refine hsurvive.mpr fun hcovers row hbut => ?_
    rw [if_pos hcovers] at hrows
    obtain ⟨hvalue, hdoubles⟩ := hkeeps row hbut.stores
    exact surviveIndex hvalue hrows.2.1 hdoubles
  · rw [hone plan' hplan'] at hscan
    refine (List.pairwise_map.mp (hordered hscan)).imp_of_mem ?_
    intro row row' hrow hrow' hbefore
    exact hbefore _ _ ((filed_of_stores hfield (hstored row hrow)).mpr rfl)
      ((filed_of_stores hfield (hstored row' hrow')).mpr rfl)

section Parcels

theorem build_parcels : Schema.build parcels.name
    [.indexedField "weight" weightOf, .sliceIndex "sizes" sizesOf] = .ok parcels.schema := rfl

/-- What is stored for a parcel is read back as that parcel. -/
theorem readsBack_parcels : standard.ReadsBack parcels := by
  intro heavy bytes hwrite
  have hbytes : bytes = Text.utf8 (if heavy then "true" else "false") := by
    cases heavy <;> cases hwrite <;> decide +kernel
  rw [hbytes]
  cases heavy <;> cbv

theorem keepsValues_parcels : standard.KeepsValues parcels := readsBack_parcels.keepsValues

theorem inStep_heavyParcel : standard.InStep parcels heavyParcel :=
  (inStepFor_insert (s := standard) Codec.keepsKeyLists_json keepsValues_parcels inStep_empty.for
    (u := ()) ⟨by decide +kernel, rfl⟩).inStep fun _ _ _ _ => .inl trivial

theorem inStep_twoParcels : standard.InStep parcels twoParcels :=
  (inStepFor_insert (s := standard) Codec.keepsKeyLists_json keepsValues_parcels
    inStep_heavyParcel.for (u := ()) ⟨by decide +kernel, rfl⟩).inStep fun _ _ _ _ => .inl trivial

theorem inStepIfThere_twoParcels : standard.InStepIfThere parcels twoParcels :=
  fun index hindex => .inr (inStep_twoParcels index hindex)

/-- The heavy parcel has the key 3, whose code is listed under its weight. -/
theorem weights_twoParcels :
    twoParcels.entries "_index:Parcels:weight" =
      [(Keycode.encode (weightOf false), Text.utf8 "[[5,192,4,0,0,0,0,0,0]]"),
        (Keycode.encode (weightOf true), Text.utf8 "[[4,0,0,0,0,0,0,0,3]]")] := by
  decide +kernel

/-- The key list of the heavy parcel. -/
theorem decodeKeys_heavy : Index.decodeKeys Codec.json (Text.utf8 "[[4,0,0,0,0,0,0,0,3]]") =
    .ok ⟨[[4, 0, 0, 0, 0, 0, 0, 0, 3]]⟩ :=
  Codec.keepsKeyLists_json _ _ (by decide +kernel)

/-- The key list of the light parcel. -/
theorem decodeKeys_light : Index.decodeKeys Codec.json (Text.utf8 "[[5,192,4,0,0,0,0,0,0]]") =
    .ok ⟨[[5, 192, 4, 0, 0, 0, 0, 0, 0]]⟩ :=
  Codec.keepsKeyLists_json _ _ (by decide +kernel)

/-- Parcels that weigh two or more. -/
def weighsTwo : Term Empty Bool :=
  Term.all.addCriterion "weight" ⟨.compares .ge (.int 2), false⟩

/-- The planner lets the index on the weight settle whether parcels weigh two or more. -/
theorem plan_weighsTwo {b : Buckets} (hhas : b.has "_index:Parcels:weight" = true) :
    (standard.view parcels b).plan { weighsTwo with index := some "weight" } =
      .ok ⟨.index, "_index:Parcels:weight", some "weight", some "weight", false⟩ := by
  have hliteral : indexPlan parcels weighsTwo "weight" =
      ⟨.index, "_index:Parcels:weight", some "weight", some "weight", false⟩ := by
    decide +kernel
  rw [← hliteral]
  show Except.ok (if !b.has "_index:Parcels:weight" then _ else _) = _
  rw [hhas]
  rfl

theorem exists_hinted_parcels : ∃ rows, (standard.find parcels twoParcels (.ofSelection (.mk
    { weighsTwo with index := some "weight" } []))).result = .ok rows := by
  have hrecords := entries_twoParcels
  have hweights := weights_twoParcels
  have hstep := inStep_twoParcels
  generalize twoParcels = b at hrecords hweights hstep
  have hhas : b.has "_index:Parcels:weight" = true := Buckets.has_of_entries (by simp [hweights])
  have hone := oneValueEach_of_lists Codec.keepsKeyLists_json (hstep "weight" rfl) fun _ _ _ =>
    filed_unique (Schema.build_indexedField build_parcels (List.mem_cons_self ..))
  have haccepts : ∀ code value, ((standard.view parcels b).candidates
      ⟨.index, "_index:Parcels:weight", some "weight", some "weight", false⟩
        { weighsTwo with index := some "weight" }).acceptsValue code value =
      if Keycode.isCustom code then .ok true
        else Criterion.allHoldOf value [⟨.compares .ge (.int 2), false⟩] :=
    fun code value => acceptsValue_index rfl code value
  refine View.exists_rows (v := standard.view parcels b) (by cbv) (plan_weighsTwo hhas)
    (View.sound_index rfl hone) ?_ ?_
  · show ∀ e ∈ b.entries "_index:Parcels:weight", _
    simp only [hweights, List.forall_mem_cons]
    refine ⟨⟨_, (Candidates.expand_index (.inl rfl)).mpr ⟨.int 1, false, by cbv, ?_, rfl⟩⟩,
      ⟨_, (Candidates.expand_index (.inl rfl)).mpr ⟨.int 30, true, by cbv, ?_, _, decodeKeys_heavy, rfl⟩⟩,
      by simp⟩
    · rw [haccepts]
      cbv
    · rw [haccepts]
      cbv
  · show ∀ e ∈ b.entries parcels.name, _
    simp only [hrecords, List.forall_mem_cons, Bool.forall_bool]
    exact ⟨⟨⟨_, by cbv⟩, ⟨_, by cbv⟩⟩, ⟨⟨_, by cbv⟩, ⟨_, by cbv⟩⟩, by simp⟩

/-- Integers are the same when they are read back. -/
theorem find_indexed_parcels :
    Codec.json.KeepsKeyLists ∧
      Schema.build parcels.name [.indexedField "weight" weightOf, .sliceIndex "sizes" sizesOf] =
        .ok parcels.schema ∧
      standard.InStepIfThere parcels twoParcels ∧
      (standard.view parcels twoParcels).KeysAreCodes ∧ weighsTwo.index = none ∧
      ∃ hinted plain,
        (standard.find parcels twoParcels (.ofSelection (.mk
          { weighsTwo with index := some "weight" } []))).result = .ok hinted ∧
        (standard.find parcels twoParcels (.ofSelection (.mk weighsTwo []))).result = .ok plain ∧
        ∀ row, row ∈ hinted ↔ row ∈ plain := by
  obtain ⟨hinted, hhinted⟩ := exists_hinted_parcels
  obtain ⟨plain, hplain⟩ : ∃ rows, (standard.find parcels twoParcels (.ofSelection (.mk weighsTwo
      []))).result = .ok rows :=
    exists_plain (fun b => by cbv) (fun b => by cbv) (fun b => ⟨⟨_, by cbv⟩, ⟨_, by cbv⟩⟩)
      fun b recheck => by cases recheck <;> exact ⟨⟨_, by cbv⟩, ⟨_, by cbv⟩⟩
  refine ⟨Codec.keepsKeyLists_json, build_parcels, inStepIfThere_twoParcels, keysAreCodes_twoParcels,
    rfl, hinted, plain, hhinted, hplain, ?_⟩
  have hdoubles : ∀ heavy, ∀ c ∈ weighsTwo.criteriaOn "weight",
      c.condition.KeepsDoubles (weightOf heavy) := by
    intro heavy c hc part hpart v hv d x hd
    rw [List.mem_singleton.mp hpart] at hd
    cases hd
  exact (find_indexed (s := standard) Codec.keepsKeyLists_json build_parcels
    (List.mem_cons_self ..) inStepIfThere_twoParcels keysAreCodes_twoParcels rfl hhinted hplain).2.1
    fun row _ => ⟨.inr rfl, hdoubles row.record⟩

end Parcels

end Store

end RecordStore
