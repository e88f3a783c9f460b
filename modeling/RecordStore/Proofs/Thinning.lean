import RecordStore.Proofs.Paging
import RecordStore.Proofs.Removal

/-!
# Queries on fewer records

When records are taken out of a state and the indexes are kept in step, a term finds none but the rows
that it found before (`finds_of_thinned`). Its plan is the same, as the buckets are the same, and what is
left of the records answers the criteria as it did. Only the place where a walk starts may be another
one: it is the first entry that is not below the start, and if that one is of another kind then it is the
first entry of all. So a walk may come to entries that it passed over before, and must not have passed
over any that it accepts (`ReachesAccepted`). It has not if the entries are under key codes, since a value
whose key code is below the start does not meet the criterion that gave the start (`reaches_of_codes`).
-/

namespace RecordStore

section State

variable {κ ρ : Type}

/-- The predicate answers the same whatever is stored. -/
def Predicate.IgnoresState (p : Predicate κ ρ) : Prop :=
  ∀ (a : Access κ ρ) (buckets : Buckets), (p { a with buckets }).result = (p a).result

/-- So do all predicates of a term. -/
def Term.IgnoresState (t : Term κ ρ) : Prop :=
  ∀ field criteria, t.criteria.find? field = some criteria → ∀ c ∈ criteria, ∀ p,
    c.condition = .satisfies p → Predicate.IgnoresState p

theorem Condition.result_holds_state [CustomKind κ] {c : Condition κ ρ} (a : Access κ ρ)
    (buckets : Buckets) (h : ∀ p, c = .satisfies p → Predicate.IgnoresState p) :
    (c.holds { a with buckets }).result = (c.holds a).result := by
  cases c with
  | satisfies p => exact h p rfl a buckets
  | _ => rfl

end State

namespace View

variable {κ ρ : Type} [CustomKind κ] {v : View κ ρ}

/-- The rows of a query without paging are those of its selection, in some order. -/
theorem exists_rows_withoutOrder {q : Query κ ρ} {rows : List (Row κ ρ)} (hskip : q.skip = 0)
    (hlimit : q.limit = none) (h : (v.rows q).result = .ok rows) :
    ∃ found, (v.rows q.withoutOrder).result = .ok found ∧ rows.Perm found := by
  rw [rows_iff, hlimit, if_neg (by simp), opening_of_unpaged hskip hlimit] at h
  obtain ⟨demand, d, hterms, hclosing⟩ := h
  refine ⟨d.inner.reverse, ?_, ?_⟩
  · rw [rows_iff, if_neg (by rintro ⟨⟩)]
    exact ⟨demand, d, hterms, rfl⟩
  · unfold closing at hclosing
    rw [hskip, hlimit] at hclosing
    split at hclosing
    next =>
      cases hsorted : Row.sort v.type.schema q.sort q.reverse d.inner.reverse with
      | error e =>
        rw [hsorted] at hclosing
        cases hclosing
      | ok sorted =>
        rw [hsorted] at hclosing
        obtain rfl : sorted = rows := Except.ok.inj hclosing
        exact perm_rowSort hsorted
    next => exact .of_eq (Except.ok.inj hclosing).symm

/-- The walk of a term passes over nothing that it would accept: no record in key order, and no entry of
a scalar index that brings keys. All other walks start at the first entry. -/
structure ReachesAccepted (v : View κ ρ) (t : Term κ ρ) : Prop where
  records : v.plan t = .ok (.primaryKey v.typeName) → ∀ e ∈ v.buckets.entries v.typeName,
    (v.candidates (.primaryKey v.typeName) t).accepts e = true →
    e ∈ (v.candidates (.primaryKey v.typeName) t).ahead
  index : ∀ plan, v.plan t = .ok plan → plan.scan = .index →
    ∀ e ∈ v.buckets.entries plan.bucket, ∀ k ∈ (v.candidates plan t).entryKeys e,
      e ∈ (v.candidates plan t).ahead

end View

namespace Store

variable {κ ρ : Type} {s : Store} {type : RecordType κ ρ} {b b' : Buckets} {t : Term κ ρ}
  {row : Row κ ρ} {index : String} {plan : Plan}

/-! ## What is left -/

/-- The second state is the first one with some records taken out: there are the same buckets, and what
is stored among the records was stored before. -/
structure Thinned (type : RecordType κ ρ) (b b' : Buckets) : Prop where
  has : ∀ n, b'.has n = b.has n
  stored : ∀ k bytes, b'.get? type.name k = some bytes → b.get? type.name k = some bytes

/-- What is filed was filed before. -/
theorem Thinned.filed (h : Thinned type b b') {code k : Bytes}
    (hfiled : s.Filed type b' index code k) : s.Filed type b index code k := by
  obtain ⟨record, hread, hyields⟩ := hfiled
  obtain ⟨bytes, hget, hdecode⟩ := read?_eq_some.mp hread
  exact ⟨record, read?_eq_some.mpr ⟨bytes, h.stored k bytes hget, hdecode⟩, hyields⟩

variable [CustomKind κ]

omit [CustomKind κ] in
theorem Thinned.stores (h : Thinned type b b') (hrow : (s.view type b').Stores row) :
    (s.view type b).Stores row := by
  obtain ⟨bytes, hget, hkey, hrecord⟩ := hrow
  exact ⟨bytes, h.stored _ bytes hget, hkey, hrecord⟩

omit [CustomKind κ] in
/-- A plan goes by the buckets that are there. -/
theorem Thinned.plan_eq (h : Thinned type b b') :
    (s.view type b').plan t = (s.view type b).plan t := by
  show Plan.ofTerm type.schema b' t = Plan.ofTerm type.schema b t
  unfold Plan.ofTerm Plan.ofIndex
  simp only [h.has]

/-- What a record answers is not up to what else is stored. -/
theorem meetsOn_state {key : Value κ} {record : ρ} {field : String} {criteria : List (Criterion κ ρ)}
    (ht : t.IgnoresState) (hfind : t.criteria.find? field = some criteria)
    (h : (s.view type b').MeetsOn key record field criteria) :
    (s.view type b).MeetsOn key record field criteria := by
  obtain ⟨value, hvalue, hholds⟩ := h
  refine ⟨value, hvalue, fun c hc => ?_⟩
  rw [← hholds c hc]
  exact (Condition.result_holds_state ⟨s.options, b, key, record, value⟩ b' (ht _ _ hfind c hc)).symm

theorem Thinned.matches (h : Thinned type b b') (ht : t.IgnoresState)
    (hrow : (s.view type b').Matches t row) : (s.view type b).Matches t row :=
  ⟨h.stores hrow.stores, fun field criteria hfind =>
    meetsOn_state ht hfind (hrow.meets field criteria hfind)⟩

/-! ## Entries that are passed over -/

/-- What is walked in order is under key codes: the records, and the entries of scalar indexes. -/
structure WalksCodes (s : Store) (type : RecordType κ ρ) (b : Buckets) : Prop where
  keys : (s.view type b).KeysAreCodes
  values : ∀ index code k, type.schema.hasSliceIndex index = false → s.Filed type b index code k →
    ∃ w : Value κ, code = Keycode.encode w

/-- A walk in key order comes to every key code that it accepts. -/
theorem reaches_primaryKey (hkeys : (s.view type b).KeysAreCodes) {e : Entry}
    (he : e ∈ b.entries type.name)
    (haccepts : ((s.view type b).candidates (.primaryKey type.name) t).accepts e = true) :
    e ∈ ((s.view type b).candidates (.primaryKey type.name) t).ahead := by
  obtain ⟨u, hu⟩ := hkeys e.1 e.2 (Buckets.mem_entries_iff.mp he)
  obtain ⟨key, hkey, hholds⟩ := (Candidates.accepts_primaryKey rfl).mp haccepts
  obtain rfl : key = u.restored := Keycode.decode_encode (hu ▸ hkey)
  refine Candidates.mem_walkFrom_of_holds he u.restored_ne_custom ?_
    fun c hc _ => Criterion.allHoldOf_eq_true.mp hholds c hc
  rw [hu]
  exact (Keycode.below_encode_restored u).order

/-- A walk of a scalar index comes to every key code that it accepts. -/
theorem reaches_index (hscan : plan.scan = .index) {w value : Value κ} {bytes : Bytes}
    (he : (Keycode.encode w, bytes) ∈ b.entries plan.bucket)
    (hvalue : Keycode.decode (Keycode.encode w) = .ok value)
    (haccepts : ((s.view type b).candidates plan t).acceptsValue (Keycode.encode w) value =
      .ok true) : (Keycode.encode w, bytes) ∈ ((s.view type b).candidates plan t).ahead := by
  show _ ∈ Candidates.walkFrom _ ((s.view type b).candidates plan t).criteria
  rw [acceptsValue_index hscan] at haccepts
  by_cases hown : ∃ c, w = .custom c
  · -- Values of the user's own kind have the largest key codes, and give no start.
    obtain ⟨c, rfl⟩ := hown
    refine Candidates.mem_walkFrom he fun target htarget => ?_
    obtain ⟨_, v, -, -, hkeeps, -, rfl⟩ := Candidates.startCode?_eq_some htarget
    refine Keycode.not_encode_custom_lt fun c' hv => ?_
    rw [hv] at hkeeps
    cases hkeeps
  · rw [Keycode.isCustom_encode fun c hc => hown ⟨c, hc⟩, if_neg Bool.false_ne_true,
      Keycode.decode_encode hvalue] at haccepts
    exact Candidates.mem_walkFrom_of_holds he w.restored_ne_custom
      (Keycode.below_encode_restored w).order fun c hc _ => Criterion.allHoldOf_eq_true.mp haccepts c hc

/-- If what is walked in order is under key codes then no walk passes over anything that it accepts. -/
theorem reaches_of_codes (hb : s.InStep type b) (hcodes : s.WalksCodes type b) (t : Term κ ρ) :
    (s.view type b).ReachesAccepted t := by
  refine ⟨fun _ e he => reaches_primaryKey hcodes.keys he, fun plan hplan hscan e he k hkey => ?_⟩
  rcases Plan.ofTerm_cases hplan with ⟨rfl, -⟩ | ⟨index, -, -, hindex, rfl |
    ⟨-, -, ⟨-, -, rfl⟩ | ⟨hslice, rfl⟩⟩⟩
  · cases hscan
  · cases hscan
  · cases hscan
  · obtain ⟨value, -, hvalue, haccepts, -⟩ := (Candidates.mem_entryKeys (.inl hscan)).mp hkey
    -- The entry lists a key, so that it is under a value of a record.
    obtain ⟨k', hfiled⟩ :=
      ((hb index hindex).present e.1).mp ⟨e.2, Buckets.mem_entries_iff.mp he⟩
    obtain ⟨code, bytes⟩ := e
    obtain ⟨w, rfl⟩ := hcodes.values index code k' hslice hfiled
    exact reaches_index hscan he hvalue haccepts

/-! ## Terms and queries -/

/-- The rows of a walk of an index are the stored records whose keys it comes to, if they meet the
criteria that are left open. -/
theorem mem_rows_index (hscan : plan.scan = .index) :
    row ∈ ((s.view type b).candidates plan t).pending.filterMap ((s.view type b).rowOf? t plan) ↔
      (s.view type b).Stores row ∧ ∃ e ∈ ((s.view type b).candidates plan t).ahead,
        row.rawKey ∈ ((s.view type b).candidates plan t).entryKeys e ∧
        ∀ field criteria, t.criteria.find? field = some criteria →
          (((s.view type b).candidates plan t).leavesUnchecked e.1 = true ∨
            plan.covers field = false) →
          (s.view type b).MeetsOn row.key row.record field criteria := by
  rw [List.mem_filterMap]
  constructor
  · intro h
    obtain ⟨x, hx, hrow⟩ := h
    obtain ⟨e, he, hkey, hget, hmark⟩ := (mem_pending_index hscan).mp hx
    obtain ⟨hraw, hdecode, hrecord, hmeets⟩ := View.rowOf?_eq_some.mp hrow
    rw [hmark] at hmeets
    rw [← hraw] at hkey hget hdecode
    exact ⟨⟨x.1.2, hget, hdecode, hrecord⟩, e, he, hkey, hmeets⟩
  · rintro ⟨⟨stored, hget, hdecode, hrecord⟩, e, he, hkey, hmeets⟩
    exact ⟨((row.rawKey, stored), _), (mem_pending_index hscan).mpr ⟨e, he, hkey, hget, rfl⟩,
      View.rowOf?_eq_some.mpr ⟨rfl, hdecode, hrecord, hmeets⟩⟩

/-- The keys that an entry brings are those that are filed under its value, if that is accepted. -/
theorem mem_entryKeys_filed (hcodec : s.codec.KeepsKeyLists) (hscan : plan.scan = .index)
    (hlists : Index.Lists s.codec b plan.bucket (s.Filed type b index)) {e : Entry} {k : Bytes}
    (he : e ∈ b.entries plan.bucket) :
    k ∈ ((s.view type b).candidates plan t).entryKeys e ↔ s.Filed type b index e.1 k ∧
      ∃ value, Keycode.decode e.1 = .ok value ∧
        ((s.view type b).candidates plan t).acceptsValue e.1 value = .ok true := by
  obtain ⟨l, hl, -, hmem⟩ := hlists.decodeKeys hcodec (Buckets.mem_entries_iff.mp he)
  rw [Candidates.mem_entryKeys (.inl hscan), ← hmem]
  constructor
  · rintro ⟨value, l', hvalue, haccepts, hl', hk⟩
    obtain rfl : l = l' := Except.ok.inj (hl.symm.trans hl')
    exact ⟨hk, value, hvalue, haccepts⟩
  · rintro ⟨hk, value, hvalue, haccepts⟩
    exact ⟨value, l, hvalue, haccepts, hl, hk⟩

section Thinning

variable (hcodec : s.codec.KeepsKeyLists) (hb : s.InStep type b) (hb' : s.InStep type b')
  (hthin : Thinned type b b')

include hcodec hb hb' hthin in
/-- A term that reaches all that it accepts finds none but rows that it found before. -/
theorem finds_of_thinned (ht : t.IgnoresState) (hreaches : (s.view type b).ReachesAccepted t)
    (h : (s.view type b').Finds t row) : (s.view type b).Finds t row := by
  obtain ⟨plan, hplan', h⟩ := h
  have hplan := hthin.plan_eq.symm.trans hplan'
  rw [View.finds_iff hplan]
  rcases Plan.ofTerm_cases hplan with ⟨rfl, -⟩ | ⟨index, -, -, hindex, rfl |
    ⟨-, -, ⟨-, hasks, rfl⟩ | ⟨-, rfl⟩⟩⟩
  · obtain ⟨⟨bytes, he, haccepts, hkey, hrecord⟩, hmeets⟩ := (View.mem_rows_records (.inr rfl)).mp h
    have hget := Buckets.mem_entries_iff.mp ((View.ahead_candidates_suffix _ _ _).subset he)
    have hentry := Buckets.mem_entries_iff.mpr (hthin.stored _ bytes hget)
    exact (View.mem_rows_records (.inr rfl)).mpr
      ⟨⟨bytes, hreaches.records hplan _ hentry haccepts, haccepts, hkey, hrecord⟩,
        fun field criteria hfind hopen => meetsOn_state ht hfind (hmeets field criteria hfind hopen)⟩
  · exact (View.mem_rows_full rfl rfl (fun _ => rfl) row).mpr (hthin.matches ht
      ((View.mem_rows_full rfl rfl (fun _ => rfl) row).mp h))
  · have hlists : ∀ {b}, s.InStep type b →
        Index.Lists s.codec b (Index.bucketName type.name index) fun code k =>
          True ∧ s.Filed type b index code k := fun hb =>
      (hb index hindex).congr (fun _ => rfl) fun _ _ => (and_iff_right trivial).symm
    obtain ⟨-, hmatches, code, hfiled, hnarrowed⟩ := (mem_rows_slice hcodec (hlists hb') hasks).mp h
    exact (mem_rows_slice hcodec (hlists hb) hasks).mpr
      ⟨trivial, hthin.matches ht hmatches, code, hthin.filed hfiled, hnarrowed⟩
  · obtain ⟨hstores, ⟨code, bytes'⟩, he, hkey, hmeets⟩ := (mem_rows_index rfl).mp h
    -- The value that the row was found by is filed before too, and its entry was reached.
    obtain ⟨hfiled, haccepts⟩ := (mem_entryKeys_filed hcodec rfl (hb' index hindex)
      ((View.ahead_candidates_suffix _ _ _).subset he)).mp hkey
    obtain ⟨bytes, hbytes⟩ := ((hb index hindex).present code).mpr ⟨_, hthin.filed hfiled⟩
    have hentry := Buckets.mem_entries_iff.mpr hbytes
    have hkey := (mem_entryKeys_filed (e := (code, bytes)) hcodec rfl (hb index hindex) hentry).mpr
      ⟨hthin.filed hfiled, haccepts⟩
    exact (mem_rows_index rfl).mpr ⟨hthin.stores hstores, _,
      hreaches.index _ hplan rfl _ hentry _ hkey, hkey,
      fun field criteria hfind hopen => meetsOn_state ht hfind (hmeets field criteria hfind hopen)⟩

include hcodec hb hb' hthin in
/-- Nor does a query without paging. -/
theorem mem_find_of_thinned {q : Query κ ρ} {rows rows' : List (Row κ ρ)} (hskip : q.skip = 0)
    (hlimit : q.limit = none)
    (hq : ∀ t ∈ q.terms, t.IgnoresState ∧ (s.view type b).ReachesAccepted t)
    (hfind : (s.find type b q).result = .ok rows) (hfind' : (s.find type b' q).result = .ok rows')
    (hrow : row ∈ rows') : row ∈ rows := by
  obtain ⟨found, hfound, hperm⟩ := View.exists_rows_withoutOrder hskip hlimit hfind
  obtain ⟨found', hfound', hperm'⟩ := View.exists_rows_withoutOrder hskip hlimit hfind'
  obtain ⟨hmem, -⟩ := View.mem_rows_terms (hb.for.oneValueEach hcodec) hfound
  obtain ⟨hmem', -⟩ := View.mem_rows_terms (hb'.for.oneValueEach hcodec) hfound'
  obtain ⟨t, ht, hfinds⟩ := (hmem' row).mp (hperm'.mem_iff.mp hrow)
  obtain ⟨hignores, hreaches⟩ := hq t ht
  exact hperm.mem_iff.mpr ((hmem row).mpr
    ⟨t, ht, finds_of_thinned hcodec hb hb' hthin hignores hreaches hfinds⟩)

end Thinning

end Store

end RecordStore
