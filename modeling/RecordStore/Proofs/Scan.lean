import RecordStore.Schema.Declaration
import RecordStore.Store.Find
import RecordStore.Proofs.Comparison
import RecordStore.Proofs.Selected

/-!
# Scans of the records

A term that is not hinted walks the records in key order. The walk settles the criteria on the key and
may start behind the first record. It loses none by that: what it passes over has a smaller key code
than the operand it starts at, and if the two compare at all it is smaller (`mem_walkFrom_of_holds`). So
the rows are exactly the matching records in key order (`find_matches`).
-/

namespace RecordStore

namespace Candidates

variable {κ ρ : Type} [CustomKind κ]

/-! ## Where the walk starts -/

/-- A walk starts behind the first entry for a comparison alone, with an operand to start at. -/
theorem startCode?_eq_some {criteria : List (Criterion κ ρ)} {target : Bytes}
    (h : startCode? criteria = some target) :
    ∃ relation v, criteria = [⟨.compares relation v, false⟩] ∧ relation.allows .lt = false ∧
      Keycode.keepsOrder v = true ∧ (∀ x, v ≠ .float x) ∧ target = Keycode.encode v := by
  unfold startCode? at h
  split at h
  next c =>
    obtain ⟨condition, negated⟩ := c
    dsimp only at h
    split at h
    next => cases h
    next hstart =>
      have hnegated : negated = false := by simp_all
      have hgives : condition.givesStart = true := by simp_all
      cases condition with
      | compares relation v =>
        have hallows : relation.allows .lt = false := by
          cases relation <;> first | rfl | cases hgives
        -- Of the comparisons that give a start, those with a float, a decimal or a custom value are
        -- left out.
        cases v with
        | float x => cases h
        | decimal d => cases h
        | custom c => cases h
        | _ =>
          cases h
          refine ⟨relation, _, by rw [hnegated], hallows, rfl, ?_, rfl⟩
          intro x hx
          cases hx
      | _ => cases hgives
  next => cases h

/-- What a walk passes over has a smaller key code than the place it starts at. -/
theorem exists_passedOver (entries : List Entry) (criteria : List (Criterion κ ρ)) :
    ∃ passed, entries = passed ++ walkFrom entries criteria ∧
      ∀ e ∈ passed, ∃ target, startCode? criteria = some target ∧ compare e.1 target = .lt := by
  unfold walkFrom
  split
  next => exact ⟨[], rfl, by simp⟩
  next target htarget =>
    -- The entries below the place come first; whether they are passed over depends on what follows.
    have hsplit := List.takeWhile_append_dropWhile (p := fun e : Entry => compare e.1 target == .lt)
      (l := entries)
    have hbelow : ∀ e ∈ entries.takeWhile (fun e => compare e.1 target == .lt),
        ∃ target', startCode? criteria = some target' ∧ compare e.1 target' = .lt := by
      intro e he
      have hlt := List.mem_takeWhile_imp (p := fun e : Entry => compare e.1 target == .lt) he
      exact ⟨target, htarget, beq_iff_eq.mp hlt⟩
    unfold seek
    split
    next hnil =>
      rw [hnil] at hsplit
      exact ⟨_, hsplit.symm, hbelow⟩
    next hcons =>
      split
      next =>
        rw [hcons] at hsplit
        exact ⟨_, hsplit.symm, hbelow⟩
      next => exact ⟨[], rfl, by simp⟩

/-- A walk passes over nothing but entries below its start. -/
theorem mem_walkFrom {entries : List Entry} {criteria : List (Criterion κ ρ)} {e : Entry}
    (he : e ∈ entries)
    (hstart : ∀ target, startCode? criteria = some target → compare e.1 target ≠ .lt) :
    e ∈ walkFrom entries criteria := by
  obtain ⟨passed, hsplit, hbelow⟩ := exists_passedOver entries criteria
  rw [hsplit, List.mem_append] at he
  rcases he with hpassed | he
  · obtain ⟨target, htarget, hlt⟩ := hbelow e hpassed
    exact absurd hlt (hstart target htarget)
  · exact he

/-- A relation that gives a place to start at is not allowed to what has a smaller key code than the
place. -/
theorem not_allows_below {relation : Relation} {v w : Value κ} {code : Bytes}
    (hallows : relation.allows .lt = false) (hkeeps : Keycode.keepsOrder v = true)
    (hfloat : ∀ x, v ≠ .float x) (hw : ∀ c, w ≠ .custom c)
    (hcode : (compare (Keycode.encode w) code).isLE = true)
    (hlt : compare code (Keycode.encode v) = .lt) :
    (w.cmp v).map relation.allows ≠ .ok true := by
  intro hcmp
  cases ho : w.cmp v with
  | error e =>
    rw [ho] at hcmp
    cases hcmp
  | ok o =>
    have hsmaller := Keycode.lt_of_encode_lt hw hkeeps hfloat
      (Std.TransCmp.lt_of_isLE_of_lt hcode hlt) ho
    rw [ho, hsmaller] at hcmp
    have hallowed : relation.allows .lt = true := Except.ok.inj hcmp
    rw [hallows] at hallowed
    cases hallowed

/-- An entry is not passed over if the criteria hold of a value whose key code does not come after
that of the entry. -/
theorem mem_walkFrom_of_holds {entries : List Entry} {criteria : List (Criterion κ ρ)} {e : Entry}
    {w : Value κ} (he : e ∈ entries) (hw : ∀ c, w ≠ .custom c)
    (hcode : (compare (Keycode.encode w) e.1).isLE = true)
    (hholds : ∀ c ∈ criteria, c.condition.isPredicate = false →
      c.condition.holdsOf w = .ok (!c.negated)) : e ∈ walkFrom entries criteria := by
  refine mem_walkFrom he fun target htarget hlt => ?_
  obtain ⟨relation, v, rfl, hallows, hkeeps, hfloat, rfl⟩ := startCode?_eq_some htarget
  exact not_allows_below hallows hkeeps hfloat hw hcode hlt (hholds _ (List.mem_singleton.mpr rfl) rfl)

end Candidates

namespace View

variable {κ ρ : Type} [CustomKind κ] {v : View κ ρ} {t : Term κ ρ}

/-- The key of each stored record is the key code of a value. -/
def KeysAreCodes (v : View κ ρ) : Prop :=
  ∀ k bytes, v.buckets.get? v.typeName k = some bytes → ∃ key : Value κ, k = Keycode.encode key

/-! ## The rows of a scan -/

/-- The criteria on the key are met if the walk finds that they hold. -/
theorem meetsOn_key {key : Value κ} {record : ρ} {criteria : List (Criterion κ ρ)}
    (h : ∀ c ∈ criteria, c.condition.holdsOf key = .ok (!c.negated)) :
    v.MeetsOn key record keyField criteria := by
  refine ⟨key, ?_, fun c hc => Condition.holds_of_holdsOf (h c hc)⟩
  unfold Schema.valueOf
  rw [if_pos rfl]

/-- Met on a field are the criteria that hold of its value. -/
theorem MeetsOn.holdsOf {key w : Value κ} {record : ρ} {field : String}
    {criteria : List (Criterion κ ρ)} (h : v.MeetsOn key record field criteria)
    (hw : v.type.schema.valueOf key record field = .ok w) :
    ∀ c ∈ criteria, c.condition.isPredicate = false →
      c.condition.holdsOf w = .ok (!c.negated) := by
  obtain ⟨value, hvalue, hholds⟩ := h
  rw [hw] at hvalue
  cases hvalue
  intro c hc hpredicate
  have hresult := hholds c hc
  rw [Condition.holds_eq_holdsOf _ hpredicate] at hresult
  exact hresult

/-- Criteria that are met are not found to fail. -/
theorem MeetsOn.ne_false {key w : Value κ} {record : ρ} {field : String}
    {criteria : List (Criterion κ ρ)} (h : v.MeetsOn key record field criteria)
    (hw : v.type.schema.valueOf key record field = .ok w) :
    Criterion.allHoldOf w criteria ≠ .ok false := by
  intro hfalse
  obtain ⟨value, hvalue, hholds⟩ := h
  rw [hw] at hvalue
  cases hvalue
  obtain ⟨c, hc, hresult⟩ := Criterion.allHoldOf_eq_false hfalse
  have hmet := hholds c hc
  rw [Condition.holds_of_holdsOf hresult] at hmet
  simp at hmet

omit [CustomKind κ] in
/-- The criteria on a field are those that are listed under it. -/
theorem criteriaOn_of_find? {field : String} {criteria : List (Criterion κ ρ)}
    (h : t.criteria.find? field = some criteria) : t.criteriaOn field = criteria := by
  unfold Term.criteriaOn
  rw [h]
  rfl

omit [CustomKind κ] in
theorem valueOf_key {key : Value κ} {record : ρ} :
    v.type.schema.valueOf key record keyField = .ok key := by
  unfold Schema.valueOf
  rw [if_pos rfl]

/-- A field that the term does not name has no criteria. -/
theorem meetsOn_criteriaOn {key w : Value κ} {record : ρ} {field : String}
    (h : ∀ field criteria, t.criteria.find? field = some criteria →
      v.MeetsOn key record field criteria)
    (hw : v.type.schema.valueOf key record field = .ok w) :
    v.MeetsOn key record field (t.criteriaOn field) := by
  cases hfind : t.criteria.find? field with
  | none =>
    refine ⟨w, hw, fun c hc => ?_⟩
    unfold Term.criteriaOn at hc
    rw [hfind] at hc
    cases hc
  | some criteria =>
    rw [criteriaOn_of_find? hfind]
    exact h _ _ hfind

/-- The rows of a walk over records are the accepted ones that meet the criteria that are left open. -/
theorem mem_rows_records {plan : Plan} (hscan : plan.scan = .full ∨ plan.scan = .primaryKey)
    {row : Row κ ρ} :
    row ∈ (v.candidates plan t).pending.filterMap (v.rowOf? t plan) ↔
      (∃ bytes, (row.rawKey, bytes) ∈ (v.candidates plan t).ahead ∧
        (v.candidates plan t).accepts (row.rawKey, bytes) = true ∧
        Keycode.decode row.rawKey = .ok row.key ∧ v.decode bytes = .ok row.record) ∧
      ∀ field criteria, t.criteria.find? field = some criteria → plan.covers field = false →
        v.MeetsOn row.key row.record field criteria := by
  rw [List.mem_filterMap, pending_candidates,
    Candidates.stream_records (c := v.candidates plan t) hscan []]
  constructor
  · intro h
    obtain ⟨x, hx, hrow⟩ := h
    obtain ⟨e, he, rfl⟩ := List.mem_map.mp hx
    obtain ⟨he, haccepted⟩ := List.mem_filter.mp he
    obtain ⟨hraw, hkey, hrecord, hmeets⟩ := rowOf?_eq_some.mp hrow
    refine ⟨⟨e.2, ?_⟩, fun field criteria hfind hopen => hmeets field criteria hfind (.inr hopen)⟩
    rw [hraw]
    exact ⟨he, haccepted, hkey, hrecord⟩
  · intro h
    obtain ⟨⟨bytes, he, haccepted, hkey, hrecord⟩, hmeets⟩ := h
    refine ⟨((row.rawKey, bytes), false),
      List.mem_map_of_mem (List.mem_filter.mpr ⟨he, haccepted⟩), ?_⟩
    refine rowOf?_eq_some.mpr ⟨rfl, hkey, hrecord, fun field criteria hfind hopen => ?_⟩
    exact hmeets field criteria hfind (hopen.resolve_left Bool.false_ne_true)

/-- The rows of a walk in key order are the matching records. -/
theorem mem_rows_primaryKey (hkeys : v.KeysAreCodes)
    (htold : v.buckets.has v.typeName = true →
      ∀ e ∈ (v.candidates (.primaryKey v.typeName) t).ahead,
        (v.candidates (.primaryKey v.typeName) t).Tells e) (row : Row κ ρ) :
    row ∈ (v.candidates (.primaryKey v.typeName) t).pending.filterMap
        (v.rowOf? t (.primaryKey v.typeName)) ↔ v.Matches t row := by
  have hahead := ahead_candidates_suffix v (.primaryKey v.typeName) t
  have haccepts := fun e => Candidates.accepts_primaryKey
    (c := v.candidates (.primaryKey v.typeName) t) (e := e) rfl
  rw [mem_rows_records (.inr rfl)]
  constructor
  · intro h
    obtain ⟨⟨bytes, he, haccepted, hkey, hrecord⟩, hmeets⟩ := h
    have hget := Buckets.mem_entries_iff.mp (hahead.subset he)
    refine ⟨⟨bytes, hget, hkey, hrecord⟩, fun field criteria hfind => ?_⟩
    by_cases hfield : field = keyField
    · -- What the walk has settled by the key is not checked again.
      obtain ⟨key, hkey', hmet⟩ := (haccepts _).mp haccepted
      rw [hkey] at hkey'
      cases hkey'
      rw [hfield] at hfind ⊢
      rw [← criteriaOn_of_find? hfind]
      exact meetsOn_key (Criterion.allHoldOf_eq_true.mp hmet)
    · refine hmeets field criteria hfind ?_
      unfold Plan.covers Plan.primaryKey
      simp [Ne.symm hfield]
  · intro h
    obtain ⟨⟨bytes, hget, hkey, hrecord⟩, hmeets⟩ := h
    obtain ⟨u, hu⟩ := hkeys _ _ hget
    have hrestored : row.key = u.restored := Keycode.decode_encode (hu ▸ hkey)
    have hvalue : v.type.schema.valueOf row.key row.record keyField = .ok row.key := valueOf_key
    have hon := meetsOn_criteriaOn hmeets hvalue
    -- A key was restored from its code already, so what holds of it is not before the start.
    have he : (row.rawKey, bytes) ∈ (v.candidates (.primaryKey v.typeName) t).ahead := by
      refine Candidates.mem_walkFrom_of_holds (w := row.key) (Buckets.mem_entries_iff.mpr hget) ?_ ?_
        (hon.holdsOf hvalue)
      · rw [hrestored]
        exact Value.restored_ne_custom u
      · rw [hrestored, hu]
        exact (Keycode.below_encode_restored u).order
    refine ⟨⟨bytes, he, ?_, hkey, hrecord⟩, fun field criteria hfind _ => hmeets field criteria hfind⟩
    -- The walk has told the entry, so the criteria were evaluated, and not to false.
    obtain ⟨x, hx⟩ := htold (Buckets.has_of_get? hget) _ he
    obtain ⟨key, hkey', hx⟩ := bind_eq_ok.mp hx
    obtain ⟨met, hmet, -⟩ := bind_eq_ok.mp hx
    rw [hkey] at hkey'
    cases hkey'
    refine (haccepts _).mpr ⟨row.key, hkey, ?_⟩
    cases met with
    | true => exact hmet
    | false => exact absurd hmet (hon.ne_false valueOf_key)

/-- The rows of a walk that settles nothing are the matching records. -/
theorem mem_rows_full {plan : Plan} (hscan : plan.scan = .full) (hbucket : plan.bucket = v.typeName)
    (hcovers : ∀ field, plan.covers field = false) (row : Row κ ρ) :
    row ∈ (v.candidates plan t).pending.filterMap (v.rowOf? t plan) ↔ v.Matches t row := by
  have hahead : (v.candidates plan t).ahead = v.buckets.entries v.typeName := by
    show Candidates.walkFrom _ (if plan.scan = .full then [] else _) = _
    rw [hscan, hbucket, if_pos rfl]
    rfl
  have haccepts : ∀ e, (v.candidates plan t).accepts e = true := by
    intro e
    unfold Candidates.accepts Candidates.expand
    rw [show (v.candidates plan t).scan = .full from hscan]
  rw [mem_rows_records (.inl hscan), hahead]
  constructor
  · intro h
    obtain ⟨⟨bytes, he, -, hkey, hrecord⟩, hmeets⟩ := h
    exact ⟨⟨bytes, Buckets.mem_entries_iff.mp he, hkey, hrecord⟩, fun field criteria hfind =>
      hmeets field criteria hfind (hcovers field)⟩
  · intro h
    obtain ⟨⟨bytes, hget, hkey, hrecord⟩, hmeets⟩ := h
    exact ⟨⟨bytes, Buckets.mem_entries_iff.mpr hget, haccepts _, hkey, hrecord⟩,
      fun field criteria hfind _ => hmeets field criteria hfind⟩

/-- The candidates of a walk over records come in key order. -/
theorem pendingKeys_sublist {plan : Plan} (hscan : plan.scan = .full ∨ plan.scan = .primaryKey) :
    (v.candidates plan t).pendingKeys.Sublist ((v.buckets.entries plan.bucket).map (·.1)) := by
  unfold Candidates.pendingKeys
  rw [pending_candidates, Candidates.stream_records (c := v.candidates plan t) hscan, List.map_map]
  exact (List.filter_sublist.trans (ahead_candidates_suffix v plan t).sublist).map _

/-- Rows come in the order of their candidates. -/
theorem rawKeys_sublist {plan : Plan} : ∀ items : List (Entry × Bool),
    ((items.filterMap (v.rowOf? t plan)).map (·.rawKey)).Sublist (items.map (·.1.1))
  | [] => List.Sublist.refl _
  | x :: items => by
    rw [List.filterMap_cons, List.map_cons]
    split
    next => exact (rawKeys_sublist items).cons _
    next row hrow =>
      rw [List.map_cons, (rowOf?_eq_some.mp hrow).1]
      exact (rawKeys_sublist items).cons_cons _

end View

namespace Store

variable {κ ρ : Type} [CustomKind κ] {s : Store} {type : RecordType κ ρ} {b : Buckets}
  {t : Term κ ρ} {rows : List (Row κ ρ)}

/-- A term without a hint walks the records in key order. -/
theorem rows_of_plain (hhint : t.index = none)
    (hfind : (s.find type b (.ofSelection (.mk t []))).result = .ok rows) :
    ((s.view type b).buckets.has (s.view type b).typeName = true →
      ∀ e ∈ ((s.view type b).candidates (.primaryKey (s.view type b).typeName) t).ahead,
        ((s.view type b).candidates (.primaryKey (s.view type b).typeName) t).Tells e) ∧
    rows = ((s.view type b).candidates (.primaryKey (s.view type b).typeName) t).pending.filterMap
      ((s.view type b).rowOf? t (.primaryKey (s.view type b).typeName)) := by
  have hplan : (s.view type b).plan t = .ok (.primaryKey (s.view type b).typeName) := by
    unfold View.plan Plan.ofTerm
    rw [hhint]
    rfl
  have hcandidates : ∀ plan, (s.view type b).plan t = .ok plan →
      ((s.view type b).candidates plan t).Sound ∧ ∀ x ∈ ((s.view type b).candidates plan t).pending,
        (s.view type b).buckets.get? (s.view type b).typeName x.1.1 = some x.1.2 := by
    intro plan h
    rw [hplan] at h
    cases h
    exact View.sound_records (.inr rfl) rfl
  obtain ⟨-, plan, hplan', htold, -, hrows⟩ := (View.rows_of_term hcandidates).mp hfind
  rw [hplan] at hplan'
  cases hplan'
  exact ⟨htold, hrows⟩

/-- A search without a hint finds the matching records, all of them. -/
theorem mem_of_plain (hkeys : (s.view type b).KeysAreCodes) (hhint : t.index = none)
    (hfind : (s.find type b (.ofSelection (.mk t []))).result = .ok rows) (row : Row κ ρ) :
    row ∈ rows ↔ (s.view type b).Matches t row := by
  obtain ⟨htold, rfl⟩ := rows_of_plain hhint hfind
  exact View.mem_rows_primaryKey hkeys htold row

/-- A search without a hint finds rows in strictly ascending key order. -/
theorem ascends_of_plain (hhint : t.index = none)
    (hfind : (s.find type b (.ofSelection (.mk t []))).result = .ok rows) :
    (rows.map (·.rawKey)).Pairwise fun k k' => compare k k' = .lt := by
  obtain ⟨-, rfl⟩ := rows_of_plain hhint hfind
  have hascend : (((s.view type b).buckets.entries (s.view type b).typeName).map (·.1)).Pairwise
      fun k k' => compare k k' = .lt := List.pairwise_map.mpr (Buckets.keysAscend_entries _ _)
  exact hascend.sublist ((View.rawKeys_sublist _).trans (View.pendingKeys_sublist (.inr rfl)))

theorem nodup_of_plain (hhint : t.index = none)
    (hfind : (s.find type b (.ofSelection (.mk t []))).result = .ok rows) :
    (rows.map (·.rawKey)).Nodup := by
  refine (ascends_of_plain hhint hfind).imp ?_
  intro k k' hlt heq
  rw [heq] at hlt
  simp at hlt

/-- A term without a hint finds exactly the stored records for which every criterion can be evaluated
and comes out as it should, in ascending order of their keys. -/
theorem find_matches (hkeys : (s.view type b).KeysAreCodes) (hhint : t.index = none)
    (hfind : (s.find type b (.ofSelection (.mk t []))).result = .ok rows) :
    (∀ row, row ∈ rows ↔ (s.view type b).Matches t row) ∧
      rows.Pairwise fun row row' => compare row.rawKey row'.rawKey = .lt :=
  ⟨mem_of_plain hkeys hhint hfind, List.pairwise_map.mp (ascends_of_plain hhint hfind)⟩

theorem exists_of_forall₂ {α β : Type} {R : α → β → Prop} : ∀ {l : List α} {l' : List β},
    List.Forall₂ R l l' → ∀ a ∈ l, ∃ b, R a b
  | _, _, .nil => fun _ h => absurd h List.not_mem_nil
  | _, _, .cons hab hrest => List.forall_mem_cons.mpr ⟨⟨_, hab⟩, exists_of_forall₂ hrest⟩

theorem filterMap_of_forall₂ {α β : Type} {f : α → Option β} : ∀ {l : List α} {l' : List β},
    List.Forall₂ (fun a b => f a = some b) l l' → l.filterMap f = l'
  | _, _, .nil => rfl
  | _, _, .cons hab hrest => by rw [List.filterMap_cons_some hab, filterMap_of_forall₂ hrest]

/-- Where nothing is asked every record is found, if all of them can be read. -/
theorem find_all (h : List.Forall₂ (fun e row => row.rawKey = e.1 ∧
      Keycode.decode e.1 = .ok row.key ∧ (s.view type b).decode e.2 = .ok row.record)
      (b.entries type.name) rows) : (s.find type b .all).result = .ok rows := by
  have hanswer : ∀ {e : Entry} {row : Row κ ρ}, (row.rawKey = e.1 ∧ Keycode.decode e.1 = .ok row.key ∧
      (s.view type b).decode e.2 = .ok row.record) →
      (s.view type b).answer .all (.primaryKey type.name) (e, false) = .ok (some row) := by
    intro e row hrow
    exact View.answer_eq_ok.mpr ⟨row.key, row.record, true, hrow.2.1, hrow.2.2, rfl, by
      rw [if_pos rfl, ← hrow.1]⟩
  have htold := exists_of_forall₂ h
  -- The walk of the records accepts every entry, and none of them is marked.
  have hpending : ((s.view type b).candidates (.primaryKey type.name) .all).pending =
      (b.entries type.name).map (·, false) := by
    rw [View.pending_candidates, Candidates.stream_records (.inr rfl), List.filter_eq_self.mpr]
    · rfl
    · intro e he
      obtain ⟨row, -, hkey, -⟩ := htold e he
      exact (Candidates.accepts_primaryKey rfl).mpr ⟨row.key, hkey, rfl⟩
  refine (View.rows_of_term fun plan hplan => ?_).mpr ⟨rfl, .primaryKey type.name, rfl, ?_, ?_, ?_⟩
  · cases hplan
    exact View.sound_records (.inr rfl) rfl
  · intro _ e he
    obtain ⟨row, -, hkey, -⟩ := htold e he
    refine ⟨.candidate e, ?_⟩
    show (Keycode.decode e.1 >>= _) = _
    rw [hkey]
    rfl
  · rw [hpending]
    refine List.forall_mem_map.mpr fun e he => ?_
    obtain ⟨row, hrow⟩ := htold e he
    exact ⟨_, hanswer hrow⟩
  · rw [hpending, List.filterMap_map]
    refine (filterMap_of_forall₂ (h.imp fun e row hrow => ?_)).symm
    show (s.view type b).rowOf? .all (.primaryKey type.name) (e, false) = some row
    unfold View.rowOf?
    rw [hanswer hrow]

section Parcels

/-- The weight of a parcel. -/
def weightOf (heavy : Bool) : Value Empty := .int (if heavy then 30 else 1)

/-- The sizes of the things in a parcel. -/
def sizesOf (heavy : Bool) : Value Empty := .list (if heavy then [.int 8, .int 9, .int 8] else [.int 2])

/-- Parcels, heavy or not, with an index on the weight and one on each size. -/
def parcels : RecordType Empty Bool where
  schema :=
    { typeName := "Parcels"
      fields := (SortedMap.empty.insert "weight" weightOf).insert "sizes" sizesOf
      indexes := SortedMap.empty.insert "weight" fun heavy =>
        .ok (some (Keycode.encode (weightOf heavy)))
      sliceIndexes := SortedMap.empty.insert "sizes" fun heavy => Schema.itemCodes (sizesOf heavy) }
  toJson? heavy := some (.bool heavy)
  ofJson? := fun
    | .bool heavy => some heavy
    | _ => none

/-- A heavy parcel under the key 3. -/
def heavyParcel : Buckets := (standard.insert parcels (.uint 3) true .empty).2

/-- And a light one under the key 2.5. -/
def twoParcels : Buckets :=
  (standard.insert parcels (.float ⟨0x4004000000000000⟩) false heavyParcel).2

/-- A double comes behind all integers. -/
theorem entries_twoParcels :
    twoParcels.entries parcels.name = [(Keycode.encode (.uint 3 : Value Empty), Text.utf8 "true"),
      (Keycode.encode (.float ⟨0x4004000000000000⟩ : Value Empty), Text.utf8 "false")] := by
  decide +kernel

theorem keysAreCodes_twoParcels : (standard.view parcels twoParcels).KeysAreCodes := by
  intro k bytes hget
  have hmem : (k, bytes) ∈ twoParcels.entries parcels.name := Buckets.mem_entries_iff.mpr hget
  rw [entries_twoParcels] at hmem
  simp only [List.mem_cons, List.not_mem_nil, or_false, Prod.mk.injEq] at hmem
  rcases hmem with ⟨rfl, -⟩ | ⟨rfl, -⟩
  · exact ⟨_, rfl⟩
  · exact ⟨_, rfl⟩

/-- Parcels under keys of two and more that do not weigh 30. -/
def lightFromTwo : Term Empty Bool :=
  (Term.all.addCriterion keyField ⟨.compares .ge (.int 2), false⟩).addCriterion "weight"
    ⟨.compares .eq (.int 30), true⟩

/-- A term without a hint has rows if both parcels can be told and answered. That does not depend on
what else is stored, so the store need not be evaluated for it. -/
theorem exists_plain {t : Term Empty Bool} {b : Buckets}
    (hcheck : ∀ b, (standard.view parcels b).checkFields t = .ok ())
    (hplan : ∀ b, (standard.view parcels b).plan t = .ok (.primaryKey "Parcels"))
    (htold : ∀ b,
      ((standard.view parcels b).candidates (.primaryKey "Parcels") t).Tells
        (Keycode.encode (.uint 3 : Value Empty), Text.utf8 "true") ∧
      ((standard.view parcels b).candidates (.primaryKey "Parcels") t).Tells
        (Keycode.encode (.float ⟨0x4004000000000000⟩ : Value Empty), Text.utf8 "false"))
    (hanswers : ∀ b recheck,
      (∃ row?, (standard.view parcels b).answer t (.primaryKey "Parcels")
        ((Keycode.encode (.uint 3 : Value Empty), Text.utf8 "true"), recheck) = .ok row?) ∧
      ∃ row?, (standard.view parcels b).answer t (.primaryKey "Parcels")
        ((Keycode.encode (.float ⟨0x4004000000000000⟩ : Value Empty), Text.utf8 "false"), recheck) =
          .ok row?)
    (hrecords : b.entries parcels.name = twoParcels.entries parcels.name := by rfl) :
    ∃ rows, (standard.find parcels b (.ofSelection (.mk t []))).result = .ok rows := by
  rw [entries_twoParcels] at hrecords
  refine View.exists_rows (hcheck _) (hplan _) (View.sound_records (.inr rfl) rfl) ?_ ?_
  · show ∀ e ∈ b.entries parcels.name, _
    simp only [hrecords, List.forall_mem_cons]
    exact ⟨(htold _).1, (htold _).2, by simp⟩
  · show ∀ e ∈ b.entries parcels.name, _
    simp only [hrecords, List.forall_mem_cons]
    exact ⟨fun recheck => (hanswers _ recheck).1, fun recheck => (hanswers _ recheck).2, by simp⟩

/-- The walk starts at the key 3, and finds the parcel under 2.5 all the same. -/
theorem find_matches_parcels :
    (standard.view parcels twoParcels).KeysAreCodes ∧ lightFromTwo.index = none ∧
      ∃ rows, (standard.find parcels twoParcels (.ofSelection (.mk lightFromTwo []))).result = .ok rows ∧
        ∀ row, row ∈ rows ↔ (standard.view parcels twoParcels).Matches lightFromTwo row := by
  obtain ⟨rows, hrows⟩ : ∃ rows, (standard.find parcels twoParcels (.ofSelection (.mk lightFromTwo
      []))).result = .ok rows :=
    exists_plain (fun b => by cbv) (fun b => by cbv) (fun b => ⟨⟨_, by cbv⟩, ⟨_, by cbv⟩⟩)
      fun b recheck => by cases recheck <;> exact ⟨⟨_, by cbv⟩, ⟨_, by cbv⟩⟩
  exact ⟨keysAreCodes_twoParcels, rfl, rows, hrows,
    (find_matches keysAreCodes_twoParcels rfl hrows).1⟩

end Parcels

end Store

end RecordStore
