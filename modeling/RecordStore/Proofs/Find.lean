import RecordStore.Store.Find
import RecordStore.Proofs.StableSort
import RecordStore.Proofs.Walk

/-!
# The rows of a query

Whatever a query asks, and by whichever index it is hinted, its rows are records that are stored,
each with its key and each once (`rows_kept`). The rows collected so far keep this while candidates
are taken one after the other; sorting rearranges them, and paging leaves some out.
-/

namespace RecordStore

/-! ## Plans -/

/-- What a plan may be: the walk over the records, the walk of the index that is hinted, or the walk
that stands in for it. -/
theorem Plan.ofTerm_cases {κ ρ : Type} {schema : Schema κ ρ} {s : Buckets} {t : Term κ ρ}
    {plan : Plan} (h : Plan.ofTerm schema s t = .ok plan) :
    plan = primaryKey schema.typeName ∧ (t.index = none ∨ t.index = some keyField) ∨
    ∃ index, t.index = some index ∧ index ≠ keyField ∧ schema.hasIndex index = true ∧
      (plan = fallback schema.typeName index ∨
        s.has (Index.bucketName schema.typeName index) = true ∧
        (t.criteriaOn index).any (·.condition.isPredicate) = false ∧
        (schema.hasSliceIndex index = true ∧
            ((t.criteriaOn index).any fun c => !c.negated && c.condition.asksForItem) = true ∧
            plan = ⟨.sliceIndex, Index.bucketName schema.typeName index, some index, none, false⟩ ∨
          schema.hasSliceIndex index = false ∧
            plan = ⟨.index, Index.bucketName schema.typeName index, some index,
              if (t.criteriaOn index).any (·.condition.mentionsCustom) then none else some index,
              false⟩)) := by
  -- The case split is that of the planner: the hint, its declaration, its bucket, the predicates, and
  -- then the kind of index.
  unfold ofTerm at h
  split at h
  next hnone =>
    cases h
    exact .inl ⟨rfl, .inl hnone⟩
  next index hindex =>
    split at h
    next hkey =>
      cases h
      exact .inl ⟨rfl, .inr (hkey ▸ hindex)⟩
    next hkey =>
      split at h
      next hdeclared =>
        refine .inr ⟨index, hindex, hkey, hdeclared, ?_⟩
        cases h
        unfold ofIndex
        dsimp only
        split
        next => exact .inl rfl
        next hhas =>
          split
          next => exact .inl rfl
          next hpredicate =>
            split
            next hslice =>
              split
              next hasks =>
                exact .inr ⟨by simpa using hhas, by simpa using hpredicate,
                  .inl ⟨hslice, hasks, rfl⟩⟩
              next => exact .inl rfl
            next hslice =>
              refine .inr ⟨by simpa using hhas, by simpa using hpredicate,
                .inr ⟨by simpa using hslice, ?_⟩⟩
              -- Mentioning a custom value or not only tells whether the plan covers the field.
              cases (t.criteriaOn index).any (·.condition.mentionsCustom) <;> rfl
      next => cases h

namespace Candidates

variable {κ ρ : Type} [CustomKind κ]

/-- The walk starts at one of the entries and leaves out none behind it. -/
theorem walkFrom_suffix (entries : List Entry) (criteria : List (Criterion κ ρ)) :
    walkFrom entries criteria <:+ entries := by
  unfold walkFrom
  split
  next => exact List.suffix_refl _
  next target _ =>
    unfold seek
    split
    next => exact List.nil_suffix
    next e rest hdrop =>
      split
      next =>
        rw [← hdrop]
        exact List.dropWhile_suffix _
      next => exact List.suffix_refl _

end Candidates

/-- No key is filed in the bucket under two values, nor twice under one. -/
def Index.OneValueEach (codec : Codec) (s : Buckets) (bucket : String) : Prop :=
  ∀ v bytes l, s.get? bucket v = some bytes → decodeKeys codec bytes = .ok l →
    l.keys.Nodup ∧ ∀ v' bytes' l' k, s.get? bucket v' = some bytes' →
      decodeKeys codec bytes' = .ok l' → k ∈ l.keys → k ∈ l'.keys → v = v'

namespace View

variable {κ ρ : Type} [CustomKind κ]

/-- A row is the record stored under its key. -/
def Stores (v : View κ ρ) (row : Row κ ρ) : Prop :=
  ∃ bytes, v.buckets.get? v.typeName row.rawKey = some bytes ∧
    Keycode.decode row.rawKey = .ok row.key ∧ v.decode bytes = .ok row.record

/-! ## The candidates of a plan -/

/-- Nothing was fetched yet when a walk starts. -/
theorem pending_candidates (v : View κ ρ) (plan : Plan) (t : Term κ ρ) :
    (v.candidates plan t).pending =
      (v.candidates plan t).stream [] (v.candidates plan t).ahead := rfl

/-- A walk begins somewhere in its bucket and goes to the end. -/
theorem ahead_candidates_suffix (v : View κ ρ) (plan : Plan) (t : Term κ ρ) :
    (v.candidates plan t).ahead <:+ v.buckets.entries plan.bucket :=
  Candidates.walkFrom_suffix _ _

/-- A walk is in good order at its start if no key comes twice. -/
theorem sound_of_nodup {v : View κ ρ} {plan : Plan} {t : Term κ ρ}
    (h : (v.candidates plan t).pendingKeys.Nodup) : (v.candidates plan t).Sound where
  error := rfl
  room := Nat.le_max_right _ _
  nodup := h
  unmarked := by
    intro k hk
    cases hk

/-- A walk over records yields stored records, each once. -/
theorem sound_records {v : View κ ρ} {t : Term κ ρ} {plan : Plan}
    (hscan : plan.scan = .full ∨ plan.scan = .primaryKey) (hbucket : plan.bucket = v.typeName) :
    (v.candidates plan t).Sound ∧
      ∀ x ∈ (v.candidates plan t).pending, v.buckets.get? v.typeName x.1.1 = some x.1.2 := by
  have hstream := Candidates.stream_records (c := v.candidates plan t) hscan []
  have hahead := ahead_candidates_suffix v plan t
  rw [hbucket] at hahead
  constructor
  · refine sound_of_nodup ?_
    unfold Candidates.pendingKeys
    rw [pending_candidates, hstream, List.map_map]
    have hsub : (((v.candidates plan t).ahead.filter (v.candidates plan t).accepts).map
        (·.1)).Sublist ((v.buckets.entries v.typeName).map (·.1)) :=
      (List.filter_sublist.trans hahead.sublist).map _
    exact hsub.nodup (Buckets.nodup_keys_entries _ _)
  · intro x hx
    rw [pending_candidates, hstream] at hx
    obtain ⟨e, he, rfl⟩ := List.mem_map.mp hx
    exact Buckets.mem_entries_iff.mp (hahead.subset (List.mem_filter.mp he).1)

/-- A walk over a scalar index yields stored records, each once as no key is filed twice. -/
theorem sound_index {v : View κ ρ} {t : Term κ ρ} {plan : Plan} (hscan : plan.scan = .index)
    (hone : Index.OneValueEach v.codec v.buckets plan.bucket) :
    (v.candidates plan t).Sound ∧
      ∀ x ∈ (v.candidates plan t).pending, v.buckets.get? v.typeName x.1.1 = some x.1.2 := by
  have hstream := Candidates.stream_index (c := v.candidates plan t) hscan []
  have hahead := ahead_candidates_suffix v plan t
  have hkeys : ∀ e ∈ (v.candidates plan t).ahead, ∀ k ∈ (v.candidates plan t).entryKeys e,
      ∃ l, v.buckets.get? plan.bucket e.1 = some e.2 ∧
        Index.decodeKeys v.codec e.2 = .ok l ∧ k ∈ l.keys := by
    intro e he k hk
    obtain ⟨value, l, -, -, hl, hkey⟩ := (Candidates.mem_entryKeys (.inl hscan)).mp hk
    exact ⟨l, Buckets.mem_entries_iff.mp (hahead.subset he), hl, hkey⟩
  constructor
  -- No key comes twice: not under one value, and not under two, for each key has one value.
  · refine sound_of_nodup ?_
    unfold Candidates.pendingKeys
    rw [pending_candidates, hstream, List.map_flatMap, List.nodup_flatMap]
    have hsub := Candidates.keys_filterMap_sublist (v.candidates plan t)
    constructor
    · intro e he
      refine (hsub _ _).nodup ?_
      rcases Candidates.entryKeys_eq (c := v.candidates plan t) (.inl hscan) e with hnone | ⟨l, hl, heq⟩
      · rw [hnone]
        exact List.nodup_nil
      · rw [heq]
        exact (hone _ _ _ (Buckets.mem_entries_iff.mp (hahead.subset he)) hl).1
    · have hsorted := List.Pairwise.sublist hahead.sublist (Buckets.keysAscend_entries _ _)
      refine List.Pairwise.imp_of_mem ?_ hsorted
      intro e e' he he' hlt k hk hk'
      obtain ⟨l, hget, hl, hkey⟩ := hkeys e he k ((hsub _ _).subset hk)
      obtain ⟨l', hget', hl', hkey'⟩ := hkeys e' he' k ((hsub _ _).subset hk')
      have heq := (hone _ _ _ hget hl).2 _ _ _ k hget' hl' hkey hkey'
      rw [heq] at hlt
      simp at hlt
  · intro x hx
    rw [pending_candidates, hstream] at hx
    obtain ⟨e, he, hx⟩ := List.mem_flatMap.mp hx
    obtain ⟨e', he', rfl⟩ := List.mem_map.mp hx
    obtain ⟨k, -, hk⟩ := List.mem_filterMap.mp he'
    exact (Candidates.entryOf?_eq_some.mp hk).2

/-- A walk over a slice index yields stored records, each once. -/
theorem sound_slice {v : View κ ρ} {t : Term κ ρ} {plan : Plan} (hscan : plan.scan = .sliceIndex) :
    (v.candidates plan t).Sound ∧
      ∀ x ∈ (v.candidates plan t).pending, v.buckets.get? v.typeName x.1.1 = some x.1.2 := by
  obtain ⟨hmem, hnodup⟩ := Candidates.stream_slice (c := v.candidates plan t) hscan
    (v.candidates plan t).ahead []
  exact ⟨sound_of_nodup hnodup, fun x hx => ((hmem x).mp hx).2.2.2⟩

/-- The candidates of a planned term are stored records, each once. -/
theorem sound_candidates {v : View κ ρ} {t : Term κ ρ} {plan : Plan} (hplan : v.plan t = .ok plan)
    (hone : ∀ index, v.type.schema.hasIndex index = true →
      v.type.schema.hasSliceIndex index = false →
      Index.OneValueEach v.codec v.buckets (Index.bucketName v.typeName index)) :
    (v.candidates plan t).Sound ∧
      ∀ x ∈ (v.candidates plan t).pending, v.buckets.get? v.typeName x.1.1 = some x.1.2 := by
  rcases Plan.ofTerm_cases hplan with ⟨rfl, -⟩ | ⟨index, -, -, hindex, hcases⟩
  · exact sound_records (.inr rfl) rfl
  · rcases hcases with rfl | ⟨-, -, ⟨-, -, rfl⟩ | ⟨hslice, rfl⟩⟩
    · exact sound_records (.inl rfl) rfl
    · exact sound_slice rfl
    · exact sound_index rfl (hone index hindex hslice)

/-! ## Collecting rows -/

omit [CustomKind κ] in
/-- The sink that keeps rows is never satisfied; only the number of rows wanted is. -/
theorem ends_offer_keepRow {row : Row κ ρ} {d d' : Delivery (List (Row κ ρ))} {demand : Demand} :
    (Delivery.offer keepRow row).Ends d demand d' ↔
      if d.skip > 0 then demand = .more ∧ d' = { d.mark row.rawKey with skip := d.skip - 1 }
      else
        demand = (if d.remaining.map (· - 1) = some 0 then .enough else .more) ∧
        d' = { d.mark row.rawKey with
          remaining := d.remaining.map (· - 1), delivered := d.delivered + 1,
          inner := row :: d.inner } := by
  unfold Step.Ends Delivery.offer
  dsimp only [Delivery.mark]
  split
  next => simp [eq_comm]
  next =>
    show Except.ok _ = Except.ok demand ∧ _ ↔ _
    rw [Except.ok.injEq, eq_comm]
    exact and_congr_right fun _ => eq_comm

/-- The rows kept so far are stored records, each once, and the keys in mind are theirs. -/
structure Kept (v : View κ ρ) (d : Delivery (List (Row κ ρ))) : Prop where
  nodup : (d.inner.map (·.rawKey)).Nodup
  stored : ∀ row ∈ d.inner, v.Stores row
  seen : ∀ keys, d.seen = some keys → ∀ row ∈ d.inner, row.rawKey ∈ keys

/-- One candidate adds at most its own row. -/
theorem kept_consider {v : View κ ρ} {t : Term κ ρ} {plan : Plan} {e : Entry} {recheck : Bool}
    {d d' : Delivery (List (Row κ ρ))} {demand : Demand} (hd : v.Kept d)
    (he : v.buckets.get? v.typeName e.1 = some e.2)
    (hnew : d.seen = none → e.1 ∉ d.inner.map (·.rawKey))
    (h : (v.consider t plan keepRow e recheck).Ends d demand d') :
    v.Kept d' ∧ (d'.seen = none ↔ d.seen = none) ∧
      ∀ row ∈ d'.inner, row ∈ d.inner ∨ row.rawKey = e.1 := by
  rw [ends_consider] at h
  split at h
  next =>
    obtain ⟨-, rfl⟩ := h
    exact ⟨hd, Iff.rfl, fun row hrow => .inl hrow⟩
  next hseen =>
    obtain ⟨key, record, met, hkey, hrecord, -, h⟩ := h
    cases met with
    | false =>
      obtain ⟨-, rfl⟩ := h
      exact ⟨hd, Iff.rfl, fun row hrow => .inl hrow⟩
    | true =>
      -- A key that is in mind was not selected; without keys in mind it is new by assumption.
      have hfresh : e.1 ∉ d.inner.map (·.rawKey) := by
        intro hmem
        cases hs : d.seen with
        | none => exact hnew hs hmem
        | some keys =>
          obtain ⟨row, hrow, heq⟩ := List.mem_map.mp hmem
          have hin := hd.seen keys hs row hrow
          rw [heq] at hin
          refine hseen ?_
          unfold Delivery.hasSeen
          rw [hs]
          simpa using hin
      rw [if_pos rfl, ends_offer_keepRow] at h
      split at h
      next =>
        -- A row that is skipped is only kept in mind.
        obtain ⟨-, rfl⟩ := h
        refine ⟨⟨hd.nodup, hd.stored, ?_⟩, by simp [Delivery.mark], fun row hrow => .inl hrow⟩
        intro keys hkeys row hrow
        obtain ⟨keys', hkeys', rfl⟩ := Option.map_eq_some_iff.mp hkeys
        exact List.mem_cons_of_mem _ (hd.seen keys' hkeys' row hrow)
      next =>
        obtain ⟨-, rfl⟩ := h
        refine ⟨⟨?_, ?_, ?_⟩, by simp [Delivery.mark], ?_⟩
        · exact List.nodup_cons.mpr ⟨hfresh, hd.nodup⟩
        · intro row hrow
          rcases List.mem_cons.mp hrow with rfl | hrow
          · exact ⟨e.2, he, hkey, hrecord⟩
          · exact hd.stored row hrow
        · intro keys hkeys row hrow
          obtain ⟨keys', hkeys', rfl⟩ := Option.map_eq_some_iff.mp hkeys
          rcases List.mem_cons.mp hrow with rfl | hrow
          · exact List.mem_cons_self ..
          · exact List.mem_cons_of_mem _ (hd.seen keys' hkeys' row hrow)
        · intro row hrow
          rcases List.mem_cons.mp hrow with rfl | hrow
          · exact .inr rfl
          · exact .inl hrow

/-- Sifting stored candidates of distinct keys keeps the rows stored and distinct. -/
theorem kept_sift {v : View κ ρ} {t : Term κ ρ} {plan : Plan} :
    ∀ {items : List (Entry × Bool)} {d d' : Delivery (List (Row κ ρ))} {demand : Demand},
      v.Kept d → (items.map (·.1.1)).Nodup →
      (∀ x ∈ items, v.buckets.get? v.typeName x.1.1 = some x.1.2) →
      (d.seen = none → ∀ x ∈ items, x.1.1 ∉ d.inner.map (·.rawKey)) →
      (v.sift t plan keepRow items).Ends d demand d' →
      v.Kept d' ∧ (d'.seen = none ↔ d.seen = none)
  | [], d, d', demand, hd, _, _, _, h => by
    obtain ⟨-, rfl⟩ := Step.ends_pure.mp h
    exact ⟨hd, Iff.rfl⟩
  | (e, recheck) :: items, d, d', demand, hd, hnodup, hstored, hnew, h => by
    obtain ⟨hhead, htail⟩ := List.nodup_cons.mp hnodup
    have hconsider : ∀ {d₁ demand₁}, (v.consider t plan keepRow e recheck).Ends d demand₁ d₁ →
        v.Kept d₁ ∧ (d₁.seen = none ↔ d.seen = none) ∧
          ∀ row ∈ d₁.inner, row ∈ d.inner ∨ row.rawKey = e.1 := fun h =>
      kept_consider hd (hstored _ (List.mem_cons_self ..))
        (fun hs => hnew hs _ (List.mem_cons_self ..)) h
    rcases ends_sift_cons.mp h with ⟨h, -⟩ | ⟨d₁, h₁, h⟩
    · obtain ⟨hd', hseen, -⟩ := hconsider h
      exact ⟨hd', hseen⟩
    · obtain ⟨hd₁, hseen, hrows⟩ := hconsider h₁
      have hnext := kept_sift hd₁ htail (fun x hx => hstored x (List.mem_cons_of_mem _ hx)) ?_ h
      · exact ⟨hnext.1, hnext.2.trans hseen⟩
      -- A row taken just now is of the first candidate, and the keys of the others differ.
      · intro hs x hx hmem
        obtain ⟨row, hrow, heq⟩ := List.mem_map.mp hmem
        rcases hrows row hrow with hold | hhere
        · exact hnew (hseen.mp hs) x (List.mem_cons_of_mem _ hx)
            (List.mem_map.mpr ⟨row, hold, heq⟩)
        · refine hhead ?_
          show e.1 ∈ _
          rw [← hhere, heq]
          exact List.mem_map_of_mem (f := fun x : Entry × Bool => x.1.1) hx

/-- Answering a term is taking the candidates of its plan, unless there is no bucket of records. -/
theorem ends_answerTerm {σ : Type} {v : View κ ρ} {sink : Sink σ κ ρ} {t : Term κ ρ}
    {d d' : Delivery σ} {demand : Demand} : (v.answerTerm sink t).Ends d demand d' ↔
    v.checkFields t = .ok () ∧ ∃ plan, v.plan t = .ok plan ∧
      if v.buckets.has v.typeName then
        (v.drain t plan sink (v.candidates plan t)).Ends d demand d'
      else demand = .more ∧ d' = d := by
  -- Reporting the plan and the fallback decides nothing.
  have hwalk : ∀ plan, (if v.buckets.has v.typeName then v.drain t plan sink (v.candidates plan t)
      else pure .more : Step (Delivery σ) Demand).Ends d demand d' ↔
      if v.buckets.has v.typeName then
        (v.drain t plan sink (v.candidates plan t)).Ends d demand d'
      else demand = .more ∧ d' = d := by
    intro plan
    split
    next => exact Iff.rfl
    next => exact Step.ends_pure
  unfold answerTerm
  simp only [Step.ends_liftExcept_bind]
  constructor
  · intro h
    obtain ⟨_, hcheck, plan, hplan, h⟩ := h
    rw [Step.ends_liftTraced_bind] at h
    obtain ⟨_, -, h⟩ := h
    refine ⟨hcheck, plan, hplan, (hwalk plan).mp ?_⟩
    split at h
    next =>
      rw [Step.ends_liftTraced_bind] at h
      obtain ⟨_, -, h⟩ := h
      exact h
    next => exact h
  · intro h
    obtain ⟨hcheck, plan, hplan, h⟩ := h
    refine ⟨(), hcheck, plan, hplan, ?_⟩
    rw [Step.ends_liftTraced_bind]
    refine ⟨(), rfl, ?_⟩
    split
    next =>
      rw [Step.ends_liftTraced_bind]
      exact ⟨(), rfl, (hwalk plan).mpr h⟩
    next => exact (hwalk plan).mpr h

variable {v : View κ ρ}

/-- Every index that is walked for values files a key once. -/
def OneValueEach (v : View κ ρ) : Prop :=
  ∀ index, v.type.schema.hasIndex index = true → v.type.schema.hasSliceIndex index = false →
    Index.OneValueEach v.codec v.buckets (Index.bucketName v.typeName index)

theorem kept_answerTerm {t : Term κ ρ} {d d' : Delivery (List (Row κ ρ))} {demand : Demand}
    (hone : v.OneValueEach) (hd : v.Kept d) (hnew : d.seen = none → d.inner = [])
    (h : (v.answerTerm keepRow t).Ends d demand d') :
    v.Kept d' ∧ (d'.seen = none ↔ d.seen = none) := by
  obtain ⟨-, plan, hplan, h⟩ := ends_answerTerm.mp h
  split at h
  next =>
    obtain ⟨hsound, hstored⟩ := sound_candidates hplan hone
    obtain ⟨hsift, -⟩ := drain_sift hsound.orderly h
    refine kept_sift hd hsound.nodup hstored (fun hs x _ hmem => ?_) hsift
    rw [hnew hs] at hmem
    cases hmem
  next =>
    obtain ⟨-, rfl⟩ := h
    exact ⟨hd, Iff.rfl⟩

/-- Keys are kept in mind as soon as there is more than one term. -/
theorem kept_answerTerms (hone : v.OneValueEach) :
    ∀ {terms : List (Term κ ρ)} {d d' : Delivery (List (Row κ ρ))} {demand : Demand}, v.Kept d →
      (d.seen = none → d.inner = [] ∧ terms.length ≤ 1) →
      (v.answerTerms keepRow terms).Ends d demand d' → v.Kept d'
  | [], d, d', demand, hd, _, h => by
    obtain ⟨-, rfl⟩ := Step.ends_pure.mp h
    exact hd
  | t :: terms, d, d', demand, hd, hseen, h => by
    unfold answerTerms at h
    rw [Step.ends_bind] at h
    obtain ⟨demand₁, d₁, h₁, h⟩ := h
    obtain ⟨hd₁, hsame⟩ := kept_answerTerm hone hd (fun hs => (hseen hs).1) h₁
    cases demand₁ with
    | enough =>
      obtain ⟨-, rfl⟩ := Step.ends_pure.mp h
      exact hd₁
    | more =>
      cases terms with
      | nil =>
        obtain ⟨-, rfl⟩ := Step.ends_pure.mp h
        exact hd₁
      | cons t' terms =>
        refine kept_answerTerms hone hd₁ (fun hs => ?_) h
        have hlen := (hseen (hsame.mp hs)).2
        simp at hlen

/-! ## Queries -/

/-- A selection ends as its terms do, with the number of rows delivered. -/
theorem ends_select {σ : Type} {q : Query κ ρ} {skip : Nat} {limit : Option Nat}
    {sink : Sink σ κ ρ} {s s' : σ} {n : Nat} :
    (v.select q skip limit sink).Ends s n s' ↔
      ∃ demand d, (v.answerTerms sink q.terms).Ends
        ⟨if q.hasBranches then some [] else none, skip, limit, 0, s⟩ demand d ∧
        d.delivered = n ∧ d.inner = s' := by
  unfold Step.Ends select
  dsimp only
  generalize v.answerTerms sink q.terms
    ⟨if q.hasBranches then some [] else none, skip, limit, 0, s⟩ = answer
  obtain ⟨⟨r, events⟩, d⟩ := answer
  cases r with
  | error e => simp [Except.map]
  | ok demand => simp [Except.map]

omit [CustomKind κ] in
/-- A selection without alternatives is one term. -/
theorem length_terms {q : Query κ ρ} (h : q.hasBranches = false) : q.terms.length ≤ 1 := by
  obtain ⟨⟨t, branches⟩, _, _, _, _⟩ := q
  unfold Query.hasBranches Selection.branches at h
  simp only [Bool.not_eq_false', List.isEmpty_iff] at h
  subst h
  exact Nat.le_refl 1

theorem kept_select {q : Query κ ρ} {skip : Nat} {limit : Option Nat} {rows : List (Row κ ρ)}
    {n : Nat} (hone : v.OneValueEach) (h : (v.select q skip limit keepRow).Ends [] n rows) :
    (rows.map (·.rawKey)).Nodup ∧ ∀ row ∈ rows, v.Stores row := by
  obtain ⟨demand, d, hterms, -, rfl⟩ := ends_select.mp h
  have hstart : v.Kept ⟨if q.hasBranches then some [] else none, skip, limit, 0, []⟩ :=
    ⟨List.nodup_nil, by simp, by simp⟩
  have hd := kept_answerTerms hone hstart (fun hs => ⟨rfl, length_terms ?_⟩) hterms
  · exact ⟨hd.nodup, hd.stored⟩
  · cases hb : q.hasBranches with
    | false => rfl
    | true =>
      rw [hb] at hs
      cases hs

/-- The rows that are collected are those that the keeping sink was given. -/
theorem collect_eq_ok {q : Query κ ρ} {rows : List (Row κ ρ)} :
    (v.collect q).result = .ok rows ↔
      ∃ n kept, (v.select q 0 none keepRow).Ends [] n kept ∧ kept.reverse = rows :=
  Step.map_result_eq_ok (m := v.select q 0 none keepRow) (f := fun _ kept => kept.reverse)

/-- The rows of a query are those that the keeping sink was given. -/
theorem rows_eq_ok {q : Query κ ρ} {rows : List (Row κ ρ)} :
    (v.rows q).result = .ok rows ↔
      ∃ n kept, (v.run q keepRow).Ends [] n kept ∧ kept.reverse = rows :=
  Step.map_result_eq_ok (m := v.run q keepRow) (f := fun _ kept => kept.reverse)

section

variable {σ : Type} {q : Query κ ρ} (sink : Sink σ κ ρ)

/-- A limit of zero only asks for the terms to be planned. -/
theorem run_of_zero (hzero : q.limit = some 0) :
    v.run q sink = (do v.planAll q.terms; pure 0) := by
  unfold run
  rw [if_pos hzero]

/-- Rows that are not ordered are handed over as they are selected. -/
theorem run_of_unordered (hwanted : q.limit ≠ some 0) (hunordered : q.isOrdered = false) :
    v.run q sink = v.select q q.skip q.limit sink := by
  unfold run
  rw [if_neg hwanted, if_pos (by rw [hunordered]; rfl)]

/-- Rows that are ordered are collected and sorted before paging. -/
theorem run_of_ordered (hwanted : q.limit ≠ some 0) (hordered : q.isOrdered = true) :
    v.run q sink = (do
      let found ← v.collect q
      let sorted ← Row.sort v.type.schema q.sort q.reverse found
      deliver sink (match q.limit with
        | some limit => (sorted.drop q.skip).take limit
        | none => sorted.drop q.skip)) := by
  unfold run
  exact (if_neg hwanted).trans (if_neg (by rw [hordered]; simp))

end

omit [CustomKind κ] in
/-- Handed to a sink that keeps them, all rows are kept. -/
theorem ends_deliver_keepRow :
    ∀ {rows kept kept' : List (Row κ ρ)} {n : Nat},
      (deliver keepRow rows).Ends kept n kept' → kept' = rows.reverse ++ kept
  | [], kept, kept', n, h => by
    obtain ⟨-, rfl⟩ := Step.ends_pure.mp h
    rfl
  | row :: rows, kept, kept', n, h => by
    unfold deliver at h
    rw [Step.ends_bind] at h
    obtain ⟨demand, kept₁, ⟨hdemand, hkept⟩, h⟩ := h
    cases hdemand
    cases hkept
    dsimp only at h
    rw [Step.ends_bind] at h
    obtain ⟨m, kept₂, h, hpure⟩ := h
    obtain ⟨-, rfl⟩ := Step.ends_pure.mp hpure
    rw [ends_deliver_keepRow h, List.reverse_cons, List.append_assoc]
    rfl

/-- Rows that were given their sort keys are the rows they were. -/
theorem map_snd_of_mapM {α β : Type} {f : β → Except Error α} :
    ∀ {rows : List β} {keyed : List (α × β)},
      (rows.mapM fun row => (f row).map (·, row)) = .ok keyed → keyed.map (·.2) = rows
  | [], keyed, h => by
    cases h
    rfl
  | row :: rows, keyed, h => by
    rw [List.mapM_cons] at h
    obtain ⟨first, hfirst, h⟩ := bind_eq_ok.mp h
    obtain ⟨rest, hrest, h⟩ := bind_eq_ok.mp h
    cases h
    rw [List.map_cons, map_snd_of_mapM hrest]
    cases hrow : f row with
    | error e =>
      rw [hrow] at hfirst
      cases hfirst
    | ok a =>
      rw [hrow] at hfirst
      cases hfirst
      rfl

/-- Sorting rows rearranges them. -/
theorem perm_rowSort {schema : Schema κ ρ} {fields : List String} {reverse : Bool}
    {rows sorted : List (Row κ ρ)} (h : Row.sort schema fields reverse rows = .ok sorted) :
    sorted.Perm rows := by
  unfold Row.sort at h
  obtain ⟨keyed, hkeyed, h⟩ := bind_eq_ok.mp h
  have hrows : keyed.map (·.2) = rows := map_snd_of_mapM hkeyed
  split at h
  next => cases h
  next => cases h
  next sorted' hsorted =>
    have hvalues : (sorted'.map (·.2)).Perm rows := hrows ▸ (perm_stableSort hsorted).map _
    cases h
    split
    next => exact (List.reverse_perm _).trans hvalues
    next => exact hvalues

/-- The rows of a query are some of those that a selection has kept, in some order. -/
theorem rows_of_select {q : Query κ ρ} {rows : List (Row κ ρ)} (h : (v.rows q).result = .ok rows) :
    rows = [] ∨ ∃ skip limit n kept, (v.select q skip limit keepRow).Ends [] n kept ∧
      ∃ all : List (Row κ ρ), all.Perm kept ∧ rows.Sublist all := by
  obtain ⟨n, kept, hrun, rfl⟩ := rows_eq_ok.mp h
  by_cases hzero : q.limit = some 0
  · rw [run_of_zero _ hzero, Step.ends_liftExcept_bind] at hrun
    obtain ⟨_, -, hrun⟩ := hrun
    obtain ⟨-, rfl⟩ := Step.ends_pure.mp hrun
    exact .inl rfl
  right
  cases hordered : q.isOrdered with
  | false =>
    rw [run_of_unordered _ hzero hordered] at hrun
    exact ⟨q.skip, q.limit, n, kept, hrun, kept.reverse, List.reverse_perm kept, List.Sublist.refl _⟩
  | true =>
    rw [run_of_ordered _ hzero hordered, Step.ends_liftTraced_bind] at hrun
    obtain ⟨found, hfound, hrun⟩ := hrun
    rw [Step.ends_liftExcept_bind] at hrun
    obtain ⟨sorted, hsorted, hrun⟩ := hrun
    obtain ⟨m, kept₁, hselect, rfl⟩ := collect_eq_ok.mp hfound
    -- Sorting rearranges what was collected, and paging leaves some of it.
    have hperm := (perm_rowSort hsorted).trans (List.reverse_perm kept₁)
    refine ⟨0, none, m, kept₁, hselect, sorted, hperm, ?_⟩
    rw [ends_deliver_keepRow hrun, List.append_nil, List.reverse_reverse]
    split
    next => exact (List.take_sublist _ _).trans (List.drop_sublist _ _)
    next => exact List.drop_sublist _ _

/-- The rows of any query are stored records, each once. -/
theorem rows_kept {q : Query κ ρ} {rows : List (Row κ ρ)} (hone : v.OneValueEach)
    (h : (v.rows q).result = .ok rows) :
    (rows.map (·.rawKey)).Nodup ∧ ∀ row ∈ rows, v.Stores row := by
  rcases rows_of_select h with rfl | ⟨skip, limit, n, kept, hselect, all, hperm, hsub⟩
  · exact ⟨List.nodup_nil, by simp⟩
  · obtain ⟨hnodup, hstores⟩ := kept_select hone hselect
    refine ⟨(hsub.map _).nodup ((hperm.map _).nodup_iff.mpr hnodup), fun row hrow => ?_⟩
    exact hstores row (hperm.mem_iff.mp (hsub.subset hrow))

end View

end RecordStore
