import RecordStore.Proofs.Selected

/-!
# Alternatives

A query with alternatives answers its terms one after the other and passes over every key that it has
met before. Without paging a key in mind is that of a row that was delivered, and what is stored under
a key is one record, so nothing is lost by it: the rows are those that the terms find, each by itself
(`mem_rows_terms`).
-/

namespace RecordStore

namespace View

variable {κ ρ : Type} [CustomKind κ] {v : View κ ρ} {t : Term κ ρ}

/-- A row that the plan of a term leads to. -/
def Finds (v : View κ ρ) (t : Term κ ρ) (row : Row κ ρ) : Prop :=
  ∃ plan, v.plan t = .ok plan ∧ row ∈ (v.candidates plan t).pending.filterMap (v.rowOf? t plan)

/-- All entries that the plan of a term reaches can be told. -/
def Told (v : View κ ρ) (t : Term κ ρ) : Prop :=
  ∃ plan, v.plan t = .ok plan ∧ (v.buckets.has v.typeName = true →
    ∀ e ∈ (v.candidates plan t).ahead, (v.candidates plan t).Tells e)

theorem finds_iff {plan : Plan} (h : v.plan t = .ok plan) (row : Row κ ρ) :
    v.Finds t row ↔ row ∈ (v.candidates plan t).pending.filterMap (v.rowOf? t plan) := by
  constructor
  · rintro ⟨plan', h', hrow⟩
    rw [h] at h'
    cases h'
    exact hrow
  · intro hrow
    exact ⟨plan, h, hrow⟩

omit [CustomKind κ] in
/-- There is one row to a key. -/
theorem Stores.unique {row row' : Row κ ρ} (h : v.Stores row) (h' : v.Stores row')
    (hkey : row.rawKey = row'.rawKey) : row = row' := by
  obtain ⟨bytes, hget, hdecode, hrecord⟩ := h
  obtain ⟨bytes', hget', hdecode', hrecord'⟩ := h'
  obtain ⟨key, record, rawKey⟩ := row
  obtain ⟨key', record', rawKey'⟩ := row'
  cases hkey
  rw [hget] at hget'
  cases hget'
  rw [hdecode] at hdecode'
  cases hdecode'
  rw [hrecord] at hrecord'
  cases hrecord'
  rfl

/-- The rows that were found so far, all of them, and the keys in mind are theirs. -/
structure Unpaged (v : View κ ρ) (d : Delivery (List (Row κ ρ))) : Prop where
  skip : d.skip = 0
  remaining : d.remaining = none
  stored : ∀ row ∈ d.inner, v.Stores row
  seen : ∀ key, d.hasSeen key = true → ∃ row ∈ d.inner, row.rawKey = key

omit [CustomKind κ] in
theorem Unpaged.takesAll {d : Delivery (List (Row κ ρ))} (hd : v.Unpaged d) : d.TakesAll :=
  ⟨hd.skip, hd.remaining⟩

/-- What a part of the work does to the delivery: it adds rows and wants to go on. -/
structure Adds (v : View κ ρ) (found : Row κ ρ → Prop) (d d' : Delivery (List (Row κ ρ)))
    (demand : Demand) : Prop where
  unpaged : v.Unpaged d'
  more : demand = .more
  mem : ∀ row, row ∈ d'.inner ↔ row ∈ d.inner ∨ found row

/-- One candidate adds its row, if it has one that is not there yet. -/
theorem adds_consider {plan : Plan} {e : Entry} {recheck : Bool}
    {d d' : Delivery (List (Row κ ρ))} {demand : Demand} (hd : v.Unpaged d)
    (he : v.buckets.get? v.typeName e.1 = some e.2)
    (h : (v.consider t plan keepRow e recheck).Ends d demand d') :
    v.Adds (fun row => v.rowOf? t plan (e, recheck) = some row) d d' demand := by
  rw [ends_consider_takesAll hd.takesAll] at h
  obtain ⟨hmore, h⟩ := h
  split at h
  next hseen =>
    rw [h]
    refine ⟨hd, hmore, fun row => (or_iff_left_of_imp fun hrow => ?_).symm⟩
    obtain ⟨hraw, hdecode, hrecord, -⟩ := rowOf?_eq_some.mp hrow
    -- A key that was seen has its row among those taken, and the record of a key is one.
    obtain ⟨row', hrow', hkey⟩ := hd.seen _ hseen
    have hstores : v.Stores row := ⟨e.2, hraw ▸ he, hraw ▸ hdecode, hrecord⟩
    rw [hstores.unique (hd.stored row' hrow') (hraw.trans hkey.symm)]
    exact hrow'
  next hnew =>
    obtain ⟨row?, hanswer, rfl⟩ := h
    have hrowOf : v.rowOf? t plan (e, recheck) = row? := by
      unfold rowOf?
      rw [hanswer]
    rw [hrowOf]
    cases row? with
    | none => exact ⟨hd, hmore, fun row => by simp⟩
    | some row =>
      obtain ⟨hraw, hdecode, hrecord, -⟩ := rowOf?_eq_some.mp hrowOf
      have hinner : (d.take row).inner = row :: d.inner := by
        unfold Delivery.take
        rw [hraw, if_neg hnew]
      obtain ⟨hskip, hremaining⟩ := hd.takesAll.take row
      refine ⟨⟨hskip, hremaining, fun row' hrow' => ?_, fun key hkey => ?_⟩, hmore,
        fun row' => ?_⟩
      · rcases List.mem_cons.mp (hinner ▸ hrow') with rfl | hrow'
        · exact ⟨e.2, hraw ▸ he, hraw ▸ hdecode, hrecord⟩
        · exact hd.stored row' hrow'
      · show ∃ row' ∈ (d.take row).inner, _
        rw [hinner, List.exists_mem_cons_iff]
        exact (Delivery.eq_or_hasSeen_of_take hkey).imp Eq.symm (hd.seen key)
      · show row' ∈ (d.take row).inner ↔ _
        rw [hinner, List.mem_cons, or_comm, Option.some.injEq, @eq_comm _ row']

/-- Going through candidates adds the rows of all of them. -/
theorem adds_sift {plan : Plan} :
    ∀ {items : List (Entry × Bool)} {d d' : Delivery (List (Row κ ρ))} {demand : Demand},
      v.Unpaged d → (∀ x ∈ items, v.buckets.get? v.typeName x.1.1 = some x.1.2) →
      (v.sift t plan keepRow items).Ends d demand d' →
      v.Adds (· ∈ items.filterMap (v.rowOf? t plan)) d d' demand
  | [], d, d', demand, hd, _, h => by
    obtain ⟨rfl, rfl⟩ := Step.ends_pure.mp h
    exact ⟨hd, rfl, fun row => by simp⟩
  | (e, recheck) :: items, d, d', demand, hd, hstored, h => by
    have hconsider : ∀ {d₁ demand₁}, (v.consider t plan keepRow e recheck).Ends d demand₁ d₁ →
        v.Adds (fun row => v.rowOf? t plan (e, recheck) = some row) d d₁ demand₁ :=
      adds_consider hd (hstored _ (List.mem_cons_self ..))
    rcases ends_sift_cons.mp h with ⟨h, -⟩ | ⟨d₁, h₁, h⟩
    · exact Demand.noConfusion (hconsider h).more
    · have hhead := hconsider h₁
      have hrest := adds_sift hhead.unpaged (fun x hx => hstored x (List.mem_cons_of_mem _ hx)) h
      refine ⟨hrest.unpaged, hrest.more, fun row => ?_⟩
      rw [hrest.mem, hhead.mem, or_assoc, List.mem_filterMap, List.mem_filterMap,
        List.exists_mem_cons_iff]

/-- A term adds the rows that it finds. As more is wanted all the time, its walk comes to its end. -/
theorem adds_answerTerm {d d' : Delivery (List (Row κ ρ))} {demand : Demand} (hone : v.OneValueEach)
    (hd : v.Unpaged d) (h : (v.answerTerm keepRow t).Ends d demand d') :
    v.Adds (v.Finds t) d d' demand ∧ v.Told t := by
  obtain ⟨-, plan, hplan, h⟩ := ends_answerTerm.mp h
  obtain ⟨hsound, hstored⟩ := sound_candidates hplan hone
  split at h
  next hhas =>
    obtain ⟨hsift, htold⟩ := drain_sift hsound.orderly h
    have hadds := adds_sift hd hstored hsift
    refine ⟨⟨hadds.unpaged, hadds.more, fun row => ?_⟩, plan, hplan, fun _ => htold hadds.more⟩
    rw [finds_iff hplan]
    exact hadds.mem row
  next hhas =>
    obtain ⟨rfl, rfl⟩ := h
    refine ⟨⟨hd, rfl, fun row => (or_iff_left fun hrow => ?_).symm⟩, plan, hplan,
      fun h => absurd h hhas⟩
    -- Without a bucket of records there are no candidates.
    obtain ⟨x, hx, -⟩ := List.mem_filterMap.mp ((finds_iff hplan row).mp hrow)
    exact hhas (Buckets.has_of_get? (hstored x hx))

theorem adds_answerTerms (hone : v.OneValueEach) :
    ∀ {terms : List (Term κ ρ)} {d d' : Delivery (List (Row κ ρ))} {demand : Demand}, v.Unpaged d →
      (v.answerTerms keepRow terms).Ends d demand d' →
      v.Adds (fun row => ∃ t ∈ terms, v.Finds t row) d d' demand ∧ ∀ t ∈ terms, v.Told t
  | [], d, d', demand, hd, h => by
    obtain ⟨rfl, rfl⟩ := Step.ends_pure.mp h
    exact ⟨⟨hd, rfl, fun row => by simp⟩, by simp⟩
  | t :: terms, d, d', demand, hd, h => by
    unfold answerTerms at h
    rw [Step.ends_bind] at h
    obtain ⟨demand₁, d₁, h₁, h⟩ := h
    obtain ⟨hhead, htold⟩ := adds_answerTerm hone hd h₁
    cases hhead.more
    obtain ⟨hrest, htolds⟩ := adds_answerTerms hone hhead.unpaged h
    refine ⟨⟨hrest.unpaged, hrest.more, fun row => ?_⟩, List.forall_mem_cons.mpr ⟨htold, htolds⟩⟩
    rw [hrest.mem, hhead.mem, or_assoc, List.exists_mem_cons_iff]

/-- The rows of a query are those that its terms find. -/
theorem mem_rows_terms {selection : Selection κ ρ} {rows : List (Row κ ρ)} (hone : v.OneValueEach)
    (h : (v.rows (.ofSelection selection)).result = .ok rows) :
    (∀ row, row ∈ rows ↔ ∃ t ∈ selection.terms, v.Finds t row) ∧
      ∀ t ∈ selection.terms, v.Told t := by
  obtain ⟨n, kept, hrun, rfl⟩ := rows_eq_ok.mp h
  have hselect : (v.select (.ofSelection selection) 0 none keepRow).Ends [] n kept := hrun
  obtain ⟨demand, d, hterms, -, rfl⟩ := ends_select.mp hselect
  have hstart : v.Unpaged ⟨if (Query.ofSelection selection).hasBranches then some [] else none, 0,
      none, 0, []⟩ := by
    refine ⟨rfl, rfl, by simp, fun key hkey => ?_⟩
    unfold Delivery.hasSeen at hkey
    split at hkey <;> simp at hkey
  obtain ⟨hadds, htold⟩ := adds_answerTerms hone hstart hterms
  refine ⟨fun row => ?_, htold⟩
  rw [List.mem_reverse, hadds.mem]
  exact or_iff_right List.not_mem_nil

end View

end RecordStore
