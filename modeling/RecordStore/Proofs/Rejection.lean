import RecordStore.Proofs.Batches

/-!
# Rejected terms

A type rejects a term that has a criterion on a field it does not know, or that hints at an index it
does not know. A query checks a term when it comes to it and not before, so one that is rejected makes
the query fail unless the terms ahead of it have delivered all the rows that are wanted
(`find_rejected`). Only with a limit of zero are all terms checked ahead of everything else
(`planAll_eq`). Without a limit, and if the rows are ordered, the query comes to every term.
-/

namespace RecordStore

namespace Schema

variable {κ ρ : Type} {s : Schema κ ρ} {t : Term κ ρ}

/-- A criterion is on a field that the type does not have, or the hint is neither the key nor an index
of the type. -/
def Rejects (s : Schema κ ρ) (t : Term κ ρ) : Prop :=
  (∃ field ∈ t.criteria.keys, s.hasField field = false) ∨
    ∃ index, t.index = some index ∧ index ≠ keyField ∧ s.hasIndex index = false

/-- What is wrong with a hint. -/
def hintObjection? (s : Schema κ ρ) (hint : Option String) : Option Error :=
  hint.bind fun index =>
    if index = keyField || s.hasIndex index then none else some (.indexNotFound s.typeName index)

/-- What is wrong with a term: the first of its fields that the type does not have, or else the hint.
-/
def objection? (s : Schema κ ρ) (t : Term κ ρ) : Option Error :=
  match t.criteria.keys.find? fun field => !s.hasField field with
  | some field => some (.fieldNotFound s.typeName field)
  | none => s.hintObjection? t.index

theorem hintObjection?_eq_none {hint : Option String} : s.hintObjection? hint = none ↔
    ¬∃ index, hint = some index ∧ index ≠ keyField ∧ s.hasIndex index = false := by
  unfold hintObjection?
  cases hint with
  | none => simp
  | some index => by_cases hkey : index = keyField <;> simp [hkey]

/-- A term is rejected exactly if something is wrong with it. -/
theorem rejects_iff : s.Rejects t ↔ ∃ e, s.objection? t = some e := by
  rw [← Option.ne_none_iff_exists']
  unfold Rejects objection?
  split
  next field hfield =>
    refine iff_of_true (.inl ⟨field, List.mem_of_find?_eq_some hfield, ?_⟩) (Option.some_ne_none _)
    simpa using List.find?_some hfield
  next hnone =>
    have hfields : ¬∃ field ∈ t.criteria.keys, s.hasField field = false := by
      simpa using hnone
    rw [or_iff_right hfields, Ne, hintObjection?_eq_none, not_not]

theorem requireFields_eq (fields : List String) : s.requireFields fields =
    match fields.find? fun field => !s.hasField field with
    | some field => .error (.fieldNotFound s.typeName field)
    | none => .ok () := by
  induction fields with
  | nil => rfl
  | cons field fields ih =>
    rw [requireFields, List.find?_cons, ih]
    cases s.hasField field <;> rfl

end Schema

/-- The terms of a query ahead of the first one that is rejected. -/
def Query.acceptedTerms {κ ρ : Type} (q : Query κ ρ) (s : Schema κ ρ) : List (Term κ ρ) :=
  q.terms.takeWhile fun t => (s.objection? t).isNone

/-- If a term is rejected then the terms are the accepted ones, the first that is rejected, and more.
-/
theorem Query.exists_terms_eq {κ ρ : Type} {q : Query κ ρ} {s : Schema κ ρ}
    (h : ∃ t ∈ q.terms, s.Rejects t) : ∃ t after e, q.terms = q.acceptedTerms s ++ t :: after ∧
      s.objection? t = some e ∧ q.terms.findSome? s.objection? = some e := by
  obtain ⟨bad, hmem, hbad⟩ := h
  obtain ⟨e', he'⟩ := Schema.rejects_iff.mp hbad
  have hsplit := List.takeWhile_append_dropWhile (p := fun t => (s.objection? t).isNone)
    (l := q.terms)
  -- The first rejected term is the one at which the accepted front ends.
  cases hdrop : q.terms.dropWhile fun t => (s.objection? t).isNone with
  | nil =>
    have hall := List.dropWhile_eq_nil_iff.mp hdrop bad hmem
    rw [he'] at hall
    cases hall
  | cons t after =>
    have ht : (s.objection? t).isNone = false := by
      have hhead := List.head_dropWhile_not (fun t => (s.objection? t).isNone)
        (l := q.terms) (by rw [hdrop]; exact List.cons_ne_nil _ _)
      simpa only [hdrop, List.head_cons] using hhead
    rw [hdrop] at hsplit
    cases he : s.objection? t with
    | none =>
      rw [he] at ht
      cases ht
    | some e =>
      refine ⟨t, after, e, hsplit.symm, he, ?_⟩
      have hnone : (q.terms.takeWhile fun t => (s.objection? t).isNone).findSome? s.objection? =
          none := by
        rw [List.findSome?_eq_none_iff]
        intro t' ht'
        simpa using List.mem_takeWhile_imp ht'
      rw [← hsplit, List.findSome?_append, hnone, List.findSome?_cons, he]
      rfl

namespace View

variable {κ ρ : Type} [CustomKind κ] {v : View κ ρ} {t : Term κ ρ} {e : Error}

omit [CustomKind κ] in
/-- A term that nothing is wrong with is checked and planned. -/
theorem checked_of_objection? (h : v.type.schema.objection? t = none) :
    v.checkFields t = .ok () ∧ ∃ plan, v.plan t = .ok plan := by
  unfold Schema.objection? at h
  unfold checkFields plan
  rw [Schema.requireFields_eq]
  split at h
  next => cases h
  next =>
    refine ⟨rfl, ?_⟩
    rw [Schema.hintObjection?_eq_none] at h
    unfold Plan.ofTerm
    cases hindex : t.index with
    | none => exact ⟨_, rfl⟩
    | some index =>
      dsimp only
      split
      next => exact ⟨_, rfl⟩
      next hkey =>
        have hknown : v.type.schema.hasIndex index = true := by
          rw [← Bool.not_eq_false]
          exact fun hunknown => h ⟨index, hindex, hkey, hunknown⟩
        rw [if_pos hknown]
        exact ⟨_, rfl⟩

omit [CustomKind κ] in
/-- What is wrong with a term is found when it is checked or else when it is planned. -/
theorem error_of_objection? (h : v.type.schema.objection? t = some e) :
    v.checkFields t = .error e ∨ v.checkFields t = .ok () ∧ v.plan t = .error e := by
  unfold Schema.objection? at h
  unfold checkFields plan
  rw [Schema.requireFields_eq]
  split at h
  next field =>
    cases h
    exact .inl rfl
  next =>
    refine .inr ⟨rfl, ?_⟩
    obtain ⟨index, hindex, h⟩ := Option.bind_eq_some_iff.mp h
    split at h
    next => cases h
    next hunknown =>
      cases h
      simp only [Bool.or_eq_true, decide_eq_true_eq, not_or] at hunknown
      unfold Plan.ofTerm
      rw [hindex]
      dsimp only
      rw [if_neg hunknown.1, if_neg hunknown.2]

/-- A term that is rejected is answered by the error, and nothing is walked for it. -/
theorem fails_answerTerm {σ : Type} {sink : Sink σ κ ρ} {d : Delivery σ}
    (h : v.type.schema.objection? t = some e) : (v.answerTerm sink t).Fails d e d := by
  unfold answerTerm
  rw [Step.fails_liftExcept_bind]
  rcases error_of_objection? h with hcheck | ⟨hcheck, hplan⟩
  · exact .inl ⟨hcheck, rfl⟩
  · refine .inr ⟨(), hcheck, ?_⟩
    rw [Step.fails_liftExcept_bind]
    exact .inl ⟨hplan, rfl⟩

/-- Terms are answered up to a term, and from there on unless no more rows are wanted. -/
theorem answerTerms_append_eq {σ : Type} (sink : Sink σ κ ρ) (before after : List (Term κ ρ)) :
    v.answerTerms sink (before ++ after) = (do
      match ← v.answerTerms sink before with
      | .enough => pure .enough
      | .more => v.answerTerms sink after) := by
  induction before with
  | nil => rw [List.nil_append, answerTerms, pure_bind]
  | cons t before ih =>
    rw [List.cons_append, answerTerms, answerTerms, bind_assoc]
    refine bind_congr fun demand => ?_
    cases demand with
    | enough => rw [pure_bind]
    | more => exact ih

omit [CustomKind κ] in
/-- With a limit of zero the first thing that is wrong with any term is found. -/
theorem planAll_eq (terms : List (Term κ ρ)) : v.planAll terms =
    match terms.findSome? v.type.schema.objection? with
    | some e => .error e
    | none => .ok () := by
  induction terms with
  | nil => rfl
  | cons t terms ih =>
    rw [planAll, List.findSome?_cons]
    cases hobjection : v.type.schema.objection? t with
    | none =>
      obtain ⟨hcheck, plan, hplan⟩ := checked_of_objection? hobjection
      rw [hcheck, hplan]
      exact ih
    | some e =>
      rcases error_of_objection? hobjection with hcheck | ⟨hcheck, hplan⟩
      · rw [hcheck]
        rfl
      · rw [hcheck, hplan]
        rfl

/-! ## Queries with a rejected term -/

omit [CustomKind κ] in
/-- A delivery that has enough rows has as many as were wanted. -/
theorem length_of_enough : ∀ {rows : List (Row κ ρ)} {d d' : Delivery (List (Row κ ρ))} {n : Nat},
    d.remaining = some (n + 1) → (Delivery.offerAll keepRow rows).Ends d .enough d' →
    d'.inner.length = d.inner.length + (n + 1)
  | [], d, d', n, _, h => by cases (Step.ends_pure.mp h).1
  | row :: rows, d, d', n, hn, h => by
    rw [Delivery.offerAll, Step.ends_bind] at h
    obtain ⟨demand, d₁, hoffer, h⟩ := h
    rw [ends_offer_keepRow] at hoffer
    split at hoffer
    next =>
      obtain ⟨rfl, rfl⟩ := hoffer
      exact length_of_enough (d := { d.mark row.rawKey with skip := d.skip - 1 }) hn h
    next =>
      obtain ⟨rfl, rfl⟩ := hoffer
      rw [hn] at h
      cases n with
      | zero =>
        obtain ⟨-, rfl⟩ := Step.ends_pure.mp h
        rfl
      | succ n =>
        have hlength := length_of_enough (n := n) rfl h
        rw [hlength, List.length_cons]
        omega

variable {q : Query κ ρ} {rows : List (Row κ ρ)}

theorem fails_select {σ : Type} {sink : Sink σ κ ρ} {skip : Nat} {limit : Option Nat} {s : σ}
    {d : Delivery σ} (h : (v.answerTerms sink q.terms).Fails
      ⟨if q.hasBranches then some [] else none, skip, limit, 0, s⟩ e d) :
    (v.select q skip limit sink).Fails s e d.inner := by
  obtain ⟨herror, rfl⟩ := h
  unfold Step.Fails select
  dsimp only
  rw [herror]
  exact ⟨rfl, rfl⟩

/-- The error of the terms is the error of the query. -/
theorem rows_of_fails {d : Delivery (List (Row κ ρ))} (hlimit : q.limit ≠ some 0)
    (h : (v.answerTerms keepRow q.terms).Fails (opening q) e d) : (v.rows q).result = .error e := by
  have hrun : ∃ kept, (v.run q keepRow).Fails [] e kept := by
    unfold opening start at h
    cases hordered : q.isOrdered with
    | true =>
      rw [hordered, if_pos rfl] at h
      rw [run_of_ordered _ hlimit hordered]
      have hcollect : (v.collect q).result = .error e := by
        unfold collect
        dsimp only
        rw [(fails_select h).1]
        rfl
      refine ⟨[], Step.fails_bind.mpr (.inl ⟨hcollect, rfl⟩)⟩
    | false =>
      rw [hordered, if_neg (by simp)] at h
      rw [run_of_unordered _ hlimit hordered]
      exact ⟨d.inner, fails_select h⟩
  obtain ⟨kept, hrun, -⟩ := hrun
  unfold rows
  dsimp only
  rw [hrun]
  rfl

/-- If terms come to a rejected one then the query ends in what is wrong with it. -/
theorem fails_of_accepted {terms after : List (Term κ ρ)} {d d' : Delivery (List (Row κ ρ))}
    (hobjection : v.type.schema.objection? t = some e)
    (h : (v.answerTerms keepRow terms).Ends d .more d') :
    (v.answerTerms keepRow (terms ++ t :: after)).Fails d e d' := by
  rw [answerTerms_append_eq, Step.fails_bind]
  refine .inr ⟨.more, d', h, ?_⟩
  show (v.answerTerms keepRow (t :: after)).Fails d' e d'
  rw [answerTerms, Step.fails_bind]
  exact .inl (fails_answerTerm hobjection)

/-- Terms with a rejected one among them are answered if and only if those ahead of it have enough
rows. -/
theorem ends_of_accepted {terms after : List (Term κ ρ)} {d d' : Delivery (List (Row κ ρ))}
    {demand : Demand} (hobjection : v.type.schema.objection? t = some e) :
    (v.answerTerms keepRow (terms ++ t :: after)).Ends d demand d' ↔
      demand = .enough ∧ (v.answerTerms keepRow terms).Ends d .enough d' := by
  rw [answerTerms_append_eq, Step.ends_bind]
  constructor
  · intro h
    obtain ⟨demand₁, d₁, hterms, h⟩ := h
    cases demand₁ with
    | enough =>
      obtain ⟨rfl, rfl⟩ := Step.ends_pure.mp h
      exact ⟨rfl, hterms⟩
    | more =>
      obtain ⟨demand₂, d₂, hterm, -⟩ := Step.ends_bind.mp h
      have hfails : (v.answerTerm keepRow t).Fails d₁ e d₁ := fails_answerTerm hobjection
      cases hterm.1.symm.trans hfails.1
  · intro h
    obtain ⟨rfl, hterms⟩ := h
    exact ⟨.enough, d', hterms, Step.ends_pure.mpr ⟨rfl, rfl⟩⟩

/-- A query with a rejected term has rows exactly if the terms ahead of it deliver all that are
wanted. -/
theorem rows_of_rejected (h : ∃ t ∈ q.terms, v.type.schema.Rejects t) :
    (v.rows q).result = .ok rows ↔ q.isOrdered = false ∧ ∃ n d, q.limit = some (n + 1) ∧
      (v.answerTerms keepRow (q.acceptedTerms v.type.schema)).Ends (start q q.skip q.limit) .enough d ∧
      d.inner.reverse = rows := by
  obtain ⟨t, after, e, hterms, hobjection, hfirst⟩ := q.exists_terms_eq h
  rw [rows_iff]
  split
  next hzero =>
    rw [planAll_eq, hfirst, hzero]
    simp
  next hlimit =>
    rw [hterms]
    simp only [ends_of_accepted hobjection]
    constructor
    · intro h
      obtain ⟨-, d, ⟨rfl, haccepted⟩, hclosing⟩ := h
      -- With all rows wanted the terms ahead would have been answered to their end.
      have hwants : (opening q).remaining ≠ none := fun hnone =>
        Demand.noConfusion (more_of_answerTerms hnone haccepted)
      unfold opening at haccepted hwants
      unfold closing at hclosing
      by_cases hordered : q.isOrdered = true
      · rw [if_pos hordered] at hwants
        exact absurd rfl hwants
      · rw [if_neg hordered] at haccepted hwants hclosing
        refine ⟨by simpa using hordered, ?_⟩
        cases hn : q.limit with
        | none => exact absurd hn hwants
        | some n =>
          cases n with
          | zero => exact absurd hn hlimit
          | succ n => exact ⟨n, d, rfl, hn ▸ haccepted, Except.ok.inj hclosing⟩
    · intro h
      obtain ⟨hordered, n, d, -, haccepted, hrows⟩ := h
      have hunordered : ¬q.isOrdered = true := by simp [hordered]
      refine ⟨.enough, d, ⟨rfl, ?_⟩, ?_⟩
      · unfold opening
        rw [if_neg hunordered]
        exact haccepted
      · unfold closing
        rw [if_neg hunordered, hrows]

/-- And then it has as many rows as were wanted. -/
theorem length_of_rejected (h : ∃ t ∈ q.terms, v.type.schema.Rejects t)
    (hrows : (v.rows q).result = .ok rows) : q.limit = some rows.length := by
  obtain ⟨-, n, d, hlimit, hterms, rfl⟩ := (rows_of_rejected h).mp hrows
  obtain ⟨offered, hoffered, -⟩ := offers_answerTerms hterms
  have hlength := length_of_enough hlimit hoffered
  rw [hlimit, List.length_reverse, hlength]
  simp [start]

/-- What is wrong with the first rejected term is the error of a query that comes to it. -/
theorem rows_eq_objection (h : q.terms.findSome? v.type.schema.objection? = some e)
    (hcomes : q.limit = some 0 ∨ ∃ d,
      (v.answerTerms keepRow (q.acceptedTerms v.type.schema)).Ends (opening q) .more d) :
    (v.rows q).result = .error e := by
  obtain ⟨bad, hmem, hbad⟩ := List.exists_of_findSome?_eq_some h
  obtain ⟨t, after, e', hterms, hobjection, hfirst⟩ :=
    q.exists_terms_eq ⟨bad, hmem, Schema.rejects_iff.mpr ⟨e, hbad⟩⟩
  cases h.symm.trans hfirst
  by_cases hlimit : q.limit = some 0
  · unfold rows
    rw [run_of_zero _ hlimit, planAll_eq, h]
    rfl
  · obtain ⟨d, hd⟩ := hcomes.resolve_left hlimit
    refine rows_of_fails (d := d) hlimit ?_
    rw [hterms]
    exact fails_of_accepted hobjection hd

end View

namespace Store

variable {κ ρ : Type} [CustomKind κ] {s : Store} {type : RecordType κ ρ} {b : Buckets}

/-- What becomes of a query with a rejected term. It has rows exactly if they are not ordered and the
terms ahead of the first rejected one deliver as many as are wanted, at least one; so it is an error
whatever is stored if it has no limit, a limit of zero or an order, or if its first term is rejected.
If it comes to the first rejected term then the error is what is wrong with that. -/
theorem find_rejected {q : Query κ ρ} (h : ∃ t ∈ q.terms, type.schema.Rejects t) :
    (∀ rows, (s.find type b q).result = .ok rows ↔ q.isOrdered = false ∧ ∃ n d,
      q.limit = some (n + 1) ∧ ((s.view type b).answerTerms View.keepRow
        (q.acceptedTerms type.schema)).Ends (View.start q q.skip q.limit) .enough d ∧
      d.inner.reverse = rows) ∧
    (∀ rows, (s.find type b q).result = .ok rows → q.limit = some rows.length) ∧
    (q.limit = none ∨ q.limit = some 0 ∨ q.isOrdered = true ∨
      type.schema.Rejects q.selection.term → ∃ e, (s.find type b q).result = .error e) ∧
    ∀ e, q.terms.findSome? type.schema.objection? = some e →
      (q.limit = some 0 ∨ ∃ d, ((s.view type b).answerTerms View.keepRow
        (q.acceptedTerms type.schema)).Ends (View.opening q) .more d) →
      (s.find type b q).result = .error e := by
  have hrows : ∀ rows, (s.find type b q).result = .ok rows ↔ q.isOrdered = false ∧ ∃ n d,
      q.limit = some (n + 1) ∧ ((s.view type b).answerTerms View.keepRow
        (q.acceptedTerms type.schema)).Ends (View.start q q.skip q.limit) .enough d ∧
      d.inner.reverse = rows := fun rows => View.rows_of_rejected h
  refine ⟨hrows, fun rows => View.length_of_rejected h, fun hcases => ?_,
    fun e he hcomes => View.rows_eq_objection he hcomes⟩
  cases hresult : (s.find type b q).result with
  | error e => exact ⟨e, rfl⟩
  | ok rows =>
    -- Rows come only without an order, under a limit that the accepted terms meet.
    obtain ⟨hordered, n, d, hlimit, haccepted, -⟩ := (hrows rows).mp hresult
    rcases hcases with hnone | hzero | horder | hfirst
    · rw [hnone] at hlimit
      cases hlimit
    · rw [hzero] at hlimit
      cases hlimit
    · rw [horder] at hordered
      cases hordered
    · -- No term is ahead of the first one, so nothing can have been delivered.
      obtain ⟨e, he⟩ := Schema.rejects_iff.mp hfirst
      have hempty : q.acceptedTerms type.schema = [] := by
        obtain ⟨⟨t, branches⟩, _, _, _, _⟩ := q
        exact List.takeWhile_cons_of_neg (by simp [show type.schema.objection? t = some e from he])
      rw [hempty] at haccepted
      cases (Step.ends_pure.mp haccepted).1

section Parcels

/-- Parcels that are red. They have no colour. -/
def red : Term Empty Bool := Term.all.addCriterion "colour" ⟨.compares .eq (.string "red"), false⟩

/-- All parcels, and those that are red. -/
def allOrRed : Selection Empty Bool := .mk Term.all [.mk red []]

/-- The entry of the heavy parcel. -/
def heavyEntry : Entry := (Keycode.encode (.uint 3 : Value Empty), Text.utf8 "true")

theorem entries_heavyParcel : heavyParcel.entries parcels.name = [heavyEntry] := by
  decide +kernel

/-- The walk over all parcels, in any state. -/
def walkAll (b : Buckets) : Candidates Empty Bool :=
  (standard.view parcels b).candidates (.primaryKey "Parcels") Term.all

theorem expand_heavyEntry (b : Buckets) :
    (walkAll b).expand heavyEntry = .ok (.candidate heavyEntry) := by
  cbv

/-- The heavy parcel is enough if one is wanted. -/
theorem ends_allParcels {b : Buckets} (hrecords : b.entries parcels.name = [heavyEntry]) :
    ((standard.view parcels b).answerTerms View.keepRow [Term.all]).Ends
      ⟨some [], 0, some 1, 0, []⟩ .enough ⟨some [heavyEntry.1], 0, some 0, 1, [heavyRow]⟩ := by
  have hahead : (walkAll b).ahead = [heavyEntry] := hrecords
  have hpending : (walkAll b).pending = [(heavyEntry, false)] := by
    have hstream : (walkAll b).pending = (walkAll b).stream [] (walkAll b).ahead := rfl
    rw [hstream, hahead, Candidates.stream, expand_heavyEntry]
    rfl
  have hsift : ((standard.view parcels b).sift Term.all (.primaryKey "Parcels") View.keepRow
      (walkAll b).pending).Ends ⟨some [], 0, some 1, 0, []⟩ .enough
        ⟨some [heavyEntry.1], 0, some 0, 1, [heavyRow]⟩ := by
    rw [hpending, View.ends_sift_cons]
    refine .inl ⟨?_, rfl⟩
    rw [View.ends_consider, if_neg (by decide)]
    refine ⟨.int 3, true, true, by cbv, by cbv, by cbv, ?_⟩
    rw [if_pos rfl, View.ends_offer_keepRow]
    exact ⟨rfl, rfl⟩
  refine View.ends_answerTerms_singleton.mpr (View.ends_answerTerm.mpr
    ⟨rfl, .primaryKey "Parcels", rfl, ?_⟩)
  have hhas : b.has parcels.name = true :=
    Buckets.has_of_entries (by rw [hrecords]; exact List.cons_ne_nil _ _)
  show if b.has parcels.name = true then _ else _
  rw [if_pos hhas]
  refine View.drain_of_sift (View.sound_records (.inr rfl) rfl).1.orderly ?_ hsift
  show ∀ e ∈ (walkAll b).ahead, (walkAll b).Tells e
  rw [hahead, List.forall_mem_singleton]
  exact ⟨_, expand_heavyEntry b⟩

/-- If one parcel is wanted then it is found ahead of the rejected term; if all are wanted there is an
error. -/
theorem find_rejected_heavyParcel :
    (∃ t ∈ allOrRed.terms, parcels.schema.Rejects t) ∧
      (standard.find parcels heavyParcel ⟨allOrRed, [], false, 0, some 1⟩).result =
        .ok [heavyRow] ∧
      ∃ e, (standard.find parcels heavyParcel (.ofSelection allOrRed)).result = .error e := by
  have hrejects : ∃ t ∈ allOrRed.terms, parcels.schema.Rejects t :=
    ⟨red, by simp [allOrRed, Selection.terms, Selection.branchTerms],
      .inl ⟨"colour", by decide, by decide⟩⟩
  have hends := ends_allParcels entries_heavyParcel
  refine ⟨hrejects, ?_, ?_⟩
  · exact ((find_rejected (q := ⟨allOrRed, [], false, 0, some 1⟩) hrejects).1 _).mpr
      ⟨rfl, 0, _, rfl, hends, rfl⟩
  · exact (find_rejected (q := .ofSelection allOrRed) hrejects).2.2.1 (.inl rfl)

end Parcels

end Store

end RecordStore
