import RecordStore.Proofs.Sinks

/-!
# What an explanation tells

The plans that `explain` lists are those that `find` follows (`explain_find`): each term is planned in
turn and the plan is reported, with the index that it has to do without, before the walk begins. A walk
itself reports nothing but index entries without a record, unless a predicate reports something of its
own, and a query without a limit comes to all its terms. An explanation asks less of a query than its
answer does, as the fields of the criteria need not be declared for it.
-/

namespace RecordStore

/-- What is reported of a plan before it is followed: the scan, and the index that it has to do without. -/
def Plan.reports (typeName : String) (p : Plan) : List Event :=
  .scanPlanned typeName p.scan.name p.bucket ::
    if p.badIndex then [.indexFallback typeName (p.index.getD "")] else []

/-- What a plan reports are plans and fallbacks, nothing else. -/
theorem Plan.filter_reports (typeName : String) (p : Plan) :
    ((p.reports typeName).filter fun event =>
      event.kind = .scanPlanned ∨ event.kind = .indexFallback) = p.reports typeName := by
  unfold reports
  split <;> rfl

namespace Candidates

variable {κ ρ : Type} [CustomKind κ]

/-! ## Walking -/

omit [CustomKind κ] in
/-- Fetching reports keys without a record and nothing else. -/
theorem events_fetch (unchecked : Bool) : ∀ (keys : List Bytes) (c : Candidates κ ρ),
    ∀ event ∈ (c.fetch unchecked keys).2, event = .staleIndexEntry c.dataBucket
  | [], c, event, h => nomatch h
  | key :: keys, c, event, h => by
    by_cases hskip : (c.scan = .sliceIndex && c.emitted.contains key) = true
    · rw [fetch_passed unchecked keys hskip] at h
      exact events_fetch unchecked keys c event h
    · cases hget : (c.counted key).buckets.get? (c.counted key).dataBucket key with
      | none =>
        rw [fetch_missing unchecked keys hskip hget] at h
        rcases List.mem_cons.mp h with rfl | h
        · rw [(fetch_spec unchecked (c.counted key) keys).1.dataBucket]
          rfl
        · exact events_fetch unchecked keys (c.counted key) event h
      | some record =>
        rw [fetch_found unchecked keys hskip hget] at h
        exact events_fetch unchecked keys ((c.counted key).cached unchecked key record) event h

/-- A walk goes on in the same records and reports index entries without a record, nothing else. -/
structure Quiet (c c' : Candidates κ ρ) (events : List Event) : Prop where
  dataBucket : c'.dataBucket = c.dataBucket
  events : ∀ event ∈ events, event = .staleIndexEntry c.dataBucket

omit [CustomKind κ] in
theorem quiet_nil {c c' : Candidates κ ρ} (h : c'.dataBucket = c.dataBucket) : Quiet c c' [] :=
  ⟨h, by simp⟩

theorem quiet_fill : ∀ (ahead : List Entry) (c : Candidates κ ρ),
    Quiet c (c.fill ahead).1 (c.fill ahead).2
  | [], c => quiet_nil rfl
  | e :: rest, c => by
    by_cases hroom : c.cache.length < c.batchSize
    · rw [fill_of_room hroom]
      split
      next => exact quiet_nil rfl
      next e' _ =>
        obtain ⟨hsame, hevents⟩ := quiet_fill rest { c with cache := c.cache ++ [e'] }
        exact ⟨hsame, hevents⟩
      next => exact quiet_fill rest c
      next keys _ =>
        have hfetch := (fetch_spec (c.leavesUnchecked e.1) c keys).1.dataBucket
        obtain ⟨hsame, hevents⟩ := quiet_fill rest (c.fetch (c.leavesUnchecked e.1) keys).1
        rw [hfetch] at hsame hevents
        exact ⟨hsame, List.forall_mem_append.mpr ⟨events_fetch _ keys c, hevents⟩⟩
    · rw [fill, if_neg hroom]
      exact quiet_nil rfl

/-- Handing out a candidate is quiet. -/
theorem quiet_next (c : Candidates κ ρ) : Quiet c c.next.2.1 c.next.2.2 := by
  have hpop : ∀ (c' : Candidates κ ρ) (events : List Event), Quiet c c' events →
      Quiet c (c'.pop events).2.1 (c'.pop events).2.2 := by
    intro c' events h
    unfold pop
    split
    next => exact h
    next => exact ⟨h.dataBucket, h.events⟩
  by_cases herror : c.error.isSome = true
  · rw [next, if_pos herror]
    exact quiet_nil rfl
  rw [next_of_no_error herror]
  split
  next => exact hpop _ _ (quiet_fill c.ahead c)
  next => exact hpop c [] (quiet_nil rfl)

end Candidates

/-! ## Criteria -/

namespace Traced

variable {α β : Type}

theorem events_bind_eq_nil {m : Traced α} {f : α → Traced β} (hm : m.events = [])
    (hf : ∀ a, (f a).events = []) : (m >>= f).events = [] := by
  rcases m with ⟨r, events⟩
  cases r with
  | error e => exact hm
  | ok a => rw [ok_bind, hf, List.append_nil]; exact hm

end Traced

variable {κ ρ : Type} [CustomKind κ]

/-- No criterion is a predicate. -/
def Term.Plain (t : Term κ ρ) : Prop :=
  ∀ entry ∈ t.criteria.toList, ∀ c ∈ entry.2, c.condition.isPredicate = false

/-- Only a predicate reports anything. -/
theorem Criterion.events_allHold (access : Access κ ρ) : ∀ {criteria : List (Criterion κ ρ)},
    (∀ c ∈ criteria, c.condition.isPredicate = false) → (allHold access criteria).events = []
  | [], _ => rfl
  | c :: criteria, h => by
    obtain ⟨hc, hrest⟩ := List.forall_mem_cons.mp h
    refine Traced.events_bind_eq_nil ?_ fun b => ?_
    · cases hcondition : c.condition with
      | satisfies predicate =>
        rw [hcondition] at hc
        cases hc
      | _ => rfl
    · split
      next => rfl
      next => exact events_allHold access hrest

namespace View

variable {v : View κ ρ}

/-- Testing criteria without predicates reports nothing. -/
theorem events_meets (plan : Plan) (key : Value κ) (record : ρ) (recheck : Bool) :
    ∀ {entries : List (String × List (Criterion κ ρ))},
      (∀ entry ∈ entries, ∀ c ∈ entry.2, c.condition.isPredicate = false) →
      (v.meets plan key record recheck entries).events = []
  | [], _ => rfl
  | (field, criteria) :: rest, h => by
    obtain ⟨hcriteria, hrest⟩ := List.forall_mem_cons.mp h
    have hquiet := events_meets plan key record recheck hrest
    unfold meets
    split
    next => exact hquiet
    next =>
      refine Traced.events_bind_eq_nil rfl fun value => ?_
      refine Traced.events_bind_eq_nil (Criterion.events_allHold _ hcriteria) fun b => ?_
      split
      next => exact hquiet
      next => rfl

/-! ## Terms -/

section Terms

variable {σ : Type} {sink : Sink σ κ ρ} {t : Term κ ρ} {plan : Plan} {P : Event → Prop}

omit [CustomKind κ] in
/-- An offer reports what its sink does. -/
theorem reports_offer (hsink : ∀ row, (sink row).Reports P) (row : Row κ ρ) :
    (Delivery.offer sink row).Reports P := by
  intro d e he
  have hrow := hsink row d.inner e
  unfold Step.events Delivery.offer at he
  dsimp only [Delivery.mark] at he
  split at he
  next => cases he
  next => split at he <;> exact hrow he

omit [CustomKind κ] in
theorem reports_keepRow (row : Row κ ρ) : (keepRow row).Reports P := fun _ _ h => nomatch h

/-- Going through candidates reports index entries without a record and nothing else. -/
theorem reports_drain (ht : t.Plain) {name : String} :
    ∀ (c : Candidates κ ρ), c.dataBucket = name →
      (v.drain t plan keepRow c).Reports (· = .staleIndexEntry name)
  | c, hc => by
    -- The induction is on what is left to walk, which stays in the same records.
    have hnext := c.quiet_next
    rw [drain]
    split
    next c' events heq =>
      rw [heq] at hnext
      refine (Step.reports_liftTraced (hc ▸ hnext.events)).bind fun _ => ?_
      split
      next => exact Step.reports_fail _
      next => exact Step.reports_pure _
    next rawKey bytes c' events heq =>
      rw [heq] at hnext
      have hdecreases := Candidates.next_decreases heq
      have hc' : c'.dataBucket = name := hnext.dataBucket.trans hc
      refine (Step.reports_liftTraced (hc ▸ hnext.events)).bind fun _ => ?_
      refine Step.reports_get.bind fun d => ?_
      split
      next => exact reports_drain ht c' hc'
      next =>
        refine (Step.reports_liftExcept _).bind fun key => ?_
        refine (Step.reports_liftExcept _).bind fun record => ?_
        have hmeets := v.events_meets plan key record (c'.takeUnchecked rawKey).1 ht
        refine (Step.reports_liftTraced (by simp [hmeets])).bind fun met => ?_
        split
        next =>
          refine (reports_offer reports_keepRow _).bind fun demand => ?_
          split
          next => exact Step.reports_pure _
          next => exact reports_drain ht (c'.takeUnchecked rawKey).2 hc'
        next => exact reports_drain ht (c'.takeUnchecked rawKey).2 hc'
  termination_by c => (c.ahead.length, c.cache.length)
  decreasing_by all_goals exact hdecreases

/-- A term reports its plan, and then the index entries without a record that it comes across. -/
theorem events_answerTerm (ht : t.Plain) {d d' : Delivery (List (Row κ ρ))} {demand : Demand}
    (h : (v.answerTerm keepRow t).Ends d demand d') :
    ∃ plan stale, v.plan t = .ok plan ∧ (v.answerTerm keepRow t).events d =
      plan.reports v.typeName ++ List.replicate stale (.staleIndexEntry v.typeName) := by
  obtain ⟨hcheck, plan, hplan, -⟩ := ends_answerTerm.mp h
  -- What is reported of the walk, if there is anything to walk.
  obtain ⟨stale, hwalk⟩ : ∃ stale, (if v.buckets.has v.typeName then
      v.drain t plan keepRow (v.candidates plan t) else pure .more).events d =
        List.replicate stale (.staleIndexEntry v.typeName) := by
    split
    next => exact ⟨_, List.eq_replicate_of_mem (reports_drain ht (v.candidates plan t) rfl d)⟩
    next => exact ⟨0, rfl⟩
  refine ⟨plan, stale, hplan, ?_⟩
  unfold answerTerm
  rw [Step.events_bind_of_ends (Step.ends_liftExcept.mpr ⟨hcheck, rfl⟩),
    Step.events_bind_of_ends (Step.ends_liftExcept.mpr ⟨hplan, rfl⟩),
    Step.events_bind_of_ends (Step.ends_liftTraced (m := .report _).mpr ⟨rfl, rfl⟩)]
  unfold Plan.reports
  by_cases hbad : plan.badIndex = true
  · rw [if_pos hbad, if_pos hbad,
      Step.events_bind_of_ends (Step.ends_liftTraced (m := .report _).mpr ⟨rfl, rfl⟩), hwalk]
    rfl
  · rw [if_neg hbad, if_neg hbad, hwalk]
    rfl

/-- Terms that are answered to the end report each in turn. -/
theorem events_answerTerms : ∀ {terms : List (Term κ ρ)} {d d' : Delivery (List (Row κ ρ))},
    (∀ t ∈ terms, t.Plain) → (v.answerTerms keepRow terms).Ends d .more d' →
    ∃ walks : List (Plan × Nat), terms.mapM v.plan = .ok (walks.map (·.1)) ∧
      (v.answerTerms keepRow terms).events d = walks.flatMap fun walk =>
        walk.1.reports v.typeName ++ List.replicate walk.2 (.staleIndexEntry v.typeName)
  | [], d, d', _, _ => ⟨[], rfl, rfl⟩
  | t :: terms, d, d', hplain, h => by
    obtain ⟨ht, hterms⟩ := List.forall_mem_cons.mp hplain
    rw [answerTerms, Step.ends_bind] at h
    obtain ⟨demand, d₁, hterm, h⟩ := h
    cases demand with
    | enough => cases (Step.ends_pure.mp h).1
    | more =>
      obtain ⟨plan, stale, hplan, hfirst⟩ := events_answerTerm ht hterm
      obtain ⟨walks, hplans, hrest⟩ := events_answerTerms hterms h
      refine ⟨(plan, stale) :: walks, ?_, ?_⟩
      · rw [List.mapM_cons, hplan, hplans]
        rfl
      · rw [answerTerms, Step.events_bind_of_ends hterm, hfirst, List.flatMap_cons]
        exact congrArg (_ ++ ·) hrest

omit [CustomKind κ] in
/-- Keeping rows reports nothing. -/
theorem events_deliver_keepRow (rows kept : List (Row κ ρ)) :
    (deliver keepRow rows).events kept = [] := by
  have hreports : ∀ rows : List (Row κ ρ), (deliver keepRow rows).Reports fun _ => False := by
    intro rows
    induction rows with
    | nil => exact Step.reports_pure 0
    | cons row rows ih =>
      refine (reports_keepRow row).bind fun demand => ?_
      cases demand with
      | enough => exact Step.reports_pure 1
      | more => exact ih.bind fun n => Step.reports_pure _
  exact List.eq_nil_iff_forall_not_mem.mpr (hreports rows kept)

/-- A query that has rows reports what its terms do, whether the rows are collected first or not. -/
theorem events_rows {q : Query κ ρ} {rows : List (Row κ ρ)} (hwanted : q.limit ≠ some 0)
    (h : (v.rows q).result = .ok rows) :
    (v.rows q).events = (v.answerTerms keepRow q.terms).events (opening q) := by
  obtain ⟨n, kept, hrun, -⟩ := rows_eq_ok.mp h
  show (v.run q keepRow).events [] = _
  unfold opening
  cases hordered : q.isOrdered with
  | true =>
    rw [run_of_ordered _ hwanted hordered] at hrun ⊢
    obtain ⟨found, hfound, hsort⟩ := Step.ends_liftTraced_bind.mp hrun
    obtain ⟨sorted, hsorted, -⟩ := Step.ends_liftExcept_bind.mp hsort
    rw [Step.events_bind_of_ends (Step.ends_liftTraced.mpr ⟨hfound, rfl⟩),
      Step.events_bind_of_ends (Step.ends_liftExcept.mpr ⟨hsorted, rfl⟩), events_deliver_keepRow]
    -- Neither the sorting nor the rows that are kept report anything.
    show (v.answerTerms keepRow q.terms).events (start q 0 none) ++ ([] ++ []) = _
    rw [List.append_nil, List.append_nil]
    rfl
  | false =>
    rw [run_of_unordered _ hwanted hordered]
    rfl

/-- A query without a limit reports its terms, each in turn. -/
theorem events_rows_unlimited {q : Query κ ρ} {rows : List (Row κ ρ)} (hlimit : q.limit = none)
    (hplain : ∀ t ∈ q.terms, t.Plain) (h : (v.rows q).result = .ok rows) :
    ∃ walks : List (Plan × Nat), q.terms.mapM v.plan = .ok (walks.map (·.1)) ∧
      (v.rows q).events = walks.flatMap fun walk =>
        walk.1.reports v.typeName ++ List.replicate walk.2 (.staleIndexEntry v.typeName) := by
  have hwanted : q.limit ≠ some 0 := by simp [hlimit]
  have hrows := rows_iff.mp h
  rw [if_neg hwanted] at hrows
  obtain ⟨demand, d, hterms, -⟩ := hrows
  cases more_of_answerTerms (remaining_opening (.inr hlimit)) hterms
  rw [events_rows hwanted h]
  exact events_answerTerms hplain hterms

end Terms

end View

namespace Store

variable {s : Store} {t : RecordType κ ρ} {b : Buckets}

/-- An explanation lists the plans of all terms. -/
theorem explain_iff {q : Query κ ρ} {e : Explanation} :
    s.explain t b q = .ok e ↔
      q.terms.mapM (s.view t b).plan = .ok e.scans ∧ e.query = q.text ∧ e.ordered = q.isOrdered := by
  show (q.terms.mapM (s.view t b).plan).map _ = _ ↔ _
  cases q.terms.mapM (s.view t b).plan with
  | error error =>
    constructor
    · rintro ⟨⟩
    · rintro ⟨⟨⟩, -⟩
  | ok scans =>
    constructor
    · intro h
      cases h
      exact ⟨rfl, rfl, rfl⟩
    · rintro ⟨hscans, hquery, hordered⟩
      cases e
      cases hscans
      cases hquery
      cases hordered
      rfl

/-- Let `find` answer a query that has neither predicates nor a limit. Then `explain` lists the plans that
`find` has reported, in order, each followed at once by the report of the index that it had to do
without, if there is one. Beyond that only index entries without a record are reported, and how the query
ended. -/
theorem explain_find {q : Query κ ρ} {rows : List (Row κ ρ)} (hlimit : q.limit = none)
    (hplain : ∀ term ∈ q.terms, term.Plain) (hrows : (s.find t b q).result = .ok rows) :
    ∃ e, s.explain t b q = .ok e ∧
      ((s.find t b q).events.filter fun event =>
        event.kind = .scanPlanned ∨ event.kind = .indexFallback) =
          e.scans.flatMap (Plan.reports t.name) ∧
      ∃ walks : List (Plan × Nat), e.scans = walks.map (·.1) ∧
        (s.find t b q).events = (walks.flatMap fun walk =>
          walk.1.reports t.name ++ List.replicate walk.2 (.staleIndexEntry t.name)) ++
            [.queryComplete rows.length q.text] := by
  obtain ⟨walks, hplans, hevents⟩ := View.events_rows_unlimited (v := s.view t b) hlimit hplain hrows
  -- Behind what the walks report there is the end of the query.
  have hfind : (s.find t b q).events = (walks.flatMap fun walk =>
      walk.1.reports t.name ++ List.replicate walk.2 (.staleIndexEntry t.name)) ++
        [.queryComplete rows.length q.text] := by
    show ((s.view t b).rows q).events ++ outcome q List.length ((s.view t b).rows q).result = _
    rw [show ((s.view t b).rows q).result = .ok rows from hrows, hevents]
    rfl
  refine ⟨⟨q.text, walks.map (·.1), q.isOrdered⟩, ?_, ?_, walks, rfl, hfind⟩
  · exact explain_iff.mpr ⟨hplans, rfl, rfl⟩
  · -- Of what `find` reports only the plans are of these kinds.
    have hwalk : ∀ walk : Plan × Nat, ((walk.1.reports t.name ++
        List.replicate walk.2 (Event.staleIndexEntry t.name)).filter fun event =>
          event.kind = .scanPlanned ∨ event.kind = .indexFallback) = walk.1.reports t.name := by
      intro walk
      rw [List.filter_append, Plan.filter_reports, List.filter_replicate, if_neg (by simp [Event.kind]),
        List.append_nil]
    rw [hfind, List.filter_append, List.filter_flatMap, List.flatMap_map]
    simp only [hwalk]
    exact List.append_nil _

section Parcels

/-- All parcels, by the index on their sizes. As no size is asked for, that index cannot serve. -/
def allBySizes : Term Empty Bool := { Term.all with index := some "sizes" }

/-- The search by sizes falls back to a full scan. -/
theorem plan_allBySizes (b : Buckets) :
    (standard.view parcels b).plan allBySizes = .ok (.fallback "Parcels" "sizes") := by
  show Except.ok (if !b.has "_index:Parcels:sizes" then _ else _) = _
  split <;> rfl

theorem exists_bySizes {b : Buckets}
    (hrecords : b.entries parcels.name = twoParcels.entries parcels.name) : ∃ rows,
    (standard.find parcels b (.ofSelection (.mk allBySizes []))).result = .ok rows := by
  rw [entries_twoParcels] at hrecords
  refine View.exists_rows (v := standard.view parcels b) (by cbv) (plan_allBySizes b)
    (View.sound_records (.inl rfl) rfl) ?_ ?_
  · show ∀ e ∈ b.entries parcels.name, _
    simp only [hrecords, List.forall_mem_cons]
    exact ⟨⟨_, by cbv⟩, ⟨_, by cbv⟩, by simp⟩
  · show ∀ e ∈ b.entries parcels.name, _
    simp only [hrecords, List.forall_mem_cons, Bool.forall_bool]
    exact ⟨⟨⟨_, by cbv⟩, ⟨_, by cbv⟩⟩, ⟨⟨_, by cbv⟩, ⟨_, by cbv⟩⟩, by simp⟩

/-- Of two alternatives the second has to do without the index that it asks for, and says so. -/
theorem explain_find_halfWeighed : ∃ rows e,
    (standard.find parcels halfWeighed
      (.ofSelection (.mk allByWeight [.mk allBySizes []]))).result = .ok rows ∧
    standard.explain parcels halfWeighed (.ofSelection (.mk allByWeight [.mk allBySizes []])) = .ok e ∧
    e.scans = [⟨.index, "_index:Parcels:weight", some "weight", some "weight", false⟩,
      .fallback "Parcels" "sizes"] ∧
    ((standard.find parcels halfWeighed
        (.ofSelection (.mk allByWeight [.mk allBySizes []]))).events.filter fun event =>
      event.kind = .scanPlanned ∨ event.kind = .indexFallback) =
        [.scanPlanned "Parcels" "INDEX_SCAN" "_index:Parcels:weight",
          .scanPlanned "Parcels" "FULL_SCAN" "Parcels", .indexFallback "Parcels" "sizes"] := by
  obtain ⟨byWeight, hbyWeight⟩ := exists_byWeight_halfWeighed
  obtain ⟨bySizes, hbySizes⟩ := exists_bySizes entries_halfWeighed
  have hbranches : (Selection.mk allByWeight [.mk allBySizes []]).branches ≠ [] :=
    List.cons_ne_nil _ _
  obtain ⟨rows, hrows⟩ : ∃ rows, (standard.find parcels halfWeighed
      (.ofSelection (.mk allByWeight [.mk allBySizes []]))).result = .ok rows :=
    ⟨_, View.rows_alternatives hbranches (.cons hbyWeight (.cons hbySizes .nil))⟩
  have hplain : ∀ term ∈ [allByWeight, allBySizes], term.Plain := by
    simp only [List.forall_mem_cons]
    exact ⟨by rintro _ ⟨⟩, by rintro _ ⟨⟩, by simp⟩
  obtain ⟨e, hexplain, hreported, -⟩ := explain_find (s := standard) rfl hplain hrows
  have hhas : halfWeighed.has "_index:Parcels:weight" = true :=
    Buckets.has_of_entries (by simp [weights_halfWeighed])
  have hplans : [allByWeight, allBySizes].mapM (standard.view parcels halfWeighed).plan =
      .ok [⟨.index, "_index:Parcels:weight", some "weight", some "weight", false⟩,
        .fallback "Parcels" "sizes"] := by
    rw [List.mapM_cons, plan_allByWeight hhas, List.mapM_cons, plan_allBySizes]
    rfl
  have hscans : e.scans = [⟨.index, "_index:Parcels:weight", some "weight", some "weight", false⟩,
      .fallback "Parcels" "sizes"] :=
    Except.ok.inj ((explain_iff.mp hexplain).1.symm.trans hplans)
  rw [hscans] at hreported
  exact ⟨rows, e, hrows, hexplain, hscans, hreported⟩

end Parcels

end Store

end RecordStore
