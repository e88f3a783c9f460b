import RecordStore.Proofs.Removal

/-!
# Alternatives by first match

A query with alternatives answers one term after the other and passes over every key it has selected
before. What a term then adds is what it finds alone, less the rows whose keys were there already
(`found_drain`): passing over a candidate changes nothing for candidates of other keys, not even which
of them an index has marked to be checked, and only spares evaluations, so a term that succeeds alone
succeeds here too. The rows of the query are those of its terms one after the other, each key where it
comes first (`find_alternatives`). Nothing is asked of the indexes for this: their entries may be
stale, leave records out or list a key twice.
-/

namespace RecordStore

namespace Candidates

variable {κ ρ : Type} [CustomKind κ]

/-! ## Marks

Which candidates a walk yields, and which keys it marks on the way, does not depend on the marks that
are there. -/

/-- The walk with other marks. -/
def withMarks (c : Candidates κ ρ) (marks : List Bytes) : Candidates κ ρ :=
  { c with unchecked := marks }

section Fetching

variable {c : Candidates κ ρ} {key record : Bytes} (unchecked : Bool) (keys : List Bytes)

/-- The walk after a key was met that a slice index counts as yielded from then on. -/
def counted (c : Candidates κ ρ) (key : Bytes) : Candidates κ ρ :=
  { c with emitted := if c.scan = .sliceIndex then key :: c.emitted else c.emitted }

/-- The walk after a record was fetched, with its mark if it is to be checked. -/
def cached (c : Candidates κ ρ) (unchecked : Bool) (key record : Bytes) : Candidates κ ρ :=
  { c with
    cache := c.cache ++ [(key, record)],
    unchecked := if unchecked then key :: c.unchecked else c.unchecked }

omit [CustomKind κ] in
/-- A key that a slice index has yielded before is passed over. -/
theorem fetch_passed
    (h : (c.scan = .sliceIndex && c.emitted.contains key) = true) :
    c.fetch unchecked (key :: keys) = c.fetch unchecked keys :=
  if_pos h

omit [CustomKind κ] in
theorem counted_eq : c.counted key =
    if c.scan = .sliceIndex then { c with emitted := key :: c.emitted } else c := by
  unfold counted
  split <;> rfl

omit [CustomKind κ] in
theorem fetch_found
    (h : ¬(c.scan = .sliceIndex && c.emitted.contains key) = true)
    (hget : (c.counted key).buckets.get? (c.counted key).dataBucket key = some record) :
    c.fetch unchecked (key :: keys) =
      ((c.counted key).cached unchecked key record).fetch unchecked keys := by
  rw [fetch, if_neg h, ← counted_eq]
  dsimp only
  rw [hget]
  rfl

omit [CustomKind κ] in
/-- A key without a record is reported as stale and yields nothing. -/
theorem fetch_missing
    (h : ¬(c.scan = .sliceIndex && c.emitted.contains key) = true)
    (hget : (c.counted key).buckets.get? (c.counted key).dataBucket key = none) :
    c.fetch unchecked (key :: keys) = (((c.counted key).fetch unchecked keys).1,
      .staleIndexEntry ((c.counted key).fetch unchecked keys).1.dataBucket ::
        ((c.counted key).fetch unchecked keys).2) := by
  rw [fetch, if_neg h, ← counted_eq]
  dsimp only
  rw [hget]

omit [CustomKind κ] in
/-- Fetching adds the same marks whichever are there. -/
theorem fetch_withMarks (unchecked : Bool) : ∀ (keys : List Bytes) (c : Candidates κ ρ),
    ∃ added, ∀ marks, (c.withMarks marks).fetch unchecked keys =
      ((c.fetch unchecked keys).1.withMarks (added ++ marks), (c.fetch unchecked keys).2)
  | [], c => ⟨[], fun _ => rfl⟩
  | key :: keys, c => by
    by_cases hskip : (c.scan = .sliceIndex && c.emitted.contains key) = true
    · obtain ⟨added, h⟩ := fetch_withMarks unchecked keys c
      refine ⟨added, fun marks => ?_⟩
      rw [fetch_passed unchecked keys hskip, ← h marks]
      exact fetch_passed unchecked keys hskip
    · cases hget : (c.counted key).buckets.get? (c.counted key).dataBucket key with
      | none =>
        obtain ⟨added, h⟩ := fetch_withMarks unchecked keys (c.counted key)
        refine ⟨added, fun marks => ?_⟩
        have hstep := fetch_missing (c := c.withMarks marks) unchecked keys hskip hget
        have hsame : (c.withMarks marks).counted key = (c.counted key).withMarks marks := rfl
        rw [hstep, fetch_missing unchecked keys hskip hget, hsame, h marks]
        rfl
      | some record =>
        obtain ⟨added, h⟩ := fetch_withMarks unchecked keys ((c.counted key).cached unchecked key record)
        refine ⟨added ++ if unchecked then [key] else [], fun marks => ?_⟩
        have hstep := fetch_found (c := c.withMarks marks) unchecked keys hskip hget
        have hsame : ((c.withMarks marks).counted key).cached unchecked key record =
            ((c.counted key).cached unchecked key record).withMarks
              ((if unchecked then [key] else []) ++ marks) := by
          cases unchecked <;> rfl
        rw [hstep, fetch_found unchecked keys hskip hget, hsame, h, List.append_assoc]

end Fetching

/-- While the batch has room the next entry is taken in. -/
theorem fill_of_room {c : Candidates κ ρ} {e : Entry} {rest : List Entry}
    (h : c.cache.length < c.batchSize) :
    c.fill (e :: rest) = match c.expand e with
      | .error err => ({ c with ahead := rest, cache := [], error := some err }, [])
      | .ok (.candidate e) => { c with cache := c.cache ++ [e] }.fill rest
      | .ok .nothing => c.fill rest
      | .ok (.keys keys) =>
        let (c, events) := c.fetch (c.leavesUnchecked e.1) keys
        let (c, more) := c.fill rest
        (c, events ++ more) := by
  rw [fill]
  exact if_pos h

theorem expand_withMarks (c : Candidates κ ρ) (marks : List Bytes) (e : Entry) :
    (c.withMarks marks).expand e = c.expand e :=
  rfl

/-- Filling the cache adds the same marks whichever are there. -/
theorem fill_withMarks : ∀ (ahead : List Entry) (c : Candidates κ ρ),
    ∃ added, ∀ marks, (c.withMarks marks).fill ahead =
      ((c.fill ahead).1.withMarks (added ++ marks), (c.fill ahead).2)
  | [], c => ⟨[], fun _ => rfl⟩
  | e :: rest, c => by
    by_cases hroom : c.cache.length < c.batchSize
    -- What is taken in does not depend on the marks; only index keys add some.
    · cases hx : c.expand e with
      | error err =>
        refine ⟨[], fun marks => ?_⟩
        rw [fill_of_room hroom, fill_of_room (c := c.withMarks marks) hroom, expand_withMarks, hx]
        rfl
      | ok x =>
        cases x with
        | candidate e' =>
          obtain ⟨added, h⟩ := fill_withMarks rest { c with cache := c.cache ++ [e'] }
          refine ⟨added, fun marks => ?_⟩
          rw [fill_of_room hroom, fill_of_room (c := c.withMarks marks) hroom, expand_withMarks, hx]
          exact h marks
        | nothing =>
          obtain ⟨added, h⟩ := fill_withMarks rest c
          refine ⟨added, fun marks => ?_⟩
          rw [fill_of_room hroom, fill_of_room (c := c.withMarks marks) hroom, expand_withMarks, hx]
          exact h marks
        | keys keys =>
          obtain ⟨fetched, hfetch⟩ := fetch_withMarks (c.leavesUnchecked e.1) keys c
          obtain ⟨added, h⟩ := fill_withMarks rest (c.fetch (c.leavesUnchecked e.1) keys).1
          refine ⟨added ++ fetched, fun marks => ?_⟩
          have hleaves : (c.withMarks marks).leavesUnchecked e.1 = c.leavesUnchecked e.1 := rfl
          rw [fill_of_room hroom, fill_of_room (c := c.withMarks marks) hroom, expand_withMarks, hx]
          dsimp only
          rw [hleaves, hfetch marks, h, List.append_assoc]
    · refine ⟨[], fun marks => ?_⟩
      rw [fill, fill, if_neg hroom]
      exact if_neg hroom

/-- The first candidate that was fetched, taken off the walk. -/
def pop (c : Candidates κ ρ) (events : List Event) : Option Entry × Candidates κ ρ × List Event :=
  match c.cache with
  | [] => (none, c, events)
  | e :: rest => (some e, { c with cache := rest }, events)

/-- A walk without an error fills its cache when it is empty, and hands out the first of it. -/
theorem next_of_no_error {c : Candidates κ ρ} (h : ¬c.error.isSome = true) :
    c.next = if c.cache.isEmpty then (c.fill c.ahead).1.pop (c.fill c.ahead).2 else c.pop [] := by
  rw [next, if_neg h]
  by_cases hempty : c.cache.isEmpty = true
  · rw [if_pos hempty, if_pos hempty]
    rfl
  · rw [if_neg hempty, if_neg hempty]
    rfl

omit [CustomKind κ] in
theorem pop_withMarks (c : Candidates κ ρ) (marks : List Bytes) (events : List Event) :
    (c.withMarks marks).pop events =
      ((c.pop events).1, (c.pop events).2.1.withMarks marks, (c.pop events).2.2) := by
  obtain ⟨_, _, _, _, _, _, _, cache, _, _, _⟩ := c
  cases cache <;> rfl

/-- And so does yielding a candidate. -/
theorem next_withMarks (c : Candidates κ ρ) : ∃ added, ∀ marks, (c.withMarks marks).next =
    (c.next.1, c.next.2.1.withMarks (added ++ marks), c.next.2.2) := by
  by_cases herror : c.error.isSome = true
  · refine ⟨[], fun marks => ?_⟩
    rw [next, next, if_pos herror]
    exact if_pos herror
  · by_cases hempty : c.cache.isEmpty = true
    · obtain ⟨added, h⟩ := fill_withMarks c.ahead c
      refine ⟨added, fun marks => ?_⟩
      rw [next_of_no_error herror, if_pos hempty,
        next_of_no_error (c := c.withMarks marks) herror, ← pop_withMarks]
      refine (if_pos hempty).trans ?_
      show ((c.withMarks marks).fill c.ahead).1.pop _ = _
      rw [show (c.withMarks marks).ahead = c.ahead from rfl, h marks]
    · refine ⟨[], fun marks => ?_⟩
      rw [next_of_no_error herror, if_neg hempty,
        next_of_no_error (c := c.withMarks marks) herror, ← pop_withMarks]
      exact if_neg hempty

omit [CustomKind κ] in
/-- Taking a mark leaves those on the other keys. -/
theorem mem_takeUnchecked {c : Candidates κ ρ} {key key' : Bytes} :
    key ∈ (c.takeUnchecked key').2.unchecked ↔ key ∈ c.unchecked ∧ key ≠ key' := by
  show key ∈ c.unchecked.filter (· != key') ↔ _
  rw [List.mem_filter, bne_iff_ne]

omit [CustomKind κ] in
/-- A key is found marked exactly if there is a mark on it. -/
theorem takeUnchecked_fst {c : Candidates κ ρ} {key : Bytes} :
    (c.takeUnchecked key).1 = true ↔ key ∈ c.unchecked :=
  List.contains_iff_mem

end Candidates

namespace Delivery

variable {κ ρ : Type} {d : Delivery (List (Row κ ρ))}

/-! ## Taking rows -/

theorem TakesAll.foldl_take : ∀ (rows : List (Row κ ρ)) {d : Delivery (List (Row κ ρ))},
    d.TakesAll → (rows.foldl Delivery.take d).TakesAll
  | [], _, hd => hd
  | row :: rows, _, hd => foldl_take rows (hd.take row)

theorem hasSeen_foldl_take {key : Bytes} : ∀ (rows : List (Row κ ρ))
    {d : Delivery (List (Row κ ρ))}, d.hasSeen key = true →
      (rows.foldl take d).hasSeen key = true
  | [], _, h => h
  | _ :: rows, _, h => hasSeen_foldl_take rows (hasSeen_take h)

/-- Without keys in mind every row is taken. -/
theorem foldl_take_of_none : ∀ (rows : List (Row κ ρ)) {d : Delivery (List (Row κ ρ))},
    d.seen = none → (rows.foldl take d).seen = none ∧
      (rows.foldl take d).inner = rows.reverse ++ d.inner
  | [], d, h => ⟨h, rfl⟩
  | row :: rows, d, h => by
    have htake : d.take row =
        { d with delivered := d.delivered + 1, inner := row :: d.inner } := by
      unfold take mark
      rw [if_neg (by simp [hasSeen_of_none h]), h]
      rfl
    obtain ⟨hseen, hinner⟩ := foldl_take_of_none rows (d := d.take row) (by rw [htake]; exact h)
    rw [List.foldl_cons]
    refine ⟨hseen, ?_⟩
    rw [hinner, htake, List.reverse_cons, List.append_assoc]
    rfl

/-- If the keys in mind are those of the rows then each key is taken where it comes first. -/
theorem foldl_take_of_seen : ∀ (rows : List (Row κ ρ)) {d : Delivery (List (Row κ ρ))},
    d.seen = some (d.inner.map (·.rawKey)) →
      (rows.foldl take d).inner.reverse =
        List.eraseDupsBy.loop (fun a b => a.rawKey == b.rawKey) rows d.inner
  | [], d, h => rfl
  | row :: rows, d, h => by
    have hseen : d.hasSeen row.rawKey = d.inner.any (row.rawKey == ·.rawKey) := by
      unfold hasSeen
      rw [h, Option.any_some, List.contains_eq_any_beq, List.any_map]
      rfl
    rw [List.foldl_cons, List.eraseDupsBy.loop, ← hseen]
    unfold take
    cases d.hasSeen row.rawKey with
    | true =>
      rw [if_pos rfl]
      exact foldl_take_of_seen rows h
    | false =>
      rw [if_neg Bool.false_ne_true]
      refine foldl_take_of_seen rows ?_
      unfold mark
      rw [h]
      rfl

/-! ## Marks on keys that were not seen -/

/-- Two lists of marks agree on the keys that were not seen. -/
def SameMarks (d : Delivery (List (Row κ ρ))) (marks marks' : List Bytes) : Prop :=
  ∀ key, d.hasSeen key = false → (key ∈ marks ↔ key ∈ marks')

namespace SameMarks

variable {c : Candidates κ ρ} {key : Bytes} {marks marks' : List Bytes}

theorem append (h : d.SameMarks marks marks') (added : List Bytes) :
    d.SameMarks (added ++ marks) (added ++ marks') := by
  intro key hkey
  rw [List.mem_append, List.mem_append, h key hkey]

/-- More keys are seen after rows were taken. -/
theorem foldl_take (h : d.SameMarks marks marks') (rows : List (Row κ ρ)) :
    (rows.foldl take d).SameMarks marks marks' := by
  intro key hkey
  refine h key (Bool.eq_false_iff.mpr fun hseen => ?_)
  rw [hasSeen_foldl_take rows hseen] at hkey
  cases hkey

/-- Whether a candidate is to be checked, if its key was not seen. -/
theorem takeUnchecked_eq (h : d.SameMarks marks c.unchecked) (hkey : d.hasSeen key = false) :
    ((c.withMarks marks).takeUnchecked key).1 = (c.takeUnchecked key).1 := by
  rw [Bool.eq_iff_iff, Candidates.takeUnchecked_fst, Candidates.takeUnchecked_fst]
  exact h key hkey

/-- Marks that agree still do when one is taken from both. -/
theorem takeUnchecked (h : d.SameMarks marks c.unchecked) (key : Bytes) :
    d.SameMarks ((c.withMarks marks).takeUnchecked key).2.unchecked
      (c.takeUnchecked key).2.unchecked := by
  intro key' hkey'
  rw [Candidates.mem_takeUnchecked, Candidates.mem_takeUnchecked]
  exact and_congr_left' (h key' hkey')

/-- A candidate that is passed over keeps its mark. -/
theorem passOver (h : d.SameMarks marks c.unchecked) (hseen : d.hasSeen key = true) :
    d.SameMarks marks (c.takeUnchecked key).2.unchecked := by
  intro key' hkey'
  have hne : key' ≠ key := by
    rintro rfl
    rw [hseen] at hkey'
    cases hkey'
  rw [Candidates.mem_takeUnchecked, and_iff_left hne]
  exact h key' hkey'

end SameMarks

end Delivery

namespace View

variable {κ ρ : Type} [CustomKind κ] {v : View κ ρ} {t : Term κ ρ} {plan : Plan}

/-! ## One term after the other -/

/-- What a term finds alone is what it adds to any delivery, less the rows whose keys were seen. Marks
may differ on keys that were seen. -/
theorem found_drain : ∀ {c : Candidates κ ρ} {d d' : Delivery (List (Row κ ρ))} {demand : Demand},
    d.TakesAll → d.seen = none → (v.drain t plan keepRow c).Ends d demand d' →
    ∃ found : List (Row κ ρ), d' = found.foldl Delivery.take d ∧
      ∀ {d₂ : Delivery (List (Row κ ρ))} {marks : List Bytes}, d₂.TakesAll →
        d₂.SameMarks marks c.unchecked →
        (v.drain t plan keepRow (c.withMarks marks)).Ends d₂ .more (found.foldl Delivery.take d₂)
  | c, d, d', demand, hd, hnone, h => by
    obtain ⟨added, hmarked⟩ := c.next_withMarks
    match hnext : c.next with
    | (none, c', events) =>
      rw [hnext] at hmarked
      obtain ⟨herror, -, rfl⟩ := (ends_drain_none hnext).mp h
      exact ⟨[], rfl, fun _ _ => (ends_drain_none (hmarked _)).mpr ⟨herror, rfl, rfl⟩⟩
    | (some e, c', events) =>
      have hdecreases := Candidates.next_decreases hnext
      rw [hnext] at hmarked
      have hadded : c'.unchecked = added ++ c.unchecked :=
        congrArg (·.2.1.unchecked) (hnext.symm.trans (hmarked c.unchecked))
      -- The run alone remembers no keys, so that no candidate is passed over in it.
      have hfresh : ¬d.hasSeen e.1 = true := by simp [Delivery.hasSeen_of_none hnone]
      rw [ends_drain_some hnext, if_neg hfresh] at h
      rcases h with ⟨h, -⟩ | ⟨d₁, h₁, h⟩
      · cases ((ends_consider_takesAll hd).mp h).1
      · rw [ends_consider_takesAll hd, if_neg hfresh] at h₁
        obtain ⟨-, row?, hanswer, rfl⟩ := h₁
        obtain ⟨found, rfl, hfound⟩ := found_drain (.foldl_take row?.toList hd)
          (Delivery.foldl_take_of_none row?.toList hnone).1 h
        refine ⟨row?.toList ++ found, List.foldl_append.symm, fun {d₂ marks} hd₂ hmarks => ?_⟩
        have hsame : d₂.SameMarks (added ++ marks) c'.unchecked := hadded ▸ hmarks.append added
        rw [ends_drain_some (hmarked marks), List.foldl_append]
        by_cases hseen : d₂.hasSeen e.1 = true
        · -- The candidate is passed over, and the row it has alone is not taken.
          have hrow : row?.toList.foldl Delivery.take d₂ = d₂ := by
            obtain ⟨key, record, met, -, -, -, rfl⟩ := answer_eq_ok.mp hanswer
            cases met with
            | false => rfl
            | true => exact if_pos hseen
          rw [if_pos hseen, hrow]
          exact hfound hd₂ (hsame.passOver hseen)
        · rw [if_neg hseen]
          refine .inr ⟨row?.toList.foldl Delivery.take d₂, ?_,
            hfound (.foldl_take row?.toList hd₂) ((hsame.takeUnchecked e.1).foldl_take row?.toList)⟩
          -- A key that was not seen is marked in both runs or in neither, so that both make the same
          -- check.
          have hcheck := hsame.takeUnchecked_eq (Bool.eq_false_iff.mpr hseen)
          rw [ends_consider_takesAll hd₂, if_neg hseen]
          exact ⟨rfl, row?, hcheck ▸ hanswer, rfl⟩
  termination_by c => (c.ahead.length, c.cache.length)
  decreasing_by
    exact hdecreases

/-- A term that succeeds alone succeeds behind others, and adds what it finds. -/
theorem found_answerTerm {rows : List (Row κ ρ)} {d : Delivery (List (Row κ ρ))}
    (h : (v.rows (.ofSelection (.mk t []))).result = .ok rows) (hd : d.TakesAll) :
    (v.answerTerm keepRow t).Ends d .more (rows.foldl Delivery.take d) := by
  obtain ⟨demand, d', hterm, rfl⟩ := rows_ofSelection_eq_ok.mp h
  obtain ⟨hcheck, plan, hplan, hwalk⟩ := ends_answerTerm.mp hterm
  refine ends_answerTerm.mpr ⟨hcheck, plan, hplan, ?_⟩
  split at hwalk
  next hhas =>
    obtain ⟨found, rfl, hfound⟩ := found_drain ⟨rfl, rfl⟩ rfl hwalk
    rw [(Delivery.foldl_take_of_none found rfl).2, List.append_nil, List.reverse_reverse,
      if_pos hhas]
    exact hfound hd fun _ _ => .rfl
  next hhas =>
    rw [if_neg hhas, hwalk.2]
    exact ⟨rfl, rfl⟩

/-- So do terms one after the other. -/
theorem found_answerTerms {terms : List (Term κ ρ)} {results : List (List (Row κ ρ))}
    (h : List.Forall₂ (fun t rows => (v.rows (.ofSelection (.mk t []))).result = .ok rows)
      terms results) :
    ∀ {d : Delivery (List (Row κ ρ))}, d.TakesAll →
      (v.answerTerms keepRow terms).Ends d .more (results.flatten.foldl Delivery.take d) := by
  induction h with
  | nil => exact fun _ => Step.ends_pure.mpr ⟨rfl, rfl⟩
  | @cons t rows terms results hrows _ ih =>
    intro d hd
    rw [answerTerms, Step.ends_bind, List.flatten_cons, List.foldl_append]
    exact ⟨.more, _, found_answerTerm hrows hd, ih (.foldl_take rows hd)⟩

/-- The rows of a query with alternatives, if all of its terms succeed alone. -/
theorem rows_alternatives {selection : Selection κ ρ} {results : List (List (Row κ ρ))}
    (hbranches : selection.branches ≠ [])
    (h : List.Forall₂ (fun t rows => (v.rows (.ofSelection (.mk t []))).result = .ok rows)
      selection.terms results) :
    (v.rows (.ofSelection selection)).result =
      .ok (results.flatten.eraseDupsBy fun a b => a.rawKey == b.rawKey) := by
  have hhas : (Query.ofSelection selection).hasBranches = true := by
    unfold Query.hasBranches Query.ofSelection
    simpa using hbranches
  have hterms := found_answerTerms h (d := ⟨some [], 0, none, 0, []⟩) ⟨rfl, rfl⟩
  rw [rows_eq_ok]
  refine ⟨_, _, ends_select.mpr ⟨.more, _, by rw [hhas]; exact hterms, rfl, rfl⟩, ?_⟩
  exact Delivery.foldl_take_of_seen results.flatten rfl

end View

namespace Store

variable {κ ρ : Type} [CustomKind κ] {s : Store} {type : RecordType κ ρ} {b : Buckets}

/-- If all terms of a query with alternatives succeed alone then the query succeeds, and its rows are
theirs in the order of the terms, each key where it comes first. -/
theorem find_alternatives {selection : Selection κ ρ} {results : List (List (Row κ ρ))}
    (hbranches : selection.branches ≠ [])
    (h : List.Forall₂
      (fun t rows => (s.find type b (.ofSelection (.mk t []))).result = .ok rows)
      selection.terms results) :
    (s.find type b (.ofSelection selection)).result =
      .ok (results.flatten.eraseDupsBy fun row row' => row.rawKey == row'.rawKey) :=
  View.rows_alternatives hbranches h

section Parcels

/-- The first term walks an index that lists only one of the two parcels. -/
theorem find_alternatives_halfWeighed : ∃ hinted light plain,
    (standard.find parcels halfWeighed (.ofSelection (.mk allByWeight []))).result = .ok hinted ∧
    (standard.find parcels halfWeighed (.ofSelection (.mk lightFromTwo []))).result = .ok light ∧
    (standard.find parcels halfWeighed (.ofSelection (.mk Term.all []))).result = .ok plain ∧
    (standard.find parcels halfWeighed (.ofSelection
        (.mk allByWeight [.mk lightFromTwo [.mk Term.all []]]))).result =
      .ok ((hinted ++ (light ++ plain)).eraseDupsBy fun row row' => row.rawKey == row'.rawKey) := by
  obtain ⟨hinted, hhinted⟩ := exists_byWeight_halfWeighed
  obtain ⟨light, hlight⟩ : ∃ rows, (standard.find parcels halfWeighed (.ofSelection (.mk lightFromTwo
      []))).result = .ok rows :=
    exists_plain (fun b => by cbv) (fun b => by cbv) (fun b => ⟨⟨_, by cbv⟩, ⟨_, by cbv⟩⟩)
      (fun b recheck => by cases recheck <;> exact ⟨⟨_, by cbv⟩, ⟨_, by cbv⟩⟩) entries_halfWeighed
  obtain ⟨plain, hplain⟩ : ∃ rows, (standard.find parcels halfWeighed (.ofSelection (.mk Term.all
      []))).result = .ok rows :=
    exists_plain (fun b => by cbv) (fun b => by cbv) (fun b => ⟨⟨_, by cbv⟩, ⟨_, by cbv⟩⟩)
      (fun b recheck => by cases recheck <;> exact ⟨⟨_, by cbv⟩, ⟨_, by cbv⟩⟩) entries_halfWeighed
  have hrows : [hinted, light, plain].flatten = hinted ++ (light ++ plain) := by simp
  refine ⟨hinted, light, plain, hhinted, hlight, hplain, ?_⟩
  rw [← hrows]
  exact find_alternatives (List.cons_ne_nil _ _) (.cons hhinted (.cons hlight (.cons hplain .nil)))

end Parcels

end Store

end RecordStore
