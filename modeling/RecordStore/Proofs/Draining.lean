import RecordStore.Proofs.FirstMatch

/-!
# Draining a walk

A walk that is asked for one candidate after the other, until it has none, yields the plain scan of the
entries ahead of it (`Candidates.plain`): the accepted records, or the records of the keys that accepted
entries of an index list, each once for a slice index. The state of a walk stands for what it has fetched
and for what the entries ahead will bring (`toCome`). A batch moves the line between the two
(`next_yields`), so that neither the size of the batches nor an entry that brings more keys than a batch
has room for shows in what is yielded. An entry that cannot be told takes with it what was fetched in
its batch, and so the walk ends with its error after some part of the plain scan of the entries in front
of it (`drained_plain`).
-/

namespace RecordStore.Candidates

variable {κ ρ : Type} [CustomKind κ]

/-! ## The plain scan -/

/-- What entries stand for, one after the other: the records that are accepted, or the records of the
keys that accepted entries list, those keys left out that have no record. A slice index leaves out keys
that it has listed before. -/
def plain (c : Candidates κ ρ) (entries : List Entry) : List Entry :=
  match c.scan with
  | .full | .primaryKey => entries.filter c.accepts
  | .index => (entries.flatMap c.entryKeys).filterMap c.entryOf?
  | .sliceIndex => (entries.flatMap c.entryKeys).eraseDups.filterMap c.entryOf?

/-- The keys that were not yielded before, each where it comes first. -/
def fresh (emitted keys : List Bytes) : List Bytes :=
  (keys.filter fun key => !emitted.contains key).eraseDups

theorem fresh_cons_of_mem {emitted keys : List Bytes} {key : Bytes} (h : key ∈ emitted) :
    fresh emitted (key :: keys) = fresh emitted keys := by
  unfold fresh
  rw [List.filter_cons_of_neg (by simp [h])]

/-- A key that was not yielded is fresh, and is not from then on. -/
theorem fresh_cons {emitted keys : List Bytes} {key : Bytes} (h : key ∉ emitted) :
    fresh emitted (key :: keys) = key :: fresh (key :: emitted) keys := by
  unfold fresh
  rw [List.filter_cons_of_pos (by simp [h]), List.eraseDups_cons, List.filter_filter]
  refine congrArg (fun keys => key :: keys.eraseDups) (List.filter_congr fun key' _ => ?_)
  rw [List.contains_cons, Bool.not_or]

/-- Further keys are fresh if they are in front of neither. -/
theorem fresh_append {emitted emitted' keys : List Bytes}
    (h : ∀ key, key ∈ emitted' ↔ key ∈ emitted ∨ key ∈ keys) (more : List Bytes) :
    fresh emitted (keys ++ more) = fresh emitted keys ++ fresh emitted' more := by
  unfold fresh
  rw [List.filter_append, List.eraseDups_append, List.removeAll, List.filter_filter]
  refine congrArg _ (congrArg List.eraseDups (List.filter_congr fun key _ => ?_))
  rw [Bool.eq_iff_iff]
  simp only [Bool.and_eq_true, Bool.not_eq_true', List.elem_eq_contains, List.contains_eq_mem,
    decide_eq_false_iff_not, List.mem_filter, h]
  tauto

omit [CustomKind κ] in
/-- A slice index picks the records of fresh keys. -/
theorem picks_fresh {c : Candidates κ ρ} (hscan : c.scan = .sliceIndex) :
    ∀ keys emitted : List Bytes, (c.picks emitted keys).1 = (fresh emitted keys).filterMap c.entryOf?
  | [], emitted => rfl
  | key :: keys, emitted => by
    unfold picks
    by_cases hkey : key ∈ emitted
    · rw [if_pos (by simp [hscan, hkey]), fresh_cons_of_mem hkey]
      exact picks_fresh hscan keys emitted
    · rw [if_neg (by simp [hkey]), if_pos hscan, fresh_cons hkey, List.filterMap_cons]
      dsimp only
      rw [picks_fresh hscan keys (key :: emitted)]
      unfold entryOf?
      cases c.buckets.get? c.dataBucket key <;> rfl

/-- A slice index stands for the records of the fresh keys of its entries. -/
theorem stream_fresh {c : Candidates κ ρ} (hscan : c.scan = .sliceIndex) :
    ∀ (entries : List Entry) (emitted : List Bytes),
      (c.stream emitted entries).map (·.1) =
        (fresh emitted (entries.flatMap c.entryKeys)).filterMap c.entryOf?
  | [], emitted => rfl
  | e :: rest, emitted => by
    have hskip : c.entryKeys e = [] → c.stream emitted (e :: rest) = c.stream emitted rest →
        (c.stream emitted (e :: rest)).map (·.1) =
          (fresh emitted ((e :: rest).flatMap c.entryKeys)).filterMap c.entryOf? := by
      intro hnone hsame
      rw [hsame, List.flatMap_cons, hnone, List.nil_append]
      exact stream_fresh hscan rest emitted
    cases hx : c.expand e with
    | error err => exact hskip (by rw [entryKeys, hx]) (by rw [stream, hx])
    | ok x =>
      cases x with
      | candidate e' => exact absurd hx (expand_index_ne (.inr hscan) e e')
      | nothing => exact hskip (by rw [entryKeys, hx]) (by rw [stream, hx])
      | keys keys =>
        have hkeys : c.entryKeys e = keys := by rw [entryKeys, hx]
        rw [stream, hx, List.flatMap_cons, hkeys, fresh_append (picks_slice hscan keys emitted).1,
          List.filterMap_append, ← picks_fresh hscan, ← stream_fresh hscan rest]
        dsimp only
        rw [List.map_append, List.map_map]
        simp [Function.comp_def]

/-- At its start a walk stands for the plain scan of the entries. -/
theorem stream_plain (c : Candidates κ ρ) (entries : List Entry) :
    (c.stream [] entries).map (·.1) = c.plain entries := by
  have hrecords : c.scan = .full ∨ c.scan = .primaryKey →
      (c.stream [] entries).map (·.1) = entries.filter c.accepts := by
    intro hscan
    rw [stream_records hscan, List.map_map]
    exact List.map_id _
  unfold plain
  cases hscan : c.scan with
  | full => exact hrecords (.inl hscan)
  | primaryKey => exact hrecords (.inr hscan)
  | index =>
    rw [stream_index hscan, List.map_flatMap]
    dsimp only
    rw [List.filterMap_flatMap]
    refine congrArg (entries.flatMap ·) (funext fun e => ?_)
    rw [List.map_map]
    exact List.map_id _
  | sliceIndex =>
    rw [stream_fresh hscan]
    unfold fresh
    simp

/-! ## The first entry that cannot be told -/

/-- The entries begin with `told`, all of which can be told, and the next one fails with `err`. -/
structure StopsAt (c : Candidates κ ρ) (entries told : List Entry) (err : Error) : Prop where
  tells : ∀ e ∈ told, c.Tells e
  fails : ∃ e rest, entries = told ++ e :: rest ∧ c.expand e = .error err

/-- A walk stops behind an entry that can be told where it stops without it. -/
theorem StopsAt.cons {c : Candidates κ ρ} {e : Entry} {entries told : List Entry} {err : Error}
    (he : c.Tells e) (h : c.StopsAt entries told err) : c.StopsAt (e :: entries) (e :: told) err := by
  obtain ⟨e', rest, hsplit, hfails⟩ := h.fails
  exact ⟨List.forall_mem_cons.mpr ⟨he, h.tells⟩, e', rest, congrArg (e :: ·) hsplit, hfails⟩

theorem SameWalk.stopsAt {c c' : Candidates κ ρ} (h : SameWalk c c') {entries told : List Entry}
    {err : Error} : c'.StopsAt entries told err ↔ c.StopsAt entries told err := by
  constructor
  · rintro ⟨htells, e, rest, hsplit, hfails⟩
    exact ⟨fun e he => h.tells.mp (htells e he), e, rest, hsplit, by rw [← h.expand, hfails]⟩
  · rintro ⟨htells, e, rest, hsplit, hfails⟩
    exact ⟨fun e he => h.tells.mpr (htells e he), e, rest, hsplit, by rw [h.expand, hfails]⟩

/-- Either every entry can be told or the walk stops at one. -/
theorem tells_or_stopsAt (c : Candidates κ ρ) : ∀ entries : List Entry,
    (∀ e ∈ entries, c.Tells e) ∨ ∃ told err, c.StopsAt entries told err
  | [] => .inl (by simp)
  | e :: rest => by
    cases hx : c.expand e with
    | error err => exact .inr ⟨[], err, by simp, e, rest, rfl, hx⟩
    | ok x =>
      rcases tells_or_stopsAt c rest with hrest | ⟨told, err, hrest⟩
      · exact .inl (List.forall_mem_cons.mpr ⟨⟨x, hx⟩, hrest⟩)
      · exact .inr ⟨e :: told, err, hrest.cons ⟨x, hx⟩⟩

/-- Where entries stop is behind all that can be told in front of it. -/
theorem StopsAt.behind {c : Candidates κ ρ} {passed rest told : List Entry} {err : Error}
    (h : c.StopsAt (passed ++ rest) told err) (hpassed : ∀ e ∈ passed, c.Tells e) :
    ∃ told', told = passed ++ told' ∧ c.StopsAt rest told' err := by
  obtain ⟨e, tail, hsplit, hfails⟩ := h.fails
  rcases List.append_eq_append_iff.mp hsplit with ⟨told', htold, hrest⟩ | ⟨more, hmore, hrest⟩
  · refine ⟨told', htold, fun e' he' => h.tells e' ?_, e, tail, hrest, hfails⟩
    rw [htold]
    exact List.mem_append_right _ he'
  · cases more with
    | nil =>
      rw [List.append_nil] at hmore
      exact ⟨[], by rw [hmore, List.append_nil], by simp, e, tail, hrest.symm, hfails⟩
    | cons e' more =>
      -- Otherwise it would be one of those that can be told.
      obtain ⟨rfl, -⟩ := List.cons.inj hrest
      obtain ⟨x, hx⟩ := hpassed e (by rw [hmore]; exact List.mem_append_right _ (List.mem_cons_self ..))
      rw [hfails] at hx
      cases hx

theorem StopsAt.not_tells {c : Candidates κ ρ} {entries told : List Entry} {err : Error}
    (h : c.StopsAt entries told err) : ¬∀ e ∈ entries, c.Tells e := by
  intro htells
  obtain ⟨e, rest, hsplit, hfails⟩ := h.fails
  obtain ⟨x, hx⟩ := htells e (by rw [hsplit]; simp)
  rw [hfails] at hx
  cases hx

/-- There is one first entry that cannot be told. -/
theorem StopsAt.unique {c : Candidates κ ρ} {entries told told' : List Entry} {err err' : Error}
    (h : c.StopsAt entries told err) (h' : c.StopsAt entries told' err') : err' = err := by
  obtain ⟨e, rest, hsplit, hfails⟩ := h.fails
  rw [hsplit] at h'
  obtain ⟨more, -, hbehind⟩ := h'.behind h.tells
  obtain ⟨e', rest', hsplit', hfails'⟩ := hbehind.fails
  cases more with
  | nil =>
    obtain ⟨rfl, -⟩ := List.cons.inj hsplit'
    rw [hfails] at hfails'
    cases hfails'
    rfl
  | cons first more =>
    obtain ⟨rfl, -⟩ := List.cons.inj hsplit'
    obtain ⟨x, hx⟩ := hbehind.tells e (List.mem_cons_self ..)
    rw [hfails] at hx
    cases hx

/-- A batch that fails has met the first entry that cannot be told. -/
theorem stopsAt_of_fill : ∀ (c : Candidates κ ρ) (ahead : List Entry) {err : Error}, c.error = none →
    (c.fill ahead).1.error = some err → ∃ told, c.StopsAt ahead told err
  | c, [], err, hc, h => by
    have hnone : c.error = some err := h
    rw [hc] at hnone
    cases hnone
  | c, e :: rest, err, hc, h => by
    by_cases hroom : c.cache.length < c.batchSize
    · rw [fill_of_room hroom] at h
      -- From the state after the entry the batch goes on.
      have hgo : ∀ c₁ : Candidates κ ρ, c.Tells e → SameWalk c c₁ → c₁.error = none →
          (c₁.fill rest).1.error = some err → ∃ told, c.StopsAt (e :: rest) told err := by
        intro c₁ htells hsame hc₁ h
        obtain ⟨told, hstops⟩ := stopsAt_of_fill c₁ rest hc₁ h
        exact ⟨e :: told, (hsame.stopsAt.mp hstops).cons htells⟩
      cases hx : c.expand e with
      | error err' =>
        rw [hx] at h
        cases h
        exact ⟨[], by simp, e, rest, rfl, hx⟩
      | ok x =>
        rw [hx] at h
        cases x with
        | candidate e' =>
          exact hgo { c with cache := c.cache ++ [e'] } ⟨_, hx⟩ ⟨rfl, rfl, rfl, rfl, rfl, rfl⟩ hc h
        | nothing => exact hgo c ⟨_, hx⟩ (.refl c) hc h
        | keys keys =>
          obtain ⟨hsame, herror, -⟩ := fetch_spec (c.leavesUnchecked e.1) c keys
          exact hgo (c.fetch (c.leavesUnchecked e.1) keys).1 ⟨_, hx⟩ hsame (herror.trans hc) h
    · rw [fill, if_neg hroom] at h
      have hnone : c.error = some err := h
      rw [hc] at hnone
      cases hnone

/-! ## One candidate -/

/-- What was fetched, and what entries behind it bring. -/
def toCome (c : Candidates κ ρ) (entries : List Entry) : List Entry :=
  c.cache ++ (c.stream c.emitted entries).map (·.1)

/-- The walk goes from one state to the other by yielding a candidate: it has used up some entries that
can be told, and the candidate is the first of what was to come. -/
structure Yields (c : Candidates κ ρ) (e : Entry) (c' : Candidates κ ρ) (passed : List Entry) : Prop where
  same : SameWalk c c'
  error : c'.error = none
  split : c.ahead = passed ++ c'.ahead
  told : ∀ e ∈ passed, c.Tells e
  next : ∀ rest, c.toCome (passed ++ rest) = e :: c'.toCome rest

/-- A candidate that is handed out is the first of those still to come. -/
theorem next_yields {c c' : Candidates κ ρ} {e : Entry} {events : List Event} (hc : c.error = none)
    (h : c.next = (some e, c', events)) : ∃ passed, Yields c e c' passed := by
  rw [next_of_no_error (by simp [hc])] at h
  by_cases hempty : c.cache.isEmpty = true
  · -- A batch is fetched, and its first candidate yielded.
    rw [if_pos hempty] at h
    have hnil : c.cache = [] := List.isEmpty_iff.mp hempty
    generalize hc₁ : (c.fill c.ahead).1 = c₁ at h
    cases hcache : c₁.cache with
    | nil =>
      unfold pop at h
      rw [hcache] at h
      cases h
    | cons e' rest =>
      unfold pop at h
      rw [hcache] at h
      cases h
      have herror : (c.fill c.ahead).1.error = none := by
        refine (cache_fill_of_error c c.ahead hc).resolve_right ?_
        rw [hc₁, hcache]
        exact List.cons_ne_nil _ _
      obtain ⟨passed, items, hsplit, hfilled⟩ := filled_fill c c.ahead herror
      rw [hc₁] at hsplit hfilled herror
      have hsame : SameWalk c₁ { c₁ with cache := rest } := ⟨rfl, rfl, rfl, rfl, rfl, rfl⟩
      refine ⟨passed, hfilled.same.trans hsame, herror, hsplit, hfilled.told, fun more => ?_⟩
      have hitems : items.map (·.1) = e :: rest := by
        rw [← hcache, hfilled.cache, hnil, List.nil_append]
      unfold toCome
      rw [hfilled.stream, hnil, List.nil_append, List.map_append, hitems, hsame.stream,
        hfilled.same.stream, List.cons_append]
  · rw [if_neg hempty] at h
    cases hcache : c.cache with
    | nil => exact absurd (List.isEmpty_iff.mpr hcache) hempty
    | cons e' rest =>
      unfold pop at h
      rw [hcache] at h
      cases h
      -- The next one of an earlier batch is yielded; no entry is used up for that.
      have hsame : SameWalk c { c with cache := rest } := ⟨rfl, rfl, rfl, rfl, rfl, rfl⟩
      refine ⟨[], hsame, hc, rfl, by simp, fun more => ?_⟩
      unfold toCome
      rw [hcache, hsame.stream]
      rfl

/-- When a walk has no candidate any more, then either all entries could be told and nothing was to come,
or it has met the first that cannot be told; and it stays as it is. -/
theorem next_ends {c c' : Candidates κ ρ} {events : List Event} (hc : c.error = none)
    (hroom : 1 ≤ c.batchSize) (h : c.next = (none, c', events)) :
    c'.next = (none, c', []) ∧
      ((∀ e ∈ c.ahead, c.Tells e) ∧ c.toCome c.ahead = [] ∧ c'.error = none ∨
        ∃ told err, c.StopsAt c.ahead told err ∧ c'.error = some err) := by
  rw [next_of_no_error (by simp [hc])] at h
  by_cases hempty : c.cache.isEmpty = true
  · rw [if_pos hempty] at h
    have hnil : c.cache = [] := List.isEmpty_iff.mp hempty
    have hc' : (c.fill c.ahead).1 = c' ∧ c'.cache = [] := by
      unfold pop at h
      split at h
      next hcache =>
        cases h
        exact ⟨rfl, hcache⟩
      next => cases h
    obtain ⟨hfill, hcache⟩ := hc'
    -- A walk that hands out nothing has come to its end or to an entry that it cannot tell.
    cases herror : c'.error with
    | none =>
      obtain ⟨passed, items, hsplit, hfilled⟩ := filled_fill c c.ahead (by rw [hfill, herror])
      rw [hfill] at hsplit hfilled
      -- A batch that is not full has used all entries up.
      have hahead : c'.ahead = [] := by
        refine hfilled.ended.resolve_right fun hfull => ?_
        rw [hcache, List.length_nil] at hfull
        omega
      have hitems : items.map (·.1) = [] := by
        have hfetched := hfilled.cache
        rw [hcache, hnil, List.nil_append] at hfetched
        exact hfetched.symm
      rw [hahead, List.append_nil] at hsplit
      refine ⟨?_, .inl ⟨hsplit ▸ hfilled.told, ?_, rfl⟩⟩
      · have hrest : c'.fill c'.ahead = (c', []) := by
          rw [hahead, fill, ← hahead]
        rw [next_of_no_error (by simp [herror]), if_pos (by simp [hcache]), hrest]
        unfold pop
        rw [hcache]
      · have hstream := hfilled.stream []
        rw [List.append_nil, ← hsplit] at hstream
        unfold toCome
        rw [hnil, hstream, List.nil_append, List.map_append, hitems]
        rfl
    | some err =>
      obtain ⟨told, hstops⟩ := stopsAt_of_fill c c.ahead hc (by rw [hfill, herror])
      refine ⟨?_, .inr ⟨told, err, hstops, rfl⟩⟩
      unfold Candidates.next
      rw [herror]
      rfl
  · rw [if_neg hempty] at h
    cases hcache : c.cache with
    | nil => exact absurd (List.isEmpty_iff.mpr hcache) hempty
    | cons e rest =>
      unfold pop at h
      rw [hcache] at h
      cases h

/-! ## All candidates -/

/-- All that a walk yields until for the first time it has nothing, and the walk then. -/
def drained (c : Candidates κ ρ) : List Entry × Candidates κ ρ :=
  match _h : c.next with
  | (none, c', _) => ([], c')
  | (some e, c', _) => (e :: c'.drained.1, c'.drained.2)
termination_by (c.ahead.length, c.cache.length)
decreasing_by
  all_goals exact next_decreases _h

theorem drained_of_none {c c' : Candidates κ ρ} {events : List Event} (h : c.next = (none, c', events)) :
    c.drained = ([], c') := by
  rw [drained]
  split
  next h' =>
    rw [h] at h'
    cases h'
    rfl
  next h' =>
    rw [h] at h'
    cases h'

/-- A walk that hands out a candidate is drained by going on behind it. -/
theorem drained_of_some {c c' : Candidates κ ρ} {e : Entry} {events : List Event}
    (h : c.next = (some e, c', events)) : c.drained = (e :: c'.drained.1, c'.drained.2) := by
  rw [drained]
  split
  next h' =>
    rw [h] at h'
    cases h'
  next h' =>
    rw [h] at h'
    cases h'
    rfl

/-- A walk is drained step by step: what holds of a walk at its end, and of a walk if it holds of the walk
after its next candidate, holds of all that meet no error at first. -/
theorem drained_induction {P : Candidates κ ρ → Prop}
    (ends : ∀ {c c' events}, c.error = none → 1 ≤ c.batchSize → c.next = (none, c', events) → P c)
    (yields : ∀ {c e c' events passed}, c.next = (some e, c', events) → Yields c e c' passed →
      P c' → P c) :
    ∀ c : Candidates κ ρ, c.error = none → 1 ≤ c.batchSize → P c
  | c, hc, hroom => by
    match hnext : c.next with
    | (none, c', events) => exact ends hc hroom hnext
    | (some e, c', events) =>
      have hdecreases := next_decreases hnext
      obtain ⟨passed, h⟩ := next_yields hc hnext
      exact yields hnext h
        (drained_induction ends yields c' h.error (h.same.batchSize ▸ hroom))
  termination_by c => (c.ahead.length, c.cache.length)
  decreasing_by
    all_goals exact hdecreases

variable {c : Candidates κ ρ}

/-- If all entries can be told, all that was to come is yielded. -/
theorem drained_of_tells (hc : c.error = none) (hroom : 1 ≤ c.batchSize) :
    (∀ e ∈ c.ahead, c.Tells e) →
      c.drained.1 = c.toCome c.ahead ∧ c.drained.2.error = none := by
  refine drained_induction (P := fun c => (∀ e ∈ c.ahead, c.Tells e) →
    c.drained.1 = c.toCome c.ahead ∧ c.drained.2.error = none) ?_ ?_ c hc hroom
  · intro c c' events hc hroom hnext htells
    rw [drained_of_none hnext]
    obtain ⟨-, ⟨-, hnone, herror⟩ | ⟨told, err, hstops, -⟩⟩ := next_ends hc hroom hnext
    · exact ⟨hnone.symm, herror⟩
    · exact absurd htells hstops.not_tells
  · intro c e c' events passed hnext h ih htells
    have htells' : ∀ e ∈ c'.ahead, c'.Tells e := by
      intro e he
      refine h.same.tells.mpr (htells e ?_)
      rw [h.split]
      exact List.mem_append_right _ he
    obtain ⟨hyielded, herror⟩ := ih htells'
    rw [drained_of_some hnext, h.split, h.next, hyielded]
    exact ⟨rfl, herror⟩

/-- If one cannot be told, nothing is yielded that comes from behind it, and its error stays. -/
theorem drained_of_stopsAt (hc : c.error = none) (hroom : 1 ≤ c.batchSize) :
    ∀ {told : List Entry} {err : Error}, c.StopsAt c.ahead told err →
      c.drained.1 <+: c.toCome told ∧ c.drained.2.error = some err := by
  refine drained_induction (P := fun c => ∀ {told : List Entry} {err : Error},
    c.StopsAt c.ahead told err → c.drained.1 <+: c.toCome told ∧ c.drained.2.error = some err)
    ?_ ?_ c hc hroom
  · intro c c' events hc hroom hnext told err hstops
    rw [drained_of_none hnext]
    refine ⟨List.nil_prefix, ?_⟩
    obtain ⟨-, ⟨htells, -, -⟩ | ⟨told', err', hstops', herror⟩⟩ := next_ends hc hroom hnext
    · exact absurd htells hstops.not_tells
    · rw [herror, hstops.unique hstops']
  · intro c e c' events passed hnext h ih told err hstops
    rw [h.split] at hstops
    obtain ⟨told', rfl, hbehind⟩ := hstops.behind h.told
    obtain ⟨hyielded, herror⟩ := ih (h.same.stopsAt.mpr hbehind)
    rw [drained_of_some hnext, h.next]
    exact ⟨List.cons_prefix_cons.mpr ⟨rfl, hyielded⟩, herror⟩

/-- A drained walk has nothing more to yield, and stays as it is. -/
theorem next_drained (hc : c.error = none) (hroom : 1 ≤ c.batchSize) :
    c.drained.2.next = (none, c.drained.2, []) := by
  refine drained_induction (P := fun c => c.drained.2.next = (none, c.drained.2, [])) ?_ ?_ c hc hroom
  · intro c c' events hc hroom hnext
    rw [drained_of_none hnext]
    exact (next_ends hc hroom hnext).1
  · intro c e c' events passed hnext _ ih
    rw [drained_of_some hnext]
    exact ih

/-- Draining the candidates of a plan, in whatever batches, gives the plain scan of the entries that are
walked if all of them can be told. Otherwise it gives a front of the plain scan of the entries ahead of the
first that cannot be told, and ends with the error of that one, whatever the size of the batches. After
the end nothing is yielded any more. -/
theorem drained_plain (s : Buckets) (plan : Plan) (dataBucket : String)
    (criteria : List (Criterion κ ρ)) (codec : Codec) (batchSize : Nat) :
    let c := ofPlan s plan dataBucket criteria codec batchSize
    ((∀ e ∈ c.ahead, c.Tells e) → c.drained.1 = c.plain c.ahead ∧ c.drained.2.error = none) ∧
      (∀ told err, c.StopsAt c.ahead told err →
        c.drained.1 <+: c.plain told ∧ c.drained.2.error = some err) ∧
      (∀ n, (ofPlan s plan dataBucket criteria codec n).drained.2.error = c.drained.2.error) ∧
      ∀ calls, ((fun c' : Candidates κ ρ => c'.next.2.1)^[calls] c.drained.2).next.1 = none := by
  intro c
  -- At the start nothing was fetched, and a batch has room for one.
  have hroom : ∀ n, 1 ≤ (ofPlan s plan dataBucket criteria codec n).batchSize :=
    fun n => Nat.le_max_right _ _
  have hplain : ∀ entries, c.toCome entries = c.plain entries := fun entries => c.stream_plain entries
  refine ⟨fun htells => ?_, fun told err hstops => ?_, fun n => ?_, fun calls => ?_⟩
  · rw [← hplain]
    exact drained_of_tells rfl (hroom batchSize) htells
  · rw [← hplain]
    exact drained_of_stopsAt rfl (hroom batchSize) hstops
  · -- Which entry is the first to fail does not depend on the batches.
    rcases tells_or_stopsAt c c.ahead with htells | ⟨told, err, hstops⟩
    · have hthis := (drained_of_tells (c := c) rfl (hroom batchSize) htells).2
      rw [hthis]
      exact (drained_of_tells (c := ofPlan s plan dataBucket criteria codec n) rfl (hroom n) htells).2
    · have hthis := (drained_of_stopsAt (c := c) rfl (hroom batchSize) hstops).2
      have hstops' : (ofPlan s plan dataBucket criteria codec n).StopsAt c.ahead told err :=
        ⟨hstops.tells, hstops.fails⟩
      rw [hthis]
      exact (drained_of_stopsAt (c := ofPlan s plan dataBucket criteria codec n) rfl (hroom n)
        hstops').2
  · have hend := next_drained (c := c) rfl (hroom batchSize)
    have hfixed : (fun c' : Candidates κ ρ => c'.next.2.1) c.drained.2 = c.drained.2 := by
      show c.drained.2.next.2.1 = c.drained.2
      rw [hend]
    rw [Function.iterate_fixed hfixed, hend]

section Tags

/-- The tag of the second box and of one that is gone, and the tag of two boxes. -/
def readableTags : List Entry :=
  [(Keycode.encode (.string "old" : Value Empty), Text.utf8 "[[2],[9]]"),
    (Keycode.encode (.string "red" : Value Empty), Text.utf8 "[[1],[2]]")]

/-- A tag whose boxes cannot be read. -/
def damagedTag : Entry := (Keycode.encode (.string "wet" : Value Empty), [])

/-- Two boxes and the tags. -/
def taggedBoxes : Buckets :=
  (Buckets.empty.setBucket "Boxes" ⟨SortedMap.empty.insertAll [([0x01], [0xa1]), ([0x02], [0xa2])],
    0⟩).setBucket "Tags" ⟨SortedMap.empty.insertAll (readableTags ++ [damagedTag]), 0⟩

theorem entries_taggedBoxes : taggedBoxes.entries "Tags" = readableTags ++ [damagedTag] := by
  decide +kernel

/-- What is said of a damaged tag: no bytes are no JSON text. -/
def noJson : Error := .caused (.codec "json: decode failed") (.json [])

/-- The walk over all tags. -/
def tagWalk (batchSize : Nat) : Candidates Empty Bool :=
  ofPlan taggedBoxes ⟨.sliceIndex, "Tags", some "Tags", none, false⟩ "Boxes" [] .json batchSize

/-- Each box is yielded once at most, and the error is that of the damaged tag. -/
theorem drained_plain_tags :
    (tagWalk 1).StopsAt (tagWalk 1).ahead readableTags noJson ∧
      (tagWalk 1).drained.1 <+: [([0x02], [0xa2]), ([0x01], [0xa1])] ∧
      (tagWalk 1).drained.2.error = some noJson ∧
      (tagWalk 64).drained.2.error = some noJson := by
  have hstops : (tagWalk 1).StopsAt (tagWalk 1).ahead readableTags noJson := by
    refine ⟨?_, damagedTag, [], entries_taggedBoxes, by cbv⟩
    exact List.forall_mem_cons.mpr ⟨⟨.keys [[0x02], [0x09]], by cbv⟩,
      List.forall_mem_singleton.mpr ⟨.keys [[0x01], [0x02]], by cbv⟩⟩
  have hplain : (tagWalk 1).plain readableTags = [([0x02], [0xa2]), ([0x01], [0xa1])] := by cbv
  obtain ⟨-, hdamaged, hbatches, -⟩ := drained_plain (κ := Empty) (ρ := Bool) taggedBoxes
    ⟨.sliceIndex, "Tags", some "Tags", none, false⟩ "Boxes" [] .json 1
  obtain ⟨hyielded, herror⟩ := hdamaged readableTags _ hstops
  refine ⟨hstops, ?_, herror, (hbatches 64).trans herror⟩
  rw [← hplain]
  exact hyielded

end Tags

end RecordStore.Candidates
