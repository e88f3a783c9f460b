import RecordStore.Proofs.Paging

/-!
# Batches

A walk fetches its candidates in batches, and so reads ahead of what the query consumes. As long as every
entry can be told that makes no difference. An entry that cannot be told fails the batch it is in, and
what was fetched with it is not yielded any more; if a limit would have been reached before, a walk in
larger batches fails where one in smaller batches succeeds. A batch size of one reads no further than it
has to: a query that succeeds with any batch size succeeds with one, with the same rows
(`find_batching`). The entries up to the first that cannot be told are what all batch sizes have in
common (`told`): a walk that ends well would do so without the others, and in batches of one the others
do no harm.
-/

namespace RecordStore

/-! ## Other batch sizes -/

section Batching

variable {κ ρ : Type}

/-- The options with another batch size. -/
def Options.batching (o : Options) (n : Nat) : Options := { o with batchSize := n }

/-- A store with another batch size. -/
def Store.batching (s : Store) (n : Nat) : Store := ⟨s.options.batching n⟩

/-- What is seen of a type of records by a store with another batch size. -/
def View.batching (v : View κ ρ) (n : Nat) : View κ ρ := { v with options := v.options.batching n }

/-- What a predicate sees in a store with another batch size. -/
def Access.batching (a : Access κ ρ) (n : Nat) : Access κ ρ :=
  { a with options := a.options.batching n }

/-- A walk with another batch size, which is one at least. -/
def Candidates.batching (c : Candidates κ ρ) (n : Nat) : Candidates κ ρ :=
  { c with batchSize := max n 1 }

/-- The predicate answers the same whatever the batch size is. -/
def Predicate.IgnoresBatch (p : Predicate κ ρ) : Prop :=
  ∀ (a : Access κ ρ) (n : Nat), (p (a.batching n)).result = (p a).result

/-- So do all predicates of a term. -/
def Term.IgnoresBatch (t : Term κ ρ) : Prop :=
  ∀ field criteria, t.criteria.find? field = some criteria → ∀ c ∈ criteria, ∀ p,
    c.condition = .satisfies p → Predicate.IgnoresBatch p

end Batching

namespace Candidates

variable {κ ρ : Type} [CustomKind κ] {c c' : Candidates κ ρ} {n : Nat}

/-! ## What can be told -/

/-- The walk up to the first entry that cannot be told. -/
def told (c : Candidates κ ρ) : Candidates κ ρ :=
  { c with ahead := c.ahead.takeWhile fun e => (c.expand e).isOk }

/-- An entry can be told exactly if it expands. -/
theorem isOk_expand {e : Entry} : (c.expand e).isOk = true ↔ c.Tells e := by
  unfold Tells
  cases c.expand e with
  | error err => simp [Except.isOk, Except.toBool]
  | ok x => simp [Except.isOk, Except.toBool]

/-- Cutting off what comes after the first entry that cannot be told leaves the walk the same one. -/
theorem sameWalk_told (c : Candidates κ ρ) : SameWalk c c.told := ⟨rfl, rfl, rfl, rfl, rfl, rfl⟩

theorem takeWhile_told {e : Entry} {rest : List Entry} (h : c.Tells e) :
    (e :: rest).takeWhile (fun e => (c.expand e).isOk) =
      e :: rest.takeWhile fun e => (c.expand e).isOk :=
  List.takeWhile_cons_of_pos (isOk_expand.mpr h)

theorem tells_told : ∀ e ∈ c.told.ahead, c.told.Tells e := by
  intro e he
  have hok : (c.expand e).isOk = true := List.mem_takeWhile_imp (p := fun e => (c.expand e).isOk) he
  exact isOk_expand.mp hok

/-- If all entries can be told then nothing is cut off. -/
theorem told_of_tells (h : ∀ e ∈ c.ahead, c.Tells e) : c.told = c := by
  unfold told
  rw [List.takeWhile_eq_self_iff.mpr fun e he => isOk_expand.mpr (h e he)]

/-- What entries stand for goes on with what those behind them stand for, after what was yielded by
then. -/
theorem stream_append (ahead : List Entry) (c : Candidates κ ρ) (emitted : List Bytes) :
    ∃ emitted', ∀ rest, c.stream emitted (ahead ++ rest) =
      c.stream emitted ahead ++ c.stream emitted' rest := by
  induction ahead generalizing emitted with
  | nil => exact ⟨emitted, fun rest => rfl⟩
  | cons e ahead ih =>
    simp only [List.cons_append, stream]
    cases c.expand e with
    | error err => exact ih emitted
    | ok x =>
      cases x with
      | candidate e' =>
        obtain ⟨emitted', h⟩ := ih emitted
        exact ⟨emitted', fun rest => congrArg _ (h rest)⟩
      | nothing => exact ih emitted
      | keys keys =>
        obtain ⟨emitted', h⟩ := ih (c.picks emitted keys).2
        refine ⟨emitted', fun rest => ?_⟩
        dsimp only
        rw [h, List.append_assoc]

/-- What is yielded up to the first entry that cannot be told comes first of all. -/
theorem pending_told (c : Candidates κ ρ) : c.told.pending <+: c.pending := by
  obtain ⟨emitted', h⟩ :=
    stream_append (c.ahead.takeWhile fun e => (c.expand e).isOk) c c.emitted
  refine ⟨c.stream emitted' (c.ahead.dropWhile fun e => (c.expand e).isOk), ?_⟩
  unfold pending
  rw [(sameWalk_told c).stream, List.append_assoc]
  show _ ++ (c.stream c.emitted (c.ahead.takeWhile _) ++ _) = _
  rw [← h, List.takeWhile_append_dropWhile]
  rfl

/-- The part of an orderly walk that can be told is orderly. -/
theorem orderly_told (hc : c.Orderly) : c.told.Orderly := by
  have hprefix := pending_told c
  refine ⟨hc.error, hc.room, hc.apart.sublist hprefix.sublist, fun k hk hmem => ?_⟩
  refine hc.unmarked k hk ?_
  obtain ⟨emitted', h⟩ :=
    stream_append (c.ahead.takeWhile fun e => (c.expand e).isOk) c c.emitted
  rw [(sameWalk_told c).stream] at hmem
  rw [← List.takeWhile_append_dropWhile (p := fun e => (c.expand e).isOk) (l := c.ahead), h,
    List.map_append]
  exact List.mem_append_left _ hmem

/-! ## Batches among what can be told -/

/-- The walk with other entries ahead. -/
def withAhead (c : Candidates κ ρ) (ahead : List Entry) : Candidates κ ρ := { c with ahead }

omit [CustomKind κ] in
/-- Fetching the records of keys does not look at the entries ahead. -/
theorem fetch_withAhead (unchecked : Bool) (keys : List Bytes) (c : Candidates κ ρ)
    (ahead : List Entry) : (c.withAhead ahead).fetch unchecked keys =
      ((c.fetch unchecked keys).1.withAhead ahead, (c.fetch unchecked keys).2) := by
  induction keys generalizing c with
  | nil => rfl
  | cons key keys ih =>
    by_cases hskip : (c.scan = .sliceIndex && c.emitted.contains key) = true
    · rw [fetch_passed unchecked keys hskip, ← ih c]
      exact fetch_passed unchecked keys hskip
    · cases hget : (c.counted key).buckets.get? (c.counted key).dataBucket key with
      | none =>
        have hstep := fetch_missing (c := c.withAhead ahead) unchecked keys hskip hget
        have hsame : (c.withAhead ahead).counted key = (c.counted key).withAhead ahead := rfl
        rw [hstep, fetch_missing unchecked keys hskip hget, hsame, ih]
        rfl
      | some record =>
        have hstep := fetch_found (c := c.withAhead ahead) unchecked keys hskip hget
        have hsame : ((c.withAhead ahead).counted key).cached unchecked key record =
            ((c.counted key).cached unchecked key record).withAhead ahead := rfl
        rw [hstep, fetch_found unchecked keys hskip hget, hsame, ih]

/-- A batch goes by the entries it is given. -/
theorem fill_withAhead (ahead : List Entry) (c : Candidates κ ρ) (entries : List Entry) :
    (c.withAhead ahead).fill entries = c.fill entries := by
  induction entries generalizing c with
  | nil => rfl
  | cons e rest ih =>
    by_cases hroom : c.cache.length < c.batchSize
    · rw [fill_of_room hroom, fill_of_room (c := c.withAhead ahead) hroom]
      have hexpand : (c.withAhead ahead).expand e = c.expand e := rfl
      have hleaves : (c.withAhead ahead).leavesUnchecked e.1 = c.leavesUnchecked e.1 := rfl
      rw [hexpand, hleaves]
      cases c.expand e with
      | error err => rfl
      | ok x =>
        cases x with
        | candidate e' => exact ih { c with cache := c.cache ++ [e'] }
        | nothing => exact ih c
        | keys keys =>
          dsimp only
          rw [fetch_withAhead, ih]
    · rw [fill, fill, if_neg hroom]
      exact if_neg hroom

theorem fill_full (hroom : ¬c.cache.length < c.batchSize) (ahead : List Entry) :
    c.fill ahead = ({ c with ahead }, []) := by
  cases ahead with
  | nil => rfl
  | cons e rest =>
    rw [fill]
    exact if_neg hroom

/-- A batch that meets no error is the same without the entries behind the first that cannot be
told. -/
theorem fill_told (ahead : List Entry) (c : Candidates κ ρ)
    (herror : (c.fill ahead).1.error = none) :
    c.fill (ahead.takeWhile fun e => (c.expand e).isOk) =
      ((c.fill ahead).1.told, (c.fill ahead).2) := by
  induction ahead generalizing c with
  | nil => rfl
  | cons e rest ih =>
    by_cases hroom : c.cache.length < c.batchSize
    · rw [fill_of_room hroom] at herror ⊢
      cases hx : c.expand e with
      | error err =>
        rw [hx] at herror
        cases herror
      | ok x =>
        rw [hx] at herror
        rw [takeWhile_told ⟨x, hx⟩, fill_of_room hroom, hx]
        cases x with
        | candidate e' => exact ih { c with cache := c.cache ++ [e'] } herror
        | nothing => exact ih c herror
        | keys keys =>
          dsimp only at herror ⊢
          -- Fetching the records of keys changes nothing of what entries stand for.
          have hsame := (fetch_spec (c.leavesUnchecked e.1) c keys).1
          have hfill := ih (c.fetch (c.leavesUnchecked e.1) keys).1 herror
          simp only [hsame.expand] at hfill
          rw [hfill]
    · rw [fill_full hroom, fill_full hroom]
      rfl

omit [CustomKind κ] in
/-- Yielding from the cache meets no error. -/
theorem pop_error (c : Candidates κ ρ) (events : List Event) :
    (c.pop events).2.1.error = c.error := by
  unfold pop
  cases c.cache <;> rfl

/-- Yielding from the cache does not look at the entries ahead. -/
theorem pop_told (c : Candidates κ ρ) (events : List Event) :
    c.told.pop events = ((c.pop events).1, (c.pop events).2.1.told, (c.pop events).2.2) := by
  obtain ⟨_, _, _, _, _, _, _, cache, _, _, _⟩ := c
  cases cache <;> rfl

/-- How the next candidate is yielded among what can be told. -/
theorem next_told_eq (hc : c.error = none) : c.told.next =
    if c.cache.isEmpty then (c.fill c.told.ahead).1.pop (c.fill c.told.ahead).2
    else c.told.pop [] := by
  rw [← fill_withAhead c.told.ahead c c.told.ahead]
  exact next_of_no_error (c := c.told) (by simp [told, hc])

/-- Where no error is met, the next candidate is yielded among what can be told. -/
theorem next_told (hc : c.error = none) {e? : Option Entry} {events : List Event}
    (h : c.next = (e?, c', events)) (herror : c'.error = none) :
    c.told.next = (e?, c'.told, events) := by
  have hsome : ¬c.error.isSome = true := by simp [hc]
  rw [next_of_no_error hsome] at h
  rw [next_told_eq hc]
  by_cases hempty : c.cache.isEmpty = true
  · rw [if_pos hempty] at h ⊢
    have hfill : (c.fill c.ahead).1.error = none := by
      rw [← pop_error _ (c.fill c.ahead).2, h]
      exact herror
    have htold : c.fill c.told.ahead = ((c.fill c.ahead).1.told, (c.fill c.ahead).2) :=
      fill_told c.ahead c hfill
    rw [htold, pop_told, h]
  · rw [if_neg hempty] at h ⊢
    rw [pop_told, h]

/-! ## Batches of one -/

/-- A batch of one that brings anything among what can be told meets no error. -/
theorem error_fill_of_told (ahead : List Entry) (c : Candidates κ ρ) (hc : c.error = none)
    (hone : c.batchSize = 1) (hempty : c.cache = [])
    (hbrings : (c.fill (ahead.takeWhile fun e => (c.expand e).isOk)).1.cache ≠ []) :
    (c.fill ahead).1.error = none := by
  induction ahead generalizing c with
  | nil => exact hc
  | cons e rest ih =>
    have hroom : c.cache.length < c.batchSize := by
      rw [hempty, hone]
      exact Nat.one_pos
    cases hx : c.expand e with
    | error err =>
      -- Nothing that can be told comes before the entry.
      have htake : (e :: rest).takeWhile (fun e => (c.expand e).isOk) = [] :=
        List.takeWhile_cons_of_neg (by rw [hx]; exact Bool.false_ne_true)
      rw [htake] at hbrings
      exact absurd hempty hbrings
    | ok x =>
      rw [takeWhile_told ⟨x, hx⟩, fill_of_room hroom, hx] at hbrings
      rw [fill_of_room hroom, hx]
      cases x with
      | candidate e' =>
        dsimp only at hbrings ⊢
        rw [fill_full (by simp [hone])]
        exact hc
      | nothing => exact ih c hc hone hempty hbrings
      | keys keys =>
        dsimp only at hbrings ⊢
        obtain ⟨hsame, herror, -⟩ := fetch_spec (c.leavesUnchecked e.1) c keys
        by_cases hnone : (c.fetch (c.leavesUnchecked e.1) keys).1.cache = []
        · refine ih _ (herror.trans hc) (hsame.batchSize.trans hone) hnone ?_
          simp only [hsame.expand]
          exact hbrings
        · have hfull : ¬(c.fetch (c.leavesUnchecked e.1) keys).1.cache.length <
              (c.fetch (c.leavesUnchecked e.1) keys).1.batchSize := by
            rw [hsame.batchSize, hone, Nat.lt_one_iff, List.length_eq_zero_iff]
            exact hnone
          rw [fill_full hfull]
          exact herror.trans hc

/-- In batches of one, what the walk yields among what can be told it yields anyway. -/
theorem next_of_told (hc : c.error = none) (hone : c.batchSize = 1) {e : Entry}
    {c₁ : Candidates κ ρ} {events : List Event} (h : c.told.next = (some e, c₁, events)) :
    ∃ c', c.next = (some e, c', events) ∧ c₁ = c'.told := by
  -- In batches of one nothing is fetched beyond the candidate that is yielded.
  have herror : c.next.2.1.error = none := by
    rw [next_of_no_error (by simp [hc])]
    rw [next_told_eq hc] at h
    split
    next hempty =>
      rw [if_pos hempty] at h
      rw [pop_error]
      refine error_fill_of_told c.ahead c hc hone (List.isEmpty_iff.mp hempty) fun hnone => ?_
      have hnone' : (c.fill c.told.ahead).1.cache = [] := hnone
      unfold pop at h
      rw [hnone'] at h
      cases h
    next =>
      rw [pop_error]
      exact hc
  obtain ⟨e?, c', events', hnext⟩ : ∃ e? c' events', c.next = (e?, c', events') :=
    ⟨_, _, _, rfl⟩
  rw [hnext] at herror
  have htold := next_told hc hnext herror
  rw [htold] at h
  obtain ⟨rfl, rfl, rfl⟩ : e? = some e ∧ c'.told = c₁ ∧ events' = events := by
    simpa using h
  exact ⟨c', hnext, rfl⟩

/-- A batch that has room for everything fails if there is an entry that cannot be told. -/
theorem tells_of_room (hc : c.error = none) (hempty : c.cache = [])
    (hroom : c.pending.length < c.batchSize)
    (h : ∀ {c' : Candidates κ ρ} {events : List Event}, c.next = (none, c', events) →
      c'.error = none) : ∀ e ∈ c.ahead, c.Tells e := by
  by_cases herror : (c.fill c.ahead).1.error = none
  · obtain ⟨passed, items, hsplit, hfilled⟩ := filled_fill c c.ahead herror
    have hstream := hfilled.stream (c.fill c.ahead).1.ahead
    rw [← hsplit] at hstream
    have hshort : (c.fill c.ahead).1.cache.length < c.batchSize := by
      refine lt_of_le_of_lt ?_ hroom
      unfold pending
      rw [hfilled.cache, hstream, hempty]
      simp
    have hall : c.ahead = passed := by
      rw [hfilled.ended.resolve_right (by omega), List.append_nil] at hsplit
      exact hsplit
    rw [hall]
    exact hfilled.told
  · have hnone := (cache_fill_of_error c c.ahead hc).resolve_left herror
    have hnext : c.next = (none, (c.fill c.ahead).1, (c.fill c.ahead).2) := by
      rw [next_of_no_error (by simp [hc]), if_pos (List.isEmpty_iff.mpr hempty)]
      unfold pop
      rw [hnone]
    exact absurd (h hnext) herror

/-! ## What does not depend on the batch size -/

omit [CustomKind κ] in
theorem picks_batching (keys emitted : List Bytes) :
    (c.batching n).picks emitted keys = c.picks emitted keys := by
  induction keys generalizing emitted with
  | nil => rfl
  | cons key keys ih =>
    unfold picks
    simp only [ih]
    rfl

theorem stream_batching (ahead : List Entry) (emitted : List Bytes) :
    (c.batching n).stream emitted ahead = c.stream emitted ahead := by
  induction ahead generalizing emitted with
  | nil => rfl
  | cons e rest ih =>
    unfold stream
    simp only [ih, picks_batching]
    rfl

/-- What is to come does not depend on the batch size. -/
theorem pending_batching : (c.batching n).pending = c.pending := by
  unfold pending
  rw [stream_batching]
  rfl

/-- A walk stays orderly with any batch size. -/
theorem orderly_batching (hc : c.Orderly) : (c.batching n).Orderly := by
  refine ⟨hc.error, Nat.le_max_right _ _, ?_, ?_⟩
  · rw [pending_batching]
    exact hc.apart
  · rw [stream_batching]
    exact hc.unmarked

end Candidates

namespace View

variable {σ κ ρ : Type} [CustomKind κ] {v : View κ ρ} {t : Term κ ρ} {plan : Plan}
  {sink : Sink σ κ ρ}

/-! ## Walks in batches -/

/-- A walk that ends well does so without the entries behind the first that cannot be told. -/
theorem drain_told : ∀ {c : Candidates κ ρ} {d d' : Delivery σ} {demand : Demand}, c.Orderly →
    (v.drain t plan sink c).Ends d demand d' → (v.drain t plan sink c.told).Ends d demand d'
  | c, d, d', demand, hc, h => by
    match hnext : c.next with
    | (none, c', events) =>
      rw [ends_drain_none hnext] at h
      exact (ends_drain_none (Candidates.next_told hc.error hnext h.1)).mpr h
    | (some e, c', events) =>
      have hdecreases := Candidates.next_decreases hnext
      obtain ⟨hc', hpending, -, -⟩ := Candidates.next_some hc hnext
      obtain ⟨horderly, -, -⟩ := Candidates.orderly_takeUnchecked hc' (hc.rest hpending).1
      rw [ends_drain_some hnext] at h
      rw [ends_drain_some (Candidates.next_told hc.error hnext hc'.error)]
      split at h
      next hseen =>
        rw [if_pos hseen]
        exact drain_told hc' h
      next hnew =>
        rw [if_neg hnew]
        rcases h with hlast | ⟨d₁, h₁, h⟩
        · exact .inl hlast
        · exact .inr ⟨d₁, h₁, drain_told horderly h⟩
  termination_by c => (c.ahead.length, c.cache.length)
  decreasing_by
    all_goals exact hdecreases

/-- In batches of one, a walk that ends well without those entries ends well with them, unless it has to
come to them. -/
theorem drain_of_told : ∀ {c : Candidates κ ρ} {d d' : Delivery σ} {demand : Demand}, c.Orderly →
    c.batchSize = 1 → (v.drain t plan sink c.told).Ends d demand d' →
    (demand = .more → ∀ e ∈ c.ahead, c.Tells e) → (v.drain t plan sink c).Ends d demand d'
  | c, d, d', .more, hc, hone, h, htells => by
    -- Drained to the end, the walk can tell all of its entries.
    rw [Candidates.told_of_tells (htells rfl)] at h
    exact h
  | c, d, d', .enough, hc, hone, h, _ => by
    match hnext₁ : c.told.next with
    | (none, c₁, events) => cases ((ends_drain_none hnext₁).mp h).2.1
    | (some e, c₁, events) =>
      obtain ⟨c', hnext, rfl⟩ := Candidates.next_of_told hc.error hone hnext₁
      have hdecreases := Candidates.next_decreases hnext
      obtain ⟨hc', hpending, hsame, -⟩ := Candidates.next_some hc hnext
      obtain ⟨horderly, -, hsame'⟩ := Candidates.orderly_takeUnchecked hc' (hc.rest hpending).1
      have hone' := hsame.batchSize.trans hone
      rw [ends_drain_some hnext₁] at h
      rw [ends_drain_some hnext]
      split at h
      next hseen =>
        rw [if_pos hseen]
        exact drain_of_told hc' hone' h Demand.noConfusion
      next hnew =>
        rw [if_neg hnew]
        rcases h with hlast | ⟨d₁, h₁, h⟩
        · exact .inl hlast
        · exact .inr ⟨d₁, h₁, drain_of_told horderly (hsame'.batchSize.trans hone') h
            Demand.noConfusion⟩
  termination_by c => (c.ahead.length, c.cache.length)
  decreasing_by
    all_goals exact hdecreases

/-! ## Criteria in batches -/

/-- A condition whose predicate does not go by the batch size holds or fails with any. -/
theorem result_holds_batching {c : Condition κ ρ} {a : Access κ ρ} {n : Nat}
    (h : ∀ p, c = .satisfies p → Predicate.IgnoresBatch p) :
    (c.holds (a.batching n)).result = (c.holds a).result := by
  cases c with
  | satisfies p => exact h p rfl a n
  | _ => rfl

theorem result_allHold_batching {a : Access κ ρ} {n : Nat} {criteria : List (Criterion κ ρ)}
    (h : ∀ c ∈ criteria, ∀ p, c.condition = .satisfies p → Predicate.IgnoresBatch p) :
    (Criterion.allHold (a.batching n) criteria).result = (Criterion.allHold a criteria).result := by
  induction criteria with
  | nil => rfl
  | cons c criteria ih =>
    obtain ⟨hc, hrest⟩ := List.forall_mem_cons.mp h
    rw [Criterion.allHold, Criterion.allHold, Traced.result_bind, Traced.result_bind,
      result_holds_batching hc]
    refine congrArg _ (funext fun b => ?_)
    split
    next => rfl
    next => exact ih hrest

theorem result_meets_batching {key : Value κ} {record : ρ} {recheck : Bool} {n : Nat}
    {fields : List (String × List (Criterion κ ρ))}
    (h : ∀ e ∈ fields, ∀ c ∈ e.2, ∀ p, c.condition = .satisfies p → Predicate.IgnoresBatch p) :
    ((v.batching n).meets plan key record recheck fields).result =
      (v.meets plan key record recheck fields).result := by
  induction fields with
  | nil => rfl
  | cons e fields ih =>
    obtain ⟨field, criteria⟩ := e
    obtain ⟨hcriteria, hrest⟩ := List.forall_mem_cons.mp h
    rw [meets, meets]
    split
    next => exact ih hrest
    next =>
      rw [Traced.result_bind, Traced.result_bind]
      refine congrArg _ (funext fun value => ?_)
      rw [Traced.result_bind, Traced.result_bind]
      -- The access differs in the batch size alone, which the criteria do not ask for.
      have hhold : (Criterion.allHold ⟨(v.batching n).options, v.buckets, key, record, value⟩
          criteria).result =
            (Criterion.allHold ⟨v.options, v.buckets, key, record, value⟩ criteria).result :=
        result_allHold_batching (a := ⟨v.options, v.buckets, key, record, value⟩) hcriteria
      rw [show (v.batching n).buckets = v.buckets from rfl, hhold]
      refine congrArg _ (funext fun met => ?_)
      split
      next => exact ih hrest
      next => rfl

/-- One candidate is considered in the same way. -/
theorem ends_consider_batching {e : Entry} {recheck : Bool} {d d' : Delivery σ} {demand : Demand}
    {n : Nat} (ht : t.IgnoresBatch) :
    ((v.batching n).consider t plan sink e recheck).Ends d demand d' ↔
      (v.consider t plan sink e recheck).Ends d demand d' := by
  have hmeets : ∀ (key : Value κ) (record : ρ),
      ((v.batching n).meets plan key record recheck t.criteria.toList).result =
        (v.meets plan key record recheck t.criteria.toList).result := fun key record =>
    result_meets_batching fun e he => ht e.1 e.2 (t.criteria.mem_toList_iff.mp he)
  rw [ends_consider, ends_consider]
  simp only [hmeets]
  rfl

/-- And so are all of them. -/
theorem ends_sift_batching {items : List (Entry × Bool)} {d d' : Delivery σ} {demand : Demand}
    {n : Nat} (ht : t.IgnoresBatch) :
    ((v.batching n).sift t plan sink items).Ends d demand d' ↔
      (v.sift t plan sink items).Ends d demand d' := by
  induction items generalizing d with
  | nil => exact Iff.rfl
  | cons x items ih =>
    obtain ⟨e, recheck⟩ := x
    rw [ends_sift_cons, ends_sift_cons]
    simp only [ends_consider_batching ht, ih]

/-! ## Terms in batches -/

/-- A key that the walk of the term leaves to be checked comes once. That is all that is asked of an
index: its entries may be stale, leave records out or list other keys twice. -/
def ChecksOnce (v : View κ ρ) (t : Term κ ρ) : Prop :=
  ∀ plan, v.plan t = .ok plan → (v.candidates plan t).pending.Pairwise Candidates.Apart

/-- That is so if every index that is walked for values files a key once. -/
theorem checksOnce_of_oneValueEach (h : v.OneValueEach) (t : Term κ ρ) : v.ChecksOnce t :=
  fun _ hplan => (sound_candidates hplan h).1.orderly.apart

/-- The walk of a plan is orderly if no key that has to be checked comes twice. -/
theorem orderly_candidates (h : (v.candidates plan t).pending.Pairwise Candidates.Apart) :
    (v.candidates plan t).Orderly := by
  refine ⟨rfl, Nat.le_max_right _ _, h, fun k hk => ?_⟩
  cases hk

section

variable {d d' : Delivery σ} {demand : Demand} {m n : Nat}

/-- The walk of a term, in batches of any size. -/
theorem drain_batching (ht : t.IgnoresBatch)
    (hc : (v.candidates plan t).pending.Pairwise Candidates.Apart)
    (h : ((v.batching n).drain t plan sink ((v.batching n).candidates plan t)).Ends d demand d') :
    ((v.batching 1).drain t plan sink ((v.batching 1).candidates plan t)).Ends d demand d' ∧
      (demand = .more → ∀ e ∈ (v.candidates plan t).ahead, (v.candidates plan t).Tells e) := by
  have horderly : ∀ k, ((v.batching k).candidates plan t).Orderly := fun k =>
    Candidates.orderly_batching (n := max k 1) (orderly_candidates hc)
  have htold : (demand = .more → ∀ e ∈ (v.candidates plan t).ahead, (v.candidates plan t).Tells e) :=
    (drain_sift (horderly n) h).2
  refine ⟨drain_of_told (horderly 1) rfl ?_ htold, htold⟩
  -- What can be told comes in the same order in batches of any size.
  have hpending : ∀ k, ((v.batching k).candidates plan t).told.pending =
      (v.candidates plan t).told.pending := fun k =>
    Candidates.pending_batching (c := (v.candidates plan t).told) (n := max k 1)
  have hsift := (drain_sift (Candidates.orderly_told (horderly n)) (drain_told (horderly n) h)).1
  rw [hpending, ends_sift_batching ht, ← ends_sift_batching (n := 1) ht, ← hpending 1] at hsift
  exact drain_of_sift (Candidates.orderly_told (horderly 1)) Candidates.tells_told hsift

/-- If all entries can be told then the batch size makes no difference. -/
theorem drain_of_tells (ht : t.IgnoresBatch)
    (hc : (v.candidates plan t).pending.Pairwise Candidates.Apart)
    (htells : ∀ e ∈ (v.candidates plan t).ahead, (v.candidates plan t).Tells e)
    (h : ((v.batching m).drain t plan sink ((v.batching m).candidates plan t)).Ends d demand d') :
    ((v.batching n).drain t plan sink ((v.batching n).candidates plan t)).Ends d demand d' := by
  have horderly : ∀ k, ((v.batching k).candidates plan t).Orderly := fun k =>
    Candidates.orderly_batching (n := max k 1) (orderly_candidates hc)
  have hpending : ∀ k, ((v.batching k).candidates plan t).pending =
      (v.candidates plan t).pending := fun k =>
    Candidates.pending_batching (c := v.candidates plan t) (n := max k 1)
  have hsift := (drain_sift (horderly m) h).1
  rw [hpending, ends_sift_batching ht, ← ends_sift_batching (n := n) ht, ← hpending n] at hsift
  exact drain_of_sift (horderly n) htells hsift

/-- Fields and plans do not depend on the batch size. -/
theorem ends_answerTerm_batching :
    ((v.batching n).answerTerm sink t).Ends d demand d' ↔
      v.checkFields t = .ok () ∧ ∃ plan, v.plan t = .ok plan ∧
        if v.buckets.has v.typeName then
          ((v.batching n).drain t plan sink ((v.batching n).candidates plan t)).Ends d demand d'
        else demand = .more ∧ d' = d :=
  ends_answerTerm

/-- A term that is answered in batches of any size is so in batches of one; if more rows were wanted at
its end then all its entries could be told. -/
theorem answerTerm_batching (ht : t.IgnoresBatch) (hc : v.ChecksOnce t)
    (h : ((v.batching n).answerTerm sink t).Ends d demand d') :
    ((v.batching 1).answerTerm sink t).Ends d demand d' ∧ (demand = .more → v.Told t) := by
  rw [ends_answerTerm_batching] at h ⊢
  obtain ⟨hcheck, plan, hplan, hwalk⟩ := h
  by_cases hhas : v.buckets.has v.typeName = true
  · rw [if_pos hhas] at hwalk
    obtain ⟨hdrain, htold⟩ := drain_batching ht (hc plan hplan) hwalk
    refine ⟨⟨hcheck, plan, hplan, ?_⟩, fun hmore => ⟨plan, hplan, fun _ => htold hmore⟩⟩
    rw [if_pos hhas]
    exact hdrain
  · rw [if_neg hhas] at hwalk
    refine ⟨⟨hcheck, plan, hplan, ?_⟩, fun _ => ⟨plan, hplan, fun h => absurd h hhas⟩⟩
    rw [if_neg hhas]
    exact hwalk

/-- A term all of whose entries can be told is answered in the same way with any batch size. -/
theorem answerTerm_of_told (ht : t.IgnoresBatch) (hc : v.ChecksOnce t) (htold : v.Told t)
    (h : ((v.batching m).answerTerm sink t).Ends d demand d') :
    ((v.batching n).answerTerm sink t).Ends d demand d' := by
  rw [ends_answerTerm_batching] at h ⊢
  obtain ⟨hcheck, plan, hplan, hwalk⟩ := h
  obtain ⟨plan', hplan', htells⟩ := htold
  rw [hplan] at hplan'
  cases hplan'
  refine ⟨hcheck, plan, hplan, ?_⟩
  split at hwalk
  next hhas =>
    rw [if_pos hhas]
    exact drain_of_tells ht (hc plan hplan) (htells hhas) hwalk
  next hhas =>
    rw [if_neg hhas]
    exact hwalk

/-- There is a batch size at which a term that cannot be told fails, whatever was delivered before. -/
theorem exists_batch (v : View κ ρ) (t : Term κ ρ) : ∃ n, ∀ {σ : Type} {sink : Sink σ κ ρ}
    {d d' : Delivery σ} {demand : Demand},
    ((v.batching n).answerTerm sink t).Ends d demand d' → v.Told t := by
  cases hplan : v.plan t with
  | error e =>
    refine ⟨1, fun h => ?_⟩
    obtain ⟨-, plan, hplan', -⟩ := ends_answerTerm_batching.mp h
    rw [hplan] at hplan'
    cases hplan'
  | ok plan =>
    -- The batch has room for all candidates of the term.
    obtain ⟨n, hroom⟩ : ∃ n, (v.candidates plan t).pending.length < n := ⟨_, Nat.lt_succ_self _⟩
    refine ⟨n, fun h => ⟨plan, hplan, fun hhas => ?_⟩⟩
    obtain ⟨-, plan', hplan', hwalk⟩ := ends_answerTerm_batching.mp h
    rw [hplan] at hplan'
    cases hplan'
    rw [if_pos hhas] at hwalk
    have hpending : ((v.batching n).candidates plan t).pending = (v.candidates plan t).pending :=
      Candidates.pending_batching (c := v.candidates plan t) (n := max n 1)
    refine Candidates.tells_of_room (c := (v.batching n).candidates plan t) rfl rfl ?_
      fun hnext => ((ends_drain_none hnext).mp hwalk).1
    rw [hpending]
    exact hroom.trans_le ((Nat.le_max_left _ _).trans (Nat.le_max_left _ _))

/-! ## Queries in batches -/

/-- A term that is begun when terms are answered to a delivery. -/
def Begins (v : View κ ρ) (sink : Sink σ κ ρ) (terms : List (Term κ ρ)) (d : Delivery σ)
    (t : Term κ ρ) : Prop :=
  ∃ before after d', terms = before ++ t :: after ∧
    (v.answerTerms sink before).Ends d .more d'

theorem begins_head {terms : List (Term κ ρ)} : v.Begins sink (t :: terms) d t :=
  ⟨[], terms, d, rfl, Step.ends_pure.mpr ⟨rfl, rfl⟩⟩

/-- If the first term leaves more to be wanted then a term begun after it is begun. -/
theorem begins_tail {terms : List (Term κ ρ)} {t' : Term κ ρ}
    (ht : (v.answerTerm sink t).Ends d .more d') (h : v.Begins sink terms d' t') :
    v.Begins sink (t :: terms) d t' := by
  obtain ⟨before, after, d₁, rfl, hbefore⟩ := h
  refine ⟨t :: before, after, d₁, rfl, ?_⟩
  rw [answerTerms, Step.ends_bind]
  exact ⟨.more, d', ht, hbefore⟩

/-- Terms that were answered were answered up to any of them. -/
theorem answerTerms_append {before after : List (Term κ ρ)}
    (h : (v.answerTerms sink (before ++ after)).Ends d demand d') :
    ∃ demand₁ d₁, (v.answerTerms sink before).Ends d demand₁ d₁ ∧
      (demand₁ = .more → (v.answerTerms sink after).Ends d₁ demand d') := by
  induction before generalizing d with
  | nil => exact ⟨.more, d, Step.ends_pure.mpr ⟨rfl, rfl⟩, fun _ => h⟩
  | cons t before ih =>
    rw [List.cons_append, answerTerms, Step.ends_bind] at h
    obtain ⟨demand₁, d₁, h₁, h⟩ := h
    simp only [answerTerms, Step.ends_bind]
    cases demand₁ with
    | enough =>
      exact ⟨.enough, d₁, ⟨.enough, d₁, h₁, Step.ends_pure.mpr ⟨rfl, rfl⟩⟩, Demand.noConfusion⟩
    | more =>
      obtain ⟨demand₂, d₂, h₂, hafter⟩ := ih h
      exact ⟨demand₂, d₂, ⟨.more, d₁, h₁, h₂⟩, hafter⟩

/-- Terms that are answered in batches of any size are so in batches of one; if more rows were wanted at
the end then all entries of all terms could be told. -/
theorem answerTerms_batching {terms : List (Term κ ρ)}
    (ht : ∀ t ∈ terms, t.IgnoresBatch ∧ v.ChecksOnce t)
    (h : ((v.batching n).answerTerms sink terms).Ends d demand d') :
    ((v.batching 1).answerTerms sink terms).Ends d demand d' ∧
      (demand = .more → ∀ t ∈ terms, v.Told t) := by
  induction terms generalizing d with
  | nil => exact ⟨h, fun _ => by simp⟩
  | cons t terms ih =>
    obtain ⟨⟨hignores, hc⟩, hrest⟩ := List.forall_mem_cons.mp ht
    rw [answerTerms, Step.ends_bind] at h ⊢
    obtain ⟨demand₁, d₁, h₁, h⟩ := h
    obtain ⟨hhead, htold⟩ := answerTerm_batching hignores hc h₁
    cases demand₁ with
    | enough =>
      obtain ⟨rfl, rfl⟩ := Step.ends_pure.mp h
      exact ⟨⟨.enough, d', hhead, Step.ends_pure.mpr ⟨rfl, rfl⟩⟩, Demand.noConfusion⟩
    | more =>
      obtain ⟨htail, htolds⟩ := ih hrest h
      refine ⟨⟨.more, d₁, hhead, htail⟩, fun hmore => ?_⟩
      exact List.forall_mem_cons.mpr ⟨htold rfl, htolds hmore⟩

/-- If every term that is begun can be told then the batch size makes no difference. -/
theorem answerTerms_of_told {terms : List (Term κ ρ)}
    (ht : ∀ t ∈ terms, t.IgnoresBatch ∧ v.ChecksOnce t)
    (htold : ∀ t, (v.batching m).Begins sink terms d t → v.Told t)
    (h : ((v.batching m).answerTerms sink terms).Ends d demand d') :
    ((v.batching n).answerTerms sink terms).Ends d demand d' := by
  induction terms generalizing d with
  | nil => exact h
  | cons t terms ih =>
    obtain ⟨⟨hignores, hc⟩, hrest⟩ := List.forall_mem_cons.mp ht
    rw [answerTerms, Step.ends_bind] at h ⊢
    obtain ⟨demand₁, d₁, h₁, h⟩ := h
    refine ⟨demand₁, d₁, answerTerm_of_told hignores hc (htold t begins_head) h₁, ?_⟩
    cases demand₁ with
    | enough => exact h
    | more => exact ih hrest (fun t' ht' => htold t' (begins_tail h₁ ht')) h

/-- And if terms are answered at every batch size then every term that is begun can be told. -/
theorem told_of_answerTerms {terms : List (Term κ ρ)}
    (ht : ∀ t ∈ terms, t.IgnoresBatch ∧ v.ChecksOnce t)
    (h : ∀ n, ∃ demand d', ((v.batching n).answerTerms sink terms).Ends d demand d')
    (hbegins : (v.batching 1).Begins sink terms d t) : v.Told t := by
  obtain ⟨before, after, d₁, rfl, hbefore⟩ := hbegins
  obtain ⟨n, hfails⟩ := exists_batch v t
  obtain ⟨demand, d', hends⟩ := h n
  obtain ⟨demand₁, d₂, hbefore', hafter⟩ := answerTerms_append hends
  have hsmall := (answerTerms_batching (fun t' ht' => ht t' (List.mem_append_left _ ht')) hbefore').1
  obtain ⟨rfl, rfl⟩ := hbefore.unique hsmall
  obtain ⟨demand₂, d₃, hterm, -⟩ := Step.ends_bind.mp (hafter rfl)
  exact hfails hterm

end

/-- A term that a query comes to. With a limit of zero it comes to none. -/
def Reaches (v : View κ ρ) (q : Query κ ρ) (t : Term κ ρ) : Prop :=
  q.limit ≠ some 0 ∧ v.Begins keepRow q.terms (opening q) t

section

variable {q : Query κ ρ} {rows : List (Row κ ρ)} {m n : Nat}

/-- The rows of a query with a batch size, by the delivery that its terms are answered to. -/
theorem rows_batching_iff : ((v.batching n).rows q).result = .ok rows ↔
    if q.limit = some 0 then v.planAll q.terms = .ok () ∧ rows = []
    else ∃ demand d, ((v.batching n).answerTerms keepRow q.terms).Ends (opening q) demand d ∧
      v.closing q d.inner.reverse = .ok rows := by
  have hplanAll : ∀ terms : List (Term κ ρ), (v.batching n).planAll terms = v.planAll terms := by
    intro terms
    induction terms with
    | nil => rfl
    | cons t terms ih =>
      rw [planAll, planAll, ih]
      rfl
  rw [rows_iff, hplanAll]
  rfl

/-- A query that succeeds with some batch size succeeds in batches of one. -/
theorem rows_batching (ht : ∀ t ∈ q.terms, t.IgnoresBatch ∧ v.ChecksOnce t)
    (h : ((v.batching n).rows q).result = .ok rows) :
    ((v.batching 1).rows q).result = .ok rows := by
  rw [rows_batching_iff] at h ⊢
  split at h
  next hzero =>
    rw [if_pos hzero]
    exact h
  next hwants =>
    rw [if_neg hwants]
    obtain ⟨demand, d, hterms, hclosing⟩ := h
    exact ⟨demand, d, (answerTerms_batching ht hterms).1, hclosing⟩

/-- It succeeds with every batch size if each term that it comes to can be told. -/
theorem rows_of_told (ht : ∀ t ∈ q.terms, t.IgnoresBatch ∧ v.ChecksOnce t)
    (htold : ∀ t, (v.batching m).Reaches q t → v.Told t)
    (h : ((v.batching m).rows q).result = .ok rows) :
    ((v.batching n).rows q).result = .ok rows := by
  rw [rows_batching_iff] at h ⊢
  split at h
  next hzero =>
    rw [if_pos hzero]
    exact h
  next hwants =>
    rw [if_neg hwants]
    obtain ⟨demand, d, hterms, hclosing⟩ := h
    exact ⟨demand, d, answerTerms_of_told ht (fun t hbegins => htold t ⟨hwants, hbegins⟩) hterms,
      hclosing⟩

/-- A query that has the same rows with every batch size comes only to terms whose entries can be told.
-/
theorem told_of_rows (ht : ∀ t ∈ q.terms, t.IgnoresBatch ∧ v.ChecksOnce t)
    (h : ∀ n, ((v.batching n).rows q).result = .ok rows) (hreaches : (v.batching 1).Reaches q t) :
    v.Told t := by
  refine told_of_answerTerms ht (fun n => ?_) hreaches.2
  have hrows := h n
  rw [rows_batching_iff, if_neg hreaches.1] at hrows
  obtain ⟨demand, d, hterms, -⟩ := hrows
  exact ⟨demand, d, hterms⟩

/-- Without a limit, and if the rows are ordered, each walk has to come to its end with any batch
size. -/
theorem told_of_unlimited (ht : ∀ t ∈ q.terms, t.IgnoresBatch ∧ v.ChecksOnce t)
    (hlimit : q.isOrdered = true ∨ q.limit = none)
    (h : ((v.batching m).rows q).result = .ok rows) (hreaches : (v.batching m).Reaches q t) :
    v.Told t := by
  rw [rows_batching_iff, if_neg hreaches.1] at h
  obtain ⟨demand, d, hterms, -⟩ := h
  obtain ⟨before, after, -, hterm, -⟩ := hreaches.2
  refine (answerTerms_batching ht hterms).2 (more_of_answerTerms (remaining_opening hlimit) hterms) t ?_
  rw [hterm]
  exact List.mem_append_right _ (List.mem_cons_self ..)

end

end View

namespace Store

variable {κ ρ : Type} [CustomKind κ] {s : Store} {type : RecordType κ ρ} {b : Buckets}
  {q : Query κ ρ}

/-- What the batch size makes of a query. If it succeeds with any batch size then it has the same rows in
batches of one; it has them with every batch size exactly if in batches of one it comes to no term with
an entry ahead that cannot be told; and without a limit, or if the rows are ordered, the batch size makes
no difference. Predicates must not go by the batch size themselves, and a key that is listed with a
custom value must not come twice. -/
theorem find_batching (hignores : ∀ t ∈ q.terms, t.IgnoresBatch)
    (hchecks : ∀ t ∈ q.terms, (s.view type b).ChecksOnce t) (rows : List (Row κ ρ)) :
    (∀ n, ((s.batching n).find type b q).result = .ok rows →
      ((s.batching 1).find type b q).result = .ok rows) ∧
    ((∀ n, ((s.batching n).find type b q).result = .ok rows) ↔
      ((s.batching 1).find type b q).result = .ok rows ∧
        ∀ t, ((s.batching 1).view type b).Reaches q t → (s.view type b).Told t) ∧
    (q.isOrdered = true ∨ q.limit = none → ∀ m n,
      ((s.batching m).find type b q).result = .ok rows ↔
        ((s.batching n).find type b q).result = .ok rows) := by
  have ht : ∀ t ∈ q.terms, t.IgnoresBatch ∧ (s.view type b).ChecksOnce t := fun t ht =>
    ⟨hignores t ht, hchecks t ht⟩
  have hfind : ∀ n, ((s.batching n).find type b q).result =
      (((s.view type b).batching n).rows q).result := fun _ => rfl
  simp only [hfind]
  refine ⟨fun n h => View.rows_batching ht h, ⟨fun h => ⟨h 1, fun t => View.told_of_rows ht h⟩,
    fun h n => View.rows_of_told ht h.2 h.1⟩, fun hlimit m n => ⟨fun h => ?_, fun h => ?_⟩⟩
  · exact View.rows_of_told ht (fun t => View.told_of_unlimited ht hlimit h) h
  · exact View.rows_of_told ht (fun t => View.told_of_unlimited ht hlimit h) h

section Parcels

/-- A light parcel under a text comes behind the heavy one under the key 3. -/
def namedParcel : Buckets := (standard.insert parcels (.string "a") false heavyParcel).2

theorem entries_namedParcel : namedParcel.entries parcels.name =
    [(Keycode.encode (.uint 3 : Value Empty), Text.utf8 "true"),
      (Keycode.encode (.string "a" : Value Empty), Text.utf8 "false")] := by
  decide +kernel

/-- Parcels under keys up to three. A text cannot be compared with that. -/
def upToThree : Term Empty Bool := Term.all.addCriterion keyField ⟨.compares .le (.int 3), false⟩

/-- One parcel under a key up to three. -/
def oneUpToThree : Query Empty Bool := ⟨.mk upToThree [], [], false, 0, some 1⟩

theorem checksOnce_upToThree {b : Buckets} : (standard.view parcels b).ChecksOnce upToThree := by
  intro plan hplan
  cases hplan
  exact (View.sound_records (.inr rfl) rfl).1.orderly.apart

theorem ignoresBatch_upToThree : upToThree.IgnoresBatch := by
  intro field criteria hfind c hc p hp
  have hall : ∀ e ∈ upToThree.criteria.toList, ∀ c ∈ e.2, c.condition.isPredicate = false := by
    decide
  have hfalse := hall (field, criteria) (upToThree.criteria.mem_toList_iff.mpr hfind) c hc
  rw [hp] at hfalse
  cases hfalse

/-- The walk for these parcels in batches of one, in any state. -/
def walkUpToThree (b : Buckets) : Candidates Empty Bool :=
  ((standard.batching 1).view parcels b).candidates (.primaryKey "Parcels") upToThree

/-- The key 3 is one up to three. -/
theorem expand_heavy (b : Buckets) :
    (walkUpToThree b).expand (Keycode.encode (.uint 3 : Value Empty), Text.utf8 "true") =
      .ok (.candidate (Keycode.encode (.uint 3 : Value Empty), Text.utf8 "true")) := by
  cbv

/-- The text under the second key cannot be compared with three. -/
theorem expand_named (b : Buckets) :
    (walkUpToThree b).expand (Keycode.encode (.string "a" : Value Empty), Text.utf8 "false") =
      .error (.typeMismatch "String" "Int") := by
  cbv

/-- In batches of one the heavy parcel is yielded before the second key is looked at. -/
theorem next_upToThree {b : Buckets}
    (hahead : (walkUpToThree b).ahead = namedParcel.entries parcels.name) :
    ∃ c', (walkUpToThree b).next =
      (some (Keycode.encode (.uint 3 : Value Empty), Text.utf8 "true"), c', []) := by
  rw [Candidates.next_of_no_error (c := walkUpToThree b) Bool.false_ne_true, hahead,
    entries_namedParcel, Candidates.fill_of_room (c := walkUpToThree b) Nat.one_pos, expand_heavy]
  exact ⟨_, rfl⟩

/-- In batches of one the heavy parcel is found. -/
theorem find_oneUpToThree {b : Buckets}
    (hrecords : b.entries parcels.name = namedParcel.entries parcels.name) :
    ((standard.batching 1).find parcels b oneUpToThree).result = .ok [heavyRow] := by
  obtain ⟨c', hnext⟩ := next_upToThree hrecords
  have hmeets : ∀ recheck, (((standard.batching 1).view parcels b).meets (.primaryKey "Parcels")
      (.int 3) true recheck upToThree.criteria.toList).result = .ok true := by
    intro recheck
    cases recheck <;> cbv
  have hdrain : (((standard.batching 1).view parcels b).drain upToThree (.primaryKey "Parcels")
      View.keepRow (walkUpToThree b)).Ends ⟨none, 0, some 1, 0, []⟩ .enough
        ⟨none, 0, some 0, 1, [heavyRow]⟩ := by
    rw [View.ends_drain_some hnext, if_neg (by decide)]
    refine .inl ⟨?_, rfl⟩
    rw [View.ends_consider, if_neg (by decide)]
    refine ⟨.int 3, true, true, by cbv, by cbv, hmeets _, ?_⟩
    rw [if_pos rfl, View.ends_offer_keepRow]
    exact ⟨rfl, rfl⟩
  have hhas : b.has parcels.name = true := by
    refine Buckets.has_of_entries ?_
    rw [hrecords, entries_namedParcel]
    exact List.cons_ne_nil _ _
  show (((standard.batching 1).view parcels b).rows oneUpToThree).result = _
  rw [View.rows_iff, if_neg (by decide)]
  refine ⟨.enough, ⟨none, 0, some 0, 1, [heavyRow]⟩, ?_, rfl⟩
  refine View.ends_answerTerms_singleton.mpr ?_
  refine View.ends_answerTerm.mpr ⟨by cbv, .primaryKey "Parcels", rfl, ?_⟩
  show if b.has parcels.name = true then _ else _
  rw [if_pos hhas]
  exact hdrain

/-- In larger batches it is not, as the other parcel is fetched with it. -/
theorem find_batching_namedParcel :
    (∀ t ∈ oneUpToThree.terms, t.IgnoresBatch) ∧
      (∀ t ∈ oneUpToThree.terms, (standard.view parcels namedParcel).ChecksOnce t) ∧
      ((standard.batching 1).find parcels namedParcel oneUpToThree).result = .ok [heavyRow] ∧
      ¬∀ n, ((standard.batching n).find parcels namedParcel oneUpToThree).result = .ok [heavyRow] := by
  have hignores : ∀ t ∈ oneUpToThree.terms, t.IgnoresBatch := by
    intro t ht
    cases List.mem_singleton.mp ht
    exact ignoresBatch_upToThree
  have hchecks : ∀ t ∈ oneUpToThree.terms, (standard.view parcels namedParcel).ChecksOnce t := by
    intro t ht
    cases List.mem_singleton.mp ht
    exact checksOnce_upToThree
  refine ⟨hignores, hchecks, find_oneUpToThree rfl, fun hall => ?_⟩
  obtain ⟨-, htold⟩ := (find_batching hignores hchecks [heavyRow]).2.1.mp hall
  obtain ⟨plan, hplan, htells⟩ := htold upToThree ⟨by decide, View.begins_head⟩
  cases hplan
  have hnamed : (Keycode.encode (.string "a" : Value Empty), Text.utf8 "false") ∈
      namedParcel.entries parcels.name := by
    rw [entries_namedParcel]
    simp
  obtain ⟨x, hx⟩ := htells (Buckets.has_of_entries (List.ne_nil_of_mem hnamed)) _ hnamed
  have herror := expand_named namedParcel
  rw [show (walkUpToThree namedParcel).expand _ = _ from hx] at herror
  cases herror

end Parcels

end Store

end RecordStore
