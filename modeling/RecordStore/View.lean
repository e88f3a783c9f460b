import RecordStore.Candidates
import RecordStore.Row

/-!
# Running queries

A `View` is a type of records in one state of the store. `View.run` answers a query in it: term by
term, candidates are decoded, the criteria that the walk has not settled are evaluated, a key that
an earlier term delivered is passed over, and the rest goes through paging to the sink. If the query
orders its rows they are collected first. Nothing is walked for a limit of zero, but every term is
checked all the same.
-/

namespace RecordStore

/-- A type of records in one state of the store. -/
structure View (κ ρ : Type) where
  options : Options
  type : RecordType κ ρ
  buckets : Buckets

/-- How far the delivery of rows has come: the keys that were selected (if they are kept), the rows
still to be passed over, the rows that may still be delivered, those that were, and the state of
the sink. -/
structure Delivery (σ : Type) where
  seen : Option (List Bytes)
  skip : Nat
  remaining : Option Nat
  delivered : Nat
  inner : σ

namespace Delivery

variable {σ κ ρ : Type}

/-- Whether an earlier term has selected a key. -/
def hasSeen (d : Delivery σ) (key : Bytes) : Bool := d.seen.any (·.contains key)

/-- Keeps a selected key in mind. -/
def mark (d : Delivery σ) (key : Bytes) : Delivery σ := { d with seen := d.seen.map (key :: ·) }

/-- Takes a selected row: past the rows to be skipped it is handed to the sink, and when the last
row wanted was handed over the query is over. -/
def offer (sink : Sink σ κ ρ) (row : Row κ ρ) : Step (Delivery σ) Demand := fun d =>
  let d := d.mark row.rawKey
  if d.skip > 0 then (pure .more, { d with skip := d.skip - 1 })
  else
    let remaining := d.remaining.map (· - 1)
    let (t, inner) := sink row d.inner
    let d := { d with remaining, delivered := d.delivered + 1, inner }
    match t.result with
    | .ok .more => (⟨.ok (if remaining = some 0 then .enough else .more), t.events⟩, d)
    | r => (⟨r, t.events⟩, d)

end Delivery

namespace Candidates

variable {κ ρ : Type} [CustomKind κ]

/-! ### Each candidate shortens the walk -/

theorem length_ahead_fill_le (c : Candidates κ ρ) (ahead : List Entry) :
    (c.fill ahead).1.ahead.length ≤ ahead.length := by
  induction ahead generalizing c with
  | nil => simp [fill]
  | cons e rest ih =>
    simp only [fill]
    split
    · split
      · simp
      · exact Nat.le_succ_of_le (ih _)
      · exact Nat.le_succ_of_le (ih _)
      · exact Nat.le_succ_of_le (ih _)
    · simp

/-- A batch that brings anything has used up an entry. -/
theorem length_ahead_fill_lt (c : Candidates κ ρ) (ahead : List Entry) (h : c.cache = []) :
    (c.fill ahead).1.cache = [] ∨ (c.fill ahead).1.ahead.length < ahead.length := by
  cases ahead with
  | nil => simp [fill, h]
  | cons e rest =>
    simp only [fill]
    split
    · right
      split
      · simp
      · exact Nat.lt_succ_of_le (length_ahead_fill_le _ _)
      · exact Nat.lt_succ_of_le (length_ahead_fill_le _ _)
      · exact Nat.lt_succ_of_le (length_ahead_fill_le _ _)
    · exact .inl h

/-- After a candidate there is less to walk, or as much to walk and less fetched. -/
theorem next_decreases {c c' : Candidates κ ρ} {e : Entry} {events : List Event}
    (h : c.next = (some e, c', events)) :
    Prod.Lex (· < ·) (· < ·)
      (c'.ahead.length, c'.cache.length) (c.ahead.length, c.cache.length) := by
  simp only [next] at h
  split at h
  · simp at h
  · by_cases hc : c.cache = []
    · simp only [hc, List.isEmpty_nil, if_true] at h
      split at h
      · simp at h
      · next d rest hd =>
        obtain ⟨-, rfl, -⟩ := by simpa using h
        have := length_ahead_fill_lt c c.ahead hc
        rw [hd] at this
        exact Prod.Lex.left _ _ (by simpa using this)
    · obtain ⟨d, rest, hd⟩ := List.exists_cons_of_ne_nil hc
      simp only [hd, List.isEmpty_cons, Bool.false_eq_true, if_false] at h
      obtain ⟨-, rfl, -⟩ := by simpa using h
      exact Prod.Lex.right _ (by simp [hd])

end Candidates

namespace View

variable {σ κ ρ : Type} [CustomKind κ]

/-- The name of the type, which is that of the bucket of its records. -/
def typeName (v : View κ ρ) : String := v.type.name

/-- The codec of records and key lists. -/
def codec (v : View κ ρ) : Codec := v.options.codec

/-- The record of stored bytes. -/
def decode (v : View κ ρ) (bytes : Bytes) : Except Error ρ := v.codec.read v.type.ofJson? bytes

/-- The plan of a term. -/
def plan (v : View κ ρ) (t : Term κ ρ) : Except Error Plan :=
  Plan.ofTerm v.type.schema v.buckets t

/-- Fails if a criterion is on a field that the type does not have. -/
def checkFields (v : View κ ρ) (t : Term κ ρ) : Except Error Unit :=
  v.type.schema.requireFields t.criteria.keys

/-- Whether a record meets the criteria that the walk has not settled; with `recheck` all of them,
by field in name order. -/
def meets (v : View κ ρ) (plan : Plan) (key : Value κ) (record : ρ) (recheck : Bool) :
    List (String × List (Criterion κ ρ)) → Traced Bool
  | [] => pure true
  | (field, criteria) :: rest => do
    if !recheck && plan.covers field then v.meets plan key record recheck rest
    else
      let value ← v.type.schema.valueOf key record field
      if ← Criterion.allHold ⟨v.options, v.buckets, key, record, value⟩ criteria then
        v.meets plan key record recheck rest
      else pure false

/-- The candidates of a planned term. -/
def candidates (v : View κ ρ) (plan : Plan) (t : Term κ ρ) : Candidates κ ρ :=
  .ofPlan v.buckets plan v.typeName (plan.walkCriteria t) v.codec v.options.batchInForce

/-- Goes through candidates, offering those that meet the criteria. -/
def drain (v : View κ ρ) (t : Term κ ρ) (plan : Plan) (sink : Sink σ κ ρ)
    (c : Candidates κ ρ) : Step (Delivery σ) Demand :=
  match _h : c.next with
  | (none, c', events) => do
    Traced.reportAll events
    match c'.error with
    | some e => .fail e
    | none => pure .more
  | (some (rawKey, bytes), c', events) => do
    Traced.reportAll events
    if (← Step.get).hasSeen rawKey then v.drain t plan sink c'
    else
      let key : Value κ ← Keycode.decode rawKey
      let record ← v.decode bytes
      let recheck := c'.takeUnchecked rawKey
      if ← v.meets plan key record recheck.1 t.criteria.toList then
        match ← Delivery.offer sink ⟨key, record, rawKey⟩ with
        | .enough => pure .enough
        | .more => v.drain t plan sink recheck.2
      else v.drain t plan sink recheck.2
termination_by (c.ahead.length, c.cache.length)
decreasing_by
  all_goals
    have := Candidates.next_decreases _h
    exact this

/-- Answers one term: checks its fields, plans it, reports the plan and goes through the
candidates. Without a bucket of records there are none. -/
def answerTerm (v : View κ ρ) (sink : Sink σ κ ρ) (t : Term κ ρ) : Step (Delivery σ) Demand := do
  v.checkFields t
  let plan ← v.plan t
  Traced.report (.scanPlanned v.typeName plan.scan.name plan.bucket)
  if plan.badIndex then
    Traced.report (.indexFallback v.typeName (plan.index.getD ""))
  if v.buckets.has v.typeName then v.drain t plan sink (v.candidates plan t)
  else pure .more

/-- Answers terms in order until no more rows are wanted. -/
def answerTerms (v : View κ ρ) (sink : Sink σ κ ρ) : List (Term κ ρ) → Step (Delivery σ) Demand
  | [] => pure .more
  | t :: ts => do
    match ← v.answerTerm sink t with
    | .enough => pure .enough
    | .more => v.answerTerms sink ts

/-- Checks and plans terms without walking anything. -/
def planAll (v : View κ ρ) : List (Term κ ρ) → Except Error Unit
  | [] => .ok ()
  | t :: ts => do
    v.checkFields t
    let _ ← v.plan t
    v.planAll ts

/-- Selects the rows of a query, with paging, and counts those that were handed over. Keys are kept
in mind only if there are alternatives that might select them again. -/
def select (v : View κ ρ) (q : Query κ ρ) (skip : Nat) (limit : Option Nat) (sink : Sink σ κ ρ) :
    Step σ Nat := fun s =>
  let seen := if q.hasBranches then some [] else none
  let (t, d) := v.answerTerms sink q.terms
    { seen, skip, remaining := limit, delivered := 0, inner := s }
  (⟨t.result.map fun _ => d.delivered, t.events⟩, d.inner)

/-- Hands rows over until no more are wanted, and counts them. -/
def deliver (sink : Sink σ κ ρ) : List (Row κ ρ) → Step σ Nat
  | [] => pure 0
  | row :: rows => do
    match ← sink row with
    | .enough => pure 1
    | .more =>
      let n ← deliver sink rows
      pure (n + 1)

/-- A sink that keeps every row, the last one first. -/
def keepRow : Sink (List (Row κ ρ)) κ ρ := fun row rows => (pure .more, row :: rows)

/-- The rows of a selection in the order they are found. -/
def collect (v : View κ ρ) (q : Query κ ρ) : Traced (List (Row κ ρ)) :=
  let (t, rows) := v.select q 0 none keepRow []
  ⟨t.result.map fun _ => rows.reverse, t.events⟩

/-- Answers a query: hands its rows to the sink until it wants no more, and counts them. -/
def run (v : View κ ρ) (q : Query κ ρ) (sink : Sink σ κ ρ) : Step σ Nat := do
  if q.limit = some 0 then
    v.planAll q.terms
    pure 0
  else if !q.isOrdered then v.select q q.skip q.limit sink
  else
    let rows ← v.collect q
    let sorted ← Row.sort v.type.schema q.sort q.reverse rows
    let rest := sorted.drop q.skip
    deliver sink (match q.limit with
      | some limit => rest.take limit
      | none => rest)

/-- All rows of a query. -/
def rows (v : View κ ρ) (q : Query κ ρ) : Traced (List (Row κ ρ)) :=
  let (t, rows) := v.run q keepRow []
  ⟨t.result.map fun _ => rows.reverse, t.events⟩

end View

end RecordStore
