import RecordStore.Group
import RecordStore.Store

/-!
# Queries on a store

The ways to ask a query: all rows, the first row, their number, each row in turn, groups; and the
two ways to change what a query selects. The rows to be changed are selected before the first of
them is changed. Every query that is run reports how it ended, unless a sort stopped it.
-/

namespace RecordStore.Store

variable {σ κ ρ : Type} [CustomKind κ]

/-- Reports how a query ended: with a number of rows, or with an error that has a code. -/
def outcome {α : Type} (q : Query κ ρ) (rows : α → Nat) (r : Except Error α) : List Event :=
  match r with
  | .ok a => [.queryComplete (rows a) q.text]
  | .error e => e.code.toList.map fun code => .queryFailed code.name q.text

/-- Adds the report of how a query ended. -/
def withOutcome {α : Type} (q : Query κ ρ) (rows : α → Nat) (t : Traced α) : Traced α :=
  ⟨t.result, t.events ++ outcome q rows t.result⟩

/-- Runs a query and reports how it ended. -/
def ask (s : Store) (t : RecordType κ ρ) (buckets : Buckets) (q : Query κ ρ) (sink : Sink σ κ ρ) :
    Step σ Nat := fun state =>
  let (answer, state) := (s.view t buckets).run q sink state
  (withOutcome q id answer, state)

/-- All rows of a query. -/
def find (s : Store) (t : RecordType κ ρ) (buckets : Buckets) (q : Query κ ρ) :
    Traced (List (Row κ ρ)) :=
  withOutcome q List.length ((s.view t buckets).rows q)

/-- A sink that keeps the first row and wants no other. -/
def keepFirst : Sink (Option (Row κ ρ)) κ ρ := fun row _ => (pure .enough, some row)

/-- The first row of a query. -/
def findOne (s : Store) (t : RecordType κ ρ) (buckets : Buckets) (q : Query κ ρ) :
    Traced (Row κ ρ) :=
  let (answer, first) := s.ask t buckets q keepFirst none
  answer.andThen fun _ =>
    match first with
    | some row => pure row
    | none => .fail (.notFound (t.name ++ " matching " ++ q.text))

/-- A sink that only lets itself be counted. -/
def countOnly : Sink Unit κ ρ := fun _ _ => (pure .more, ())

/-- The number of rows of a query. -/
def count (s : Store) (t : RecordType κ ρ) (buckets : Buckets) (q : Query κ ρ) : Traced Nat :=
  (s.ask t buckets q countOnly ()).1

/-- Hands each row of a query to `f`; an error of `f` ends the query. -/
def forEach (s : Store) (t : RecordType κ ρ) (buckets : Buckets) (q : Query κ ρ)
    (f : Row κ ρ → Step σ Unit) : Step σ Unit := do
  let _ ← s.ask t buckets q fun row => do
    f row
    pure .more

/-- The groups of the rows of a query by fields; order and paging of the query do not count. -/
def findGroups (s : Store) (t : RecordType κ ρ) (buckets : Buckets) (q : Query κ ρ)
    (fields : List String) : Traced (List (Group κ ρ)) := do
  let start ← Grouping.start t.schema fields
  let (answer, grouping) := s.ask t buckets q.withoutOrder Grouping.sink start
  let _ ← answer
  pure grouping.groups

/-- Changes rows one after the other: each is taken out of the indexes, changed and written. The
change may go by what it has done before. -/
def changeRows (s : Store) (t : RecordType κ ρ) (change : σ → ρ → Except Error (ρ × σ)) :
    σ → List (Row κ ρ) → Step Buckets Unit
  | _, [] => pure ()
  | state, row :: rows => do
    s.unfile t row.rawKey row.record
    let (record, state) ← change state row.record
    s.write t row.rawKey record
    s.changeRows t change state rows

/-- Changes the records that a query selects, and counts them. -/
def updateMatching (s : Store) (t : RecordType κ ρ) (q : Query κ ρ)
    (change : σ → ρ → Except Error (ρ × σ)) (state : σ) : Step Buckets Nat := do
  let rows ← s.find t (← Step.get) q
  s.changeRows t change state rows
  pure rows.length

/-- Takes out the records that a query selects, and counts them. -/
def deleteMatching (s : Store) (t : RecordType κ ρ) (q : Query κ ρ) : Step Buckets Nat := do
  let rows ← s.find t (← Step.get) q
  rows.forM fun row => s.take t row.rawKey row.record
  pure rows.length

/-- How a query would be run. -/
def explain (_ : Store) (t : RecordType κ ρ) (buckets : Buckets) (q : Query κ ρ) :
    Except Error Explanation :=
  Explanation.ofQuery t.schema buckets q

end RecordStore.Store

namespace RecordStore.Access

variable {κ ρ τ : Type} [CustomKind κ]

/-- The store a predicate may ask further queries. -/
def store (a : Access κ ρ) : Store := ⟨a.options⟩

/-- Runs another query in the state that the running query sees. -/
def find (a : Access κ ρ) (t : RecordType κ τ) (q : Query κ τ) : Traced (List (Row κ τ)) :=
  a.store.find t a.buckets q

/-- Groups the rows of another query in the state that the running query sees. -/
def findGroups (a : Access κ ρ) (t : RecordType κ τ) (q : Query κ τ) (fields : List String) :
    Traced (List (Group κ τ)) :=
  a.store.findGroups t a.buckets q fields

end RecordStore.Access
