import RecordStore.Index
import RecordStore.Query

/-!
# Scan plans

A `Plan` says which bucket a term walks and which criteria the walk itself settles. Without a
hint the records are walked in key order. A hint is followed where the index can serve; where it
cannot, all records are walked and every criterion is evaluated on the record, so that a bad hint
costs time and never rows. An `Explanation` is the list of plans of a query.
-/

namespace RecordStore

/-- How a term is walked. -/
inductive Scan where
  /-- The records in key order; criteria on the key are settled by the walk. -/
  | primaryKey
  /-- A scalar index. -/
  | index
  /-- A slice index, each record once. -/
  | sliceIndex
  /-- The records in key order; nothing is settled by the walk. -/
  | full
  deriving DecidableEq, Repr

/-- The name of a scan. -/
def Scan.name : Scan → String
  | .primaryKey => "PK_SCAN"
  | .index => "INDEX_SCAN"
  | .sliceIndex => "SLICE_INDEX_SCAN"
  | .full => "FULL_SCAN"

/-- How one term is walked. -/
structure Plan where
  scan : Scan
  /-- The bucket that is walked. -/
  bucket : String
  /-- The index that was asked for. -/
  index : Option String
  /-- The field whose criteria the walk settles. -/
  covered : Option String
  /-- The index that was asked for is there in the schema but cannot serve. -/
  badIndex : Bool
  deriving DecidableEq, Repr

namespace Plan

/-- Walks all records in key order. -/
def primaryKey (typeName : String) : Plan :=
  ⟨.primaryKey, typeName, none, some keyField, false⟩

/-- Walks all records because an index cannot serve. -/
def fallback (typeName index : String) : Plan := ⟨.full, typeName, some index, none, true⟩

/-- The text of a plan. -/
def text (p : Plan) : String :=
  p.scan.name ++ " " ++ p.bucket ++
    match p.badIndex, p.index with
    | true, some index => " (index " ++ index ++ " unusable)"
    | _, _ => ""

variable {κ ρ : Type}

/-- Plans a term that names an index of the type. The index cannot serve if its bucket is missing
or a predicate is attached to its field; a slice index also needs a criterion that asks for an item.
The walk of a slice index only narrows the candidates. A scalar index settles the criteria on its
field unless an operand holds a value of the user's own kind, which cannot be compared with what
the index stores. -/
def ofIndex (schema : Schema κ ρ) (s : Buckets) (t : Term κ ρ) (index : String) : Plan :=
  let bucket := Index.bucketName schema.typeName index
  let criteria := t.criteriaOn index
  if !s.has bucket then fallback schema.typeName index
  else if criteria.any (·.condition.isPredicate) then fallback schema.typeName index
  else if schema.hasSliceIndex index then
    if criteria.any fun c => !c.negated && c.condition.asksForItem then
      ⟨.sliceIndex, bucket, some index, none, false⟩
    else fallback schema.typeName index
  else
    let covered := !criteria.any (·.condition.mentionsCustom)
    ⟨.index, bucket, some index, if covered then some index else none, false⟩

/-- Plans a term; an index that the type does not declare is an error. -/
def ofTerm (schema : Schema κ ρ) (s : Buckets) (t : Term κ ρ) : Except Error Plan :=
  match t.index with
  | none => .ok (primaryKey schema.typeName)
  | some index =>
    if index = keyField then .ok (primaryKey schema.typeName)
    else if schema.hasIndex index then .ok (ofIndex schema s t index)
    else .error (.indexNotFound schema.typeName index)

/-- Whether the walk has settled the criteria on a field. -/
def covers (p : Plan) (field : String) : Bool := !p.badIndex && p.covered = some field

/-- The criteria that the walk itself evaluates. -/
def walkCriteria (p : Plan) (t : Term κ ρ) : List (Criterion κ ρ) :=
  match p.scan, p.index with
  | .primaryKey, _ => t.criteriaOn keyField
  | .index, some index => if p.covered.isSome then t.criteriaOn index else []
  | .sliceIndex, some index => t.criteriaOn index
  | _, _ => []

end Plan

/-- How a query is going to be run. -/
structure Explanation where
  /-- The text of the query. -/
  query : String
  /-- A plan for each term in order. -/
  scans : List Plan
  /-- Whether rows are collected and ordered before they are delivered. -/
  ordered : Bool

namespace Explanation

variable {κ ρ : Type}

/-- Plans every term of a query. -/
def ofQuery [CustomKind κ] (schema : Schema κ ρ) (s : Buckets) (q : Query κ ρ) :
    Except Error Explanation :=
  (q.terms.mapM (Plan.ofTerm schema s)).map fun scans => ⟨q.text, scans, q.isOrdered⟩

/-- The lines for the terms, numbered from `n` on. -/
def termLines (n : Nat) : List Plan → String
  | [] => ""
  | p :: ps =>
    "TERM " ++ Digits.text n ++ ": " ++ p.text ++ "\n" ++ termLines (n + 1) ps

/-- The text of an explanation. -/
def text (e : Explanation) : String :=
  "QUERY: " ++ e.query ++ "\n" ++ termLines 0 e.scans ++
    "PIPELINE: " ++ (if e.ordered then "MATERIALIZE_SORT" else "STREAM")

end Explanation

end RecordStore
