import RecordStore.Schema
import RecordStore.StableSort
import RecordStore.Traced
import RecordStore.Value.Compare

/-!
# Rows

A `Row` is a record with its key, as a query delivers it. A `Sink` takes rows one at a time and says
whether it wants more. Rows are sorted by the values of fields, one field after the other.
-/

namespace RecordStore

/-- A record with its key. -/
structure Row (κ ρ : Type) where
  key : Value κ
  record : ρ
  /-- The key as it is stored. -/
  rawKey : Bytes

/-- Whether the one who takes rows wants more. -/
inductive Demand where
  | more
  | enough
  deriving DecidableEq, Repr

/-- Takes a row into a state. -/
abbrev Sink (σ κ ρ : Type) := Row κ ρ → Step σ Demand

namespace Row

variable {κ ρ : Type}

/-- The values of a row by which it is sorted. -/
def sortKey (schema : Schema κ ρ) (fields : List String) (row : Row κ ρ) :
    Except Error (List (Value κ)) :=
  fields.mapM (schema.readField row.record)

/-- Sorts rows by fields, the first one deciding first, rows with equal values in their first
order; then turns the order around if that is asked for. A sort that gives up leaves no rows. -/
def sort [CustomKind κ] (schema : Schema κ ρ) (fields : List String) (reverse : Bool)
    (rows : List (Row κ ρ)) : Except Error (List (Row κ ρ)) := do
  let keyed ← rows.mapM fun row => (sortKey schema fields row).map (·, row)
  match stableSort (fun a b => Value.cmpTuple a.1 b.1) keyed with
  | none => .error .orderViolation
  | some (_, some e) => .error e
  | some (sorted, none) =>
    let rows := sorted.map (·.2)
    return if reverse then rows.reverse else rows

end Row

end RecordStore
