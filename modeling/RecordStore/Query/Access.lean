import RecordStore.Buckets
import RecordStore.Codec
import RecordStore.Value

/-!
# What a predicate sees

A predicate in a query decides about a record with more than the field it is attached to at hand:
the whole record, its key, and the state of the store as the running query sees it.
-/

namespace RecordStore

/-- A candidate record as a predicate sees it. -/
structure Access (κ ρ : Type) where
  /-- The settings of the store. -/
  options : Options
  /-- The state the query runs on. -/
  buckets : Buckets
  /-- The key of the record. -/
  key : Value κ
  record : ρ
  /-- The value of the field the predicate is attached to. -/
  field : Value κ

/-- A predicate on candidate records, which may fail and may report events. -/
abbrev Predicate (κ ρ : Type) := Access κ ρ → Traced Bool

end RecordStore
