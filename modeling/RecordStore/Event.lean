/-!
# Events

What the store reports while it works. An `Event` carries what happened and to what; its `kind`
fixes the name it is reported under, its `level` how urgent it is, its `details` the rest.
-/

namespace RecordStore

/-- The kinds of events. -/
inductive EventKind where
  | scanPlanned
  | indexFallback
  | queryComplete
  | queryFailed
  | staleIndexEntry
  | rebuildStarted
  | rebuildComplete
  | indexRemoved
  deriving DecidableEq, Repr

/-- The name an event of this kind is reported under. -/
def EventKind.name : EventKind → String
  | .scanPlanned => "QUERY_SCAN_PLANNED"
  | .indexFallback => "QUERY_INDEX_FALLBACK"
  | .queryComplete => "QUERY_COMPLETE"
  | .queryFailed => "QUERY_FAILED"
  | .staleIndexEntry => "INDEX_STALE_ENTRY"
  | .rebuildStarted => "INDEX_REBUILD_BEGIN"
  | .rebuildComplete => "INDEX_REBUILD_COMPLETE"
  | .indexRemoved => "INDEX_REMOVED"

/-- How urgent an event is. -/
inductive Level where
  | debug
  | info
  | warn
  deriving DecidableEq, Repr

/-- The name of a level. -/
def Level.name : Level → String
  | .debug => "DEBUG"
  | .info => "INFO"
  | .warn => "WARN"

/-- Queries are reported for debugging, maintenance for information, damage as a warning. -/
def EventKind.level : EventKind → Level
  | .staleIndexEntry => .warn
  | .rebuildStarted | .rebuildComplete | .indexRemoved => .info
  | _ => .debug

/-- Something that happened. -/
inductive Event where
  /-- A term of a query was given a scan. -/
  | scanPlanned (typeName scan bucket : String)
  /-- A hinted index could not be used. -/
  | indexFallback (typeName index : String)
  /-- A query delivered its rows. -/
  | queryComplete (rows : Nat) (query : String)
  /-- A query was ended by an error. -/
  | queryFailed (code query : String)
  /-- An index names a record that is not in the bucket. -/
  | staleIndexEntry (bucket : String)
  /-- The indexes of a type are about to be rebuilt. -/
  | rebuildStarted (typeName source : String)
  /-- The indexes of a type are rebuilt. -/
  | rebuildComplete (typeName : String) (records : Nat)
  /-- An index bucket was dropped. -/
  | indexRemoved (typeName index : String)
  deriving DecidableEq, Repr

namespace Event

/-- The kind of an event. -/
def kind : Event → EventKind
  | .scanPlanned .. => .scanPlanned
  | .indexFallback .. => .indexFallback
  | .queryComplete .. => .queryComplete
  | .queryFailed .. => .queryFailed
  | .staleIndexEntry .. => .staleIndexEntry
  | .rebuildStarted .. => .rebuildStarted
  | .rebuildComplete .. => .rebuildComplete
  | .indexRemoved .. => .indexRemoved

/-- A detail of an event: a text or a count. -/
inductive Detail where
  | text (s : String)
  | count (n : Nat)

/-- The details of an event by name. -/
def details : Event → List (String × Detail)
  | .scanPlanned typeName scan bucket =>
    [("type_name", .text typeName), ("scan", .text scan), ("bucket", .text bucket)]
  | .indexFallback typeName index => [("type_name", .text typeName), ("index", .text index)]
  | .queryComplete rows query => [("rows", .count rows), ("query", .text query)]
  | .queryFailed code query => [("code", .text code), ("query", .text query)]
  | .staleIndexEntry bucket => [("bucket", .text bucket)]
  | .rebuildStarted typeName source => [("type_name", .text typeName), ("source", .text source)]
  | .rebuildComplete typeName records =>
    [("type_name", .text typeName), ("records", .count records)]
  | .indexRemoved typeName index => [("type_name", .text typeName), ("index", .text index)]

end Event

end RecordStore
