import RecordStore.Store

/-!
# Maintenance of indexes

An index can be dropped, and the indexes of a type can be built anew from its records or from the
records of another bucket, which are copied. A query that names a dropped index walks all records
until the index is there again.
-/

namespace RecordStore.Store

variable {κ ρ : Type}

/-- Drops a bucket if it is there. -/
def dropIfPresent (bucket : String) : Step Buckets Unit := do
  if (← Step.get).has bucket then
    Buckets.deleteBucket bucket

/-- Decodes stored entries one by one and files the records; with `copying` each is also stored
under its key. -/
def fileEntries (s : Store) (t : RecordType κ ρ) (copying : Bool) :
    List Entry → Step Buckets Unit
  | [] => pure ()
  | (key, bytes) :: rest => do
    let record ← s.codec.read t.ofJson? bytes
    if copying then
      Buckets.put t.name key bytes
    Index.add s.codec t.schema key record
    s.fileEntries t copying rest

/-- Drops every declared index and builds them from the records of the type, or of the bucket
`source`, which are copied into the bucket of the type. -/
def rebuild (s : Store) (t : RecordType κ ρ) (source : Option String) : Step Buckets Nat := do
  let origin := source.getD t.name
  Step.report (.rebuildStarted t.name origin)
  t.schema.indexNames.forM fun index => dropIfPresent (Index.bucketName t.name index)
  let entries := (← Step.get).entries origin
  if source.isSome && !entries.isEmpty then
    Buckets.create t.name
  s.fileEntries t source.isSome entries
  Step.report (.rebuildComplete t.name entries.length)
  pure entries.length

/-- Builds the indexes of a type anew and counts its records. -/
def reindex (s : Store) (t : RecordType κ ρ) : Step Buckets Nat := s.rebuild t none

/-- Copies the records of another bucket, builds the indexes from them and counts them. -/
def reindexFrom (s : Store) (t : RecordType κ ρ) (source : String) : Step Buckets Nat :=
  s.rebuild t (some source)

/-- Drops the bucket of an index. -/
def removeIndex (_ : Store) (t : RecordType κ ρ) (index : String) : Step Buckets Unit := do
  let bucket := Index.bucketName t.name index
  if (← Step.get).has bucket then
    Buckets.deleteBucket bucket
    Step.report (.indexRemoved t.name index)
  else .fail (.indexNotFound t.name index)

/-- Whether the bucket of an index is there. -/
def indexExists (_ : Store) (t : RecordType κ ρ) (buckets : Buckets) (index : String) : Bool :=
  buckets.has (Index.bucketName t.name index)

end RecordStore.Store
