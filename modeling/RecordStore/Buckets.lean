import RecordStore.Bytes
import RecordStore.SortedMap
import RecordStore.Traced

/-!
# Buckets of entries

The state of the store: buckets by name, each with its entries in byte order of their keys and a
sequence of numbers. Reading needs no bucket to be there; writing does. A `Cursor` walks one bucket
in key order. A `Database` holds the state that was last committed; a write scope is a step on a
copy of it, which is published whole or not at all (`Database.update`).
-/

namespace RecordStore

/-- A key and what is stored under it. -/
abbrev Entry := Bytes × Bytes

/-- Entries in key order, and the last number given out. -/
structure Bucket where
  entries : SortedMap Bytes Bytes
  sequence : UInt64

/-- A bucket nothing was put into. -/
def Bucket.empty : Bucket := ⟨.empty, 0⟩

instance : Inhabited Bucket := ⟨.empty⟩

/-- The buckets of a store by name. -/
structure Buckets where
  byName : SortedMap String Bucket

namespace Buckets

/-- No buckets. -/
def empty : Buckets := ⟨.empty⟩

instance : Inhabited Buckets := ⟨empty⟩

/-! ## Reading -/

/-- The bucket of this name. -/
def bucket? (s : Buckets) (name : String) : Option Bucket := s.byName.find? name

/-- Whether there is a bucket of this name. -/
def has (s : Buckets) (name : String) : Bool := (s.bucket? name).isSome

/-- The names of the buckets in order. -/
def names (s : Buckets) : List String := s.byName.keys

/-- What is stored under a key; nothing if there is no such bucket. -/
def get? (s : Buckets) (name : String) (key : Bytes) : Option Bytes :=
  (s.bucket? name).bind fun b => b.entries.find? key

/-- The entries of a bucket in key order; none if there is no such bucket. -/
def entries (s : Buckets) (name : String) : List Entry :=
  match s.bucket? name with
  | some b => b.entries.toList
  | none => []

/-! ## Writing -/

/-- The state with this bucket under this name. -/
def setBucket (s : Buckets) (name : String) (b : Bucket) : Buckets := ⟨s.byName.insert name b⟩

/-- Makes a bucket if there is none of the name. -/
def create (name : String) : Step Buckets Unit := fun s =>
  if name = "" then (.fail (.storage .emptyBucketName), s)
  else if s.has name then (pure (), s)
  else (pure (), s.setBucket name .empty)

/-- Stores under a key. That the key is not empty is checked first. -/
def put (name : String) (key value : Bytes) : Step Buckets Unit := fun s =>
  if key = [] then (.fail (.storage .emptyKey), s)
  else
    match s.bucket? name with
    | none => (.fail (.storage (.bucketNotFound name)), s)
    | some b => (pure (), s.setBucket name { b with entries := b.entries.insert key value })

/-- Takes out what is stored under a key, if anything is. -/
def delete (name : String) (key : Bytes) : Step Buckets Unit := fun s =>
  match s.bucket? name with
  | none => (.fail (.storage (.bucketNotFound name)), s)
  | some b => (pure (), s.setBucket name { b with entries := b.entries.erase key })

/-- Drops a bucket with all it holds. -/
def deleteBucket (name : String) : Step Buckets Unit := fun s =>
  if s.has name then (pure (), ⟨s.byName.erase name⟩)
  else (.fail (.storage (.bucketNotFound name)), s)

/-- The next number of a bucket's sequence; the first is one. -/
def nextSequence (name : String) : Step Buckets UInt64 := fun s =>
  match s.bucket? name with
  | none => (.fail (.storage (.bucketNotFound name)), s)
  | some b =>
    if b.sequence + 1 = 0 then (.fail (.storage (.sequenceOverflow name)), s)
    else (pure (b.sequence + 1), s.setBucket name { b with sequence := b.sequence + 1 })

end Buckets

/-! ## Cursors -/

/-- A walk over the entries of a bucket: all of them, and those still to be visited. -/
structure Cursor where
  entries : List Entry
  ahead : List Entry

namespace Cursor

/-- A cursor on a bucket, before its first entry. -/
def of? (s : Buckets) (name : String) : Option Cursor :=
  (s.bucket? name).map fun b => ⟨b.entries.toList, b.entries.toList⟩

/-- Visits the next of these entries. -/
def land (c : Cursor) : List Entry → Option Entry × Cursor
  | [] => (none, { c with ahead := [] })
  | e :: rest => (some e, { c with ahead := rest })

/-- Visits the first entry of all. -/
def first (c : Cursor) : Option Entry × Cursor := c.land c.entries

/-- Visits the entry after the one last visited, the first if none was; past the end it stays. -/
def next (c : Cursor) : Option Entry × Cursor := c.land c.ahead

/-- Visits the first entry whose key is `key` or larger. -/
def seek (c : Cursor) (key : Bytes) : Option Entry × Cursor :=
  c.land (c.entries.dropWhile fun e => compare e.1 key == .lt)

end Cursor

/-! ## Committed state -/

/-- The state that was last committed. -/
structure Database where
  committed : Buckets

namespace Database

variable {α : Type}

/-- A database without buckets. -/
def empty : Database := ⟨.empty⟩

/-- Runs a write scope: a copy of the committed state is changed, and published if the scope
succeeds. -/
def update (scope : Step Buckets α) : Step Database α := fun db =>
  let (t, s) := scope db.committed
  match t.result with
  | .ok _ => (t, ⟨s⟩)
  | .error _ => (t, db)

/-- Runs a read scope on the committed state. -/
def view (scope : Buckets → Traced α) : Step Database α := fun db => (scope db.committed, db)

end Database

end RecordStore
