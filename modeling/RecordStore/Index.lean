import RecordStore.Buckets
import RecordStore.Codec
import RecordStore.KeyList
import RecordStore.Schema

/-!
# Index buckets

Each index of a type has a bucket of its own, in which the key list of every value is stored under
the value. `Index.add` and `Index.remove` bring the entries of one record in and out. An entry
without keys is never stored.
-/

namespace RecordStore.Index

variable {κ ρ : Type}

/-- The name of the bucket of an index. -/
def bucketName (typeName index : String) : String := "_index:" ++ typeName ++ ":" ++ index

/-- The key list stored as bytes. -/
def decodeKeys (codec : Codec) (bytes : Bytes) : Except Error KeyList :=
  codec.read KeyList.ofJson? bytes

/-- The keys filed under a value. -/
def keysAt (codec : Codec) (s : Buckets) (bucket : String) (value : Bytes) :
    Except Error KeyList :=
  match s.get? bucket value with
  | some bytes => decodeKeys codec bytes
  | none => .ok .empty

/-- Whether a record comes into an index or goes out. -/
inductive Change where
  | add
  | remove
  deriving DecidableEq

/-- The key list after a change at a key. -/
def Change.apply : Change → KeyList → Bytes → KeyList
  | .add, keys, key => keys.add key
  | .remove, keys, key => keys.remove key

/-- Stores a key list under a value; an empty one is taken out instead. -/
def storeKeys (codec : Codec) (bucket : String) (value : Bytes) (keys : KeyList) :
    Step Buckets Unit :=
  if keys.isEmpty then Buckets.delete bucket value
  else do
    let bytes ← codec.write (some keys.toJson)
    Buckets.put bucket value bytes

/-- Changes the entry of one value at one key. -/
def changeEntry (codec : Codec) (change : Change) (bucket : String) (key value : Bytes) :
    Step Buckets Unit := do
  if change = .add then
    Buckets.create bucket
  let s ← Step.get
  if s.has bucket then
    let keys ← keysAt codec s bucket value
    storeKeys codec bucket value (change.apply keys key)

/-- Changes every entry of a record: the scalar indexes in name order, then the slice indexes. What
was changed before a failure stays changed. -/
def changeAll (codec : Codec) (change : Change) (schema : Schema κ ρ) (key : Bytes) (record : ρ) :
    Step Buckets Unit := do
  schema.indexes.toList.forM fun (name, file) => do
    match ← file record with
    | none => pure ()
    | some value => changeEntry codec change (bucketName schema.typeName name) key value
  schema.sliceIndexes.toList.forM fun (name, file) => do
    let values ← file record
    values.forM fun value => changeEntry codec change (bucketName schema.typeName name) key value

/-- Files a record under every index. -/
def add (codec : Codec) (schema : Schema κ ρ) (key : Bytes) (record : ρ) : Step Buckets Unit :=
  changeAll codec .add schema key record

/-- Takes a record out of every index; it must be the record that was filed. -/
def remove (codec : Codec) (schema : Schema κ ρ) (key : Bytes) (record : ρ) :
    Step Buckets Unit :=
  changeAll codec .remove schema key record

end RecordStore.Index
