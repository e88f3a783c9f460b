import RecordStore.Json
import RecordStore.Value.Keycode

/-!
# Schemas

A `Schema` says what a type of records is called, which fields it has and which indexes are kept on
it. A scalar index files a record under at most one value, a slice index under each of several; the
values are key codes, so that an index is walked in value order. A `RecordType` adds the JSON form
under which records are stored.
-/

namespace RecordStore

/-- The field name that stands for a record's key. -/
def keyField : String := "_id"

/-- The fields and indexes of a type of records `ρ`. -/
structure Schema (κ ρ : Type) where
  typeName : String
  /-- How to read each field off a record. -/
  fields : SortedMap String (ρ → Value κ)
  /-- The value a record is filed under, or none to leave it out. -/
  indexes : SortedMap String (ρ → Except Error (Option Bytes))
  /-- The values a record is filed under. -/
  sliceIndexes : SortedMap String (ρ → Except Error (List Bytes))

namespace Schema

variable {κ ρ : Type}

/-- Reads a field off a record. The key is not in the record. -/
def readField (s : Schema κ ρ) (record : ρ) (field : String) : Except Error (Value κ) :=
  match s.fields.find? field with
  | some get => .ok (get record)
  | none => .error (.fieldNotFound s.typeName field)

/-- The value of a field, the key included. -/
def valueOf (s : Schema κ ρ) (key : Value κ) (record : ρ) (field : String) :
    Except Error (Value κ) :=
  if field = keyField then .ok key else s.readField record field

/-- Whether a field can be asked about; the key always can. -/
def hasField (s : Schema κ ρ) (field : String) : Bool :=
  field = keyField || s.fields.contains field

/-- Fails on the first of the fields that cannot be asked about. -/
def requireFields (s : Schema κ ρ) : List String → Except Error Unit
  | [] => .ok ()
  | field :: rest =>
    if s.hasField field then s.requireFields rest
    else .error (.fieldNotFound s.typeName field)

/-- Whether an index of this name is kept. -/
def hasIndex (s : Schema κ ρ) (index : String) : Bool :=
  s.indexes.contains index || s.sliceIndexes.contains index

/-- Whether a slice index of this name is kept. -/
def hasSliceIndex (s : Schema κ ρ) (index : String) : Bool := s.sliceIndexes.contains index

/-- The names of the indexes, scalar ones before slice ones. -/
def indexNames (s : Schema κ ρ) : List String := s.indexes.keys ++ s.sliceIndexes.keys

end Schema

/-- A type of records: its schema and the JSON form records are stored in. -/
structure RecordType (κ ρ : Type) where
  schema : Schema κ ρ
  /-- The JSON form, if the record has one. -/
  toJson? : ρ → Option Json
  /-- The record of a JSON form. -/
  ofJson? : Json → Option ρ

/-- The name of a record type, which is also the name of the bucket of its records. -/
def RecordType.name {κ ρ : Type} (t : RecordType κ ρ) : String := t.schema.typeName

end RecordStore
