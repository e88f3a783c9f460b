import RecordStore.Schema
import RecordStore.Text.Quoted

/-!
# Declaring a schema

A schema is built from declarations in order. A declaration that cannot be right is passed over and
the first of them is what `Schema.build` fails with. Declaring a field with an index over a custom
index of the same name replaces the index.
-/

namespace RecordStore.Schema

variable {κ ρ : Type}

/-- One declaration about a type of records. -/
inductive Declaration (κ ρ : Type) where
  /-- A field. -/
  | field (name : String) (get : ρ → Value κ)
  /-- A field with a scalar index on it; `nil` is indexed too. -/
  | indexedField (name : String) (get : ρ → Value κ)
  /-- A field that holds lists, with an index entry for each distinct item. -/
  | sliceIndex (name : String) (get : ρ → Value κ)
  /-- An index on anything about a record. -/
  | index (name : String) (file : ρ → Except Error (Option Bytes))

/-- Why a declaration cannot be right. -/
inductive Fault where
  /-- The name stands for the key. -/
  | reservedName
  /-- A field name is empty, or has an empty part between points. -/
  | invalidFieldName (name : String)
  /-- The field was declared before. -/
  | fieldTwice (name : String)
  /-- An index name is empty or stands for the key. -/
  | invalidIndexName (name : String)
  /-- The index was declared before. -/
  | indexTwice (name : String)
  /-- A type name is empty or has a colon. -/
  | invalidTypeName (name : String)
  deriving DecidableEq

/-- The text of a fault. -/
def Fault.reason : Fault → String
  | .reservedName => keyField ++ " is reserved for the record key"
  | .invalidFieldName name => "invalid field name " ++ Text.quoted name
  | .fieldTwice name => "field " ++ name ++ " registered twice"
  | .invalidIndexName name => "invalid index name " ++ Text.quoted name
  | .indexTwice name => "index " ++ name ++ " declared twice"
  | .invalidTypeName name => "invalid type name " ++ Text.quoted name

/-- Whether one of the parts between points is empty; `fresh` while the part at hand has no
character yet. -/
def hasEmptyPart (fresh : Bool) : List Char → Bool
  | [] => fresh
  | c :: cs => if c = '.' then fresh || hasEmptyPart true cs else hasEmptyPart false cs

/-- The values a list is filed under: the key codes of its items, ascending and each once. Nothing
is a list without items. -/
def itemCodes [CustomKind κ] : Value κ → Except Error (List Bytes)
  | .nil => .ok []
  | .list items =>
    .ok (SortedMap.empty.insertAll (items.map fun v => (Keycode.encode v, ()))).keys
  | v => .error (.typeMismatch Kind.list.name v.kind.name)

/-- A schema being built, and the first fault so far. -/
structure Draft (κ ρ : Type) where
  schema : Schema κ ρ
  fault : Option Fault

namespace Draft

/-- Remembers a fault, if it is the first. -/
def blame (d : Draft κ ρ) (f : Fault) : Draft κ ρ := { d with fault := d.fault <|> some f }

/-- Why a field of this name cannot be declared. -/
def fieldFault? (d : Draft κ ρ) (name : String) : Option Fault :=
  if name = keyField then some .reservedName
  else if hasEmptyPart true name.toList then some (.invalidFieldName name)
  else if d.schema.fields.contains name then some (.fieldTwice name)
  else none

/-- Why an index of this name cannot be declared. -/
def indexFault? (d : Draft κ ρ) (name : String) : Option Fault :=
  if name = "" ∨ name = keyField then some (.invalidIndexName name)
  else if d.schema.hasIndex name then some (.indexTwice name)
  else none

/-- The schema with a field. -/
def addField (s : Schema κ ρ) (name : String) (get : ρ → Value κ) : Schema κ ρ :=
  { s with fields := s.fields.insert name get }

/-- Goes on with a declaration. -/
def declare [CustomKind κ] (d : Draft κ ρ) : Declaration κ ρ → Draft κ ρ
  | .field name get =>
    match d.fieldFault? name with
    | some f => d.blame f
    | none => { d with schema := addField d.schema name get }
  | .indexedField name get =>
    match d.fieldFault? name with
    | some f => d.blame f
    | none =>
      let s := addField d.schema name get
      { d with schema := { s with
          indexes := s.indexes.insert name fun r => .ok (some (Keycode.encode (get r))) } }
  | .sliceIndex name get =>
    match d.fieldFault? name with
    | some f => d.blame f
    | none =>
      let s := addField d.schema name get
      { d with schema := { s with
          sliceIndexes := s.sliceIndexes.insert name fun r => itemCodes (get r) } }
  | .index name file =>
    match d.indexFault? name with
    | some f => d.blame f
    | none => { d with schema := { d.schema with indexes := d.schema.indexes.insert name file } }

end Draft

/-- A schema without fields and indexes. -/
def blank (typeName : String) : Schema κ ρ := ⟨typeName, .empty, .empty, .empty⟩

/-- Builds a schema; the name of the type is checked last. -/
def build [CustomKind κ] (typeName : String) (declarations : List (Declaration κ ρ)) :
    Except Error (Schema κ ρ) :=
  let draft := declarations.foldl Draft.declare ⟨blank typeName, none⟩
  match draft.fault with
  | some f => .error (.invalidSchema f.reason)
  | none =>
    if typeName = "" ∨ typeName.toList.contains ':' then
      .error (.invalidSchema (Fault.invalidTypeName typeName).reason)
    else .ok draft.schema

end RecordStore.Schema
