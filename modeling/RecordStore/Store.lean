import RecordStore.View

/-!
# Single records

A `Store` is a set of options; it holds no data, and everything it does happens in a state that is
passed to it. Here are the operations on one record. Each write takes the old index entries of the
record out before the new ones come in.
-/

namespace RecordStore

/-- Records and their indexes over buckets. -/
structure Store where
  options : Options

namespace Store

/-- A store with the options of one that was not told any. -/
def standard : Store := ⟨.standard⟩

instance : Inhabited Store := ⟨standard⟩

variable {κ ρ : Type} [CustomKind κ]

/-- A type of records in a state, as the store sees it. -/
def view (s : Store) (t : RecordType κ ρ) (buckets : Buckets) : View κ ρ := ⟨s.options, t, buckets⟩

/-- The codec of records and key lists. -/
def codec (s : Store) : Codec := s.options.codec

omit [CustomKind κ] in
/-- The record under a stored key, if there is one. -/
def read? (s : Store) (t : RecordType κ ρ) (buckets : Buckets) (key : Bytes) :
    Except Error (Option ρ) :=
  match buckets.get? t.name key with
  | some bytes => (s.codec.read t.ofJson? bytes).map some
  | none => .ok none

omit [CustomKind κ] in
/-- Stores a record and files it. -/
def write (s : Store) (t : RecordType κ ρ) (key : Bytes) (record : ρ) : Step Buckets Unit := do
  let bytes ← s.codec.write (t.toJson? record)
  Buckets.put t.name key bytes
  Index.add s.codec t.schema key record

omit [CustomKind κ] in
/-- Takes a record out of the indexes. -/
def unfile (s : Store) (t : RecordType κ ρ) (key : Bytes) (record : ρ) : Step Buckets Unit :=
  Index.remove s.codec t.schema key record

omit [CustomKind κ] in
/-- Takes a record out, and out of the indexes. -/
def take (s : Store) (t : RecordType κ ρ) (key : Bytes) (record : ρ) : Step Buckets Unit := do
  Buckets.delete t.name key
  s.unfile t key record

/-- Stores a record under a key that is not taken. -/
def insert (s : Store) (t : RecordType κ ρ) (key : Value κ) (record : ρ) : Step Buckets Unit := do
  let code := Keycode.encode key
  Buckets.create t.name
  if ((← Step.get).get? t.name code).isSome then
    .fail (.keyExists t.name)
  else s.write t code record

/-- Stores a record under the next number of the type. -/
def insertNext (s : Store) (t : RecordType κ ρ) (record : ρ) : Step Buckets UInt64 := do
  Buckets.create t.name
  let id ← Buckets.nextSequence t.name
  s.insert t (.uint id) record
  pure id

/-- Replaces a record that is there. -/
def update (s : Store) (t : RecordType κ ρ) (key : Value κ) (record : ρ) : Step Buckets Unit := do
  let code := Keycode.encode key
  match ← s.read? t (← Step.get) code with
  | some existing =>
    s.unfile t code existing
    s.write t code record
  | none => .fail (.notFound (t.name ++ " record to update"))

/-- Stores a record, over the one that is there if there is one. -/
def upsert (s : Store) (t : RecordType κ ρ) (key : Value κ) (record : ρ) : Step Buckets Unit := do
  let code := Keycode.encode key
  Buckets.create t.name
  match ← s.read? t (← Step.get) code with
  | some existing => s.unfile t code existing
  | none => pure ()
  s.write t code record

/-- Takes a record out. -/
def delete (s : Store) (t : RecordType κ ρ) (key : Value κ) : Step Buckets Unit := do
  let code := Keycode.encode key
  match ← s.read? t (← Step.get) code with
  | some existing => s.take t code existing
  | none => .fail (.notFound (t.name ++ " record to delete"))

/-- The record under a key. -/
def get (s : Store) (t : RecordType κ ρ) (buckets : Buckets) (key : Value κ) : Except Error ρ :=
  match s.read? t buckets (Keycode.encode key) with
  | .error e => .error e
  | .ok (some record) => .ok record
  | .ok none => .error (.notFound (t.name ++ " record"))

end Store

end RecordStore
