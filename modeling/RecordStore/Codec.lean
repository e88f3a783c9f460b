import RecordStore.Error
import RecordStore.Json.Reader

/-!
# Codecs

Records and key lists are stored as bytes under a `Codec`, which goes between JSON data and bytes.
Keys and index values never pass through a codec. `Codec.write` and `Codec.read` join a codec to
the JSON form of a type.
-/

namespace RecordStore

/-- A way to store JSON data as bytes. -/
structure Codec where
  name : String
  encode : Json → Except Error Bytes
  decode : Bytes → Except Error Json

namespace Codec

/-- Compact JSON text in UTF-8. -/
def json : Codec where
  name := "json"
  encode j := .ok (Text.utf8 j.text)
  decode bytes :=
    match (Text.ofUtf8? bytes).bind Json.read? with
    | some j => .ok j
    | none => .error (.caused (.codec "json: decode failed") (.json bytes))

/-- What is said where going between records and JSON data fails without another word. -/
def conversionFailed (fault : LibraryFault) : Error :=
  .caused (.codec "record conversion failed") fault

/-- The bytes of something whose JSON form is given, if it has one. -/
def write (c : Codec) (j? : Option Json) : Except Error Bytes :=
  match j? with
  | some j => c.encode j
  | none => .error (conversionFailed .toData)

/-- What bytes stand for, by way of its JSON form. -/
def read {α : Type} (c : Codec) (ofJson? : Json → Option α) (bytes : Bytes) : Except Error α :=
  match c.decode bytes with
  | .error e => .error e
  | .ok j =>
    match ofJson? j with
    | some a => .ok a
    | none => .error (.caused (.codec (c.name ++ ": record does not match its type")) (.fromData bytes))

end Codec

/-- What a store can be set to. -/
structure Options where
  /-- The codec of records and key lists. -/
  codec : Codec
  /-- How many candidates are fetched at a time. -/
  batchSize : Nat

namespace Options

/-- The batch size of a store that was not told one. -/
def defaultBatchSize : Nat := 100

/-- A codec and the batch size of a store that was not told one. -/
def withCodec (codec : Codec) : Options := ⟨codec, defaultBatchSize⟩

/-- JSON in batches of a hundred. -/
def standard : Options := withCodec .json

instance : Inhabited Options := ⟨standard⟩

/-- The options with another batch size, raised to one at least. -/
def setBatchSize (o : Options) (size : Nat) : Options := { o with batchSize := max size 1 }

/-- The batch size in force, one at least. -/
def batchInForce (o : Options) : Nat := max o.batchSize 1

end Options

end RecordStore
