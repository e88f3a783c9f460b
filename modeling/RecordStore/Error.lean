import RecordStore.Bytes

/-!
# Errors

An `Error` is what ends a computation that has no answer, with what it is about. All but one are
reported to the caller. These belong to a `Code` each; a code is fatal when it marks a query or a
schema that can never be valid, as opposed to an operation that failed. The wording of every message
is here, but for what a library says about its own failures.

The one that is not reported is `orderViolation`: the sort of the standard library stops the program
when it finds that an order contradicts itself. It has no code, no call answers with it, nothing
catches it and no event tells of it.
-/

namespace RecordStore

/-- What can go wrong in the store of buckets. -/
inductive StorageFault where
  /-- The bucket does not exist. -/
  | bucketNotFound (bucket : String)
  /-- A bucket needs a name. -/
  | emptyBucketName
  /-- An entry needs a key. -/
  | emptyKey
  /-- The bucket's sequence has no next number. -/
  | sequenceOverflow (bucket : String)
  deriving DecidableEq, Repr

/-- The text of a storage fault. -/
def StorageFault.message : StorageFault → String
  | .bucketNotFound bucket => s!"Bucket not found: {bucket}"
  | .emptyBucketName => "Bucket name must not be empty"
  | .emptyKey => "Key must not be empty"
  | .sequenceOverflow bucket => s!"Sequence overflow in bucket: {bucket}"

/-- A call of a library that failed, by what it was given. -/
inductive LibraryFault where
  /-- Bytes were read as JSON text. -/
  | json (bytes : Bytes)
  /-- The JSON data that bytes stand for were turned into a record or a key list. -/
  | fromData (bytes : Bytes)
  /-- A record was turned into JSON data. -/
  | toData
  /-- Bytes were read as UTF-8. -/
  | utf8 (bytes : Bytes)
  /-- A text was read as a decimal. -/
  | decimal (text : String)
  deriving DecidableEq, Repr

/-- Who has to act on an error. -/
inductive Severity where
  /-- The operation failed; store and caller are sound. -/
  | error
  /-- The calling code is at fault. -/
  | fatal
  deriving DecidableEq, Repr

/-- The name of a severity. -/
def Severity.name : Severity → String
  | .error => "ERROR"
  | .fatal => "FATAL"

/-- The classes of errors. -/
inductive Code where
  | notFound
  | keyExists
  | indexNotFound
  | fieldNotFound
  | typeMismatch
  | predicateFailed
  | codecFailed
  | storageFailed
  | invalidQuery
  | invalidSchema
  deriving DecidableEq, Repr

/-- The name of a code. -/
def Code.name : Code → String
  | .notFound => "HOLD_NOT_FOUND"
  | .keyExists => "HOLD_KEY_EXISTS"
  | .indexNotFound => "HOLD_INDEX_NOT_FOUND"
  | .fieldNotFound => "HOLD_FIELD_NOT_FOUND"
  | .typeMismatch => "HOLD_TYPE_MISMATCH"
  | .predicateFailed => "HOLD_MATCH_FUNC_FAILED"
  | .codecFailed => "HOLD_CODEC_FAILED"
  | .storageFailed => "HOLD_STORAGE_FAILED"
  | .invalidQuery => "HOLD_INVALID_QUERY"
  | .invalidSchema => "HOLD_INVALID_SCHEMA"

/-- Queries and schemas that can never be valid are fatal. -/
def Code.severity : Code → Severity
  | .invalidQuery | .invalidSchema => .fatal
  | _ => .error

/-- What ends a computation that has no answer. -/
inductive Error where
  /-- No record has the key, or none matched. -/
  | notFound (what : String)
  /-- A record already has the key. -/
  | keyExists (typeName : String)
  /-- The type declares no such index. -/
  | indexNotFound (typeName index : String)
  /-- The type declares no such field. -/
  | fieldNotFound (typeName field : String)
  /-- Values of two kinds without an order between them met. -/
  | typeMismatch (left right : String)
  /-- A predicate reported a failure. -/
  | predicateFailed (reason : String)
  /-- Something could not be encoded or decoded. -/
  | codec (reason : String)
  /-- The store of buckets failed. -/
  | storage (fault : StorageFault)
  /-- The query was built incorrectly. -/
  | invalidQuery (reason : String)
  /-- The schema was built incorrectly. -/
  | invalidSchema (reason : String)
  /-- An error together with the one that led to it. -/
  | because (error source : Error)
  /-- An error together with the failure of a library that led to it. -/
  | caused (error : Error) (fault : LibraryFault)
  /-- A sort has found that the order contradicts itself. -/
  | orderViolation
  deriving DecidableEq, Repr

namespace Error

/-- The class of an error that is reported. -/
def code : Error → Option Code
  | .notFound _ => some .notFound
  | .keyExists _ => some .keyExists
  | .indexNotFound .. => some .indexNotFound
  | .fieldNotFound .. => some .fieldNotFound
  | .typeMismatch .. => some .typeMismatch
  | .predicateFailed _ => some .predicateFailed
  | .codec _ => some .codecFailed
  | .storage _ => some .storageFailed
  | .invalidQuery _ => some .invalidQuery
  | .invalidSchema _ => some .invalidSchema
  | .because error _ => error.code
  | .caused error _ => error.code
  | .orderViolation => none

/-- The text of an error, without its class and its source. -/
def message : Error → String
  | .notFound what => what
  | .keyExists typeName => s!"key already exists for type {typeName}"
  | .indexNotFound typeName index => s!"index {index} does not exist for type {typeName}"
  | .fieldNotFound typeName field => s!"the field {field} does not exist in the type {typeName}"
  | .typeMismatch left right => s!"type {left} cannot be compared with {right}"
  | .predicateFailed reason => reason
  | .codec reason => reason
  | .storage _ => "key-value store operation failed"
  | .invalidQuery reason => reason
  | .invalidSchema reason => reason
  | .because error _ => error.message
  | .caused error _ => error.message
  | .orderViolation =>
    "user-provided comparison function does not correctly implement a total order"

/-- The severity of an error is that of its class. -/
def severity (e : Error) : Option Severity := e.code.map Code.severity

/-- Whether the calling code is at fault. -/
def isFatal (e : Error) : Bool := e.severity = some .fatal

/-- Whether a record was looked for and not there. -/
def isNotFound (e : Error) : Bool := e.code = some .notFound

/-- The storage fault behind an error, if there is one. -/
def storageFault? : Error → Option StorageFault
  | .storage fault => some fault
  | _ => none

/-- Severity, class and message of an error. -/
def heading (e : Error) : String :=
  match e.code with
  | some code => s!"[{code.severity.name}] {code.name}: {e.message}"
  | none => e.message

section Texts

variable (say : LibraryFault → String)

/-- The full text of an error with its source; `say` is what a library says about a failure of its
own. -/
def text : Error → String
  | .because error source =>
    let tail := source.text
    s!"{error.heading} (caused by: {tail})"
  | .caused error fault =>
    let tail := say fault
    s!"{error.heading} (caused by: {tail})"
  | .storage fault =>
    let head := (Error.storage fault).heading
    s!"{head} (caused by: {fault.message})"
  | e => e.heading

/-- The full text of what led to an error. -/
def sourceText? : Error → Option String
  | .because _ source => some (source.text say)
  | .caused _ fault => some (say fault)
  | .storage fault => some fault.message
  | _ => none

end Texts

end Error

end RecordStore
