import RecordStore.Plan

/-!
# Candidates of a scan

`Candidates` walks the bucket of a plan and yields the records that may match, keys and stored
bytes, in batches. The walk starts where the criteria let it start (`walkFrom`). On the records
themselves the criteria on the key are settled by the walk; in an index bucket an entry stands for
all keys filed under its value. Two kinds of doubt are left to the caller: a slice index only
narrows down, and an entry for a value of the user's own kind cannot be tested at all and marks its
keys `unchecked`. The first error ends the walk and stays.
-/

namespace RecordStore

/-- A walk over the candidates of one term. -/
structure Candidates (κ ρ : Type) where
  /-- The state that is read. -/
  buckets : Buckets
  /-- The bucket of the records. -/
  dataBucket : String
  scan : Scan
  /-- The criteria that the walk evaluates. -/
  criteria : List (Criterion κ ρ)
  codec : Codec
  batchSize : Nat
  /-- Entries of the walked bucket that are still ahead. -/
  ahead : List Entry
  /-- Candidates that were fetched and not yet yielded. -/
  cache : List Entry
  /-- Keys that a slice index has yielded already. -/
  emitted : List Bytes
  /-- Keys whose criteria the caller has to evaluate. -/
  unchecked : List Bytes
  error : Option Error

namespace Candidates

variable {κ ρ : Type} [CustomKind κ]

/-! ## Where the walk starts -/

/-- The key code to start at: there must be one criterion alone, not negated, that allows it. A
double does not: integers have smaller key codes, whatever their value. -/
def startCode? (criteria : List (Criterion κ ρ)) : Option Bytes :=
  match criteria with
  | [c] =>
    if c.negated || !c.condition.givesStart then none
    else
      match c.condition.operand? with
      | none => none
      | some (.float _) => none
      | some v => if Keycode.keepsOrder v then some (Keycode.encode v) else none
  | _ => none

/-- The entries from the first one at `target` or beyond. If that one is of another kind the walk
starts at the very first entry; if there is none there is nothing to walk. -/
def seek (entries : List Entry) (target : Bytes) : List Entry :=
  match entries.dropWhile fun e => compare e.1 target == .lt with
  | [] => []
  | e :: rest => if Keycode.family e.1 = Keycode.family target then e :: rest else entries

/-- The entries to walk. -/
def walkFrom (entries : List Entry) (criteria : List (Criterion κ ρ)) : List Entry :=
  match startCode? criteria with
  | none => entries
  | some target => seek entries target

/-- The candidates of a plan. A full scan evaluates no criteria. -/
def ofPlan (s : Buckets) (plan : Plan) (dataBucket : String) (criteria : List (Criterion κ ρ))
    (codec : Codec) (batchSize : Nat) : Candidates κ ρ :=
  let criteria := if plan.scan = .full then [] else criteria
  { buckets := s, dataBucket, scan := plan.scan, criteria, codec, batchSize := max batchSize 1,
    ahead := walkFrom (s.entries plan.bucket) criteria,
    cache := [], emitted := [], unchecked := [], error := none }

/-! ## What an entry stands for -/

/-- The criterion that narrows down the entries of a slice index. -/
def narrowing? (criteria : List (Criterion κ ρ)) : Option (Criterion κ ρ) :=
  criteria.find? fun c => !c.negated && c.condition.asksForItem

/-- Whether an item of a slice index is one that the criterion asks for. The item is compared as a
whole, even if it is a list. -/
def narrowingAccepts (c : Criterion κ ρ) (item : Value κ) : Except Error Bool :=
  if c.condition.mentionsCustom then .ok true
  else
    match c.condition with
    | .contains wanted => Condition.anyAmong [item] [wanted]
    | .containsAny wanted => Condition.anyAmong [item] wanted
    | _ => .ok true

/-- Whether an entry of an index may hold keys of matching records. One for a value of the user's
own kind always may. -/
def acceptsValue (c : Candidates κ ρ) (code : Bytes) (value : Value κ) : Except Error Bool :=
  if c.scan = .sliceIndex then
    match narrowing? c.criteria with
    | some criterion =>
      if Keycode.isCustom code then .ok true else narrowingAccepts criterion value
    | none => .ok true
  else if Keycode.isCustom code then .ok true
  else Criterion.allHoldOf value c.criteria

/-- What a walked entry stands for. -/
inductive Expansion where
  /-- A candidate itself. -/
  | candidate (e : Entry)
  /-- The keys of candidates. -/
  | keys (keys : List Bytes)
  /-- No candidate. -/
  | nothing

/-- What a walked entry stands for, or why it cannot be told. -/
def expand (c : Candidates κ ρ) (e : Entry) : Except Error Expansion :=
  match c.scan with
  | .full => .ok (.candidate e)
  | .primaryKey => do
    let key : Value κ ← Keycode.decode e.1
    return if ← Criterion.allHoldOf key c.criteria then .candidate e else .nothing
  | .index | .sliceIndex => do
    let value : Value κ ← Keycode.decode e.1
    if ← c.acceptsValue e.1 value then
      return .keys (← Index.decodeKeys c.codec e.2).keys
    else return .nothing

/-- Whether the keys of an entry have to be checked by the caller. -/
def leavesUnchecked (c : Candidates κ ρ) (code : Bytes) : Bool :=
  Keycode.isCustom code && c.scan = .index && !c.criteria.isEmpty

/-- Fetches the records of keys. A slice index yields each key once; a key without a record is
reported and passed over. -/
def fetch (unchecked : Bool) (c : Candidates κ ρ) : List Bytes → Candidates κ ρ × List Event
  | [] => (c, [])
  | key :: keys =>
    if c.scan = .sliceIndex && c.emitted.contains key then c.fetch unchecked keys
    else
      let c := if c.scan = .sliceIndex then { c with emitted := key :: c.emitted } else c
      match c.buckets.get? c.dataBucket key with
      | some record =>
        let marks := if unchecked then key :: c.unchecked else c.unchecked
        fetch unchecked { c with cache := c.cache ++ [(key, record)], unchecked := marks } keys
      | none =>
        let (c, events) := c.fetch unchecked keys
        (c, .staleIndexEntry c.dataBucket :: events)

/-- Walks on until the batch is full, the entries are used up or one cannot be told. After an error
nothing that was fetched with it is yielded. -/
def fill (c : Candidates κ ρ) : (ahead : List Entry) → Candidates κ ρ × List Event
  | [] => ({ c with ahead := [] }, [])
  | e :: rest =>
    if c.cache.length < c.batchSize then
      match c.expand e with
      | .error err => ({ c with ahead := rest, cache := [], error := some err }, [])
      | .ok (.candidate e) => { c with cache := c.cache ++ [e] }.fill rest
      | .ok .nothing => c.fill rest
      | .ok (.keys keys) =>
        let (c, events) := c.fetch (c.leavesUnchecked e.1) keys
        let (c, more) := c.fill rest
        (c, events ++ more)
    else ({ c with ahead := e :: rest }, [])

/-- The next candidate, the walk after it, and the events reported on the way; none at the end and
after an error. -/
def next (c : Candidates κ ρ) : Option Entry × Candidates κ ρ × List Event :=
  if c.error.isSome then (none, c, [])
  else
    let (c, events) := if c.cache.isEmpty then c.fill c.ahead else (c, [])
    match c.cache with
    | [] => (none, c, events)
    | e :: rest => (some e, { c with cache := rest }, events)

/-- Whether the caller has to check a key, and the walk with the mark taken off. -/
def takeUnchecked (c : Candidates κ ρ) (key : Bytes) : Bool × Candidates κ ρ :=
  (c.unchecked.contains key, { c with unchecked := c.unchecked.filter (· != key) })

end Candidates

end RecordStore
