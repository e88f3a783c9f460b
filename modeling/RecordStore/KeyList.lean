import RecordStore.Bytes
import RecordStore.Json

/-!
# Lists of keys

What an index stores under a value: the keys of the records that have it. A list built by `add` and
`remove` is strictly ascending. A list read from a bucket may be anything, and is searched all the
same: by halving, always down to one key.
-/

namespace RecordStore

/-- The keys filed under one value. -/
structure KeyList where
  keys : List Bytes
  deriving DecidableEq, Inhabited

namespace KeyList

/-- No keys. -/
def empty : KeyList := ⟨[]⟩

/-- Halves `size` keys from position `base` on until one is left: the last that is not larger than
`key`, if the list is sorted. -/
def narrow (keys : List Bytes) (key : Bytes) (size base : Nat) : Nat :=
  if size ≤ 1 then base
  else
    let half := size / 2
    match compare (keys.getD (base + half) []) key with
    | .gt => narrow keys key (size - half) base
    | _ => narrow keys key (size - half) (base + half)
termination_by size
decreasing_by all_goals omega

/-- Where a key is, or where it would have to be put. -/
inductive Place where
  | at (position : Nat)
  | before (position : Nat)
  deriving DecidableEq

/-- Looks for a key. -/
def search (l : KeyList) (key : Bytes) : Place :=
  if l.keys = [] then .before 0
  else
    let position := narrow l.keys key l.keys.length 0
    match compare (l.keys.getD position []) key with
    | .eq => .at position
    | .lt => .before (position + 1)
    | .gt => .before position

/-- The list with a key; a key that is there is not added again. -/
def add (l : KeyList) (key : Bytes) : KeyList :=
  match l.search key with
  | .at _ => l
  | .before position => ⟨l.keys.take position ++ key :: l.keys.drop position⟩

/-- The list without a key. -/
def remove (l : KeyList) (key : Bytes) : KeyList :=
  match l.search key with
  | .at position => ⟨l.keys.eraseIdx position⟩
  | .before _ => l

/-- Whether a key is there. -/
def contains (l : KeyList) (key : Bytes) : Bool :=
  match l.search key with
  | .at _ => true
  | .before _ => false

/-- The number of keys. -/
def size (l : KeyList) : Nat := l.keys.length

/-- Whether there are no keys. -/
def isEmpty (l : KeyList) : Bool := l.keys.isEmpty

/-! ## JSON form -/

/-- A list of lists of numbers, one for each byte. -/
def toJson (l : KeyList) : Json :=
  .array (l.keys.map fun key => .array (key.map fun b => .ofNat b.toNat))

/-- A byte from a number. -/
def byte? : Json → Option UInt8
  | .number (.natural n) => if n < 256 then some n.toUInt8 else none
  | _ => none

/-- A key from a list of numbers. -/
def key? : Json → Option Bytes
  | .array items => items.mapM byte?
  | _ => none

/-- The list of keys of this JSON form. -/
def ofJson? : Json → Option KeyList
  | .array items => (items.mapM key?).map KeyList.mk
  | _ => none

end KeyList

end RecordStore
