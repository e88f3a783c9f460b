import RecordStore.Bytes
import RecordStore.Error
import RecordStore.Timestamp
import RecordStore.Number.Numeric
import RecordStore.Number.Shortest
import RecordStore.Text.Utf8

/-!
# Values

A `Value` is what a field of a record holds, and what keys and operands are. Eleven kinds are
built in; the twelfth, `custom`, holds a value of a type `κ` of the user's own, which says through
`CustomKind` how it compares, which bytes stand for it in keys and how it is written.
-/

namespace RecordStore

/-- A field value, over the user's own kind `κ`. -/
inductive Value (κ : Type) where
  /-- Nothing there. -/
  | nil
  | bool (b : Bool)
  /-- A signed integer. -/
  | int (n : Int64)
  /-- An unsigned integer. -/
  | uint (n : UInt64)
  | float (x : Binary64)
  | string (s : String)
  | bytes (b : Bytes)
  | timestamp (t : Timestamp)
  | decimal (d : Decimal)
  /-- Values in order. -/
  | list (items : List (Value κ))
  /-- Pairs of values in order, keys not necessarily distinct. -/
  | map (entries : List (Value κ × Value κ))
  /-- A value of the user's own kind. -/
  | custom (c : κ)

/-- What a type must provide to serve as the user's own kind of values. -/
class CustomKind (κ : Type) where
  /-- The order against any value. -/
  compareTo : κ → Value κ → Except Error Ordering
  /-- The bytes that stand for it in keys and indexes. -/
  toBytes : κ → Bytes
  /-- The text it is written as. -/
  text : κ → String

/-- No values of the user's own kind. -/
instance : CustomKind Empty where
  compareTo c := nomatch c
  toBytes c := nomatch c
  text c := nomatch c

/-- The kinds of values. -/
inductive Kind where
  | nil
  | bool
  | int
  | uint
  | float
  | string
  | bytes
  | timestamp
  | decimal
  | list
  | map
  | custom
  deriving DecidableEq, Repr

/-- The name of a kind. -/
def Kind.name : Kind → String
  | .nil => "Nil"
  | .bool => "Bool"
  | .int => "Int"
  | .uint => "UInt"
  | .float => "Float"
  | .string => "String"
  | .bytes => "Bytes"
  | .timestamp => "Timestamp"
  | .decimal => "Decimal"
  | .list => "List"
  | .map => "Map"
  | .custom => "Custom"

namespace Value

variable {κ : Type}

instance : Inhabited (Value κ) := ⟨.nil⟩

/-- The kind of a value. -/
def kind : Value κ → Kind
  | .nil => .nil
  | .bool _ => .bool
  | .int _ => .int
  | .uint _ => .uint
  | .float _ => .float
  | .string _ => .string
  | .bytes _ => .bytes
  | .timestamp _ => .timestamp
  | .decimal _ => .decimal
  | .list _ => .list
  | .map _ => .map
  | .custom _ => .custom

/-- Whether there is nothing there. -/
def isNil : Value κ → Bool
  | .nil => true
  | _ => false

/-- An optional value, nothing being `nil`. -/
def ofOption : Option (Value κ) → Value κ
  | some v => v
  | none => .nil

mutual

/-- Whether a value of the user's own kind occurs anywhere in it. -/
def hasCustomPart : Value κ → Bool
  | .custom _ => true
  | .list items => anyHasCustomPart items
  | .map entries => anyEntryHasCustomPart entries
  | _ => false

/-- Whether a value of the user's own kind occurs in one of the items. -/
def anyHasCustomPart : List (Value κ) → Bool
  | [] => false
  | v :: vs => hasCustomPart v || anyHasCustomPart vs

/-- Whether a value of the user's own kind occurs in one of the keys or values. -/
def anyEntryHasCustomPart : List (Value κ × Value κ) → Bool
  | [] => false
  | (k, v) :: es => hasCustomPart k || hasCustomPart v || anyEntryHasCustomPart es

end

/-! ## Numbers -/

/-- The number of a numeric value. -/
def number? : Value κ → Option Number
  | .int n => some (.integer n.toInt)
  | .uint n => some (.integer n.toNat)
  | .float x => some (.float x)
  | .decimal d => some (.decimal d)
  | _ => none

/-- The number of a numeric value as a double. -/
def toBinary64? (v : Value κ) : Option Binary64 := v.number?.map Number.toBinary64

/-- The number of a numeric value as a signed integer of 64 bits, cut off toward zero. -/
def toInt64? (v : Value κ) : Option Int64 := do (← v.number?).toInt64?

/-- The text of a string value. -/
def toString? : Value κ → Option String
  | .string s => some s
  | _ => none

/-! ## Text -/

/-- Doubles in the text of values: never an exponent, whole numbers without a fraction. -/
def floatLayout : Binary64.FloatLayout :=
  ⟨true, none, none, false, false⟩

variable [CustomKind κ]

mutual

/-- The text of a value, as regular expressions see it and as queries are written. -/
def text : Value κ → String
  | .nil => "<nil>"
  | .bool b => if b then "true" else "false"
  | .int n => Digits.intText n.toInt
  | .uint n => Digits.text n.toNat
  | .float x => x.text floatLayout
  | .string s => s
  | .bytes b => Text.decodeLossy b
  | .timestamp t => t.text
  | .decimal d => d.text
  | .list items => "[" ++ " ".intercalate (textAll items) ++ "]"
  | .map entries => "map[" ++ " ".intercalate (textEntries entries) ++ "]"
  | .custom c => CustomKind.text c

/-- The texts of the items. -/
def textAll : List (Value κ) → List String
  | [] => []
  | v :: vs => text v :: textAll vs

/-- The texts of the pairs, a colon between key and value. -/
def textEntries : List (Value κ × Value κ) → List String
  | [] => []
  | (k, v) :: es => (text k ++ ":" ++ text v) :: textEntries es

end

end Value

end RecordStore
