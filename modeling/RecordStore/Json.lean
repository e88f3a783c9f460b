import RecordStore.SortedMap
import RecordStore.Number.Shortest
import RecordStore.Text.Utf8

/-!
# JSON data and its compact text

Records and key lists are stored as JSON data under some codec. A number is an integer of 64 bits
with or without a sign, or a double. Members of an object are kept in the byte order of their
names, one for each name. `Json.text` is the compact text: nothing between tokens, characters
outside ASCII as they are, control characters escaped.
-/

namespace RecordStore

/-- A number in JSON data. -/
inductive JsonNumber where
  /-- Not negative. -/
  | natural (n : UInt64)
  /-- Negative. -/
  | negative (n : Int64)
  | float (x : Binary64)
  deriving DecidableEq

/-- JSON data. -/
inductive Json where
  | null
  | bool (b : Bool)
  | number (n : JsonNumber)
  | string (s : String)
  | array (items : List Json)
  | object (members : List (String × Json))

namespace Json

instance : Inhabited Json := ⟨.null⟩

/-- Members in name order; of several with one name the last counts. -/
def sortMembers (members : List (String × Json)) : List (String × Json) :=
  (SortedMap.empty.insertAll members).toList

/-- The object with these members. -/
def ofMembers (members : List (String × Json)) : Json := .object (sortMembers members)

/-- A number that is not negative. -/
def ofNat (n : Nat) : Json := .number (.natural (UInt64.ofNat n))

/-- An integer of 64 bits. -/
def ofInt (n : Int) : Json :=
  if n < 0 then .number (.negative (Int64.ofInt n)) else .number (.natural (UInt64.ofNat n.toNat))

/-- The member of an object with this name. -/
def member? (name : String) : Json → Option Json
  | .object members => (members.find? fun e => e.1 == name).map (·.2)
  | _ => none

/-- The number as an integer, unless it is a double. -/
def int? : Json → Option Int
  | .number (.natural n) => some n.toNat
  | .number (.negative n) => some n.toInt
  | _ => none

/-! ## Compact text -/

/-- Doubles in JSON: a whole number keeps a fraction, an exponent is written from 10¹⁶ up and
below 10⁻⁵, always with a sign. -/
def floatLayout : Binary64.FloatLayout := ⟨false, some 16, some (-4), true, true⟩

/-- The text of a number. -/
def numberText : JsonNumber → List Char
  | .natural n => Digits.ofNat n.toNat
  | .negative n => Digits.ofInt n.toInt
  | .float x => (x.text floatLayout).toList

/-- A character inside quotes. -/
def escapeChar (c : Char) : List Char :=
  if c = '"' then ['\\', '"']
  else if c = '\\' then ['\\', '\\']
  else if c = '\x08' then ['\\', 'b']
  else if c = '\t' then ['\\', 't']
  else if c = '\n' then ['\\', 'n']
  else if c = '\x0c' then ['\\', 'f']
  else if c = '\r' then ['\\', 'r']
  else if c.toNat < 0x20 then ['\\', 'u', '0', '0'] ++ Bytes.hexByte (UInt8.ofNat c.toNat)
  else [c]

/-- A text in quotes. -/
def stringText (s : String) : List Char := '"' :: s.toList.flatMap escapeChar ++ ['"']

mutual

/-- The characters of compact JSON. -/
def chars : Json → List Char
  | .null => ['n', 'u', 'l', 'l']
  | .bool true => ['t', 'r', 'u', 'e']
  | .bool false => ['f', 'a', 'l', 's', 'e']
  | .number n => numberText n
  | .string s => stringText s
  | .array items => '[' :: itemChars items ++ [']']
  | .object members => '\x7b' :: memberChars members ++ ['\x7d']

/-- The characters of items, commas between them. -/
def itemChars : List Json → List Char
  | [] => []
  | [j] => chars j
  | j :: js => chars j ++ ',' :: itemChars js

/-- The characters of members, commas between them. -/
def memberChars : List (String × Json) → List Char
  | [] => []
  | [(name, j)] => stringText name ++ ':' :: chars j
  | (name, j) :: ms => stringText name ++ ':' :: (chars j ++ ',' :: memberChars ms)

end

/-- Compact JSON text. -/
def text (j : Json) : String := String.ofList j.chars

end Json

end RecordStore
