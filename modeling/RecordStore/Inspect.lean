import RecordStore.Query
import RecordStore.Schema
import RecordStore.Text.Quoted

/-!
# Inspection

`inspect` writes a value, a query or a schema so that its structure shows: every constructor and
field by name, texts in quotes. It is meant for people who look for a fault, not for reading back.
-/

namespace RecordStore.Inspect

/-- Parts between brackets, with commas. -/
def list (parts : List String) : String := "[" ++ ", ".intercalate parts ++ "]"

/-- A name applied to parts. -/
def apply (name : String) (parts : List String) : String :=
  name ++ "(" ++ ", ".intercalate parts ++ ")"

/-- A name with named fields. -/
def fields (name : String) (parts : List (String × String)) : String :=
  name ++ " \x7b " ++ ", ".intercalate (parts.map fun p => p.1 ++ ": " ++ p.2) ++ " \x7d"

/-- Named parts between braces. -/
def dictionary (parts : List (String × String)) : String :=
  "\x7b" ++ ", ".intercalate (parts.map fun p => p.1 ++ ": " ++ p.2) ++ "\x7d"

/-- An optional part. -/
def optional : Option String → String
  | some part => apply "Some" [part]
  | none => "None"

/-- A truth value. -/
def bool (b : Bool) : String := if b then "true" else "false"

/-- Doubles when inspected: a whole number keeps a fraction, an exponent is written from 10¹⁶ up
and below 10⁻⁴. -/
def floatLayout : Binary64.FloatLayout := ⟨true, some 16, some (-3), true, false⟩

/-- The words of 64 bits of a number, the low one first; `fuel` is their number at most. -/
def words : (fuel : Nat) → Nat → List Nat
  | 0, _ => []
  | fuel + 1, n => if n = 0 then [] else n % 0x10000000000000000 :: words fuel (n >>> 64)

/-- A decimal: sign, scale and the words of its coefficient. -/
def decimal (d : Decimal) : String :=
  let magnitude := d.coefficient.natAbs
  let sign :=
    if d.coefficient = 0 then "NoSign" else if d.coefficient < 0 then "Minus" else "Plus"
  let digits := list ((words (magnitude.log2 / 64 + 1) magnitude).map Digits.text)
  apply "BigDecimal" ["sign=" ++ sign, "scale=" ++ Digits.intText d.scale, "digits=" ++ digits]

section Values

variable {κ : Type} [CustomKind κ]

mutual

/-- A value. -/
def value : Value κ → String
  | .nil => "Nil"
  | .bool b => apply "Bool" [bool b]
  | .int n => apply "Int" [Digits.intText n.toInt]
  | .uint n => apply "UInt" [Digits.text n.toNat]
  | .float x => apply "Float" [x.text floatLayout]
  | .string s => apply "String" [Text.quoted s]
  | .bytes b => apply "Bytes" [list (b.map fun x => Digits.text x.toNat)]
  | .timestamp t => apply "Timestamp" [t.zuluText]
  | .decimal d => apply "Decimal" [decimal d]
  | .list items => apply "List" [list (values items)]
  | .map entries => apply "Map" [list (pairs entries)]
  | .custom c => apply "Custom" [CustomKind.text c]

/-- The items of a list. -/
def values : List (Value κ) → List String
  | [] => []
  | v :: vs => value v :: values vs

/-- The entries of a map. -/
def pairs : List (Value κ × Value κ) → List String
  | [] => []
  | (k, v) :: es => apply "" [value k, value v] :: pairs es

end

end Values

section Queries

variable {κ ρ : Type} [CustomKind κ]

/-- The name of a relation. -/
def relation : Relation → String
  | .eq => "Eq"
  | .ne => "Ne"
  | .gt => "Gt"
  | .lt => "Lt"
  | .ge => "Ge"
  | .le => "Le"

/-- The name of a condition and its operand. -/
def condition : Condition κ ρ → String × String
  | .compares r v => (relation r, apply "Single" [value v])
  | .isIn vs => ("In", apply "Many" [list (values vs)])
  | .isLike pattern => ("RegExp", apply "Pattern" [pattern.source])
  | .satisfies _ => ("MatchFn", apply "Func" [".."])
  | .isNil => ("IsNil", "None")
  | .hasKey v => ("HasKey", apply "Single" [value v])
  | .contains v => ("Contains", apply "Single" [value v])
  | .containsAny vs => ("ContainsAny", apply "Many" [list (values vs)])
  | .containsAll vs => ("ContainsAll", apply "Many" [list (values vs)])

/-- A criterion. -/
def criterion (c : Criterion κ ρ) : String :=
  let (operator, operand) := condition c.condition
  fields "Criterion" [("operator", operator), ("operand", operand), ("negate", bool c.negated)]

/-- A term, given its alternatives and what orders and pages it. -/
def term (t : Term κ ρ) (branches : List String) (rest : List (String × String)) : String :=
  fields "Query" ([
    ("index", optional (t.index.map Text.quoted)),
    ("criteria", dictionary (t.criteria.toList.map fun (field, cs) =>
      (Text.quoted field, list (cs.map criterion)))),
    ("ors", list branches)] ++ rest)

/-- What orders and pages a query. -/
def paging (sort : List String) (reverse : Bool) (skip : Nat) (limit : Option Nat) :
    List (String × String) :=
  [("sort", list (sort.map Text.quoted)), ("reverse", bool reverse), ("skip", Digits.text skip),
    ("limit", optional (limit.map Digits.text))]

mutual

/-- A selection as a query without order and paging. -/
def selection : Selection κ ρ → String
  | .mk t branches => term t (selections branches) (paging [] false 0 none)

/-- Alternatives in order. -/
def selections : List (Selection κ ρ) → List String
  | [] => []
  | s :: ss => selection s :: selections ss

end

/-- A query. -/
def query (q : Query κ ρ) : String :=
  term q.selection.term (selections q.selection.branches)
    (paging q.sort q.reverse q.skip q.limit)

end Queries

/-- A schema, by the names of its fields and indexes. -/
def schema {κ ρ : Type} (s : Schema κ ρ) : String :=
  let names (ns : List String) : String := list (ns.map Text.quoted)
  fields "Schema" [("type_name", Text.quoted s.typeName), ("fields", names s.fields.keys),
    ("indexes", names s.indexes.keys), ("slice_indexes", names s.sliceIndexes.keys)]

end RecordStore.Inspect
