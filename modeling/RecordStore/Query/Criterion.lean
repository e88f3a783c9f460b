import RecordStore.Query.Access
import RecordStore.Text.Pattern
import RecordStore.Value.Compare

/-!
# Criteria

A `Condition` is what is asked of one field; a `Criterion` is a condition that may be negated.
`Condition.holdsOf` answers for a value alone, which is all a condition needs unless it is a
predicate; `Condition.holds` answers for a record. A list of criteria holds if each does, and the
first that does not settles it.
-/

namespace RecordStore

open Text (Pattern)

/-- How a value may stand to an operand. -/
inductive Relation where
  | eq
  | ne
  | gt
  | lt
  | ge
  | le
  deriving DecidableEq, Repr

/-- Whether an order is one that the relation allows. -/
def Relation.allows : Relation → Ordering → Bool
  | .eq, o => o.isEq
  | .ne, o => o.isNe
  | .gt, o => o.isGT
  | .lt, o => o.isLT
  | .ge, o => o.isGE
  | .le, o => o.isLE

/-- The sign of a relation. -/
def Relation.sign : Relation → String
  | .eq => "=="
  | .ne => "!="
  | .gt => ">"
  | .lt => "<"
  | .ge => ">="
  | .le => "<="

/-- What is asked of a field. -/
inductive Condition (κ ρ : Type) where
  /-- The value stands in a relation to the operand. -/
  | compares (relation : Relation) (operand : Value κ)
  /-- The value equals one of the operands. -/
  | isIn (operands : List (Value κ))
  /-- The pattern is found in the text of the value. -/
  | isLike (pattern : Pattern)
  /-- The predicate accepts the record. -/
  | satisfies (predicate : Predicate κ ρ)
  /-- Nothing is there. -/
  | isNil
  /-- The value is a map with this key. -/
  | hasKey (key : Value κ)
  /-- The value is a list with this item. -/
  | contains (item : Value κ)
  /-- The value is a list with one of these items. -/
  | containsAny (items : List (Value κ))
  /-- The value is a list with all these items. -/
  | containsAll (items : List (Value κ))

/-- A condition, or its opposite. -/
structure Criterion (κ ρ : Type) where
  condition : Condition κ ρ
  negated : Bool

namespace Condition

variable {κ ρ : Type}

/-- The words for a condition. -/
def operator : Condition κ ρ → String
  | .compares relation _ => relation.sign
  | .isIn _ => "in"
  | .isLike _ => "matches the regular expression"
  | .satisfies _ => "matches the function"
  | .isNil => "is nil"
  | .hasKey _ => "has the key"
  | .contains _ => "contains"
  | .containsAny _ => "contains any of"
  | .containsAll _ => "contains all of"

/-- Whether a walk in key order may start at the operand. -/
def givesStart : Condition κ ρ → Bool
  | .compares .eq _ | .compares .gt _ | .compares .ge _ => true
  | _ => false

/-- Whether a condition is a predicate. -/
def isPredicate : Condition κ ρ → Bool
  | .satisfies _ => true
  | _ => false

/-- Whether a condition asks for one of some items. -/
def asksForItem : Condition κ ρ → Bool
  | .contains _ | .containsAny _ => true
  | _ => false

/-- The operand, if there is exactly one. -/
def operand? : Condition κ ρ → Option (Value κ)
  | .compares _ v | .hasKey v | .contains v => some v
  | _ => none

/-- The operands. -/
def operands : Condition κ ρ → List (Value κ)
  | .compares _ v | .hasKey v | .contains v => [v]
  | .isIn vs | .containsAny vs | .containsAll vs => vs
  | .isLike _ | .satisfies _ | .isNil => []

/-- Whether a value of the user's own kind occurs in an operand. -/
def mentionsCustom (c : Condition κ ρ) : Bool := c.operands.any (·.hasCustomPart)

/-! ## Meaning -/

section Meaning

variable [CustomKind κ]

/-- Whether one of the items equals a value; the first that does ends the search. -/
def isAmong (value : Value κ) : List (Value κ) → Except Error Bool
  | [] => .ok false
  | item :: items =>
    match item.equals value with
    | .error e => .error e
    | .ok true => .ok true
    | .ok false => isAmong value items

/-- Whether one of the wanted values is among the items. -/
def anyAmong (items : List (Value κ)) : List (Value κ) → Except Error Bool
  | [] => .ok false
  | wanted :: rest =>
    match isAmong wanted items with
    | .error e => .error e
    | .ok true => .ok true
    | .ok false => anyAmong items rest

/-- Whether all the wanted values are among the items. -/
def allAmong (items : List (Value κ)) : List (Value κ) → Except Error Bool
  | [] => .ok true
  | wanted :: rest =>
    match isAmong wanted items with
    | .error e => .error e
    | .ok true => allAmong items rest
    | .ok false => .ok false

/-- A value seen as a list: nothing has no items, and a value that is no list is its only item. -/
def itemsOf : Value κ → List (Value κ)
  | .list items => items
  | .nil => []
  | v => [v]

/-- What is said of a predicate that has no record to look at. -/
def noRecord : Error := .predicateFailed "predicate function evaluated without its record"

/-- Whether a condition holds of a value, its record not being known. -/
def holdsOf (value : Value κ) : Condition κ ρ → Except Error Bool
  | .compares relation operand => (value.cmp operand).map relation.allows
  | .isIn operands => anyAmong [value] operands
  | .isLike pattern => .ok (pattern.isFoundIn value.text)
  | .satisfies _ => .error noRecord
  | .isNil => .ok value.isNil
  | .hasKey key =>
    match value with
    | .nil => .ok false
    | .map entries => isAmong key (entries.map (·.1))
    | v => .error (.typeMismatch Kind.map.name v.kind.name)
  | .contains item => anyAmong (itemsOf value) [item]
  | .containsAny items => anyAmong (itemsOf value) items
  | .containsAll items => allAmong (itemsOf value) items

/-- Whether a condition holds of the field of a record. -/
def holds (access : Access κ ρ) : Condition κ ρ → Traced Bool
  | .satisfies predicate => predicate access
  | c => .ofExcept (c.holdsOf access.field)

end Meaning

/-! ## Text -/

/-- The words for a condition and its operand. -/
def text [CustomKind κ] (c : Condition κ ρ) : String :=
  let many (vs : List (Value κ)) : String := "[" ++ " ".intercalate (vs.map Value.text) ++ "]"
  match c with
  | .isNil => c.operator
  | .compares _ v | .hasKey v | .contains v => c.operator ++ " " ++ v.text
  | .isIn vs | .containsAny vs | .containsAll vs => c.operator ++ " " ++ many vs
  | .isLike pattern => c.operator ++ " " ++ pattern.source
  | .satisfies _ => c.operator ++ " func"

end Condition

namespace Criterion

variable {κ ρ : Type} [CustomKind κ]

/-- The text of a criterion. -/
def text (c : Criterion κ ρ) : String := (if c.negated then "NOT " else "") ++ c.condition.text

/-- Whether each criterion holds of a value, its record not being known. -/
def allHoldOf (value : Value κ) : List (Criterion κ ρ) → Except Error Bool
  | [] => .ok true
  | c :: cs =>
    match c.condition.holdsOf value with
    | .error e => .error e
    | .ok b => if b = c.negated then .ok false else allHoldOf value cs

/-- Whether each criterion holds of the field of a record. -/
def allHold (access : Access κ ρ) : List (Criterion κ ρ) → Traced Bool
  | [] => pure true
  | c :: cs => do
    let b ← c.condition.holds access
    if b = c.negated then pure false else allHold access cs

end Criterion

end RecordStore
