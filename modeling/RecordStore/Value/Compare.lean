import RecordStore.Value.Keycode

/-!
# The order of values

`Value.cmp` orders two values or fails with a type mismatch. Nothing comes before everything,
numbers of all kinds compare with each other, lists and maps compare by their key codes, and a
value of the user's own kind decides every comparison it takes part in. All other pairs of
different kinds have no order.
-/

namespace RecordStore.Value

variable {κ : Type} [CustomKind κ]

/-- The failure of a comparison between two kinds. -/
def mismatch (a b : Value κ) : Error := .typeMismatch a.kind.name b.kind.name

/-- The order of two values of built-in kinds. -/
def cmpBuiltIn (a b : Value κ) : Except Error Ordering :=
  match a, b with
  | .nil, .nil => .ok .eq
  | .nil, _ => .ok .lt
  | _, .nil => .ok .gt
  | .bool a, .bool b => .ok (compare a b)
  | .string a, .string b => .ok (compare (Text.utf8 a) (Text.utf8 b))
  | .bytes a, .bytes b => .ok (compare a b)
  | .timestamp a, .timestamp b => .ok (a.cmp b)
  | .list a, .list b => .ok (compare (Keycode.encode (.list a)) (Keycode.encode (.list b)))
  | .map a, .map b => .ok (compare (Keycode.encode (.map a)) (Keycode.encode (.map b)))
  | a, b =>
    match a.number?, b.number? with
    | some x, some y => .ok (x.cmp y)
    | _, _ => .error (mismatch a b)

/-- The order of two values; a value of the user's own kind decides, the left one first. -/
def cmp (a b : Value κ) : Except Error Ordering :=
  match a, b with
  | .custom c, b => CustomKind.compareTo c b
  | a, .custom c => (CustomKind.compareTo c a).map Ordering.swap
  | a, b => cmpBuiltIn a b

/-- Whether two values compare equal. -/
def equals (a b : Value κ) : Except Error Bool := (a.cmp b).map Ordering.isEq

/-- Compares tuples component by component; the first difference decides, and a tuple that is the
start of the other is equal to it. -/
def cmpTuple : List (Value κ) → List (Value κ) → Except Error Ordering
  | a :: as, b :: bs =>
    match a.cmp b with
    | .error e => .error e
    | .ok .eq => cmpTuple as bs
    | .ok o => .ok o
  | _, _ => .ok .eq

end RecordStore.Value
