import RecordStore.Row

/-!
# Groups

A `Grouping` splits records by a tuple of field values. Its groups are kept in ascending order of
their tuples, and a record finds its group by halving. A `Group` can be sorted by a field; its
smallest and largest members, sums and means go by a field too. A sort that fails half way leaves
the members as far as they were sorted; one by a field that the type does not have leaves none, and
so does one that gives up because the order of the values contradicts itself.
-/

namespace RecordStore

/-- The records with one tuple of group values. -/
structure Group (κ ρ : Type) where
  /-- The tuple. -/
  key : List (Value κ)
  members : List ρ
  /-- The field that the members are known to be sorted by. -/
  sortedBy : Option String

namespace Group

variable {κ ρ : Type}

/-- The number of members. -/
def count (g : Group κ ρ) : Nat := g.members.length

/-- The group with one more member. -/
def push (g : Group κ ρ) (record : ρ) : Group κ ρ :=
  { g with members := g.members ++ [record], sortedBy := none }

/-- The values of a field in member order. -/
def values (schema : Schema κ ρ) (g : Group κ ρ) (field : String) :
    Except Error (List (Value κ)) :=
  g.members.mapM fun record => schema.readField record field

/-! ## Order -/

section Order

variable [CustomKind κ]

/-- Sorts the members by a field, unless they are known to be. They are taken out before their values
are read and compared, and put back when they are sorted. -/
def sort (schema : Schema κ ρ) (field : String) : Step (Group κ ρ) Unit := fun g =>
  if g.sortedBy = some field then (pure (), g)
  else
    match g.members.mapM fun record => (schema.readField record field).map (·, record) with
    | .error e => (.fail e, { g with members := [] })
    | .ok keyed =>
      match stableSort (fun a b => a.1.cmp b.1) keyed with
      | none => (.fail .orderViolation, { g with members := [] })
      | some (sorted, some e) => (.fail e, { g with members := sorted.map (·.2), sortedBy := none })
      | some (sorted, none) =>
        (pure (), { g with members := sorted.map (·.2), sortedBy := some field })

/-- What is said of a group without members. -/
def emptyGroup : Error := .notFound "empty group"

/-- The member with the smallest value of a field; sorts the members. -/
def min (schema : Schema κ ρ) (field : String) : Step (Group κ ρ) ρ := do
  sort schema field
  match (← Step.get).members.head? with
  | some record => pure record
  | none => .fail emptyGroup

/-- The member with the largest value of a field; sorts the members. -/
def max (schema : Schema κ ρ) (field : String) : Step (Group κ ρ) ρ := do
  sort schema field
  match (← Step.get).members.getLast? with
  | some record => pure record
  | none => .fail emptyGroup

end Order

/-! ## Sums -/

/-- Adds the values to a total, each cut off to an integer; a value that is no integer of 64 bits
and a total that is none are errors. -/
def addInts (total : Int64) : List (Value κ) → Except Error Int64
  | [] => .ok total
  | v :: vs =>
    match v.toInt64? with
    | none => .error (.typeMismatch Kind.int.name v.kind.name)
    | some n =>
      match Number.int64? (total.toInt + n.toInt) with
      | none => .error (.typeMismatch Kind.int.name "overflowing sum")
      | some total => addInts total vs

/-- Adds the values to a total as doubles, in order. -/
def addFloats (total : Binary64) : List (Value κ) → Except Error Binary64
  | [] => .ok total
  | v :: vs =>
    match v.toBinary64? with
    | none => .error (.typeMismatch Kind.float.name v.kind.name)
    | some x => addFloats (total.add x) vs

/-- The sum of a field in integers. -/
def sumInt (schema : Schema κ ρ) (g : Group κ ρ) (field : String) : Except Error Int64 :=
  (g.values schema field).bind (addInts 0)

/-- The sum of a field in doubles. -/
def sumFloat (schema : Schema κ ρ) (g : Group κ ρ) (field : String) : Except Error Binary64 :=
  (g.values schema field).bind (addFloats (.ofInt 0))

/-- The number that a sum is divided by: that of the members, but one at least. -/
def divisor (g : Group κ ρ) : Nat := Nat.max g.count 1

/-- The mean of a field in integers, cut off toward zero. -/
def avgInt (schema : Schema κ ρ) (g : Group κ ρ) (field : String) : Except Error Int64 :=
  (g.sumInt schema field).map fun sum => Int64.ofInt (sum.toInt.tdiv g.divisor)

/-- The mean of a field in doubles. -/
def avgFloat (schema : Schema κ ρ) (g : Group κ ρ) (field : String) : Except Error Binary64 :=
  (g.sumFloat schema field).map fun sum => sum.div (.ofInt g.divisor)

end Group

/-- Groups in ascending order of their tuples, by fields of a type of records. -/
structure Grouping (κ ρ : Type) where
  schema : Schema κ ρ
  fields : List String
  groups : List (Group κ ρ)

namespace Grouping

variable {κ ρ : Type} [CustomKind κ]

/-- No groups yet; the fields must be ones that can be asked about. -/
def start (schema : Schema κ ρ) (fields : List String) : Except Error (Grouping κ ρ) :=
  (schema.requireFields fields).map fun _ => ⟨schema, fields, []⟩

/-- Where the group of a tuple is, or where it would have to be put. -/
inductive Place where
  | at (position : Nat)
  | before (position : Nat)
  deriving DecidableEq

/-- Looks for a tuple among the groups from `low` on and before `high`, by halving. -/
def search (groups : List (Group κ ρ)) (tuple : List (Value κ)) (low high : Nat) :
    Except Error Place :=
  if low < high then
    let mid := low + (high - low) / 2
    match (groups[mid]?).map (·.key) with
    | none => .ok (.before low)
    | some key =>
      match Value.cmpTuple key tuple with
      | .error e => .error e
      | .ok .lt => search groups tuple (mid + 1) high
      | .ok .gt => search groups tuple low mid
      | .ok .eq => .ok (.at mid)
  else .ok (.before low)
termination_by high - low
decreasing_by all_goals omega

/-- Puts a record into its group, which is made if there is none. -/
def add (g : Grouping κ ρ) (key : Value κ) (record : ρ) : Except Error (Grouping κ ρ) := do
  let tuple ← g.fields.mapM (g.schema.valueOf key record)
  match ← search g.groups tuple 0 g.groups.length with
  | .at position => return { g with groups := g.groups.modify position (·.push record) }
  | .before position =>
    let group : Group κ ρ := ⟨tuple, [record], none⟩
    return { g with groups := g.groups.take position ++ group :: g.groups.drop position }

/-- A sink that groups rows. -/
def sink : Sink (Grouping κ ρ) κ ρ := fun row g =>
  match g.add row.key row.record with
  | .ok g => (pure .more, g)
  | .error e => (.fail e, g)

end Grouping

end RecordStore
