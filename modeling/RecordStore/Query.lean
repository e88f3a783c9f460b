import RecordStore.Query.Selection

/-!
# Queries

A `Query` is a selection with the order its rows come in and the part of them that is wanted.
Without sort fields and without reversal rows come as they are found.
-/

namespace RecordStore

/-- A selection with ordering and paging. -/
structure Query (κ ρ : Type) where
  selection : Selection κ ρ
  /-- Fields to sort by, the first one deciding first. -/
  sort : List String
  /-- The order is turned around in the end. -/
  reverse : Bool
  /-- How many rows are passed over. -/
  skip : Nat
  /-- How many rows are delivered at most. -/
  limit : Option Nat

namespace Query

variable {κ ρ : Type}

/-- A selection as it is found, all of it. -/
def ofSelection (s : Selection κ ρ) : Query κ ρ := ⟨s, [], false, 0, none⟩

/-- Every record. -/
def all : Query κ ρ := ofSelection .all

/-- The selection without ordering and paging. -/
def withoutOrder (q : Query κ ρ) : Query κ ρ := ofSelection q.selection

/-- Whether rows must be collected before they can be delivered. -/
def isOrdered (q : Query κ ρ) : Bool := !q.sort.isEmpty || q.reverse

/-- The terms of the selection in order. -/
def terms (q : Query κ ρ) : List (Term κ ρ) := q.selection.terms

/-- Whether the query has alternatives. -/
def hasBranches (q : Query κ ρ) : Bool := !q.selection.branches.isEmpty

/-- The text of a query. -/
def text [CustomKind κ] (q : Query κ ρ) : String :=
  q.selection.text
    ++ (if q.sort.isEmpty then "" else " Sort by " ++ ", ".intercalate q.sort)
    ++ (if q.reverse then " Reversed" else "")
    ++ (if q.skip > 0 then " Skip " ++ Digits.text q.skip else "")
    ++ (match q.limit with
      | some limit => " Limit " ++ Digits.text limit
      | none => "")

end Query

end RecordStore
