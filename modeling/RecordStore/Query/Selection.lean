import RecordStore.Query.Criterion

/-!
# Selections

A `Term` is what one scan answers: criteria by field, all of which must hold, and the index to walk.
A `Selection` is a term with further selections as alternatives. A record is selected by the first
of the terms that accepts it, in the order of `Selection.terms`: the term itself, then each branch.
-/

namespace RecordStore

/-- Criteria by field name, and the name of the index to walk. -/
structure Term (κ ρ : Type) where
  index : Option String
  criteria : SortedMap String (List (Criterion κ ρ))

namespace Term

variable {κ ρ : Type}

/-- The term that every record meets. -/
def all : Term κ ρ := ⟨none, .empty⟩

/-- The criteria on a field. -/
def criteriaOn (t : Term κ ρ) (field : String) : List (Criterion κ ρ) :=
  (t.criteria.find? field).getD []

/-- The term with one more criterion on a field. -/
def addCriterion (t : Term κ ρ) (field : String) (c : Criterion κ ρ) : Term κ ρ :=
  { t with criteria := t.criteria.insert field (t.criteriaOn field ++ [c]) }

end Term

/-- A term and its alternatives. -/
inductive Selection (κ ρ : Type) where
  | mk (term : Term κ ρ) (branches : List (Selection κ ρ))

namespace Selection

variable {κ ρ : Type}

/-- The first term. -/
def term : Selection κ ρ → Term κ ρ
  | .mk term _ => term

/-- The alternatives. -/
def branches : Selection κ ρ → List (Selection κ ρ)
  | .mk _ branches => branches

/-- The selection of every record. -/
def all : Selection κ ρ := .mk .all []

mutual

/-- All terms: the first one, then those of each branch. -/
def terms : Selection κ ρ → List (Term κ ρ)
  | .mk term branches => term :: branchTerms branches

/-- The terms of each branch in order. -/
def branchTerms : List (Selection κ ρ) → List (Term κ ρ)
  | [] => []
  | b :: bs => terms b ++ branchTerms bs

end

/-- Whether nothing narrows the selection down. -/
def isUnrestricted (s : Selection κ ρ) : Bool :=
  s.term.index.isNone && s.term.criteria.isEmpty && s.branches.isEmpty

/-! ## Text -/

section Text

variable [CustomKind κ]

/-- The criteria of a term in field order. -/
def criteriaText (t : Term κ ρ) : String :=
  let parts := t.criteria.toList.flatMap fun (field, cs) =>
    cs.map fun c => field ++ " " ++ c.text
  if t.criteria.isEmpty then "Where all records"
  else "Where " ++ " AND ".intercalate parts

/-- The index of a term. -/
def indexText (t : Term κ ρ) : String :=
  match t.index with
  | some index => " Using index " ++ index
  | none => ""

mutual

/-- The text of a selection. -/
def text : Selection κ ρ → String
  | .mk term branches => criteriaText term ++ indexText term ++ branchesText branches

/-- The texts of alternatives. -/
def branchesText : List (Selection κ ρ) → String
  | [] => ""
  | b :: bs => " OR (" ++ text b ++ ")" ++ branchesText bs

end

end Text

end Selection

end RecordStore
