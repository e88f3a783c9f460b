import RecordStore.Query
import RecordStore.Schema

/-!
# Building queries

A query is put together from clauses in order. A clause that cannot be right does not stop the
others, but the first of them is what `Query.build` fails with; then come faults that only show
when the query is complete, and faults of the branches in turn.
-/

namespace RecordStore

/-- One part of a query. -/
inductive Clause (κ ρ : Type) where
  /-- A condition on a field, after a number of negations. -/
  | wherever (field : String) (negations : Nat) (condition : Condition κ ρ)
  /-- The index to walk. -/
  | index (name : String)
  /-- How many rows to pass over. -/
  | skip (amount : Nat)
  /-- How many rows to deliver at most. -/
  | limit (amount : Nat)
  /-- Fields to sort by. -/
  | sortBy (fields : List String)
  /-- Turns the order around. -/
  | reverse
  /-- An alternative. -/
  | or (branch : List (Clause κ ρ))

namespace Query

variable {κ ρ : Type}

/-- Why a query cannot be right. -/
inductive Fault where
  /-- A predicate is attached to the key. -/
  | predicateOnKey
  | skipTwice
  | limitTwice
  /-- The key is a sort field. -/
  | sortByKey
  /-- A branch has paging of its own. -/
  | pagedBranch
  /-- A branch has an order of its own. -/
  | orderedBranch
  deriving DecidableEq, Repr

/-- The text of a fault. -/
def Fault.reason : Fault → String
  | .predicateOnKey => "a predicate function cannot be applied to the key field"
  | .skipTwice => "skip has already been set on this query"
  | .limitTwice => "limit has already been set on this query"
  | .sortByKey => "results are already ordered by key; sort by the key field is not allowed"
  | .pagedBranch => "skip and limit cannot be set on an OR branch; set them on the outer query"
  | .orderedBranch => "sorting cannot be set on an OR branch; set it on the outer query"

/-- The error of a fault. -/
def Fault.error (f : Fault) : Error := .invalidQuery f.reason

/-- What clauses amount to, apart from alternatives. -/
structure Node (κ ρ : Type) where
  term : Term κ ρ
  sort : List String
  reverse : Bool
  skip : Option Nat
  limit : Option Nat
  /-- The first fault so far. -/
  fault : Option Fault

/-- No clauses yet. -/
def Node.blank : Node κ ρ := ⟨.all, [], false, none, none, none⟩

/-- Remembers a fault, if it is one and the first. -/
def Node.blame (n : Node κ ρ) (isFault : Bool) (f : Fault) : Node κ ρ :=
  if isFault then { n with fault := n.fault <|> some f } else n

/-- Adds a sort field that was not mentioned before. -/
def Node.addSort (n : Node κ ρ) (field : String) : Node κ ρ :=
  if field = keyField then n.blame true .sortByKey
  else if n.sort.contains field then n
  else { n with sort := n.sort ++ [field] }

/-- Goes on with a clause that is not an alternative. -/
def Node.apply (n : Node κ ρ) : Clause κ ρ → Node κ ρ
  | .wherever field negations condition =>
    let n := n.blame (field = keyField && condition.isPredicate) .predicateOnKey
    { n with term := n.term.addCriterion field ⟨condition, negations % 2 = 1⟩ }
  | .index name => { n with term := { n.term with index := some name } }
  | .skip amount => { n.blame n.skip.isSome .skipTwice with skip := some amount }
  | .limit amount => { n.blame n.limit.isSome .limitTwice with limit := some amount }
  | .sortBy fields => fields.foldl Node.addSort n
  | .reverse => { n with reverse := true }
  | .or _ => n

/-- Clauses taken together, with the alternatives as drafts of their own. -/
inductive Draft (κ ρ : Type) where
  | mk (node : Node κ ρ) (branches : List (Draft κ ρ))

namespace Draft

/-- The draft with a clause that is not an alternative. -/
def apply (c : Clause κ ρ) : Draft κ ρ → Draft κ ρ
  | .mk node branches => .mk (node.apply c) branches

/-- The draft with an alternative. -/
def addBranch (d b : Draft κ ρ) : Draft κ ρ :=
  match d with
  | .mk node branches => .mk node (branches ++ [b])

mutual

/-- Goes on with clauses in order. -/
def extend (d : Draft κ ρ) : List (Clause κ ρ) → Draft κ ρ
  | [] => d
  | c :: cs => extend (step d c) cs

/-- Goes on with one clause. -/
def step (d : Draft κ ρ) : Clause κ ρ → Draft κ ρ
  | .or branch => d.addBranch (extend (.mk .blank []) branch)
  | .wherever field negations condition => d.apply (.wherever field negations condition)
  | .index name => d.apply (.index name)
  | .skip amount => d.apply (.skip amount)
  | .limit amount => d.apply (.limit amount)
  | .sortBy fields => d.apply (.sortBy fields)
  | .reverse => d.apply .reverse

end

/-- The draft of clauses. -/
def ofClauses (clauses : List (Clause κ ρ)) : Draft κ ρ := extend (.mk .blank []) clauses

end Draft

/-- Checks a node: its own fault first, then what a branch must not have, then the sort fields. -/
def Node.check (schema : Schema κ ρ) (isBranch : Bool) (n : Node κ ρ) : Except Error Unit :=
  match n.fault with
  | some f => .error f.error
  | none =>
    if isBranch && (n.skip.isSome || n.limit.isSome) then .error Fault.pagedBranch.error
    else if isBranch && (!n.sort.isEmpty || n.reverse) then .error Fault.orderedBranch.error
    else schema.requireFields n.sort

mutual

/-- The selection of a draft: the node is checked before its branches. -/
def finishDraft (schema : Schema κ ρ) (isBranch : Bool) : Draft κ ρ → Except Error (Selection κ ρ)
  | .mk node branches =>
    match node.check schema isBranch with
    | .error e => .error e
    | .ok () => (finishBranches schema branches).map (.mk node.term)

/-- The selections of alternatives in order. -/
def finishBranches (schema : Schema κ ρ) : List (Draft κ ρ) → Except Error (List (Selection κ ρ))
  | [] => .ok []
  | d :: ds =>
    match finishDraft schema true d with
    | .error e => .error e
    | .ok s => (finishBranches schema ds).map (s :: ·)

end

/-- Puts a query together from clauses. -/
def build (schema : Schema κ ρ) (clauses : List (Clause κ ρ)) : Except Error (Query κ ρ) :=
  match Draft.ofClauses clauses with
  | .mk node branches =>
    (finishDraft schema false (.mk node branches)).map fun selection =>
      { selection, sort := node.sort, reverse := node.reverse, skip := node.skip.getD 0,
        limit := node.limit }

end Query

end RecordStore
