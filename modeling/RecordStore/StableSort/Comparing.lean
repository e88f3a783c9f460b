import RecordStore.Error

/-!
# Comparing while sorting

A sort asks again and again whether one item is less than another, and some pairs have no order.
`Comparing` is a computation that asks such questions and keeps the first failure. From then on
nothing is less than anything, so whatever the sort still does leaves items where they are or takes
them to be equal. What was answered before and what is answered then need not go together, and an
order can contradict itself without a failure. A sort that notices gives up and has no answer.
-/

namespace RecordStore

/-- A computation that compares items and keeps the first comparison that failed, or gives up. -/
abbrev Comparing (α : Type) : Type := StateT (Option Error) Option α

namespace Comparing

variable {α : Type}

/-- Whether one item is less than another by an order that may fail. After a failure the order is
not asked any more. -/
def less (cmp : α → α → Except Error Ordering) (a b : α) : Comparing Bool := fun failure =>
  match failure with
  | some e => some (false, some e)
  | none =>
    match cmp a b with
    | .ok o => some (o == .lt, none)
    | .error e => some (false, some e)

/-- Gives up, whatever was met before. -/
def giveUp : Comparing α := fun _ => none

/-- The answer of a computation and the failure that was met, if there was one; nothing if the
computation gave up. -/
def finish (c : Comparing α) : Option (α × Option Error) := c.run none

end Comparing

end RecordStore
