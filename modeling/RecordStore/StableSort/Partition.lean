import RecordStore.StableSort.Runs

/-!
# Sorting by partition

A long list without order in it is split by a pivot into the items less than it and the others, both
in their first order, and the two parts are sorted in the same way. The pivot is the middle one of
three samples, of samples themselves in long lists. A part whose pivot equals the one it was split
off by consists of items equal to it at first, which are put aside at once. When too many splits
were needed the rest is sorted by runs.
-/

namespace RecordStore.StableSort

variable {α : Type} (less : α → α → Comparing Bool)

/-- The middle one of three items, with two comparisons where these settle it. -/
def middleOfThree (a b c : α) : Comparing α := do
  let below ← less a b
  if below != (← less a c) then return a
  else if (← less b c) != below then return c
  else return b

/-- A sample of the first `count` items: the first one of a few, else the middle one of samples from
the front, the middle and the back. -/
def sample (first : α) (count : Nat) (items : List α) : Comparing α := do
  if count < 8 then return items.headD first
  else
    let part := count / 8
    let a ← sample first part items
    let b ← sample first part (items.drop (part * 4))
    let c ← sample first part (items.drop (part * 7))
    middleOfThree less a b c
termination_by count

/-- Splits items by a test, both parts in their first order. -/
def split (test : α → Comparing Bool) : List α → Comparing (List α × List α)
  | [] => pure ([], [])
  | x :: xs => do
    let isLeft ← test x
    let (left, right) ← split test xs
    return if isLeft then (x :: left, right) else (left, x :: right)

/-- Splits items around one at a position, which is not tested and goes to the side that is told. -/
def splitAround (test : α → Comparing Bool) (pivotLeft : Bool) (position : Nat) (pivot : α)
    (items : List α) : Comparing (List α × List α) := do
  let (left, right) ← split test (items.take position)
  let (left', right') ← split test (items.drop (position + 1))
  return if pivotLeft then (left ++ pivot :: left', right ++ right')
    else (left ++ left', right ++ pivot :: right')

/-- Whether the first of two items is not less than the second. -/
def notLess (a b : α) : Comparing Bool := do return !(← less a b)

/-- Sorts by partition, with at most `splits` splits one inside the other. `bound` is the pivot that
no item is less than. -/
def partitionSort : (splits : Nat) → (bound : Option α) → List α → Comparing (List α)
  | _, _, [] => pure []
  | splits, bound, first :: rest => do
    let items := first :: rest
    if items.length ≤ smallLimit then sortSmall less items
    else
      match splits with
      | 0 => sortByRuns less none items
      | splits + 1 => do
        let (pivot, position) ←
          sample (fun a b => less a.1 b.1) (first, 0) items.length items.zipIdx
        let isBound ← match bound with
          | some b => notLess less b pivot
          | none => pure false
        let (left, right) ←
          if isBound then pure ([], items)
          else splitAround (less · pivot) false position pivot items
        if left.isEmpty then
          let (equal, larger) ←
            splitAround (notLess less pivot) true position pivot items
          return equal ++ (← partitionSort splits none larger)
        else
          let right ← partitionSort splits (some pivot) right
          let left ← partitionSort splits bound left
          return left ++ right

end RecordStore.StableSort
