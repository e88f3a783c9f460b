import RecordStore.StableSort.Merge

/-!
# Sorting a few items

Up to twenty items are sorted by insertion alone. Up to thirty-two items of a longer list are sorted
in two halves, each opened with four items in five comparisons and filled up by insertion, and the
halves are merged from both ends.
-/

namespace RecordStore.StableSort

variable {α : Type} (less : α → α → Comparing Bool)

/-- Inserts an item into a list held largest item first, behind no smaller item and before every
item equal to it. -/
def insertFromBehind (x : α) : List α → Comparing (List α)
  | [] => pure [x]
  | y :: ys => do
    if ← less x y then return y :: (← insertFromBehind x ys)
    else return x :: y :: ys

/-- Inserts items one by one into a list held largest item first. -/
def insertEach (sorted : List α) : List α → Comparing (List α)
  | [] => pure sorted
  | x :: xs => do insertEach (← insertFromBehind less x sorted) xs

/-- Sorts by insertion. -/
def insertionSort (items : List α) : Comparing (List α) := do
  return (← insertEach less [] items).reverse

/-- Four items in order. Two pairs are put in order, then their smaller and their larger items are
compared; the two items left over keep the side they came from unless the last comparison says
otherwise. -/
def sortFour (a b c d : α) : Comparing (List α) := do
  let swapLeft ← less b a
  let swapRight ← less d c
  let (a, b) := if swapLeft then (b, a) else (a, b)
  let (c, d) := if swapRight then (d, c) else (c, d)
  let minRight ← less c a
  let maxLeft ← less d b
  let min := if minRight then c else a
  let max := if maxLeft then b else d
  let left := if minRight then a else if maxLeft then c else b
  let right := if maxLeft then d else if minRight then b else c
  if ← less right left then return [min, right, left, max]
  else return [min, left, right, max]

/-- The first items in order, held largest item first, and the rest: four items, or the first one
alone. -/
def opening (four : Bool) : List α → Comparing (List α × List α)
  | a :: b :: c :: d :: rest => do
    if four then return ((← sortFour less a b c d).reverse, rest)
    else return ([a], b :: c :: d :: rest)
  | a :: rest => pure ([a], rest)
  | [] => pure ([], [])

/-- The most items that `sortSmall` is used for. -/
def smallLimit : Nat := 32

/-- Sorts a few items in two halves. Both halves are opened before either is filled up. -/
def sortSmall (items : List α) : Comparing (List α) := do
  let half := items.length / 2
  let four : Bool := 8 ≤ items.length
  let (left, leftRest) ← opening less four (items.take half)
  let (right, rightRest) ← opening less four (items.drop half)
  let left ← insertEach less left leftRest
  let right ← insertEach less right rightRest
  mergeEnds less left.reverse right.reverse

end RecordStore.StableSort
