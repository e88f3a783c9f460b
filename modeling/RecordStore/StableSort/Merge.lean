import RecordStore.StableSort.Comparing

/-!
# Merging

Two lists in order are merged into one; of equal items those of the left list come first. The merge
goes from the front if the left list is not the longer one, else from the back. Which way makes no
difference to the answer while the order is consistent, but it decides which pairs are compared.
-/

namespace RecordStore.StableSort

variable {α : Type} (less : α → α → Comparing Bool)

/-- Merges from the front. -/
def mergeFront : (left right : List α) → Comparing (List α)
  | [], right => pure right
  | left, [] => pure left
  | x :: left, y :: right => do
    if ← less y x then return y :: (← mergeFront (x :: left) right)
    else return x :: (← mergeFront left (y :: right))
termination_by left right => left.length + right.length

/-- Merges lists that are held last item first, into such a list. -/
def mergeBack : (left right : List α) → Comparing (List α)
  | [], right => pure right
  | left, [] => pure left
  | x :: left, y :: right => do
    if ← less y x then return x :: (← mergeBack left (y :: right))
    else return y :: (← mergeBack (x :: left) right)
termination_by left right => left.length + right.length

/-- Merges two lists in order. -/
def merge (left right : List α) : Comparing (List α) :=
  if left.length ≤ right.length then mergeFront less left right
  else do return (← mergeBack less left.reverse right.reverse).reverse

/-- What a merge from both ends has reached: the items placed in front and what is left of the two
lists as seen from there, and the items placed at the back and how many of them came from the left
and from the right list. -/
structure Meeting (α : Type) where
  front : List α
  left : List α
  right : List α
  back : List α
  backLeft : Nat
  backRight : Nat

/-- Places so many items in front and as many at the back, in turn. Each end sees the two lists as
they were, `left` and `right` from the front and `leftBack` and `rightBack` from the back. -/
def placeEnds : (rounds : Nat) → (left right leftBack rightBack : List α) → Comparing (Meeting α)
  | rounds + 1, x :: left, y :: right, u :: leftBack, v :: rightBack => do
    let takeRight ← less y x
    let keepRight ← less v u
    let m ← match takeRight, keepRight with
      | false, false => placeEnds rounds left (y :: right) (u :: leftBack) rightBack
      | false, true => placeEnds rounds left (y :: right) leftBack (v :: rightBack)
      | true, false => placeEnds rounds (x :: left) right (u :: leftBack) rightBack
      | true, true => placeEnds rounds (x :: left) right leftBack (v :: rightBack)
    return { m with
      front := (if takeRight then y else x) :: m.front
      back := m.back ++ [if keepRight then u else v]
      backLeft := m.backLeft + (if keepRight then 1 else 0)
      backRight := m.backRight + (if keepRight then 0 else 1) }
  | _, left, right, _, _ => pure ⟨[], left, right, [], 0, 0⟩

/-- Merges two lists of the same length, or the right one longer by one, from both ends at once. An
order that contradicts itself can make the two ends pass each other in one of the lists; the merge
gives up then. -/
def mergeEnds (left right : List α) : Comparing (List α) := do
  let count := left.length + right.length
  let m ← placeEnds less (count / 2) left right left.reverse right.reverse
  let middle := m.left.take (m.left.length - m.backLeft) ++
    m.right.take (m.right.length - m.backRight)
  if middle.length = count % 2 then return m.front ++ middle ++ m.back
  else Comparing.giveUp

end RecordStore.StableSort
