import RecordStore.StableSort.Partition

/-!
# Stable sorting by an order that may fail

`stableSort` sorts items so that equal ones stay in their first order. It is adaptive: a short list
is sorted by insertion, one of middle length by runs whose pieces are sorted at once, a long one by
runs whose pieces are sorted by partition. A comparison that fails is kept, and what is less is not
asked any more; the answer is a rearrangement of the items all the same, and the error says that it
is not sorted. An order that contradicts itself has no sorted list, and then the answer depends on
which pairs were compared. There may be none: a merge from both ends gives up where it notices.
-/

namespace RecordStore

variable {α : Type}

namespace StableSort

/-- The most items that are sorted by insertion alone. -/
def insertionLimit : Nat := 20

/-- Sorts items by a comparison. -/
def sort (less : α → α → Comparing Bool) (items : List α) : Comparing (List α) :=
  if items.length ≤ insertionLimit then insertionSort less items
  else if items.length ≤ 2 * smallLimit then sortByRuns less none items
  else
    sortByRuns less (some fun part => partitionSort less (2 * part.length.log2) none part) items

end StableSort

/-- Sorts stably, as far as the order goes, and tells where it failed; nothing if the sort gave up. -/
def stableSort (cmp : α → α → Except Error Ordering) (items : List α) :
    Option (List α × Option Error) :=
  (StableSort.sort (Comparing.less cmp) items).finish

end RecordStore
