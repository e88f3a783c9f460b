import RecordStore.StableSort.Small

/-!
# Sorting by runs

A list is cut into runs from the front: stretches that rise, or fall strictly and are turned round,
where they are long enough, and short pieces elsewhere. Runs are merged with their neighbours in an
order that keeps the tree of merges balanced. Pieces are either sorted when they are cut, or left as
they are, put together with neighbours of their kind, and sorted only when they meet a run.
-/

namespace RecordStore.StableSort

variable {α : Type}

/-- Items in a row, and whether they are in order. -/
structure Run (α : Type) where
  items : List α
  sorted : Bool

/-! ## Cutting -/

section Cutting

variable (less : α → α → Comparing Bool)

/-- How many items rise from the one before them on. -/
def countRising (previous : α) : List α → Comparing Nat
  | [] => pure 0
  | x :: xs => do
    if ← less x previous then return 0
    else return (← countRising x xs) + 1

/-- How many items fall strictly from the one before them on. -/
def countFalling (previous : α) : List α → Comparing Nat
  | [] => pure 0
  | x :: xs => do
    if ← less x previous then return (← countFalling x xs) + 1
    else return 0

/-- The length of the stretch at the front that rises or falls, and whether it falls. -/
def leadingStretch : List α → Comparing (Nat × Bool)
  | x :: y :: rest => do
    if ← less y x then return ((← countFalling less y rest) + 2, true)
    else return ((← countRising less y rest) + 2, false)
  | items => pure (items.length, false)

/-- The run at the front: a stretch of `least` items at least, else a piece. A piece is sorted when
it is cut if it is to be `eager`. -/
def cutRun (eager : Bool) (least : Nat) (items : List α) : Comparing (Run α) := do
  let (length, falls) ←
    if least ≤ items.length then leadingStretch less items else pure (0, false)
  if least ≤ length then
    let stretch := items.take length
    return ⟨if falls then stretch.reverse else stretch, true⟩
  else if eager then return ⟨← sortSmall less (items.take smallLimit), true⟩
  else return ⟨items.take least, false⟩

end Cutting

/-- The square root, roughly: one step of Newton's method from a power of two. -/
def roughSqrt (n : Nat) : Nat :=
  let shift := (1 + n.log2) / 2
  (1 <<< shift + n >>> shift) / 2

/-- The length from which on a stretch of a list of `count` items makes a run. -/
def leastStretch (count : Nat) : Nat :=
  if count ≤ 4096 then min (count - count / 2) 64 else roughSqrt count

/-- The depth, in the tree of merges of `count` items, at which two neighbouring runs are to be
merged: the number of leading bits that their middles have in common as fractions of the whole. -/
def mergeDepth (count start middle finish : Nat) : Nat :=
  let factor := (0x4000000000000000 + count - 1) / count
  let difference := (factor * (start + middle)) ^^^ (factor * (middle + finish))
  if difference = 0 then 64 else 63 - difference.log2

/-! ## Merging -/

section Merging

variable (less : α → α → Comparing Bool) (later : Option (List α → Comparing (List α)))

/-- The items of a run in order. -/
def Run.ordered (run : Run α) : Comparing (List α) :=
  match run.sorted, later with
  | false, some sort => sort run.items
  | _, _ => pure run.items

/-- Two neighbouring runs as one: two pieces are put together, anything else is merged. -/
def Run.join (left right : Run α) : Comparing (Run α) := do
  if left.sorted || right.sorted then
    let leftItems ← left.ordered later
    let rightItems ← right.ordered later
    return ⟨← merge less leftItems rightItems, true⟩
  else return ⟨left.items ++ right.items, false⟩

/-- Joins a run with the runs before it, the nearest first, as long as they were to be merged at
`depth` or deeper. -/
def collapse (depth : Nat) : List (Run α × Nat) → Run α → Comparing (List (Run α × Nat) × Run α)
  | [], run => pure ([], run)
  | (left, leftDepth) :: before, run => do
    if depth ≤ leftDepth then collapse depth before (← left.join less later run)
    else return ((left, leftDepth) :: before, run)

/-- Goes on behind the run `last`. The runs before it are kept with the depths at which they are to
be merged with what follows them. -/
def mergeRuns (count : Nat) (before : List (Run α × Nat)) (last : Run α) :
    (rest : List α) → Comparing (Run α)
  | [] => do return (← collapse less later 0 before last).2
  | x :: xs => do
    let next ← cutRun less later.isNone (leastStretch count) (x :: xs)
    let middle := count - (xs.length + 1)
    let depth := mergeDepth count (middle - last.items.length) middle (middle + next.items.length)
    let (before, last) ← collapse less later depth before last
    mergeRuns count ((last, depth) :: before) next (xs.drop (next.items.length - 1))
termination_by rest => rest.length
decreasing_by simp only [List.length_drop, List.length_cons]; omega

/-- Sorts by runs. Pieces are sorted by `later` when they have to be, or at once if there is no such
sort. -/
def sortByRuns (items : List α) : Comparing (List α) := do
  let count := items.length
  let first ← cutRun less later.isNone (leastStretch count) items
  let run ← mergeRuns less later count [] first (items.drop first.items.length)
  run.ordered later

end Merging

end RecordStore.StableSort
