import RecordStore.Number.Decimal

/-!
# Numbers of mixed kinds

A `Number` is an integer, a double or a decimal. Two numbers of which neither is a double compare
exactly; a double compares with any other number after that is rounded to a double.
-/

namespace RecordStore

/-- A number of one of three kinds. -/
inductive Number where
  | integer (n : Int)
  | float (x : Binary64)
  | decimal (d : Decimal)

namespace Number

/-- The number as a double. -/
def toBinary64 : Number → Binary64
  | .integer n => .ofInt n
  | .float x => x
  | .decimal d => d.toBinary64

/-- The integer part toward zero, if the number is finite and not too long by far. -/
def truncate? : Number → Option Int
  | .integer n => some n
  | .float x => x.truncate?
  | .decimal d => d.truncate?

/-- The integer, if it is one of 64 bits with a sign. -/
def int64? (n : Int) : Option Int64 :=
  if -0x8000000000000000 ≤ n ∧ n < 0x8000000000000000 then some (Int64.ofInt n) else none

/-- The integer part toward zero as a signed integer of 64 bits. A double may be as large as 2⁶³,
which counts as the largest such integer. -/
def toInt64? : Number → Option Int64
  | .float x => do
    let n ← x.truncate?
    if n = 0x8000000000000000 then some Int64.maxValue else int64? n
  | x => do int64? (← x.truncate?)

/-- The order of numbers: among doubles if one of the two is a double, else exact. -/
def cmp : Number → Number → Ordering
  | .integer a, .integer b => compare a b
  | .integer a, .decimal b => (Decimal.ofInt a).cmp b
  | .decimal a, .integer b => a.cmp (.ofInt b)
  | .decimal a, .decimal b => a.cmp b
  | a, b => a.toBinary64.totalCompare b.toBinary64

end Number

end RecordStore
