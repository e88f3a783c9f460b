import RecordStore.Number.Binary64

/-!
# The shortest decimal that reads back

Every finite double is the nearest double to an interval of reals. `shortest` takes, for one digit,
two digits and so on, the two neighbours of the number on that decimal grid; the first grid with a
neighbour in the interval gives the digits, and of two such neighbours the nearer one. `FloatLayout`
holds what is left to a format: how a tie goes, where positional writing ends, whether a whole
number shows a fraction, and whether an exponent shows a plus sign.
-/

namespace RecordStore.Binary64

/-- How a format writes doubles. -/
structure FloatLayout where
  /-- A tie between two shortest decimals goes to the larger one, else to the even one. -/
  tieUp : Bool
  /-- Positional writing is used while the point stands this many digits or fewer after the first
  digit; `none` is always. -/
  largestPoint : Option Int
  /-- Positional writing is used while the point stands after this many digits or more, counted
  from the first. -/
  smallestPoint : Option Int
  /-- Whole numbers end in `.0`. -/
  showsFraction : Bool
  /-- An exponent that is not negative has a plus sign. -/
  signsExponent : Bool

/-- Whether `num / den` is `10 ^ e` or more. -/
def reachesPowerOfTen (num den : Nat) (e : Int) : Bool :=
  if 0 ≤ e then den * Digits.tenTo e.toNat ≤ num else den ≤ num * Digits.tenTo e.natAbs

/-- The exponent `e` with `10 ^ e ≤ num / den < 10 ^ (e + 1)`, from an estimate that is off by one
at most. -/
def ratioLog10 (num den : Nat) : Int :=
  let estimate := (ratioLog2 num den * 30103).fdiv 100000
  if reachesPowerOfTen num den (estimate + 1) then estimate + 1
  else if reachesPowerOfTen num den estimate then estimate
  else estimate - 1

/-- The bounds of a finite magnitude and the magnitude itself, in quarters of a unit over a common
denominator: everything strictly between the bounds rounds to it. -/
structure Interval where
  low : Nat
  mid : Nat
  high : Nat
  den : Nat
  /-- The bounds themselves round to the magnitude too. -/
  closed : Bool

/-- The reals that round to a finite non-zero magnitude. Below a power of two the doubles are
twice as dense. -/
def interval (x : Binary64) : Interval :=
  let m := x.significand
  let narrow : Bool := m = 0x10000000000000 ∧ 1 < x.exponentBits
  let below := if narrow then 1 else 2
  let up := (x.scale - 2).toNat
  let down := (2 - x.scale).toNat
  ⟨(4 * m - below) <<< up, (4 * m) <<< up, (4 * m + 2) <<< up, 1 <<< down, m % 2 = 0⟩

/-- Whether the decimal `d · 10 ^ e` rounds to the magnitude of the interval. -/
def Interval.contains (i : Interval) (d : Nat) (e : Int) : Bool :=
  let value := d * Digits.tenTo e.toNat * i.den
  let unit := Digits.tenTo (-e).toNat
  if i.closed then i.low * unit ≤ value ∧ value ≤ i.high * unit
  else i.low * unit < value ∧ value < i.high * unit

/-- The decimal on the grid of `10 ^ e` that reads back, if there is one: of two the nearer. -/
def Interval.onGrid? (i : Interval) (tieUp : Bool) (e : Int) : Option Nat :=
  let num := i.mid * Digits.tenTo (-e).toNat
  let den := i.den * Digits.tenTo e.toNat
  let d := num / den
  let up :=
    match compare (2 * (num % den)) den with
    | .lt => false
    | .eq => tieUp || d % 2 = 1
    | .gt => true
  match i.contains d e, i.contains (d + 1) e with
  | true, true => some (if up then d + 1 else d)
  | true, false => some d
  | false, true => some (d + 1)
  | false, false => none

/-- The first hit on the grids of `count` digits and more; seventeen digits always read back. -/
def Interval.firstGrid (i : Interval) (tieUp : Bool) (top : Int) : (left count : Nat) → Nat × Int
  | 0, _ => (0, 0)
  | left + 1, count =>
    let e := top - (count : Int) + 1
    match i.onGrid? tieUp e with
    | some d => (d, e)
    | none => i.firstGrid tieUp top left (count + 1)

/-- Takes the zeros off the end of a number, each into the exponent. -/
def dropZeros : (fuel : Nat) → Nat → Int → Nat × Int
  | 0, d, e => (d, e)
  | fuel + 1, d, e => if d ≠ 0 ∧ d % 10 = 0 then dropZeros fuel (d / 10) (e + 1) else (d, e)

/-- The shortest decimal `d · 10 ^ e` that reads back as the magnitude of a finite non-zero
number. -/
def shortest (tieUp : Bool) (x : Binary64) : Nat × Int :=
  let i := x.interval
  let (d, e) := i.firstGrid tieUp (ratioLog10 i.mid i.den) 17 1
  dropZeros 17 d e

/-- The magnitude of a finite number in a layout. -/
def magnitudeText (layout : FloatLayout) (x : Binary64) : List Char :=
  if x.significand = 0 then (if layout.showsFraction then ['0', '.', '0'] else ['0'])
  else
    let (d, e) := x.shortest layout.tieUp
    let digits := Digits.ofNat d
    let point : Int := digits.length + e
    let isPositional : Bool :=
      (layout.largestPoint.all fun p => point ≤ p) ∧ (layout.smallestPoint.all fun p => p ≤ point)
    if isPositional then
      let text := Digits.positional digits e
      if layout.showsFraction ∧ 0 ≤ e then text ++ ['.', '0'] else text
    else
      let power := point - 1
      let tail := digits.drop 1
      digits.take 1 ++ (if tail.isEmpty then [] else '.' :: tail) ++ 'e' ::
        (if power < 0 then ['-'] else if layout.signsExponent then ['+'] else []) ++
        Digits.ofNat power.natAbs

/-- A double in a layout; the three values that are not finite have names. -/
def text (layout : FloatLayout) (x : Binary64) : String :=
  if x.isNaN then "NaN"
  else
    let sign := if x.negative then ['-'] else []
    let magnitude := if x.isFinite then magnitudeText layout x else ['i', 'n', 'f']
    String.ofList (sign ++ magnitude)

end RecordStore.Binary64
