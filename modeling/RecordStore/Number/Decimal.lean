import RecordStore.Number.Binary64

/-!
# Decimals of any precision

A `Decimal` is an integer with a scale: `coefficient / 10 ^ scale`. Trailing zeros are part of the
representation (`1.5` and `1.50` are two decimals of one number), and the text of a decimal keeps
them. Comparison is by number.
-/

namespace RecordStore

/-- The decimal `coefficient / 10 ^ scale`. -/
structure Decimal where
  coefficient : Int
  scale : Int
  deriving DecidableEq, Inhabited

namespace Decimal

/-- An integer as a decimal without places. -/
def ofInt (n : Int) : Decimal := ⟨n, 0⟩

/-- The number of digits of the coefficient less the scale: the magnitude is below `10 ^ width`,
and not below `10 ^ (width - 1)` unless it is zero. -/
def width (d : Decimal) : Int :=
  (Digits.ofNat d.coefficient.natAbs).length - d.scale

/-! ## Text -/

/-- Zeros after the point beyond which an exponent is written. -/
def leadingZeroLimit : Int := 5

/-- Zeros at the end of a whole number beyond which an exponent is written. -/
def trailingZeroLimit : Int := 15

/-- The text of a magnitude. A scale of places that would bring more than five zeros after the
point is written `d.dddE-x`; a negative scale is written as up to fifteen zeros, else `e+x`. -/
def magnitudeText (digits : List Char) (scale : Int) : List Char :=
  let count : Int := digits.length
  if scale ≤ 0 then
    if -scale ≤ trailingZeroLimit then digits ++ Digits.zeros (-scale).toNat
    else digits ++ 'e' :: '+' :: Digits.ofNat scale.natAbs
  else if scale - count ≤ leadingZeroLimit then Digits.positional digits (-scale)
  else
    let tail := digits.drop 1
    digits.take 1 ++ (if tail.isEmpty then [] else '.' :: tail) ++
      'E' :: '-' :: Digits.ofNat (scale + 1 - count).natAbs

/-- The text of a decimal; every zero is `0`. -/
def text (d : Decimal) : String :=
  if d.coefficient = 0 then "0"
  else
    let sign := if d.coefficient < 0 then ['-'] else []
    String.ofList (sign ++ magnitudeText (Digits.ofNat d.coefficient.natAbs) d.scale)

/-! ## Reading -/

/-- The number that digits spell; underscores between digits are passed over, none may stand
first. -/
def readNat? (cs : List Char) : Option Nat :=
  match cs with
  | [] => none
  | '_' :: _ => none
  | _ =>
    if cs.all fun c => Digits.isDigit c || c == '_' then
      some (Digits.toNat (cs.filter (· != '_')))
    else none

/-- A whole number with an optional sign. -/
def readInt? : List Char → Option Int
  | '-' :: cs => (readNat? cs).map fun n => -(n : Int)
  | '+' :: cs => (readNat? cs).map Int.ofNat
  | cs => (readNat? cs).map Int.ofNat

/-- The first exponent that does not fit in 128 bits with a sign. -/
def exponentLimit : Int := 0x80000000000000000000000000000000

/-- An exponent: an optional sign and digits, in the range of 128 bits. -/
def readExponent? (cs : List Char) : Option Int :=
  let digits? (ds : List Char) : Option Nat :=
    if ds ≠ [] ∧ ds.all Digits.isDigit then some (Digits.toNat ds) else none
  let value := match cs with
    | '-' :: ds => (digits? ds).map fun n => -(n : Int)
    | '+' :: ds => (digits? ds).map Int.ofNat
    | ds => (digits? ds).map Int.ofNat
  value.filter fun n => -exponentLimit ≤ n ∧ n < exponentLimit

/-- Reads `digits`, an optional point among them and an optional exponent. The scale counts the
characters after the point, less the exponent, and must fit in 64 bits. -/
def parse? (text : String) : Option Decimal := do
  let isMark : Char → Bool := fun c => c == 'e' || c == 'E'
  let cs := text.toList
  let base := cs.takeWhile (!isMark ·)
  let exponent ← match cs.dropWhile (!isMark ·) with
    | [] => some 0
    | _ :: rest => readExponent? rest
  let whole := base.takeWhile (· != '.')
  let places := (base.dropWhile (· != '.')).drop 1
  let scale : Int := (places.filter (· != '_')).length - exponent
  guard (-0x8000000000000000 ≤ scale ∧ scale < 0x8000000000000000)
  let coefficient ← readInt? (whole ++ places)
  return ⟨coefficient, scale⟩

/-! ## Value -/

/-- The magnitude of a decimal is `numerator / denominator`. -/
def numerator (d : Decimal) : Nat := d.coefficient.natAbs * Digits.tenTo (-d.scale).toNat

/-- The power of ten that a decimal is divided by. -/
def denominator (d : Decimal) : Nat := Digits.tenTo d.scale.toNat

/-- Compares magnitudes of two non-zero decimals: by width first, so that no power of ten larger
than the digits themselves is ever formed. -/
def compareMagnitude (a b : Decimal) : Ordering :=
  (compare a.width b.width).then
    (compare (a.coefficient.natAbs * Digits.tenTo (b.scale - a.scale).toNat)
      (b.coefficient.natAbs * Digits.tenTo (a.scale - b.scale).toNat))

/-- Compares two decimals as numbers. -/
def cmp (a b : Decimal) : Ordering :=
  (compare a.coefficient.sign b.coefficient.sign).then
    (if a.coefficient = 0 then .eq
      else if a.coefficient < 0 then compareMagnitude b a
      else compareMagnitude a b)

/-- The integer part toward zero, unless it has more than thirty digits. -/
def truncate? (d : Decimal) : Option Int :=
  if d.coefficient = 0 ∨ d.width ≤ 0 then some 0
  else if 30 < d.width then none
  else some (Int.tdiv (d.coefficient.sign * d.numerator) d.denominator)

/-! ## As a double -/

/-- The double nearest to a decimal. Beyond four hundred places either way the answer is infinite
or zero. -/
def nearest (d : Decimal) : Binary64 :=
  let negative : Bool := d.coefficient < 0
  if 400 < d.width then Binary64.ofMagnitude negative Binary64.infinityBits
  else if d.width < -400 then Binary64.ofMagnitude negative 0
  else Binary64.ofRatio negative d.numerator d.denominator

/-- About the number of decimal digits of a number that has so many binary ones: the decimal
logarithm of two, times their number plus one, rounded down. -/
def digitEstimate (bits : Nat) : Nat :=
  (bits + 1) * 30102999566398119521 / 100000000000000000000

/-- The number of digits that are cut off the end of a coefficient: blocks of nineteen, as many as
leave twenty-five digits by `digitEstimate`. -/
def surplus (coefficient : Nat) : Nat := (digitEstimate (coefficient.log2 + 1) - 25) / 19 * 19

/-- The decimal without its surplus digits. -/
def shortened (d : Decimal) : Decimal :=
  let count := surplus d.coefficient.natAbs
  ⟨d.coefficient.tdiv (Digits.tenTo count), d.scale - count⟩

/-- The double that a decimal is taken for, which need not be the nearest one. A whole number
without scale is rounded once. Any other is shortened first; then the nearest double of a whole
number is multiplied by a power of ten in doubles, and a number with places is rounded once. A
scale of more than 31 bits counts as infinite, whichever way it goes. -/
def toBinary64 (d : Decimal) : Binary64 :=
  if d.coefficient = 0 then Binary64.ofMagnitude false 0
  else if d.scale = 0 then .ofInt d.coefficient
  else
    let s := d.shortened
    if 0x7fffffff < s.scale.natAbs then
      Binary64.ofMagnitude (d.coefficient < 0) Binary64.infinityBits
    else if s.scale ≤ 0 then
      (Binary64.ofInt s.coefficient).mul (.mulPow (.ofInt 1) (.ofInt 10) s.scale.natAbs)
    else s.nearest

end Decimal

end RecordStore
