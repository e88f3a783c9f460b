import RecordStore.Number.Digits

/-!
# Binary floating point

A `Binary64` is sixty-four bits read as a floating-point number: a sign, a binary exponent and a
fraction. Rounding to it is done in exact arithmetic on natural numbers (`ofRatio`, to nearest,
ties to even), so conversions from integers and decimals have no intermediate error. The order is
the total one, in which every bit pattern has its place: `orderKey` is the rank of a pattern, and
comparing two numbers is comparing their ranks.
-/

namespace RecordStore

/-- A double-precision number, given by its bits. -/
structure Binary64 where
  bits : UInt64
  deriving DecidableEq, Inhabited

namespace Binary64

/-- Whether the sign bit is set. -/
def negative (x : Binary64) : Bool := 0x8000000000000000 ≤ x.bits.toNat

/-- The eleven exponent bits. -/
def exponentBits (x : Binary64) : Nat := x.bits.toNat / 0x10000000000000 % 0x800

/-- The fifty-two fraction bits. -/
def fraction (x : Binary64) : Nat := x.bits.toNat % 0x10000000000000

/-- Whether the number is neither infinite nor a NaN. -/
def isFinite (x : Binary64) : Bool := x.exponentBits ≠ 2047

/-- Whether the bits stand for no number. -/
def isNaN (x : Binary64) : Bool := x.exponentBits = 2047 ∧ x.fraction ≠ 0

/-- The integer `m` of a finite magnitude `m · 2 ^ q`. -/
def significand (x : Binary64) : Nat :=
  if x.exponentBits = 0 then x.fraction else x.fraction + 0x10000000000000

/-- The exponent `q` of a finite magnitude `m · 2 ^ q`. -/
def scale (x : Binary64) : Int := (max x.exponentBits 1 : Int) - 1075

/-- The number with this sign and these bits below the sign. -/
def ofMagnitude (negative : Bool) (bits : Nat) : Binary64 :=
  ⟨UInt64.ofNat (if negative then bits + 0x8000000000000000 else bits)⟩

/-- The bits of infinity, the first above every finite magnitude. -/
def infinityBits : Nat := 0x7ff0000000000000

/-- The rank of a bit pattern in the total order: negative numbers downwards from zero, then the
others upwards. -/
def orderKey (x : Binary64) : Nat :=
  if x.negative then 0xffffffffffffffff - x.bits.toNat else x.bits.toNat + 0x8000000000000000

/-- The total order: -NaN, -∞, …, -0, 0, …, ∞, NaN. -/
def totalCompare (x y : Binary64) : Ordering := compare x.orderKey y.orderKey

/-- The number of a rank; `ofOrderKey x.orderKey = x`. -/
def ofOrderKey (key : Nat) : Binary64 :=
  ⟨UInt64.ofNat (if 0x8000000000000000 ≤ key then key - 0x8000000000000000
    else 0xffffffffffffffff - key)⟩

/-! ## Rounding -/

/-- The quotient rounded to the nearest integer, a tie to the even one. -/
def divHalfEven (num den : Nat) : Nat :=
  let q := num / den
  match compare (2 * (num % den)) den with
  | .lt => q
  | .eq => if q % 2 = 0 then q else q + 1
  | .gt => q + 1

/-- The exponent `e` with `2 ^ e ≤ num / den < 2 ^ (e + 1)`. -/
def ratioLog2 (num den : Nat) : Int :=
  let e : Int := (num.log2 : Int) - den.log2
  let reaches := if 0 ≤ e then den <<< e.toNat ≤ num else den ≤ num <<< e.natAbs
  if reaches then e else e - 1

/-- The double nearest to `num / den`, a tie to the even one; too large is infinite. -/
def ofRatio (negative : Bool) (num den : Nat) : Binary64 :=
  if num = 0 then ofMagnitude negative 0
  else
    -- The weight of the last bit: 2 ^ unit, never below the smallest subnormal.
    let unit := max (ratioLog2 num den - 52) (-1074)
    let m :=
      if 0 ≤ unit then divHalfEven num (den <<< unit.toNat)
      else divHalfEven (num <<< unit.natAbs) den
    -- A carry out of the significand lands in the exponent by itself.
    ofMagnitude negative (min ((unit + 1074).toNat * 0x10000000000000 + m) infinityBits)

/-- The double nearest to an integer. -/
def ofInt (n : Int) : Binary64 := ofRatio (n < 0) n.natAbs 1

/-- The integer part, toward zero, of a finite number. -/
def truncate? (x : Binary64) : Option Int :=
  if x.isFinite then
    let magnitude :=
      if 0 ≤ x.scale then x.significand <<< x.scale.toNat
      else x.significand >>> x.scale.natAbs
    some (if x.negative then -(magnitude : Int) else magnitude)
  else none

/-- A single-precision number, given by its bits, as the double of the same value; a NaN keeps
its payload and becomes quiet. -/
def ofBinary32 (bits : UInt32) : Binary64 :=
  let n := bits.toNat
  let negative : Bool := 0x80000000 ≤ n
  let exponentBits : Nat := n / 0x800000 % 0x100
  let fraction : Nat := n % 0x800000
  if exponentBits = 255 then
    let payload := if fraction = 0 then 0 else (fraction <<< 29) ||| 0x8000000000000
    ofMagnitude negative (infinityBits + payload)
  else
    let m := if exponentBits = 0 then fraction else fraction + 0x800000
    let q : Int := (max exponentBits 1 : Int) - 150
    if 0 ≤ q then ofRatio negative (m <<< q.toNat) 1
    else ofRatio negative m (1 <<< q.natAbs)

/-- The sum, rounded to nearest. -/
def add (x y : Binary64) : Binary64 :=
  ⟨(Float.ofBits x.bits + Float.ofBits y.bits).toBits⟩

/-- The product, rounded to nearest. -/
def mul (x y : Binary64) : Binary64 :=
  ⟨(Float.ofBits x.bits * Float.ofBits y.bits).toBits⟩

/-- `acc · x ^ n` by squaring, each product rounded. -/
def mulPow (acc x : Binary64) (n : Nat) : Binary64 :=
  if n = 0 then acc
  else mulPow (if n % 2 = 1 then acc.mul x else acc) (x.mul x) (n / 2)
termination_by n
decreasing_by omega

/-- The quotient, rounded to nearest. -/
def div (x y : Binary64) : Binary64 :=
  ⟨(Float.ofBits x.bits / Float.ofBits y.bits).toBits⟩

end Binary64

end RecordStore
