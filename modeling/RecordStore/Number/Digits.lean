/-!
# Decimal digits and the point

Digits of a number, and the positional form of `digits · 10 ^ exponent`: no exponent is written,
zeros fill the way to the point.
-/

namespace RecordStore.Digits

/-- The decimal digits of `n`, most significant first; `0` is one digit. -/
def ofNat (n : Nat) : List Char := Nat.toDigits 10 n

/-- The decimal digits of an integer, after a minus sign if it is negative. -/
def ofInt (n : Int) : List Char := (if n < 0 then ['-'] else []) ++ ofNat n.natAbs

/-- A number written in decimal. -/
def text (n : Nat) : String := String.ofList (ofNat n)

/-- An integer written in decimal. -/
def intText (n : Int) : String := String.ofList (ofInt n)

/-- The number that decimal digits spell. -/
def toNat (digits : List Char) : Nat :=
  digits.foldl (fun n c => n * 10 + (c.toNat - 48)) 0

/-- Whether a character is an ASCII digit. -/
def isDigit (c : Char) : Bool := '0' ≤ c ∧ c ≤ '9'

/-- One with `count` zeros behind it. -/
def tenTo (count : Nat) : Nat := Nat.pow 10 count

/-- `count` zeros. -/
def zeros (count : Nat) : List Char := List.replicate count '0'

/-- `digits · 10 ^ exponent` with a point only where a digit follows it, and a zero before a point
that would stand first. -/
def positional (digits : List Char) (exponent : Int) : List Char :=
  if 0 ≤ exponent then digits ++ zeros exponent.toNat
  else
    let places := exponent.natAbs
    if places < digits.length then
      digits.take (digits.length - places) ++ '.' :: digits.drop (digits.length - places)
    else '0' :: '.' :: zeros (places - digits.length) ++ digits

/-- A number padded with zeros on the left to `width` digits at least. -/
def padded (width n : Nat) : List Char :=
  let digits := ofNat n
  zeros (width - digits.length) ++ digits

end RecordStore.Digits
