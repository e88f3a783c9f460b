/-!
# Byte strings

Keys, index values and stored records are lists of bytes. They are ordered lexicographically,
a proper prefix first, which is the order the core library gives to lists; everything that is
kept sorted here is kept sorted by it. Numbers enter keys in big-endian form.
-/

namespace RecordStore

/-- A byte string, ordered lexicographically with a proper prefix first. -/
abbrev Bytes := List UInt8

namespace Bytes

/-- The `width` low-order bytes of `n`, most significant first. -/
def ofNat : (width : Nat) → (n : Nat) → Bytes
  | 0, _ => []
  | width + 1, n => UInt8.ofNat (n >>> (8 * width)) :: ofNat width n

/-- The number that a byte string spells in big-endian form. -/
def toNat (bytes : Bytes) : Nat :=
  bytes.foldl (fun n b => n * 256 + b.toNat) 0

@[simp] theorem length_ofNat (width n : Nat) : (ofNat width n).length = width := by
  induction width with
  | zero => rfl
  | succ width ih => simp [ofNat, ih]

/-- The lower-case hexadecimal digit of a number below sixteen. -/
def hexDigit (n : Nat) : Char :=
  if n < 10 then Char.ofNat (48 + n) else Char.ofNat (87 + n)

/-- A byte as two lower-case hexadecimal digits. -/
def hexByte (b : UInt8) : List Char :=
  [hexDigit (b.toNat / 16), hexDigit (b.toNat % 16)]

/-- A byte string in lower-case hexadecimal, two digits a byte. -/
def toHex (bytes : Bytes) : String :=
  String.ofList (bytes.flatMap hexByte)

/-- The number a hexadecimal digit of either case stands for. -/
def hexValue? (c : Char) : Option Nat :=
  if '0' ≤ c ∧ c ≤ '9' then some (c.toNat - 48)
  else if 'a' ≤ c ∧ c ≤ 'f' then some (c.toNat - 87)
  else if 'A' ≤ c ∧ c ≤ 'F' then some (c.toNat - 55)
  else none

/-- The bytes that pairs of hexadecimal digits spell; an odd digit out is refused. -/
def ofHexDigits? : List Char → Option Bytes
  | [] => some []
  | [_] => none
  | hi :: lo :: rest => do
    let h ← hexValue? hi
    let l ← hexValue? lo
    let bytes ← ofHexDigits? rest
    return UInt8.ofNat (h * 16 + l) :: bytes

/-- The bytes that a hexadecimal text spells. -/
def ofHex? (text : String) : Option Bytes := ofHexDigits? text.toList

end Bytes


end RecordStore
