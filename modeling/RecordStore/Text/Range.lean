/-!
# Ranges of characters

Properties of characters are kept as tables of ranges of their numbers, both ends included, in
ascending order.
-/

namespace RecordStore.Text

/-- Whether a number lies in one of the ranges. -/
def inRanges (table : Array (Nat × Nat)) (n : Nat) : Bool :=
  table.any fun r => r.1 ≤ n && n ≤ r.2

/-- Characters that separate words: the White_Space property. -/
def blankRanges : Array (Nat × Nat) := #[
  (0x9, 0xd), (0x20, 0x20), (0x85, 0x85), (0xa0, 0xa0), (0x1680, 0x1680), (0x2000, 0x200a),
  (0x2028, 0x2029), (0x202f, 0x202f), (0x205f, 0x205f), (0x3000, 0x3000)]

/-- Whether a character is a blank. -/
def isBlank (c : Char) : Bool := inRanges blankRanges c.toNat

end RecordStore.Text
