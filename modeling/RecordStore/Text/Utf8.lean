import RecordStore.Bytes

/-!
# Text as UTF-8

`utf8` and `ofUtf8?` go between texts and their byte form. `decodeLossy` reads any bytes at all:
each maximal part that no text could continue becomes one U+FFFD.
-/

namespace RecordStore.Text

/-- The UTF-8 form of a text. -/
def utf8 (s : String) : Bytes := s.toByteArray.data.toList

/-- The text with this UTF-8 form, if there is one. -/
def ofUtf8? (bytes : Bytes) : Option String :=
  String.fromUTF8? ⟨bytes.toArray⟩

/-- The character put where bytes are not text. -/
def replacement : Char := Char.ofNat 0xFFFD

/-- A character begun but not finished: the bits so far, the number of bytes still owed, and the
range the next byte must lie in. -/
structure Pending where
  bits : Nat
  owed : Nat
  low : UInt8
  high : UInt8

/-- What a byte at the start of a character opens: a whole character, a part of one, or nothing. -/
inductive Opening where
  | whole (c : Char)
  | part (p : Pending)
  | invalid

/-- Reads a byte at the start of a character. The narrowed ranges of the second byte keep out
overlong forms, surrogates and numbers above U+10FFFF. -/
def Opening.ofByte (b : UInt8) : Opening :=
  let n := b.toNat
  if n < 0x80 then .whole (Char.ofNat n)
  else if 0xC2 ≤ n ∧ n ≤ 0xDF then .part ⟨n - 0xC0, 1, 0x80, 0xBF⟩
  else if n = 0xE0 then .part ⟨0, 2, 0xA0, 0xBF⟩
  else if n = 0xED then .part ⟨0xD, 2, 0x80, 0x9F⟩
  else if 0xE1 ≤ n ∧ n ≤ 0xEF then .part ⟨n - 0xE0, 2, 0x80, 0xBF⟩
  else if n = 0xF0 then .part ⟨0, 3, 0x90, 0xBF⟩
  else if 0xF1 ≤ n ∧ n ≤ 0xF3 then .part ⟨n - 0xF0, 3, 0x80, 0xBF⟩
  else if n = 0xF4 then .part ⟨4, 3, 0x80, 0x8F⟩
  else .invalid

/-- Reads bytes from between characters (`none`) or inside one; a part cut short becomes one
replacement, and the byte that cut it is read afresh. -/
def decodeFrom : Option Pending → Bytes → List Char
  | none, [] => []
  | some _, [] => [replacement]
  | state, b :: rest =>
    let fresh : List Char :=
      match Opening.ofByte b with
      | .whole c => c :: decodeFrom none rest
      | .part p => decodeFrom (some p) rest
      | .invalid => replacement :: decodeFrom none rest
    match state with
    | none => fresh
    | some p =>
      if p.low ≤ b ∧ b ≤ p.high then
        let bits := p.bits * 64 + (b.toNat - 0x80)
        if p.owed ≤ 1 then Char.ofNat bits :: decodeFrom none rest
        else decodeFrom (some ⟨bits, p.owed - 1, 0x80, 0xBF⟩) rest
      else replacement :: fresh

/-- Bytes as text, with U+FFFD for each maximal part that is not text. -/
def decodeLossy (bytes : Bytes) : String := String.ofList (decodeFrom none bytes)

end RecordStore.Text
