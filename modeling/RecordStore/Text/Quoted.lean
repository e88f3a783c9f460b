import RecordStore.Bytes
import RecordStore.Number.Digits
import RecordStore.Text.Unprintable

/-!
# Names in quotes

`quoted` writes a text between double quotes so that every character shows: quotes and backslashes
after a backslash, tabs, line ends and the zero character as letters, and everything that has no
picture of its own by its number.
-/

namespace RecordStore.Text

/-- A number in lower-case hexadecimal without leading zeros. -/
def hexadecimal (n : Nat) : List Char := Nat.toDigits 16 n

/-- A character inside quotes. -/
def quotedChar (c : Char) : List Char :=
  if c = '\x00' then ['\\', '0']
  else if c = '\t' then ['\\', 't']
  else if c = '\r' then ['\\', 'r']
  else if c = '\n' then ['\\', 'n']
  else if c = '"' ∨ c = '\\' then ['\\', c]
  else if isUnprintable c then ['\\', 'u', '\x7b'] ++ hexadecimal c.toNat ++ ['\x7d']
  else [c]

/-- A text in double quotes. -/
def quoted (s : String) : String :=
  String.ofList ('"' :: s.toList.flatMap quotedChar ++ ['"'])

end RecordStore.Text
