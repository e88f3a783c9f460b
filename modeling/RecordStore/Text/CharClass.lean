import RecordStore.Text.CaseFold
import RecordStore.Text.DecimalDigit
import RecordStore.Text.WordCharacter

/-!
# Character classes

A `CharClass` is a set of characters put together from ranges and from the digits, the characters of
words and the blanks. Where case does not count, a range has the case variants of its characters as
well. Digits, characters of words and blanks come with all their case variants anyway, so that each
class built from these has with a character all of its variants or none.
-/

namespace RecordStore.Text

/-- A set of characters. -/
inductive CharClass where
  /-- No character. -/
  | empty
  /-- The characters from one to another. -/
  | range (low high : Char)
  /-- Decimal digits. -/
  | digit
  /-- Characters of words. -/
  | word
  /-- Blanks. -/
  | blank
  /-- Everything else. -/
  | complement (a : CharClass)
  /-- What is in one or the other. -/
  | union (a b : CharClass)
  /-- What is in both. -/
  | inter (a b : CharClass)
  /-- What is in the first but not in the second. -/
  | diff (a b : CharClass)
  /-- What is in one of the two only. -/
  | symmDiff (a b : CharClass)

namespace CharClass

/-- Whether a character belongs to a class; `anyCase` says that case does not count. -/
def has (anyCase : Bool) (c : Char) : CharClass → Bool
  | .empty => false
  | .range low high =>
    let candidates := if anyCase then c :: caseVariants c else [c]
    candidates.any fun d => low ≤ d && d ≤ high
  | .digit => isDecimalDigit c
  | .word => isWordCharacter c
  | .blank => isBlank c
  | .complement a => !a.has anyCase c
  | .union a b => a.has anyCase c || b.has anyCase c
  | .inter a b => a.has anyCase c && b.has anyCase c
  | .diff a b => a.has anyCase c && !b.has anyCase c
  | .symmDiff a b => a.has anyCase c != b.has anyCase c

/-- A single character. -/
def only (c : Char) : CharClass := .range c c

/-- The characters of several ranges. -/
def ofRanges (ranges : List (Char × Char)) : CharClass :=
  ranges.foldr (fun (low, high) rest => .union (.range low high) rest) .empty

/-- The classes of ASCII characters that have a name. -/
def named? (name : String) : Option CharClass :=
  let lower := ('a', 'z')
  let upper := ('A', 'Z')
  let digits := ('0', '9')
  match name with
  | "alnum" => some (ofRanges [digits, upper, lower])
  | "alpha" => some (ofRanges [upper, lower])
  | "ascii" => some (ofRanges [('\x00', '\x7f')])
  | "blank" => some (ofRanges [('\t', '\t'), (' ', ' ')])
  | "cntrl" => some (ofRanges [('\x00', '\x1f'), ('\x7f', '\x7f')])
  | "digit" => some (ofRanges [digits])
  | "graph" => some (ofRanges [('!', '~')])
  | "lower" => some (ofRanges [lower])
  | "print" => some (ofRanges [(' ', '~')])
  | "punct" => some (ofRanges [('!', '/'), (':', '@'), ('[', '\x60'), ('\x7b', '~')])
  | "space" => some (ofRanges [('\t', '\r'), (' ', ' ')])
  | "upper" => some (ofRanges [upper])
  | "word" => some (ofRanges [digits, upper, ('_', '_'), lower])
  | "xdigit" => some (ofRanges [digits, ('A', 'F'), ('a', 'f')])
  | _ => none

end CharClass

end RecordStore.Text
