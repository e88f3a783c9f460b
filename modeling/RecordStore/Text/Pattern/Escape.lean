import RecordStore.Bytes
import RecordStore.Taken
import RecordStore.Text.Pattern

/-!
# Escapes in regular expressions

What a backslash and the characters behind it stand for: a character, which may be given by its
number, a class of characters or a place in the text.
-/

namespace RecordStore.Text.Pattern

/-- One of the smallest parts of a regular expression. -/
inductive Atom where
  | character (c : Char)
  | set (s : CharClass)
  | assertion (r : Regex)

namespace Atom

/-- The character, where the part is one. -/
def character? : Atom → Option Char
  | .character c => some c
  | _ => none

/-- The class of characters; a place in the text has none. -/
def set? : Atom → Option CharClass
  | .character c => some (.only c)
  | .set s => some s
  | .assertion _ => none

end Atom

/-- The number that `count + 1` hexadecimal digits spell, behind a number read before. -/
def readHexDigits? : (count number : Nat) → (cs : List Char) → Option (Taken Nat cs)
  | _, _, [] => none
  | 0, number, c :: rest =>
    (Bytes.hexValue? c).map fun d => .first c (number * 16 + d) rest
  | count + 1, number, c :: rest => do
    let d ← Bytes.hexValue? c
    return (← readHexDigits? count (number * 16 + d) rest).after c

/-- The number that hexadecimal digits up to a closing brace spell, behind a number read before. -/
def readHexToBrace? : (number : Nat) → (cs : List Char) → Option (Taken Nat cs)
  | _, [] => none
  | number, c :: rest =>
    if c = '\x7d' then some (.first c number rest)
    else do
      let d ← Bytes.hexValue? c
      return (← readHexToBrace? (number * 16 + d) rest).after c

/-- A character by its number: as many hexadecimal digits as are told, or any in braces. -/
def readNumbered? (digits : Nat) (cs : List Char) : Option (Taken Char cs) :=
  let number? : Option (Taken Nat cs) := match cs with
    | '\x7b' :: '\x7d' :: _ => none
    | '\x7b' :: rest => (readHexToBrace? 0 rest).map (·.after '\x7b')
    | cs => readHexDigits? (digits - 1) 0 cs
  number?.bind (·.map? fun n => if n.isValidChar then some (Char.ofNat n) else none)

/-- Whether a character may stand in the name of a place. -/
def isInPlaceName (c : Char) : Bool := c.isAlpha || c == '-'

/-- The places that have a name. -/
def placeNamed? : String → Option WordPlace
  | "start" => some .start
  | "end" => some .finish
  | "start-half" => some .openBefore
  | "end-half" => some .openBehind
  | _ => none

/-- The place behind `\b`: an edge of a word, or one that is named in braces. Braces that do not
start like a name are left. -/
def readPlace? (b : Char) (rest : List Char) : Option (Taken WordPlace (b :: rest)) :=
  let inBraces := rest.drop 1
  if rest.head? = some '\x7b' && inBraces.head?.any isInPlaceName then
    let behind := inBraces.dropWhile isInPlaceName
    if behind.head? = some '\x7d' then
      (placeNamed? (String.ofList (inBraces.takeWhile isInPlaceName))).map fun place =>
        ⟨place, behind.drop 1, by
          have : behind.length ≤ inBraces.length := (List.dropWhile_suffix isInPlaceName).length_le
          simp only [inBraces, List.length_drop, List.length_cons] at this ⊢
          omega⟩
    else none
  else some (.first b .edge rest)

/-- What one character behind a backslash stands for. -/
def escaped? (c : Char) : Option Atom :=
  match c with
  | 'd' => some (.set .digit)
  | 'D' => some (.set (.complement .digit))
  | 'w' => some (.set .word)
  | 'W' => some (.set (.complement .word))
  | 's' => some (.set .blank)
  | 'S' => some (.set (.complement .blank))
  | 'B' => some (.assertion (.place .noEdge))
  | '<' => some (.assertion (.place .start))
  | '>' => some (.assertion (.place .finish))
  | 'A' => some (.assertion .start)
  | 'z' => some (.assertion .finish)
  | 'n' => some (.character '\n')
  | 't' => some (.character '\t')
  | 'r' => some (.character '\r')
  | 'f' => some (.character '\x0c')
  | 'v' => some (.character '\x0b')
  | 'a' => some (.character '\x07')
  | c => if c.toNat < 128 && !c.isAlphanum then some (.character c) else none

/-- What follows a backslash. -/
def readEscape? : (cs : List Char) → Option (Taken Atom cs)
  | [] => none
  | 'x' :: rest => (readNumbered? 2 rest).map fun t => (t.map Atom.character).after 'x'
  | 'u' :: rest => (readNumbered? 4 rest).map fun t => (t.map Atom.character).after 'u'
  | 'U' :: rest => (readNumbered? 8 rest).map fun t => (t.map Atom.character).after 'U'
  | 'b' :: rest => (readPlace? 'b' rest).map (·.map fun place => .assertion (.place place))
  | c :: rest => (escaped? c).map fun atom => .first c atom rest

end RecordStore.Text.Pattern
