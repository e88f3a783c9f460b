import RecordStore.Text.CharClass

/-!
# Regular expressions

A `Pattern` is a regular expression together with the text it was written as. Matching asks where a
match that starts at given positions can end; `ends` answers with the set of these positions, one
construct at a time. A pattern is found in a text if a match starts somewhere in it.
-/

namespace RecordStore.Text

/-- A place between two characters, told by whether characters of words stand around it. -/
inductive WordPlace where
  /-- A word starts or ends. -/
  | edge
  /-- No word starts or ends. -/
  | noEdge
  /-- A word starts. -/
  | start
  /-- A word ends. -/
  | finish
  /-- No word reaches up to the place. -/
  | openBefore
  /-- No word goes on from the place. -/
  | openBehind

/-- Whether a place is of a kind, from whether a character of a word stands before it and behind
it. -/
def WordPlace.holds (before behind : Bool) : WordPlace → Bool
  | .edge => before != behind
  | .noEdge => before == behind
  | .start => !before && behind
  | .finish => before && !behind
  | .openBefore => !before
  | .openBehind => !behind

/-- A regular expression. -/
inductive Regex where
  /-- The empty text. -/
  | empty
  /-- One character of a class; `anyCase` says that case does not count. -/
  | one (s : CharClass) (anyCase : Bool)
  /-- The start of the text. -/
  | start
  /-- The end of the text. -/
  | finish
  /-- A place of a kind. -/
  | place (p : WordPlace)
  | seq (a b : Regex)
  | alt (a b : Regex)
  /-- Any number of matches in a row. -/
  | star (a : Regex)

namespace Regex

/-- A number of matches in a row. -/
def times (a : Regex) : Nat → Regex
  | 0 => .empty
  | n + 1 => .seq a (times a n)

/-- At most a number of matches in a row. -/
def upTo (a : Regex) : Nat → Regex
  | 0 => .empty
  | n + 1 => .alt .empty (.seq a (upTo a n))

/-- A number of matches in a row, at least `least`, at most `most` if there is a bound. -/
def repeated (a : Regex) (least : Nat) (most : Option Nat) : Regex :=
  .seq (a.times least) (match most with
    | some most => a.upTo (most - least)
    | none => .star a)

/-- Whether a word character stands at a position. -/
def wordAt (text : Array Char) (i : Nat) : Bool := text[i]?.any isWordCharacter

/-- Whether a position is a place of a kind. -/
def placeAt (text : Array Char) (p : WordPlace) (i : Nat) : Bool :=
  p.holds (i ≠ 0 && wordAt text (i - 1)) (wordAt text i)

/-- The positions reached from `frontier` by any number of steps, each new position taken once;
`rounds` is a bound on the number of new positions. -/
def reach (next : List Nat → List Nat) : (rounds : Nat) → (seen frontier : List Nat) → List Nat
  | 0, seen, _ => seen
  | rounds + 1, seen, frontier =>
    let fresh := (next frontier).eraseDups.filter fun i => !seen.contains i
    if fresh.isEmpty then seen else reach next rounds (seen ++ fresh) fresh

/-- The positions at which a match that starts at one of `starts` can end. Going on from all of them
at once, no position is taken up again for each way to get there. -/
def ends (text : Array Char) : Regex → (starts : List Nat) → List Nat
  | .empty, starts => starts
  | .one s anyCase, starts => (starts.filter fun i => text[i]?.any (s.has anyCase ·)).map (· + 1)
  | .start, starts => starts.filter (· = 0)
  | .finish, starts => starts.filter (· = text.size)
  | .place p, starts => starts.filter (placeAt text p)
  | .seq a b, starts => ends text b (ends text a starts)
  | .alt a b, starts => (ends text a starts ++ ends text b starts).eraseDups
  | .star a, starts => reach (ends text a) (text.size + 1) starts starts

end Regex

/-- A regular expression and the text it was written as. -/
structure Pattern where
  source : String
  regex : Regex

/-- Whether a pattern is found anywhere in a text. -/
def Pattern.isFoundIn (p : Pattern) (s : String) : Bool :=
  let text := s.toList.toArray
  (List.range (text.size + 1)).any fun i => !(p.regex.ends text [i]).isEmpty

end RecordStore.Text
