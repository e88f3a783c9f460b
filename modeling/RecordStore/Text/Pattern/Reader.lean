import RecordStore.Number.Digits
import RecordStore.Text.Pattern.Bracket

/-!
# Reading regular expressions

`Pattern.read?` reads a regular expression in two passes: the text is cut into tokens, and the
tokens build up the expression on a stack of open groups. Known are literals, `.`, `^`, `$`,
classes in brackets, `|`, groups, the repetitions `*`, `+`, `?` and `{n}`, `{n,}`, `{n,m}`, escapes
and the flag `i` for any case.
-/

namespace RecordStore.Text.Pattern

/-- What a regular expression is made of. -/
inductive Token where
  | atom (a : Atom)
  | bar
  /-- Opens a group; a flag may set whether case counts in it. -/
  | openGroup (anyCase : Option Bool)
  | close
  | repetition (least : Nat) (most : Option Nat)
  /-- Sets whether case counts in the rest of the group. -/
  | anyCase (on : Bool)

/-- A number with blanks around it, and the text behind them. -/
def readNumber? (cs : List Char) : Option (Nat × List Char) :=
  let body := cs.dropWhile isBlank
  let digits := body.takeWhile Digits.isDigit
  if digits.isEmpty then none
  else some (Digits.toNat digits, (body.dropWhile Digits.isDigit).dropWhile isBlank)

/-- The bounds between braces: one number, a number and a comma, or two numbers. -/
def readBounds? (cs : List Char) : Option ((Nat × Option Nat) × List Char) := do
  let (least, rest) ← readNumber? cs
  match rest with
  | '\x7d' :: rest => some ((least, some least), rest)
  | ',' :: '\x7d' :: rest => some ((least, none), rest)
  | ',' :: rest =>
    match ← readNumber? rest with
    | (most, '\x7d' :: rest) => if least ≤ most then some ((least, some most), rest) else none
    | _ => none
  | _ => none

/-- A repetition; a question mark behind it changes which match is preferred, not whether there is
one, and is passed over. -/
def repetitionWith (least : Nat) (most : Option Nat) (rest : List Char) : Token × List Char :=
  (.repetition least most, match rest with
    | '?' :: rest => rest
    | rest => rest)

/-- Whether the name of a group may start with a character. -/
def startsName (c : Char) : Bool := isWordCharacter c && !isDecimalDigit c

/-- The token of a group that is opened, and the text behind it. -/
def openGroup? : List Char → Option (Token × List Char)
  | '?' :: ':' :: rest => some (.openGroup none, rest)
  | '?' :: 'i' :: ':' :: rest => some (.openGroup (some true), rest)
  | '?' :: '-' :: 'i' :: ':' :: rest => some (.openGroup (some false), rest)
  | '?' :: 'i' :: ')' :: rest => some (.anyCase true, rest)
  | '?' :: '-' :: 'i' :: ')' :: rest => some (.anyCase false, rest)
  | '?' :: 'P' :: '<' :: rest | '?' :: '<' :: rest =>
    match rest.head?.any startsName, rest.dropWhile (· != '>') with
    | true, _ :: rest => some (.openGroup none, rest)
    | _, _ => none
  | '?' :: _ => none
  | rest => some (.openGroup none, rest)

/-- The first token and the text behind it. -/
def firstToken? (c : Char) (rest : List Char) : Option (Token × List Char) :=
  match c with
  | '.' => some (.atom (.set (.complement (.only '\n'))), rest)
  | '^' => some (.atom (.assertion .start), rest)
  | '$' => some (.atom (.assertion .finish), rest)
  | '|' => some (.bar, rest)
  | '(' => openGroup? rest
  | ')' => some (.close, rest)
  | '*' => some (repetitionWith 0 none rest)
  | '+' => some (repetitionWith 1 none rest)
  | '?' => some (repetitionWith 0 (some 1) rest)
  | '\x7b' => (readBounds? rest).map fun ((least, most), rest) => repetitionWith least most rest
  | '[' => (readClass? rest).map fun t => (.atom (.set t.value), t.rest)
  | '\\' => (readEscape? rest).map fun t => (.atom t.value, t.rest)
  | c => some (.atom (.character c), rest)

/-- Cuts a regular expression into tokens. -/
def tokens? (cs : List Char) : Option (List Token) :=
  match cs with
  | [] => some []
  | c :: rest =>
    match firstToken? c rest with
    | none => none
    | some (token, rest') =>
      if _ : rest'.length < (c :: rest).length then (tokens? rest').map (token :: ·) else none
termination_by cs.length
decreasing_by assumption

/-- An open group: the alternatives that are complete, and the parts of the one at hand, the last
part first. -/
structure Group where
  alternatives : List Regex
  parts : List Regex
  anyCase : Bool

namespace Group

/-- A group in which nothing was read yet. -/
def fresh (anyCase : Bool) : Group := ⟨[], [], anyCase⟩

/-- The parts in a row. -/
def sequence (g : Group) : Regex := g.parts.foldl (fun tail part => .seq part tail) .empty

/-- The expression of the group. -/
def regex (g : Group) : Regex := g.alternatives.foldl (fun r a => .alt a r) g.sequence

/-- The group with one more part. -/
def push (g : Group) (r : Regex) : Group := { g with parts := r :: g.parts }

end Group

/-- Puts a token into the innermost group; `outer` are the groups around it. -/
def step? (token : Token) (g : Group) (outer : List Group) : Option (Group × List Group) :=
  match token with
  | .atom (.character c) => some (g.push (.one (.only c) g.anyCase), outer)
  | .atom (.set s) => some (g.push (.one s g.anyCase), outer)
  | .atom (.assertion r) => some (g.push r, outer)
  | .bar => some ({ g with alternatives := g.sequence :: g.alternatives, parts := [] }, outer)
  | .openGroup anyCase => some (.fresh (anyCase.getD g.anyCase), g :: outer)
  | .close =>
    match outer with
    | [] => none
    | parent :: outer => some (parent.push g.regex, outer)
  | .repetition least most =>
    match g.parts with
    | [] => none
    | part :: parts => some ({ g with parts := part.repeated least most :: parts }, outer)
  | .anyCase on => some ({ g with anyCase := on }, outer)

/-- Builds the expression of tokens; every group must be closed, and a flag is not repeated. -/
def build? : List Token → Group → List Group → Option Regex
  | [], g, [] => some g.regex
  | [], _, _ :: _ => none
  | .anyCase _ :: .repetition _ _ :: _, _, _ => none
  | token :: rest, g, outer => (step? token g outer).bind fun (g, outer) => build? rest g outer

/-- Reads a regular expression. -/
def read? (source : String) : Option Pattern :=
  ((tokens? source.toList).bind fun tokens => build? tokens (.fresh false) []).map (⟨source, ·⟩)

end RecordStore.Text.Pattern
