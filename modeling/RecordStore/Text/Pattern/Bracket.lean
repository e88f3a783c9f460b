import RecordStore.Text.Pattern.Escape

/-!
# Classes in brackets

Between brackets stand characters, ranges, escapes, named classes such as `[:alpha:]` and further
classes in brackets. `&&`, `--` and `~~` take what both sides have, what only the first has and what
one of the two has; they group from the left and bind less than members in a row. A `^` at the start
takes the complement.
-/

namespace RecordStore.Text.Pattern

/-- What stands first between brackets. -/
structure ClassStart (cs : List Char) where
  /-- The class is everything but its members. -/
  negated : Bool
  /-- The members that count as such only because they stand first. -/
  members : CharClass
  rest : List Char
  no_longer : rest.length ≤ cs.length

/-- Reads the start of a class: a `^`, then dashes or, if there is none, a closing bracket. -/
def ClassStart.read (cs : List Char) : ClassStart cs :=
  let negated := cs.head? = some '^'
  let body := if negated then cs.drop 1 else cs
  let behind := body.dropWhile (· == '-')
  have fewer : body.length ≤ cs.length := by
    simp only [body]; split <;> simp
  have fewer' : behind.length ≤ body.length := (List.dropWhile_suffix _).length_le
  if body.head? = some '-' then ⟨negated, .only '-', behind, Nat.le_trans fewer' fewer⟩
  else if body.head? = some ']' then ⟨negated, .only ']', body.drop 1, by
    simp only [List.length_drop]; omega⟩
  else ⟨negated, .empty, body, fewer⟩

/-- The class of its members. -/
def ClassStart.close {cs : List Char} (s : ClassStart cs) (members : CharClass) : CharClass :=
  if s.negated then .complement members else members

/-- A named class, read behind its opening bracket. -/
def readNamedClass? : (cs : List Char) → Option (Taken CharClass cs)
  | ':' :: cs =>
    let negated := cs.head? = some '^'
    let body := if negated then cs.drop 1 else cs
    let behind := body.dropWhile (· != ':')
    if behind[1]? = some ']' then
      (CharClass.named? (String.ofList (body.takeWhile (· != ':')))).map fun s =>
        ⟨if negated then .complement s else s, behind.drop 2, by
          have fewer : body.length ≤ cs.length := by simp only [body]; split <;> simp
          have fewer' : behind.length ≤ body.length := (List.dropWhile_suffix _).length_le
          simp only [List.length_drop, List.length_cons]
          omega⟩
    else none
  | _ => none

/-- A character or an escape. -/
def readMember? : (cs : List Char) → Option (Taken Atom cs)
  | [] => none
  | c :: rest =>
    if c = '\\' then (readEscape? rest).map (·.after c) else some (.first c (.character c) rest)

/-- A member of a class or a range. A dash before a closing bracket or another dash makes no
range. -/
def readRange? (cs : List Char) : Option (Taken CharClass cs) := do
  let low ← readMember? cs
  let behind := low.rest.drop 1
  if low.rest.head? = some '-' && behind.head?.all fun c => c != ']' && c != '-' then
    let high ← readMember? behind
    let first ← low.value.character?
    let last ← high.value.character?
    if first ≤ last then
      some ⟨.range first last, high.rest, by
        have := low.shorter
        have := high.shorter
        simp only [behind, List.length_drop] at this
        omega⟩
    else none
  else low.map? Atom.set?

/-- The members of a class up to its closing bracket. `members` are those since the last operator,
and `join` puts them together with what stands before it. -/
def readMembers? (join : CharClass → CharClass) (members : CharClass) (cs : List Char) :
    Option (Taken CharClass cs) :=
  match cs with
  | [] => none
  | ']' :: rest => some (.first ']' (join members) rest)
  | '&' :: '&' :: rest =>
    (readMembers? (.inter (join members)) .empty rest).map fun t => (t.after '&').after '&'
  | '-' :: '-' :: rest =>
    (readMembers? (.diff (join members)) .empty rest).map fun t => (t.after '-').after '-'
  | '~' :: '~' :: rest =>
    (readMembers? (.symmDiff (join members)) .empty rest).map fun t => (t.after '~').after '~'
  | '[' :: rest =>
    match readNamedClass? rest with
    | some named =>
      have := named.shorter
      (readMembers? join (.union members named.value) named.rest).map fun t =>
        (t.within (Nat.le_of_lt named.shorter)).after '['
    | none =>
      let inner := ClassStart.read rest
      have := inner.no_longer
      (readMembers? id inner.members inner.rest).bind fun s =>
        have := s.shorter
        (readMembers? join (.union members (inner.close s.value)) s.rest).map fun t =>
          (t.within (Nat.le_trans (Nat.le_of_lt s.shorter) inner.no_longer)).after '['
  | c :: rest =>
    (readRange? (c :: rest)).bind fun m =>
      have := m.shorter
      (readMembers? join (.union members m.value) m.rest).map fun t =>
        t.within (Nat.le_of_lt m.shorter)
termination_by cs.length
decreasing_by all_goals simp +zetaDelta only [List.length_cons] at *; omega

/-- A class, read behind its opening bracket. -/
def readClass? (cs : List Char) : Option (Taken CharClass cs) :=
  let start := ClassStart.read cs
  (readMembers? id start.members start.rest).map fun t =>
    (t.map start.close).within start.no_longer

end RecordStore.Text.Pattern
