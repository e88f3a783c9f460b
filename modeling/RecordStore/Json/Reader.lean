import RecordStore.Json
import RecordStore.Taken

/-!
# Reading JSON

`Json.read?` reads JSON data from a text: one value, blanks around tokens allowed, arrays and
objects nested less than 128 deep. Every reader leaves less than it was given. A number without
point and exponent is an integer if it fits in 64 bits. Of any other number the leading digits that
fit in 64 bits are scaled by powers of ten in double arithmetic, so the last bit is not always that
of the nearest double.
-/

namespace RecordStore.Json

/-- Blanks between tokens. -/
def isBlank (c : Char) : Bool := c == ' ' || c == '\n' || c == '\t' || c == '\r'

/-- The text from the next token on. -/
def skipBlanks (cs : List Char) : List Char := cs.dropWhile isBlank

theorem length_skipBlanks_le (cs : List Char) : (skipBlanks cs).length ≤ cs.length :=
  (List.dropWhile_suffix isBlank).length_le

/-! ## Strings -/

/-- The number that four hexadecimal digits spell. -/
def hex4? (a b c d : Char) : Option Nat := do
  let a ← Bytes.hexValue? a
  let b ← Bytes.hexValue? b
  let c ← Bytes.hexValue? c
  let d ← Bytes.hexValue? d
  return ((a * 16 + b) * 16 + c) * 16 + d

/-- The character of an escape of one letter. -/
def simpleEscape? (c : Char) : Option Char :=
  if c = '"' ∨ c = '\\' ∨ c = '/' then some c
  else if c = 'b' then some '\x08'
  else if c = 'f' then some '\x0c'
  else if c = 'n' then some '\n'
  else if c = 'r' then some '\r'
  else if c = 't' then some '\t'
  else none

/-- What follows a backslash: one letter, or `u` and a code unit, or two units that make one
character together. A unit that is half of a character alone is refused. -/
def readEscape? : (cs : List Char) → Option (Taken Char cs)
  | 'u' :: a :: b :: c :: d :: rest => do
    let unit ← hex4? a b c d
    if 0xDC00 ≤ unit ∧ unit ≤ 0xDFFF then none
    else if 0xD800 ≤ unit ∧ unit ≤ 0xDBFF then
      match h : rest with
      | '\\' :: 'u' :: a' :: b' :: c' :: d' :: rest' =>
        let low ← hex4? a' b' c' d'
        if 0xDC00 ≤ low ∧ low ≤ 0xDFFF then
          some ⟨Char.ofNat (0x10000 + (unit - 0xD800) * 0x400 + (low - 0xDC00)), rest',
            by simp only [h, List.length_cons]; omega⟩
        else none
      | _ => none
    else some ⟨Char.ofNat unit, rest, by simp only [List.length_cons]; omega⟩
  | c :: rest => (simpleEscape? c).map fun c' => .first c c' rest
  | [] => none

/-- The characters of a string up to its closing quote, which is read too. -/
def readChars? (cs : List Char) : Option (Taken (List Char) cs) :=
  match cs with
  | [] => none
  | c :: rest =>
    if c = '"' then some (.first c [] rest)
    else if c = '\\' then do
      let e ← readEscape? rest
      have := e.shorter
      let t ← readChars? e.rest
      return ((t.map (e.value :: ·)).within (Nat.le_of_lt e.shorter)).after c
    else if c.toNat < 0x20 then none
    else do
      let t ← readChars? rest
      return (t.map (c :: ·)).after c
termination_by cs.length

/-- A string, its opening quote already read. -/
def readString? (cs : List Char) : Option (Taken String cs) :=
  (readChars? cs).map (·.map String.ofList)

/-! ## Numbers -/

/-- The largest integer of 64 bits without a sign, and one. -/
def wordLimit : Nat := 0x10000000000000000

/-- The digits before the point: as many as fit in 64 bits make the significand, the others only
count as powers of ten. -/
def wholeDigits (digits : List Char) : Nat × Nat :=
  digits.foldl (fun (significand, dropped) c =>
    let next := significand * 10 + (c.toNat - 48)
    if dropped = 0 ∧ next < wordLimit then (next, 0) else (significand, dropped + 1)) (0, 0)

/-- The digits after the point join the significand until one does not fit; the rest are
passed over. -/
def fractionDigits (significand : Nat) (exponent : Int) (digits : List Char) : Nat × Int :=
  let step : Nat × Int × Bool → Char → Nat × Int × Bool := fun (significand, exponent, full) c =>
    let next := significand * 10 + (c.toNat - 48)
    if !full ∧ next < wordLimit then (next, exponent - 1, false) else (significand, exponent, true)
  let (significand, exponent, _) := digits.foldl step (significand, exponent, false)
  (significand, exponent)

/-- The double of a power of ten from 10⁰ to 10³⁰⁸. -/
def powerOfTen (n : Nat) : Binary64 := .ofRatio false (Digits.tenTo n) 1

/-- Scales a double by a power of ten, in steps of at most 10³⁰⁸; too large is refused. Two steps
down take every significand to zero. -/
def scale? : (steps : Nat) → Binary64 → Int → Option Binary64
  | 0, x, _ => some x
  | steps + 1, x, e =>
    if e.natAbs ≤ 308 then
      if 0 ≤ e then some (x.mul (powerOfTen e.natAbs)) |>.filter (·.isFinite)
      else some (x.div (powerOfTen e.natAbs))
    else if x.significand = 0 then some x
    else if 0 ≤ e then none
    else scale? steps (x.div (powerOfTen 308)) (e + 308)

/-- The largest exponent that is read as a number. -/
def exponentLimit : Nat := 0x80000000

/-- The double of a significand and a power of ten. -/
def decimalFloat? (negative : Bool) (significand : Nat) (exponent : Int) : Option JsonNumber :=
  (scale? 3 (.ofInt significand) exponent).map fun x =>
    .float (if negative then .ofMagnitude true x.bits.toNat else x)

/-- The number of a mantissa and the digits of an exponent. An exponent out of range makes zero, or
is refused if it is positive and the mantissa is not zero. -/
def withExponent? (negative : Bool) (significand : Nat) (exponent : Int) (downwards : Bool)
    (digits : List Char) : Option JsonNumber :=
  let e := Digits.toNat digits
  if e < exponentLimit then
    decimalFloat? negative significand (if downwards then exponent - e else exponent + e)
  else if significand ≠ 0 ∧ !downwards then none
  else some (.float (.ofMagnitude negative 0))

/-- An integer: of 64 bits if it fits, else a double; minus zero is a double. -/
def wholeNumber? (negative : Bool) (digits : List Char) : Option JsonNumber :=
  let (significand, dropped) := wholeDigits digits
  if dropped ≠ 0 then decimalFloat? negative significand dropped
  else if !negative then some (.natural (UInt64.ofNat significand))
  else if significand = 0 ∨ 0x8000000000000000 < significand then
    some (.float (.ofMagnitude true (Binary64.ofInt significand).bits.toNat))
  else some (.negative (Int64.ofInt (-(significand : Int))))

/-- The exponent mark and what follows it: sign, digits and the rest. -/
def exponentPart? : List Char → Option (Bool × List Char × List Char)
  | c :: rest =>
    if c = 'e' ∨ c = 'E' then
      let (downwards, rest) := match rest with
        | '-' :: rest => (true, rest)
        | '+' :: rest => (false, rest)
        | rest => (false, rest)
      some (downwards, rest.takeWhile Digits.isDigit, rest.dropWhile Digits.isDigit)
    else none
  | [] => none

/-- A number, its sign already read, and the text behind it. -/
def unsignedNumber? (negative : Bool) (cs : List Char) : Option (JsonNumber × List Char) :=
  let whole := cs.takeWhile Digits.isDigit
  let rest := cs.dropWhile Digits.isDigit
  if whole = [] ∨ (whole.head? = some '0' ∧ whole.length ≠ 1) then none
  else
    let (significand, dropped) := wholeDigits whole
    match rest with
    | '.' :: more =>
      let places := more.takeWhile Digits.isDigit
      let rest := more.dropWhile Digits.isDigit
      if places = [] then none
      else
        let (significand, exponent) := fractionDigits significand dropped places
        match exponentPart? rest with
        | some (downwards, digits, rest) =>
          if digits = [] then none
          else (withExponent? negative significand exponent downwards digits).map (·, rest)
        | none => (decimalFloat? negative significand exponent).map (·, rest)
    | _ =>
      match exponentPart? rest with
      | some (downwards, digits, rest) =>
        if digits = [] then none
        else (withExponent? negative significand dropped downwards digits).map (·, rest)
      | none => (wholeNumber? negative whole).map (·, rest)

/-- A number. -/
def readNumber? (cs : List Char) : Option (Taken JsonNumber cs) :=
  let result := match cs with
    | '-' :: rest => unsignedNumber? true rest
    | cs => unsignedNumber? false cs
  result.bind fun (n, rest) =>
    if h : rest.length < cs.length then some ⟨n, rest, h⟩ else none

/-! ## Values -/

/-- A word, if the text starts with it. -/
def readWord? (word : List Char) (j : Json) (cs : List Char) : Option (Taken Json cs) :=
  let rest := cs.drop word.length
  if h : word.isPrefixOf cs ∧ rest.length < cs.length then some ⟨j, rest, h.2⟩ else none

/-- A value that has no parts. -/
def readScalar? (cs : List Char) : Option (Taken Json cs) :=
  match cs with
  | [] => none
  | c :: rest =>
    if c = '"' then (readString? rest).map fun t => (t.map Json.string).after c
    else if c = 'n' then readWord? ['n', 'u', 'l', 'l'] .null (c :: rest)
    else if c = 't' then readWord? ['t', 'r', 'u', 'e'] (.bool true) (c :: rest)
    else if c = 'f' then readWord? ['f', 'a', 'l', 's', 'e'] (.bool false) (c :: rest)
    else (readNumber? (c :: rest)).map (·.map Json.number)

/-- A character that must come next, blanks aside. -/
def expect? (c : Char) (cs : List Char) : Option (Taken Unit cs) :=
  match h : skipBlanks cs with
  | [] => none
  | d :: rest =>
    if d = c then
      some ⟨(), rest, by
        have := length_skipBlanks_le cs
        rw [h] at this
        exact this⟩
    else none

mutual

/-- Reads a value; `depth` more arrays or objects may be opened. -/
def readValue? (depth : Nat) (cs : List Char) : Option (Taken Json cs) :=
  match h : skipBlanks cs with
  | [] => none
  | c :: rest =>
    have hle : (c :: rest).length ≤ cs.length := h ▸ length_skipBlanks_le cs
    have hlt : rest.length < cs.length := hle
    if c = '[' then
      if depth = 0 then none
      else match expect? ']' rest with
        | some t => some ((t.map fun _ => .array []).within (Nat.le_of_lt hlt))
        | none => (readItems? (depth - 1) rest).map fun t =>
            (t.map .array).within (Nat.le_of_lt hlt)
    else if c = '\x7b' then
      if depth = 0 then none
      else match expect? '\x7d' rest with
        | some t => some ((t.map fun _ => .object []).within (Nat.le_of_lt hlt))
        | none => (readMembers? (depth - 1) rest).map fun t =>
            (t.map ofMembers).within (Nat.le_of_lt hlt)
    else (readScalar? (c :: rest)).map (·.within hle)
termination_by (cs.length, 0)

/-- Reads one item or more and the closing bracket. -/
def readItems? (depth : Nat) (cs : List Char) : Option (Taken (List Json) cs) :=
  (readValue? depth cs).bind fun j =>
    have := j.shorter
    match expect? ']' j.rest with
    | some t => some ⟨[j.value], t.rest, Nat.lt_trans t.shorter j.shorter⟩
    | none =>
      (expect? ',' j.rest).bind fun comma =>
        have := comma.shorter
        (readItems? depth comma.rest).map fun js =>
          ⟨j.value :: js.value, js.rest,
            Nat.lt_trans js.shorter (Nat.lt_trans comma.shorter j.shorter)⟩
termination_by (cs.length, 1)

/-- Reads one member or more and the closing brace. -/
def readMembers? (depth : Nat) (cs : List Char) : Option (Taken (List (String × Json)) cs) :=
  (expect? '"' cs).bind fun quote =>
    have := quote.shorter
    (readString? quote.rest).bind fun name =>
      have := name.shorter
      (expect? ':' name.rest).bind fun colon =>
        have := colon.shorter
        (readValue? depth colon.rest).bind fun j =>
          have := j.shorter
          match expect? '\x7d' j.rest with
          | some t => some ⟨[(name.value, j.value)], t.rest, by have := t.shorter; omega⟩
          | none =>
            (expect? ',' j.rest).bind fun comma =>
              have := comma.shorter
              (readMembers? depth comma.rest).map fun ms =>
                ⟨(name.value, j.value) :: ms.value, ms.rest, by have := ms.shorter; omega⟩
termination_by (cs.length, 1)

end

/-- How many arrays and objects may be open at once. -/
def depthLimit : Nat := 127

/-- The JSON data that characters spell: one value and nothing else but blanks. -/
def readChars (cs : List Char) : Option Json :=
  (readValue? depthLimit cs).bind fun t =>
    if (skipBlanks t.rest).isEmpty then some t.value else none

/-- The JSON data that a text spells. -/
def read? (text : String) : Option Json := readChars text.toList

end RecordStore.Json
