import RecordStore.Codec
import RecordStore.KeyList
import RecordStore.Index
import RecordStore.Proofs.Bytes
import RecordStore.Proofs.Digits

/-!
# Key lists as JSON

The compact text of a key list reads back as that list. `Reads depth cs j rest` says that reading
from the characters `cs` gives `j` and leaves `rest`; it holds of a number in front of anything that
is no part of a number, and of a list if it holds of each item in front of a comma or a bracket.
-/

namespace RecordStore

namespace Json

/-- Reading from these characters gives the value and leaves the rest. -/
def Reads (depth : Nat) (cs : List Char) (j : Json) (rest : List Char) : Prop :=
  ∃ h, readValue? depth cs = some ⟨j, rest, h⟩

/-- What may follow an item: a comma or the closing bracket. -/
def EndsItem (rest : List Char) : Prop := ∃ more, rest = ',' :: more ∨ rest = ']' :: more

/-! ## Numbers -/

/-- What one more digit makes of the significand, or of the count of digits that were dropped. -/
def readDigit : Nat × Nat → Char → Nat × Nat
  | (significand, dropped), c =>
    let next := significand * 10 + (c.toNat - 48)
    if dropped = 0 ∧ next < wordLimit then (next, 0) else (significand, dropped + 1)

/-- The number spelled so far never exceeds the whole one. -/
theorem le_foldl_digits (digits : List Char) :
    ∀ n : Nat, n ≤ digits.foldl (fun n c => n * 10 + (c.toNat - 48)) n := by
  induction digits with
  | nil => exact fun n => Nat.le_refl n
  | cons c digits ih =>
    intro n
    have hnext : n ≤ n * 10 + (c.toNat - 48) := by omega
    exact Nat.le_trans hnext (ih _)

/-- So if the whole one fits no digit is dropped. -/
theorem foldl_readDigit (digits : List Char) :
    ∀ n : Nat, digits.foldl (fun n c => n * 10 + (c.toNat - 48)) n < wordLimit →
      digits.foldl readDigit (n, 0) =
        (digits.foldl (fun n c => n * 10 + (c.toNat - 48)) n, 0) := by
  induction digits with
  | nil => exact fun n _ => rfl
  | cons c digits ih =>
    intro n hlt
    have hnext : n * 10 + (c.toNat - 48) < wordLimit :=
      Nat.lt_of_le_of_lt (le_foldl_digits digits _) hlt
    rw [List.foldl_cons, List.foldl_cons, readDigit, if_pos ⟨rfl, hnext⟩]
    exact ih _ hlt

/-- Digits of a number that fits into a word are all read. -/
theorem wholeDigits_of_lt {digits : List Char} (h : Digits.toNat digits < wordLimit) :
    wholeDigits digits = (Digits.toNat digits, 0) :=
  foldl_readDigit digits 0 h

/-- The digits of a number are read as that number. -/
theorem unsignedNumber?_ofNat {n : Nat} (hn : n < wordLimit) {rest : List Char}
    (hr : EndsItem rest) :
    unsignedNumber? false (Digits.ofNat n ++ rest) = some (.natural (UInt64.ofNat n), rest) := by
  have hnodigit : ∀ c, rest.head? = some c → Digits.isDigit c = false := by
    obtain ⟨more, rfl | rfl⟩ := hr <;> rintro c ⟨⟩ <;> decide
  obtain ⟨htake, hdrop⟩ := Digits.takeWhile_stops
    (fun c hc => Digits.isDigit_of_mem_ofNat (n := n) hc) hnodigit
  have hzero : ¬(Digits.ofNat n = [] ∨
      (Digits.ofNat n).head? = some '0' ∧ (Digits.ofNat n).length ≠ 1) := by
    rintro (h | ⟨h, hlen⟩)
    · exact Digits.ofNat_ne_nil n h
    · rw [Digits.ofNat_of_head h, Digits.ofNat_zero] at hlen
      exact hlen rfl
  have hwhole : wholeDigits (Digits.ofNat n) = (n, 0) := by
    rw [wholeDigits_of_lt (by rwa [Digits.toNat_ofNat]), Digits.toNat_ofNat]
  unfold unsignedNumber?
  dsimp only
  rw [htake, hdrop, if_neg hzero]
  obtain ⟨more, rfl | rfl⟩ := hr <;> simp [exponentPart?, wholeNumber?, hwhole]

/-- A number in front of the end of its item is read. -/
theorem readNumber?_ofNat {n : Nat} (hn : n < wordLimit) {rest : List Char} (hr : EndsItem rest) :
    ∃ h, readNumber? (Digits.ofNat n ++ rest) = some ⟨.natural (UInt64.ofNat n), rest, h⟩ := by
  have hpos : 0 < (Digits.ofNat n).length := List.length_pos_iff.mpr (Digits.ofNat_ne_nil n)
  have hlt : rest.length < (Digits.ofNat n ++ rest).length := by
    rw [List.length_append]
    omega
  refine ⟨hlt, ?_⟩
  have hsign : ∀ more, Digits.ofNat n ++ rest ≠ '-' :: more := by
    intro more h
    cases hd : Digits.ofNat n with
    | nil => exact Digits.ofNat_ne_nil n hd
    | cons c cs =>
      have hc : Digits.isDigit c = true :=
        Digits.isDigit_of_mem_ofNat (n := n) (hd ▸ List.mem_cons_self ..)
      rw [hd] at h
      cases h
      exact absurd hc (by decide)
  unfold readNumber?
  dsimp only
  split
  next more heq => exact absurd heq (hsign more)
  next =>
    rw [unsignedNumber?_ofNat hn hr]
    simp [hpos]

/-! ## Lists -/

/-- The text of the value starts with a character that is neither a blank nor a bracket. -/
def Begins (j : Json) : Prop :=
  ∃ c cs, j.chars = c :: cs ∧ isBlank c = false ∧ c ≠ ']'

theorem skipBlanks_cons {c : Char} (h : isBlank c = false) (cs : List Char) :
    skipBlanks (c :: cs) = c :: cs :=
  List.dropWhile_cons_of_neg (by simp [h])

/-- The character that is expected is taken. -/
theorem expect?_cons {c : Char} (h : isBlank c = false) (cs : List Char) :
    ∃ hs, expect? c (c :: cs) = some ⟨(), cs, hs⟩ := by
  refine ⟨Nat.lt_succ_self _, ?_⟩
  unfold expect?
  split
  next hnil =>
    rw [skipBlanks_cons h] at hnil
    cases hnil
  next d rest hcons =>
    rw [skipBlanks_cons h] at hcons
    cases hcons
    rw [if_pos rfl]

theorem expect?_other {c d : Char} (h : isBlank d = false) (hne : d ≠ c) (cs : List Char) :
    expect? c (d :: cs) = none := by
  unfold expect?
  split
  next hnil => rfl
  next e rest hcons =>
    rw [skipBlanks_cons h] at hcons
    cases hcons
    rw [if_neg hne]

/-- Items are read one after the other if each is read where it ends. -/
theorem readItems?_chars {depth : Nat} (rest : List Char) :
    ∀ {items : List Json}, items ≠ [] →
      (∀ j ∈ items, ∀ more, EndsItem more → Reads depth (j.chars ++ more) j more) →
      ∃ h, readItems? depth (itemChars items ++ ']' :: rest) = some ⟨items, rest, h⟩
  | [], hne, _ => absurd rfl hne
  | [j], _, hitems => by
    obtain ⟨_, hj⟩ := hitems j (List.mem_singleton_self j) (']' :: rest) ⟨rest, .inr rfl⟩
    obtain ⟨_, hclose⟩ := expect?_cons (c := ']') (by decide) rest
    unfold readItems?
    rw [itemChars, hj, Option.bind_some]
    dsimp only
    rw [hclose]
    exact ⟨by simp only [List.length_append, List.length_cons]; omega, rfl⟩
  | j :: j' :: js, _, hitems => by
    have hchars : itemChars (j :: j' :: js) ++ ']' :: rest =
        j.chars ++ ',' :: (itemChars (j' :: js) ++ ']' :: rest) := by
      simp [itemChars]
    obtain ⟨_, hj⟩ := hitems j (List.mem_cons_self ..)
      (',' :: (itemChars (j' :: js) ++ ']' :: rest)) ⟨_, .inl rfl⟩
    obtain ⟨_, hjs⟩ := readItems?_chars rest (List.cons_ne_nil j' js) fun k hk =>
      hitems k (List.mem_cons_of_mem j hk)
    obtain ⟨_, hcomma⟩ := expect?_cons (c := ',') (by decide)
      (itemChars (j' :: js) ++ ']' :: rest)
    -- Behind an item there is a comma, not the bracket, so that reading goes on.
    have hopen := expect?_other (c := ']') (d := ',') (by decide) (by decide)
      (itemChars (j' :: js) ++ ']' :: rest)
    rw [hchars]
    unfold readItems?
    rw [hj, Option.bind_some]
    dsimp only
    rw [hopen]
    dsimp only
    rw [hcomma, Option.bind_some]
    dsimp only
    rw [hjs]
    exact ⟨by simp only [List.length_append, List.length_cons]; omega, rfl⟩

/-- A list is read if each of its items is, one level further in. -/
theorem reads_array {depth : Nat} {items : List Json} (hbegin : ∀ j ∈ items, Begins j)
    (hitems : ∀ j ∈ items, ∀ more, EndsItem more → Reads depth (j.chars ++ more) j more)
    (rest : List Char) : Reads (depth + 1) (chars (.array items) ++ rest) (.array items) rest := by
  have hchars : chars (.array items) ++ rest = '[' :: (itemChars items ++ ']' :: rest) := by
    simp [chars]
  obtain ⟨_, hclose⟩ := expect?_cons (c := ']') (by decide) rest
  rw [hchars]
  unfold Reads readValue?
  split
  next hnil =>
    rw [skipBlanks_cons (by decide)] at hnil
    cases hnil
  next c cs hcons =>
    have hsame := hcons
    rw [skipBlanks_cons (by decide)] at hsame
    cases hsame
    rw [if_pos rfl, if_neg (Nat.succ_ne_zero depth)]
    cases items with
    | nil =>
      simp only [itemChars, List.nil_append, hclose]
      exact ⟨by simp only [List.length_cons]; omega, rfl⟩
    | cons j js =>
      obtain ⟨_, hjs⟩ := readItems?_chars rest (List.cons_ne_nil j js) hitems
      obtain ⟨c, cs, hc, hblank, hbracket⟩ := hbegin j (List.mem_cons_self ..)
      -- The first item begins with no bracket, so that the list is not taken for empty.
      have hopen : expect? ']' (itemChars (j :: js) ++ ']' :: rest) = none := by
        cases js with
        | nil =>
          rw [itemChars, hc]
          exact expect?_other hblank hbracket _
        | cons j' js =>
          rw [itemChars, hc]
          exact expect?_other hblank hbracket _
          simp
      simp only [hopen, Nat.add_sub_cancel, hjs]
      exact ⟨by simp only [List.length_append, List.length_cons]; omega, rfl⟩

theorem begins_array (items : List Json) : Begins (.array items) := by
  refine ⟨'[', itemChars items ++ [']'], ?_, by decide, by decide⟩
  rw [chars, List.cons_append]

/-- The text of a number starts with a digit, which opens nothing else. -/
theorem chars_ofNat (n : Nat) :
    ∃ c cs, (ofNat n).chars = c :: cs ∧ ∀ d, Digits.isDigit d = false → c ≠ d := by
  have hdigits : (ofNat n).chars = Digits.ofNat (UInt64.ofNat n).toNat := by
    rw [ofNat, chars, numberText]
  cases hd : Digits.ofNat (UInt64.ofNat n).toNat with
  | nil => exact absurd hd (Digits.ofNat_ne_nil _)
  | cons c cs =>
    refine ⟨c, cs, hdigits.trans hd, ?_⟩
    rintro d hnot rfl
    rw [Digits.isDigit_of_mem_ofNat (n := (UInt64.ofNat n).toNat)
      (hd ▸ List.mem_cons_self ..)] at hnot
    cases hnot

theorem isBlank_of_not {c : Char} (h : ∀ d, Digits.isDigit d = false → c ≠ d) :
    isBlank c = false := by
  have hne : ∀ d, Digits.isDigit d = false → (c == d) = false := fun d hd =>
    beq_eq_false_iff_ne.mpr (h d hd)
  unfold isBlank
  rw [hne ' ' (by decide), hne '\n' (by decide), hne '\t' (by decide), hne '\r' (by decide)]
  rfl

theorem begins_ofNat (n : Nat) : Begins (ofNat n) := by
  obtain ⟨c, cs, hc, hnot⟩ := chars_ofNat n
  exact ⟨c, cs, hc, isBlank_of_not hnot, hnot ']' (by decide)⟩

/-- A number that fits into a word is read from its text. -/
theorem reads_ofNat {n : Nat} (hn : n < wordLimit) {depth : Nat} {rest : List Char}
    (hr : EndsItem rest) : Reads depth (chars (ofNat n) ++ rest) (ofNat n) rest := by
  have htext : chars (ofNat n) = Digits.ofNat n := by
    rw [ofNat, chars, numberText, UInt64.toNat_ofNat_of_lt' hn]
  obtain ⟨c, cs, hc, hnot⟩ := chars_ofNat n
  have hblank := isBlank_of_not hnot
  have hnumber := readNumber?_ofNat hn hr
  rw [← htext, hc, List.cons_append] at hnumber
  obtain ⟨_, hnumber⟩ := hnumber
  rw [hc]
  unfold Reads readValue?
  split
  next hnil =>
    rw [List.cons_append, skipBlanks_cons hblank] at hnil
    cases hnil
  next d ds hcons =>
    have hsame := hcons
    rw [List.cons_append, skipBlanks_cons hblank] at hsame
    cases hsame
    rw [if_neg (hnot '[' (by decide)), if_neg (hnot '\x7b' (by decide))]
    unfold readScalar?
    dsimp only
    rw [if_neg (hnot '"' (by decide)), if_neg (hnot 'n' (by decide)),
      if_neg (hnot 't' (by decide)), if_neg (hnot 'f' (by decide))]
    simp only [hnumber]
    exact ⟨by simp only [List.length_append, List.length_cons]; omega, rfl⟩

end Json

namespace KeyList

theorem toNat_ofNat_byte (b : UInt8) : (UInt64.ofNat b.toNat).toNat = b.toNat :=
  UInt64.toNat_ofNat_of_lt' (Nat.lt_trans b.toNat_lt (by decide))

/-- A byte is read back from its number. -/
theorem byte?_ofNat (b : UInt8) : byte? (.ofNat b.toNat) = some b := by
  have hlt : UInt64.ofNat b.toNat < 256 := by
    rw [UInt64.lt_iff_toNat_lt, toNat_ofNat_byte]
    exact b.toNat_lt
  unfold Json.ofNat byte?
  dsimp only
  rw [if_pos hlt]
  congr 1
  rw [← UInt8.toNat_inj, UInt64.toNat_toUInt8, toNat_ofNat_byte, Nat.mod_eq_of_lt b.toNat_lt]

/-- A key is read back from its numbers. -/
theorem key?_toJson (key : Bytes) :
    key? (.array (key.map fun b => .ofNat b.toNat)) = some key := by
  unfold key?
  dsimp only
  induction key with
  | nil => rfl
  | cons b key ih =>
    rw [List.map_cons, List.mapM_cons, byte?_ofNat, ih]
    rfl

/-- A key list is read back from its JSON value. -/
theorem ofJson?_toJson (l : KeyList) : ofJson? l.toJson = some l := by
  obtain ⟨keys⟩ := l
  have hkeys : (keys.map fun key => Json.array (key.map fun b => .ofNat b.toNat)).mapM key? =
      some keys := by
    induction keys with
    | nil => rfl
    | cons key keys ih =>
      rw [List.map_cons, List.mapM_cons, key?_toJson, ih]
      rfl
  unfold toJson ofJson?
  dsimp only
  rw [hkeys]
  rfl

/-- The text of a key list is read: two lists deep, and nothing behind. -/
theorem read?_toJson (l : KeyList) : Json.read? l.toJson.text = some l.toJson := by
  have hbyte : ∀ (b : UInt8) (more : List Char), Json.EndsItem more →
      Json.Reads 125 ((Json.ofNat b.toNat).chars ++ more) (.ofNat b.toNat) more := fun b more h =>
    Json.reads_ofNat (Nat.lt_trans b.toNat_lt (by decide)) h
  have hlist : Json.Reads 127 (l.toJson.chars ++ []) l.toJson [] := by
    refine Json.reads_array (fun j hj => ?_) (fun j hj more _ => ?_) []
    · obtain ⟨key, -, rfl⟩ := List.mem_map.mp hj
      exact Json.begins_array _
    · obtain ⟨key, -, rfl⟩ := List.mem_map.mp hj
      refine Json.reads_array (fun j hj => ?_) (fun j hj => ?_) more
      · obtain ⟨b, -, rfl⟩ := List.mem_map.mp hj
        exact Json.begins_ofNat _
      · obtain ⟨b, -, rfl⟩ := List.mem_map.mp hj
        exact hbyte b
  rw [List.append_nil] at hlist
  obtain ⟨_, hlist⟩ := hlist
  unfold Json.read? Json.readChars Json.text
  rw [String.toList_ofList, show Json.depthLimit = 127 from rfl, hlist, Option.bind_some]
  rfl

end KeyList

/-- A codec keeps key lists if those that it writes are read back. -/
def Codec.KeepsKeyLists (codec : Codec) : Prop :=
  ∀ (l : KeyList) (bytes : Bytes),
    codec.write (some l.toJson) = .ok bytes → Index.decodeKeys codec bytes = .ok l

/-- Two lists that are written as the same bytes are one list. -/
theorem Codec.KeepsKeyLists.eq_of_write {codec : Codec} (h : codec.KeepsKeyLists) {l l' : KeyList}
    {bytes : Bytes} (hl : codec.write (some l.toJson) = .ok bytes)
    (hl' : codec.write (some l'.toJson) = .ok bytes) : l = l' := by
  have hread := h l bytes hl
  rw [h l' bytes hl'] at hread
  cases hread
  rfl

/-- The JSON codec keeps key lists. -/
theorem Codec.keepsKeyLists_json : Codec.json.KeepsKeyLists := by
  intro l bytes h
  cases h
  unfold Index.decodeKeys Codec.read
  simp only [Codec.json, Text.ofUtf8?_utf8, Option.bind_some, KeyList.read?_toJson,
    KeyList.ofJson?_toJson]

end RecordStore
