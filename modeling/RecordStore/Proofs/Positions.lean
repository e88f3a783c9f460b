import RecordStore.Value.Keycode
import Mathlib

/-!
# Key codes read at positions

A reader may keep all of its input and a position in it, where `readValue` hands on what is left. It
then cuts slices out of the input, takes bytes of them by index, steps over a closing byte without
taking it, and subtracts positions, all of which go wrong outside of a range, and its loops have no
measure of their own. Here that reader is written down with what may go wrong as outcomes (`Stop`),
and with a number of steps: a turn of a loop takes one of those that the loop was given, and what is
read inside of a value is given one less than the value. At every position it gives what `readValue`
gives for the bytes ahead (`Follows`), as long as there are more steps than bytes ahead. As
`readValue` knows of faults only, nothing else ever stops the reader; and as it always leaves less
than it was given, the position moves on with every value, also with one inside of another, and stays
inside of the input (`decode_within`).
-/

namespace RecordStore.Keycode

variable {κ : Type} {α β : Type}

/-! ## The reader -/

/-- Why a reader stops. -/
inductive Stop where
  /-- The bytes are not a key code. -/
  | fault (fault : Fault)
  /-- A slice or an index is not inside of what it is taken from. -/
  | outside
  /-- A number below zero is asked for. -/
  | negative
  /-- All steps are taken. -/
  | endless
  deriving DecidableEq, Repr

section Readers

variable (buf : Bytes)

/-- The bytes between two positions. -/
def slice (start stop : Nat) : Except Stop Bytes :=
  if start ≤ stop ∧ stop ≤ buf.length then .ok ((buf.drop start).take (stop - start))
  else .error .outside

/-- The next `count` bytes. -/
def takeAt (count pos : Nat) : Except Stop (Bytes × Nat) :=
  if buf.length < pos + count then .error (.fault .unexpectedEnd)
  else (slice buf pos (pos + count)).map fun bytes => (bytes, pos + count)

/-- The next byte, as the one at index zero of a slice. -/
def byteAt (pos : Nat) : Except Stop (UInt8 × Nat) :=
  (takeAt buf 1 pos).bind fun (bytes, pos) =>
    match bytes[0]? with
    | some b => .ok (b, pos)
    | none => .error .outside

/-- The next `width` bytes as a big-endian number. They are copied to a place of that width, which a
slice of another length does not fit. -/
def natAt (width pos : Nat) : Except Stop (Nat × Nat) :=
  (takeAt buf width pos).bind fun (bytes, pos) =>
    if bytes.length = width then .ok (Bytes.toNat bytes, pos) else .error .outside

/-- A byte string up to its end mark. -/
def unescapeAt : (steps pos : Nat) → Except Stop (Bytes × Nat)
  | 0, _ => .error .endless
  | steps + 1, pos =>
    (byteAt buf pos).bind fun (b, pos) =>
      if b = 0x00 then
        (byteAt buf pos).bind fun (mark, pos) =>
          if mark = 0x00 then .ok ([], pos)
          else if mark = 0xff then
            (unescapeAt steps pos).map fun (bytes, pos) => (0x00 :: bytes, pos)
          else .error (.fault (.invalidEscape mark))
      else (unescapeAt steps pos).map fun (bytes, pos) => (b :: bytes, pos)

/-- A truth value. -/
def boolAt (pos : Nat) : Except Stop (Value κ × Nat) :=
  (byteAt buf pos).bind fun (b, pos) =>
    if b = 0x00 then .ok (.bool false, pos)
    else if b = 0x01 then .ok (.bool true, pos)
    else .error (.fault (.invalidBool b))

/-- Seconds and nanoseconds. -/
def timestampAt (pos : Nat) : Except Stop (Timestamp × Nat) :=
  (natAt buf 8 pos).bind fun (seconds, pos) =>
    (natAt buf 4 pos).bind fun (nanos, pos) =>
      match Timestamp.of? (unshifted seconds) nanos with
      | some t => .ok (t, pos)
      | none => .error (.fault .timestampOutOfRange)

/-- A value without parts, its tag already read. -/
def scalarAt (steps : Nat) (tag : UInt8) (pos : Nat) : Except Stop (Value κ × Nat) :=
  if tag = nilTag then .ok (.nil, pos)
  else if tag = boolTag then boolAt buf pos
  else if tag = negativeTag then
    (natAt buf 8 pos).map fun (n, pos) => (.int (Int64.ofInt (unshifted n)), pos)
  else if tag = naturalTag then
    (natAt buf 8 pos).map fun (n, pos) => (natural n, pos)
  else if tag = floatTag then
    (natAt buf 8 pos).map fun (n, pos) => (.float (.ofOrderKey n), pos)
  else if tag = stringTag then
    (unescapeAt buf steps pos).bind fun (bytes, pos) =>
      match Text.ofUtf8? bytes with
      | some s => .ok (.string s, pos)
      | none => .error (.fault (.invalidText bytes))
  else if tag = bytesTag ∨ tag = customTag then
    (unescapeAt buf steps pos).map fun (bytes, pos) => (.bytes bytes, pos)
  else if tag = timestampTag then
    (timestampAt buf pos).map fun (t, pos) => (.timestamp t, pos)
  else if tag = decimalTag then
    (unescapeAt buf steps pos).bind fun (bytes, pos) =>
      match (Text.ofUtf8? bytes).bind Decimal.parse? with
      | some d => .ok (.decimal d, pos)
      | none => .error (.fault (.invalidDecimal bytes))
  else .error (.fault (.unknownTag tag))

/-- Reads one after the other until the byte at the position closes the sequence, and goes on behind
that byte. -/
def loopAt (read : Nat → Except Stop (α × Nat)) : (steps pos : Nat) → Except Stop (List α × Nat)
  | 0, _ => .error .endless
  | steps + 1, pos =>
    if buf[pos]? = some closing then .ok ([], pos + 1)
    else
      (read pos).bind fun (a, pos) =>
        (loopAt read steps pos).map fun (more, pos) => (a :: more, pos)

/-- Reads twice. -/
def pairAt (read : Nat → Except Stop (α × Nat)) (pos : Nat) : Except Stop ((α × α) × Nat) :=
  (read pos).bind fun (a, pos) => (read pos).map fun (b, pos) => ((a, b), pos)

/-- One value. -/
def valueAt : (steps pos : Nat) → Except Stop (Value κ × Nat)
  | 0, _ => .error .endless
  | steps + 1, pos =>
    (byteAt buf pos).bind fun (tag, pos) =>
      if tag = listTag then
        (loopAt buf (valueAt steps) steps pos).map fun (items, pos) => (.list items, pos)
      else if tag = mapTag then
        (loopAt buf (pairAt (valueAt steps)) steps pos).map fun (entries, pos) => (.map entries, pos)
      else scalarAt buf steps tag pos

/-- The value that all of the input is the key code of. -/
def readAt (steps : Nat) : Except Stop (Value κ) :=
  (valueAt buf steps 0).bind fun (v, pos) =>
    if pos = buf.length then .ok v
    else if buf.length < pos then .error .negative
    else .error (.fault (.trailing (buf.length - pos)))

end Readers

/-! ## Following a reader of lists -/

variable {buf : Bytes}

/-- A reader at a position gives what a reader of a list gives: the same fault, or the same value, and
then what is ahead of its position is what the other one has left. -/
inductive Follows (buf : Bytes) {α : Type} {input : Bytes} :
    Except Stop (α × Nat) → Except Fault (Taken α input) → Prop
  | fault (fault : Fault) : Follows buf (.error (.fault fault)) (.error fault)
  | ok (t : Taken α input) {pos : Nat} (hpos : pos ≤ buf.length) (hrest : buf.drop pos = t.rest) :
    Follows buf (.ok (t.value, pos)) (.ok t)

section Follows

variable {input input' : Bytes} {r : Except Stop (α × Nat)} {r' : Except Fault (Taken α input)}

/-- Reads that follow one another do so in sequence. -/
theorem Follows.bind {k : α × Nat → Except Stop (β × Nat)}
    {k' : Taken α input → Except Fault (Taken β input')} (h : Follows buf r r')
    (hk : ∀ (t : Taken α input) {pos : Nat}, pos ≤ buf.length → buf.drop pos = t.rest →
      Follows buf (k (t.value, pos)) (k' t)) :
    Follows buf (r.bind k) (r'.bind k') := by
  cases h with
  | fault fault => exact .fault fault
  | ok t hpos hrest => exact hk t hpos hrest

theorem Follows.map {g : α × Nat → β × Nat} {g' : Taken α input → Taken β input'}
    (h : Follows buf r r')
    (hg : ∀ (t : Taken α input) (pos : Nat),
      g (t.value, pos) = ((g' t).value, pos) ∧ (g' t).rest = t.rest) :
    Follows buf (r.map g) (r'.map g') := by
  cases h with
  | fault fault => exact .fault fault
  | @ok t pos hpos hrest =>
    obtain ⟨hvalue, hrest'⟩ := hg t pos
    show Follows buf (.ok (g (t.value, pos))) (.ok (g' t))
    rw [hvalue]
    exact .ok (g' t) hpos (hrest.trans hrest'.symm)

theorem Follows.ite {p : Prop} [Decidable p] {s : Except Stop (α × Nat)}
    {s' : Except Fault (Taken α input)} (h : p → Follows buf r r') (h' : ¬p → Follows buf s s') :
    Follows buf (if p then r else s) (if p then r' else s') := by
  by_cases hp : p
  · rw [if_pos hp, if_pos hp]
    exact h hp
  · rw [if_neg hp, if_neg hp]
    exact h' hp

end Follows

/-- From its position a reader finds a fault, or it moves on and is still inside of the input. -/
def Advances (buf : Bytes) (pos : Nat) : Except Stop (α × Nat) → Prop
  | .ok (_, pos') => pos < pos' ∧ pos' ≤ buf.length
  | .error stop => ∃ fault, stop = .fault fault

/-- The position moves on because less is left than there was. -/
theorem Follows.advances {pos : Nat} {r : Except Stop (α × Nat)}
    {r' : Except Fault (Taken α (buf.drop pos))} (h : Follows buf r r') : Advances buf pos r := by
  cases h with
  | fault fault => exact ⟨fault, rfl⟩
  | @ok t pos' hpos hrest =>
    have hshorter := t.shorter
    rw [← hrest, List.length_drop, List.length_drop] at hshorter
    exact ⟨by omega, hpos⟩

/-! ## Bytes and numbers -/

/-- `takeAt` answers exactly when the count fits behind the position. -/
theorem takeAt_eq (count pos : Nat) :
    takeAt buf count pos =
      if pos + count ≤ buf.length then .ok ((buf.drop pos).take count, pos + count)
      else .error (.fault .unexpectedEnd) := by
  unfold takeAt
  by_cases hinside : pos + count ≤ buf.length
  · rw [if_neg (Nat.not_lt.mpr hinside), if_pos hinside, slice,
      if_pos ⟨Nat.le_add_right pos count, hinside⟩, Nat.add_sub_cancel_left]
    rfl
  · rw [if_pos (Nat.lt_of_not_le hinside), if_neg hinside]

theorem byteAt_nil {pos : Nat} (h : buf.drop pos = []) :
    byteAt buf pos = .error (.fault .unexpectedEnd) := by
  have hend := List.drop_eq_nil_iff.mp h
  unfold byteAt
  rw [takeAt_eq, if_neg (by omega)]
  rfl

/-- Where a byte remains, the position is inside the buffer and the next one is past that byte. -/
theorem drop_of_cons {pos : Nat} {b : UInt8} {rest : Bytes} (h : buf.drop pos = b :: rest) :
    pos < buf.length ∧ buf.drop (pos + 1) = rest := by
  constructor
  · refine Nat.lt_of_not_le fun hend => ?_
    rw [List.drop_eq_nil_of_le hend] at h
    cases h
  · rw [← List.tail_drop, h]
    rfl

theorem byteAt_cons {pos : Nat} {b : UInt8} {rest : Bytes} (h : buf.drop pos = b :: rest) :
    byteAt buf pos = .ok (b, pos + 1) := by
  have hpos := (drop_of_cons h).1
  unfold byteAt
  rw [takeAt_eq, if_pos (Nat.succ_le_of_lt hpos), h]
  rfl

/-- A big-endian number is read at a position as it is from the bytes remaining there. -/
theorem follows_natAt {count pos : Nat} {input : Bytes} (h : buf.drop pos = input) :
    Follows buf (natAt buf (count + 1) pos) (readNat count input) := by
  subst h
  unfold natAt readNat
  rw [takeAt_eq]
  by_cases hinside : pos + (count + 1) ≤ buf.length
  · rw [if_pos hinside, dif_pos (by rw [List.length_drop]; omega)]
    show Follows buf (if _ then _ else _) _
    rw [if_pos (by rw [List.length_take, List.length_drop]; omega)]
    exact .ok ⟨Bytes.toNat ((buf.drop pos).take (count + 1)), (buf.drop pos).drop (count + 1), _⟩
      hinside (List.drop_drop ..).symm
  · rw [if_neg hinside, dif_neg (by rw [List.length_drop]; omega)]
    exact .fault .unexpectedEnd

theorem readNat_byte (b : UInt8) (rest : Bytes) :
    readNat 0 (b :: rest) = .ok (.first b b.toNat rest) := by
  unfold readNat
  rw [dif_pos (by simp)]
  simp [Bytes.toNat, Taken.first]

theorem follows_boolAt {tag : UInt8} {pos : Nat} {input : Bytes} (h : buf.drop pos = input) :
    Follows buf (boolAt (κ := κ) buf pos)
      ((readNat 0 input).bind fun t =>
        if t.value = 0 then .ok ((t.map fun _ => Value.bool false).after tag)
        else if t.value = 1 then .ok ((t.map fun _ => Value.bool true).after tag)
        else .error (.invalidBool (UInt8.ofNat t.value))) := by
  unfold boolAt
  cases input with
  | nil =>
    rw [byteAt_nil h]
    exact .fault .unexpectedEnd
  | cons b rest =>
    obtain ⟨hpos', hrest⟩ := drop_of_cons h
    have hvalue : ∀ n : UInt8, b.toNat = n.toNat ↔ b = n := fun n => UInt8.toNat_inj
    rw [byteAt_cons h, readNat_byte]
    show Follows buf (if b = 0x00 then _ else if b = 0x01 then _ else _)
      (if b.toNat = (0x00 : UInt8).toNat then _ else if b.toNat = (0x01 : UInt8).toNat then _ else _)
    simp only [hvalue]
    refine .ite (fun _ => ?_) fun _ => .ite (fun _ => ?_) fun _ => ?_
    · exact .ok ((Taken.first b (Value.bool false) rest).after tag) hpos' hrest
    · exact .ok ((Taken.first b (Value.bool true) rest).after tag) hpos' hrest
    · show Follows buf _ (.error (.invalidBool (UInt8.ofNat b.toNat)))
      rw [UInt8.ofNat_toNat]
      exact .fault (.invalidBool b)

theorem follows_timestampAt {pos : Nat} {input : Bytes} (h : buf.drop pos = input) :
    Follows buf (timestampAt buf pos) (readTimestamp input) := by
  refine (follows_natAt h).bind fun seconds pos' _ hrest => ?_
  refine (follows_natAt hrest).bind fun nanos pos'' hpos hrest' => ?_
  dsimp only
  cases Timestamp.of? (unshifted seconds.value) nanos.value with
  | some t => exact .ok ⟨t, nanos.rest, _⟩ hpos hrest'
  | none => exact .fault .timestampOutOfRange

/-! ## Byte strings -/

/-- Every turn takes a byte, so that more steps than bytes ahead are enough. -/
theorem follows_unescapeAt : ∀ {input : Bytes} {steps pos : Nat}, buf.drop pos = input →
    input.length < steps → Follows buf (unescapeAt buf steps pos) (unescape input)
  | [], steps + 1, pos, h, _ => by
    unfold unescapeAt
    rw [byteAt_nil h]
    exact .fault .unexpectedEnd
  | b :: rest, steps + 1, pos, h, hsteps => by
    have hlength : rest.length < steps := Nat.lt_of_succ_lt_succ hsteps
    have hrest := (drop_of_cons h).2
    unfold unescapeAt unescape
    rw [byteAt_cons h]
    refine .ite (fun _ => ?_) fun _ => (follows_unescapeAt hrest hlength).map fun _ _ => ⟨rfl, rfl⟩
    cases rest with
    | nil =>
      rw [byteAt_nil hrest]
      exact .fault .unexpectedEnd
    | cons mark rest =>
      obtain ⟨hpos', hrest'⟩ := drop_of_cons hrest
      rw [byteAt_cons hrest]
      refine .ite (fun _ => ?_) fun _ => .ite (fun _ => ?_) fun _ => .fault (.invalidEscape mark)
      · exact .ok ((Taken.first mark [] rest).after b) hpos' hrest'
      · exact (follows_unescapeAt hrest' (Nat.lt_of_succ_lt hlength)).map fun _ _ => ⟨rfl, rfl⟩

/-! ## Values -/

theorem follows_scalarAt {tag : UInt8} {steps pos : Nat} {input : Bytes} (h : buf.drop pos = input)
    (hpos : pos ≤ buf.length) (hsteps : input.length < steps) :
    Follows buf (scalarAt (κ := κ) buf steps tag pos) (readScalar tag input) := by
  -- Both readers ask for the same tags in the same order.
  unfold scalarAt readScalar
  refine .ite (fun _ => .ok (Taken.first tag Value.nil input) hpos h) fun _ => ?_
  refine .ite (fun _ => follows_boolAt h) fun _ => ?_
  refine .ite (fun _ => (follows_natAt h).map fun _ _ => ⟨rfl, rfl⟩) fun _ => ?_
  refine .ite (fun _ => (follows_natAt h).map fun _ _ => ⟨rfl, rfl⟩) fun _ => ?_
  refine .ite (fun _ => (follows_natAt h).map fun _ _ => ⟨rfl, rfl⟩) fun _ => ?_
  refine .ite (fun _ => ?text) fun _ => ?_
  case text =>
    refine (follows_unescapeAt h hsteps).bind fun t pos' hpos' hrest => ?_
    unfold Taken.map?
    dsimp only
    cases Text.ofUtf8? t.value with
    | some s => exact .ok (Taken.after tag ⟨Value.string s, t.rest, t.shorter⟩) hpos' hrest
    | none => exact .fault (.invalidText t.value)
  refine .ite (fun _ => (follows_unescapeAt h hsteps).map fun _ _ => ⟨rfl, rfl⟩) fun _ => ?_
  refine .ite (fun _ => (follows_timestampAt h).map fun _ _ => ⟨rfl, rfl⟩) fun _ => ?_
  refine .ite (fun _ => ?decimal) fun _ => .fault (.unknownTag tag)
  case decimal =>
    refine (follows_unescapeAt h hsteps).bind fun t pos' hpos' hrest => ?_
    unfold Taken.map?
    dsimp only
    cases Text.ofUtf8? t.value with
    | none => exact .fault (.invalidDecimal t.value)
    | some s =>
      dsimp only [Option.bind]
      cases Decimal.parse? s with
      | some d => exact .ok (Taken.after tag ⟨Value.decimal d, t.rest, t.shorter⟩) hpos' hrest
      | none => exact .fault (.invalidDecimal t.value)

/-! ## Sequences -/

/-- `all` reads what `one` reads, one after the other up to a closing byte. -/
structure Repeats (one : (input : Bytes) → Except Fault (Taken α input))
    (all : (input : Bytes) → Except Fault (Taken (List α) input)) : Prop where
  ends : ∀ rest, all (closing :: rest) = .ok (.first closing [] rest)
  goes : ∀ input, input.head? ≠ some closing →
    all input = (one input).bind fun t => (all t.rest).map fun more =>
      ⟨t.value :: more.value, more.rest, Nat.lt_trans more.shorter t.shorter⟩

/-- A key and its value. -/
def readPair (input : Bytes) : Except Fault (Taken (Value κ × Value κ) input) :=
  (readValue input).bind fun k => (readValue k.rest).map fun v =>
    ⟨(k.value, v.value), v.rest, Nat.lt_trans v.shorter k.shorter⟩

/-- The items of a list are values read until the closing byte. -/
theorem repeats_items : Repeats (readValue (κ := κ)) readItems := by
  constructor
  · intro rest
    rw [readItems, dif_pos (List.head?_cons ..)]
    rfl
  · intro input hhead
    rw [readItems, dif_neg hhead]

theorem repeats_entries : Repeats (readPair (κ := κ)) readEntries := by
  constructor
  · intro rest
    rw [readEntries, dif_pos (List.head?_cons ..)]
    rfl
  · intro input hhead
    rw [readEntries, dif_neg hhead, readPair]
    cases readValue (κ := κ) input with
    | error fault => rfl
    | ok k =>
      show (readValue k.rest).bind _ = ((readValue k.rest).map _).bind _
      cases readValue (κ := κ) k.rest <;> rfl

/-- With every item a byte is taken at least, so that more steps than bytes ahead are enough for the
items, and what is enough for the first one is enough for each. -/
theorem Repeats.follows {one : (input : Bytes) → Except Fault (Taken α input)}
    {all : (input : Bytes) → Except Fault (Taken (List α) input)} (h : Repeats one all)
    {read : Nat → Except Stop (α × Nat)} {bound : Nat}
    (hread : ∀ {input : Bytes} {pos : Nat}, buf.drop pos = input → input.length < bound →
      Follows buf (read pos) (one input)) :
    ∀ {steps : Nat} {input : Bytes} {pos : Nat}, buf.drop pos = input → input.length < bound →
      input.length < steps → Follows buf (loopAt buf read steps pos) (all input)
  | steps + 1, input, pos, hinput, hbound, hsteps => by
    have hhead : buf[pos]? = input.head? := by rw [← hinput, List.head?_drop]
    unfold loopAt
    rw [hhead]
    by_cases hend : input.head? = some closing
    · obtain ⟨rest, rfl⟩ := List.head?_eq_some_iff.mp hend
      obtain ⟨hpos, hrest⟩ := drop_of_cons hinput
      rw [if_pos hend, h.ends]
      exact .ok (Taken.first closing [] rest) hpos hrest
    · rw [if_neg hend, h.goes input hend]
      refine (hread hinput hbound).bind fun t pos' _ hrest => ?_
      have hshorter := t.shorter
      exact (h.follows hread hrest (by omega) (by omega)).map fun _ _ => ⟨rfl, rfl⟩

/-- A pair follows when its key and its value do. -/
theorem follows_pairAt {read : Nat → Except Stop (Value κ × Nat)} {bound : Nat}
    (hread : ∀ {input : Bytes} {pos : Nat}, buf.drop pos = input → input.length < bound →
      Follows buf (read pos) (readValue input)) {input : Bytes} {pos : Nat}
    (h : buf.drop pos = input) (hbound : input.length < bound) :
    Follows buf (pairAt read pos) (readPair input) := by
  refine (hread h hbound).bind fun k pos' _ hrest => ?_
  exact (hread hrest (Nat.lt_trans k.shorter hbound)).map fun _ _ => ⟨rfl, rfl⟩

/-- A value takes its first byte before it reads what is inside of it, so that one step less is enough
for that. -/
theorem follows_valueAt : ∀ {steps : Nat} {input : Bytes} {pos : Nat}, buf.drop pos = input →
    input.length < steps → Follows buf (valueAt (κ := κ) buf steps pos) (readValue input) := by
  intro steps
  induction steps with
  | zero =>
    intro input pos _ hsteps
    exact absurd hsteps (Nat.not_lt_zero _)
  | succ steps ih =>
    intro input pos h hsteps
    cases input with
    | nil =>
      rw [valueAt, byteAt_nil h, readValue]
      exact .fault .unexpectedEnd
    | cons tag rest =>
      obtain ⟨hpos, hrest⟩ := drop_of_cons h
      have hlength : rest.length < steps := Nat.lt_of_succ_lt_succ hsteps
      rw [valueAt, byteAt_cons h, readValue]
      refine .ite (fun _ => ?_) fun _ => .ite (fun _ => ?_) fun _ => ?_
      · exact (repeats_items.follows ih hrest hlength hlength).map fun _ _ => ⟨rfl, rfl⟩
      · have hentries := repeats_entries.follows (follows_pairAt ih) hrest hlength hlength
        exact hentries.map fun _ _ => ⟨rfl, rfl⟩
      · exact follows_scalarAt hrest hpos hlength

/-! ## All of the input -/

/-- With more steps than there are bytes the reader of all of the input gives what `read` gives. -/
theorem readAt_eq {steps : Nat} (hsteps : buf.length < steps) :
    readAt (κ := κ) buf steps = (read buf).mapError .fault := by
  have h : Follows buf (valueAt (κ := κ) buf steps 0) (readValue buf) := follows_valueAt rfl hsteps
  unfold readAt read
  generalize valueAt buf steps 0 = r at h ⊢
  generalize readValue buf = r' at h ⊢
  cases h with
  | fault fault => rfl
  | @ok t pos hpos hrest =>
    show (if pos = buf.length then _ else _ : Except Stop (Value κ)) =
      (if t.rest.isEmpty then _ else _ : Except Fault (Value κ)).mapError _
    rw [← hrest, List.length_drop]
    by_cases hend : pos = buf.length
    · rw [if_pos hend, if_pos (by rw [hend, List.drop_length]; rfl)]
      rfl
    · have hleft : ¬(buf.drop pos).isEmpty = true := by
        rw [List.isEmpty_iff, List.drop_eq_nil_iff]
        omega
      rw [if_neg hend, if_neg (Nat.not_lt.mpr hpos), if_neg hleft]
      rfl

/-- Whatever the bytes are, and wherever in them a value, a list of items, a list of entries or a byte
string is read: with more steps than bytes ahead the reader finds a fault, or it moves on by a byte at
least and is still inside of the bytes. With more steps than there are bytes the reader of them all
ends with a value or a fault, and that is what the bytes decode to. -/
theorem decode_within (bytes : Bytes) :
    (∀ pos steps, bytes.length - pos < steps →
      Advances bytes pos (valueAt (κ := κ) bytes steps pos) ∧
      Advances bytes pos (loopAt bytes (valueAt (κ := κ) bytes steps) steps pos) ∧
      Advances bytes pos (loopAt bytes (pairAt (valueAt (κ := κ) bytes steps)) steps pos) ∧
      Advances bytes pos (unescapeAt bytes steps pos)) ∧
    ∀ steps, bytes.length < steps →
      (∃ v : Value κ, readAt bytes steps = .ok v ∧ decode bytes = .ok v) ∨
      ∃ fault, readAt (κ := κ) bytes steps = .error (.fault fault) ∧
        decode (κ := κ) bytes = .error fault.error := by
  constructor
  · intro pos steps hsteps
    rw [← List.length_drop] at hsteps
    exact ⟨(follows_valueAt rfl hsteps).advances,
      (repeats_items.follows follows_valueAt rfl hsteps hsteps).advances,
      (repeats_entries.follows (follows_pairAt follows_valueAt) rfl hsteps hsteps).advances,
      (follows_unescapeAt rfl hsteps).advances⟩
  · intro steps hsteps
    rw [readAt_eq hsteps]
    unfold decode
    cases read (κ := κ) bytes with
    | ok v => exact .inl ⟨v, rfl, rfl⟩
    | error fault => exact .inr ⟨fault, rfl, rfl⟩

/-- A text in a list in a list, without its end. -/
def truncated : Bytes := [listTag, listTag, stringTag, 0x41]

/-- A list cut off in its middle: the reader goes forward and stays inside the buffer. -/
theorem decode_within_truncated :
    (truncated.length - 1 < 4 ∧ Advances truncated 1 (valueAt (κ := Empty) truncated 4 1)) ∧
      truncated.length < 5 ∧ readAt (κ := Empty) truncated 5 = .error (.fault .unexpectedEnd) ∧
      decode (κ := Empty) truncated = .error (.codec Fault.unexpectedEnd.reason) := by
  have hread : readAt (κ := Empty) truncated 5 = .error (.fault .unexpectedEnd) := rfl
  refine ⟨⟨by decide, ((decode_within truncated).1 1 4 (by decide)).1⟩, by decide, hread, ?_⟩
  rcases (decode_within (κ := Empty) truncated).2 5 (by decide) with ⟨v, hvalue, -⟩ |
    ⟨fault, hfault, hdecode⟩
  · rw [hread] at hvalue
    cases hvalue
  · rw [hread] at hfault
    cases hfault
    exact hdecode

end RecordStore.Keycode
