import RecordStore.Taken
import RecordStore.Value

/-!
# Key codes

The byte form of values in keys and indexes. A first byte tells the kind; what follows is laid out
so that the byte order of key codes is the order of the values, as far as one kind goes: numbers in
big-endian form shifted to start at zero, texts with their zero bytes marked and an end marker that
sorts below every continuation, lists closed by a byte below every kind. A key code says where it
ends: `decode` reads one value and refuses anything after it, and each read leaves less than it was
given, which is why reading ends.
-/

namespace RecordStore.Keycode

variable {κ : Type}

/-! ## First bytes -/

/-- The first byte of `nil`. -/
def nilTag : UInt8 := 0x01
/-- The first byte of a truth value. -/
def boolTag : UInt8 := 0x02
/-- The first byte of a negative integer. -/
def negativeTag : UInt8 := 0x03
/-- The first byte of an integer that is not negative. -/
def naturalTag : UInt8 := 0x04
/-- The first byte of a double. -/
def floatTag : UInt8 := 0x05
/-- The first byte of a text. -/
def stringTag : UInt8 := 0x06
/-- The first byte of a byte string. -/
def bytesTag : UInt8 := 0x07
/-- The first byte of a point in time. -/
def timestampTag : UInt8 := 0x08
/-- The first byte of a decimal. -/
def decimalTag : UInt8 := 0x09
/-- The first byte of a list. -/
def listTag : UInt8 := 0x0a
/-- The first byte of a map. -/
def mapTag : UInt8 := 0x0b
/-- The first byte of a value of the user's own kind. -/
def customTag : UInt8 := 0x0c
/-- The byte that closes a list or a map, below every first byte. -/
def closing : UInt8 := 0x00

/-! ## Writing -/

/-- A byte string of any length with its end marked: zero becomes `00 ff`, the end is `00 00`. -/
def escape : Bytes → Bytes
  | [] => [0x00, 0x00]
  | b :: rest => if b = 0x00 then 0x00 :: 0xff :: escape rest else b :: escape rest

/-- A signed number of 64 bits, shifted to start at zero. -/
def shifted (n : Int) : Bytes := Bytes.ofNat 8 (n + 0x8000000000000000).toNat

/-- An integer under the tag of its sign. -/
def encodeInt (n : Int) : Bytes :=
  if n < 0 then negativeTag :: shifted n else naturalTag :: Bytes.ofNat 8 n.toNat

section Writing

variable [CustomKind κ]

mutual

/-- The key code of a value. -/
def encode : Value κ → Bytes
  | .nil => [nilTag]
  | .bool b => [boolTag, if b then 0x01 else 0x00]
  | .int n => encodeInt n.toInt
  | .uint n => encodeInt n.toNat
  | .float x => floatTag :: Bytes.ofNat 8 x.orderKey
  | .string s => stringTag :: escape (Text.utf8 s)
  | .bytes b => bytesTag :: escape b
  | .timestamp t => timestampTag :: (shifted t.seconds ++ Bytes.ofNat 4 t.nanos)
  | .decimal d => decimalTag :: escape (Text.utf8 d.text)
  | .list items => listTag :: (encodeAll items ++ [closing])
  | .map entries => mapTag :: (encodeEntries entries ++ [closing])
  | .custom c => customTag :: escape (CustomKind.toBytes c)

/-- The key codes of the items, one after the other. -/
def encodeAll : List (Value κ) → Bytes
  | [] => []
  | v :: vs => encode v ++ encodeAll vs

/-- The key codes of keys and values in turn. -/
def encodeEntries : List (Value κ × Value κ) → Bytes
  | [] => []
  | (k, v) :: es => encode k ++ encode v ++ encodeEntries es

end

end Writing

/-- Whether the byte order of key codes of this kind is the order of the values. -/
def keepsOrder : Value κ → Bool
  | .decimal _ | .custom _ => false
  | _ => true

/-- Whether a key code is that of a value of the user's own kind. Such a key code decodes to the
bytes that stand for the value, not to the value. -/
def isCustom : Bytes → Bool
  | b :: _ => b = customTag
  | [] => false

/-- The first byte of a key code, the two signs of integers counted as one. -/
def family : Bytes → Option UInt8
  | [] => none
  | b :: _ => some (if b = negativeTag then naturalTag else b)

/-! ## Reading -/

/-- Why bytes are not a key code. -/
inductive Fault where
  /-- Bytes follow the value. -/
  | trailing (count : Nat)
  /-- The bytes end inside the value. -/
  | unexpectedEnd
  /-- A zero byte is followed by neither of its two marks. -/
  | invalidEscape (b : UInt8)
  /-- A truth value is neither 0 nor 1. -/
  | invalidBool (b : UInt8)
  /-- A text is not UTF-8. -/
  | invalidText (bytes : Bytes)
  /-- No calendar has the point in time. -/
  | timestampOutOfRange
  /-- A decimal does not read as one. -/
  | invalidDecimal (bytes : Bytes)
  /-- The first byte is no tag. -/
  | unknownTag (b : UInt8)
  deriving DecidableEq, Repr

/-- A byte in hexadecimal, marked as such. -/
def byteText (b : UInt8) : String := "0x" ++ Bytes.toHex [b]

/-- The text of a fault. -/
def Fault.reason : Fault → String
  | .trailing count => "keycode: " ++ Digits.text count ++ " trailing bytes"
  | .unexpectedEnd => "keycode: unexpected end of input"
  | .invalidEscape b => "keycode: invalid escape byte " ++ byteText b
  | .invalidBool b => "keycode: invalid bool " ++ byteText b
  | .invalidText _ => "keycode: invalid utf-8 string"
  | .timestampOutOfRange => "keycode: timestamp out of range"
  | .invalidDecimal _ => "keycode: invalid decimal"
  | .unknownTag b => "keycode: unknown tag " ++ byteText b

/-- The failure of a library behind a fault. -/
def Fault.cause? : Fault → Option LibraryFault
  | .invalidText bytes => some (.utf8 bytes)
  | .invalidDecimal bytes =>
    some (match Text.ofUtf8? bytes with
      | none => .utf8 bytes
      | some text => .decimal text)
  | _ => none

/-- The error that tells of a fault. -/
def Fault.error (fault : Fault) : Error :=
  match fault.cause? with
  | some cause => .caused (.codec fault.reason) cause
  | none => .codec fault.reason

/-- The class of a fault is that of all that cannot be decoded. -/
@[simp] theorem Fault.code_error (fault : Fault) : fault.error.code = some .codecFailed := by
  cases fault <;> rfl

@[simp] theorem Fault.message_error (fault : Fault) : fault.error.message = fault.reason := by
  cases fault <;> rfl

/-- The first `count + 1` bytes as a big-endian number. -/
def readNat (count : Nat) (bytes : Bytes) : Except Fault (Taken Nat bytes) :=
  if h : count < bytes.length then
    .ok ⟨Bytes.toNat (bytes.take (count + 1)), bytes.drop (count + 1), by
      rw [List.length_drop]; omega⟩
  else .error .unexpectedEnd

/-- A byte string up to its end mark. -/
def unescape : (bytes : Bytes) → Except Fault (Taken Bytes bytes)
  | [] => .error .unexpectedEnd
  | b :: rest =>
    if b = 0x00 then
      match rest with
      | [] => .error .unexpectedEnd
      | mark :: rest' =>
        if mark = 0x00 then .ok ((Taken.first mark [] rest').after b)
        else if mark = 0xff then
          (unescape rest').map fun t => ((t.map (0x00 :: ·)).after mark).after b
        else .error (.invalidEscape mark)
    else (unescape rest).map fun t => (t.map (b :: ·)).after b

/-- A signed integer from a shifted number. -/
def unshifted (n : Nat) : Int := (n : Int) - 0x8000000000000000

/-- An integer from its magnitude: signed if it fits. -/
def natural (n : Nat) : Value κ :=
  if n < 0x8000000000000000 then .int (Int64.ofNat n) else .uint (UInt64.ofNat n)

/-- Seconds and nanoseconds. -/
def readTimestamp (bytes : Bytes) : Except Fault (Taken Timestamp bytes) :=
  (readNat 7 bytes).bind fun seconds =>
    (readNat 3 seconds.rest).bind fun nanos =>
      match Timestamp.of? (unshifted seconds.value) nanos.value with
      | some t => .ok ⟨t, nanos.rest, Nat.lt_trans nanos.shorter seconds.shorter⟩
      | none => .error .timestampOutOfRange

/-- A value without parts, its tag already read. -/
def readScalar (tag : UInt8) (bytes : Bytes) : Except Fault (Taken (Value κ) (tag :: bytes)) :=
  if tag = nilTag then .ok (.first tag .nil bytes)
  else if tag = boolTag then
    (readNat 0 bytes).bind fun t =>
      if t.value = 0 then .ok ((t.map fun _ => .bool false).after tag)
      else if t.value = 1 then .ok ((t.map fun _ => .bool true).after tag)
      else .error (.invalidBool (UInt8.ofNat t.value))
  else if tag = negativeTag then
    (readNat 7 bytes).map fun t => (t.map fun n => .int (Int64.ofInt (unshifted n))).after tag
  else if tag = naturalTag then
    (readNat 7 bytes).map fun t => (t.map natural).after tag
  else if tag = floatTag then
    (readNat 7 bytes).map fun t => (t.map fun n => .float (.ofOrderKey n)).after tag
  else if tag = stringTag then
    (unescape bytes).bind fun t =>
      match t.map? fun b => (Text.ofUtf8? b).map .string with
      | some t => .ok (t.after tag)
      | none => .error (.invalidText t.value)
  else if tag = bytesTag ∨ tag = customTag then
    (unescape bytes).map fun t => (t.map .bytes).after tag
  else if tag = timestampTag then
    (readTimestamp bytes).map fun t => (t.map .timestamp).after tag
  else if tag = decimalTag then
    (unescape bytes).bind fun t =>
      match t.map? fun b => (Text.ofUtf8? b).bind fun s => (Decimal.parse? s).map .decimal with
      | some t => .ok (t.after tag)
      | none => .error (.invalidDecimal t.value)
  else .error (.unknownTag tag)

mutual

/-- Reads one value. -/
def readValue (bytes : Bytes) : Except Fault (Taken (Value κ) bytes) :=
  match bytes with
  | [] => .error .unexpectedEnd
  | tag :: rest =>
    if tag = listTag then
      (readItems rest).map fun t => (t.map .list).after tag
    else if tag = mapTag then
      (readEntries rest).map fun t => (t.map .map).after tag
    else readScalar tag rest
termination_by (bytes.length, 0)

/-- Reads values up to the closing byte. -/
def readItems (bytes : Bytes) : Except Fault (Taken (List (Value κ)) bytes) :=
  if h : bytes.head? = some closing then
    .ok ⟨[], bytes.tail, by cases bytes <;> simp_all⟩
  else
    (readValue bytes).bind fun v =>
      have := v.shorter
      (readItems v.rest).map fun vs =>
        ⟨v.value :: vs.value, vs.rest, Nat.lt_trans vs.shorter v.shorter⟩
termination_by (bytes.length, 1)

/-- Reads keys and values in turn up to the closing byte. -/
def readEntries (bytes : Bytes) : Except Fault (Taken (List (Value κ × Value κ)) bytes) :=
  if h : bytes.head? = some closing then
    .ok ⟨[], bytes.tail, by cases bytes <;> simp_all⟩
  else
    (readValue bytes).bind fun k =>
      have := k.shorter
      (readValue k.rest).bind fun v =>
        have := v.shorter
        (readEntries v.rest).map fun es =>
          ⟨(k.value, v.value) :: es.value, es.rest,
            Nat.lt_trans es.shorter (Nat.lt_trans v.shorter k.shorter)⟩
termination_by (bytes.length, 1)

end

/-- The value of a key code: exactly one value, with nothing after it. -/
def read (bytes : Bytes) : Except Fault (Value κ) :=
  (readValue bytes).bind fun t =>
    if t.rest.isEmpty then .ok t.value else .error (.trailing t.rest.length)

/-- The value of a key code, or the error that says why there is none. -/
def decode (bytes : Bytes) : Except Error (Value κ) :=
  (read bytes).mapError Fault.error

end RecordStore.Keycode
