import RecordStore.Value.Keycode
import RecordStore.Proofs.Bytes
import RecordStore.Proofs.Decimal

/-!
# Values that went through their key codes

A key code does not tell everything about a value: whether a small integer was signed, how a decimal
was scaled, and what value of the user's own kind its bytes stand for. `Value.restored` is the value
that is read (`decode_encode`). Without a part of the user's own kind it has the key code and the text
of the value itself (`encode_restored`, `text_restored`); in any case its key code does not come later
(`below_encode_restored`).
-/

namespace RecordStore

/-! ## Doubles and their ranks -/

namespace Binary64

/-- The key of a double is its bits with the sign turned, and all of them turned if it is negative. -/
theorem orderKey_eq (x : Binary64) : x.orderKey =
    if 0x8000000000000000 ≤ x.bits.toNat then 0xffffffffffffffff - x.bits.toNat
    else x.bits.toNat + 0x8000000000000000 := by
  unfold orderKey negative
  simp only [decide_eq_true_eq]

theorem orderKey_lt (x : Binary64) : x.orderKey < 256 ^ 8 := by
  have hbits := x.bits.toNat_lt
  rw [orderKey_eq]
  split
  next => omega
  next => omega

/-- The rank of a double tells its bits. -/
theorem ofOrderKey_orderKey (x : Binary64) : ofOrderKey x.orderKey = x := by
  have hbits := x.bits.toNat_lt
  have hkey : (if 0x8000000000000000 ≤ x.orderKey then x.orderKey - 0x8000000000000000
      else 0xffffffffffffffff - x.orderKey) = x.bits.toNat := by
    rw [orderKey_eq]
    split <;> split <;> omega
  unfold ofOrderKey
  rw [hkey, UInt64.ofNat_toNat]

end Binary64

namespace Value

variable {κ : Type} [CustomKind κ]

mutual

/-- What is left of a value once it went through its key code. -/
def restored : Value κ → Value κ
  | .nil => .nil
  | .bool b => .bool b
  | .int n => .int n
  | .uint n => Keycode.natural n.toNat
  | .float x => .float x
  | .string s => .string s
  | .bytes b => .bytes b
  | .timestamp t => .timestamp t
  | .decimal d => .decimal d.restored
  | .list items => .list (restoredAll items)
  | .map entries => .map (restoredEntries entries)
  | .custom c => .bytes (CustomKind.toBytes c)

/-- The items of a list, restored. -/
def restoredAll : List (Value κ) → List (Value κ)
  | [] => []
  | v :: vs => restored v :: restoredAll vs

/-- The keys and values of a map, restored. -/
def restoredEntries : List (Value κ × Value κ) → List (Value κ × Value κ)
  | [] => []
  | (k, v) :: es => (restored k, restored v) :: restoredEntries es

end

theorem restoredAll_eq_map : ∀ vs : List (Value κ), restoredAll vs = vs.map restored
  | [] => rfl
  | v :: vs => by rw [restoredAll, restoredAll_eq_map vs, List.map_cons]

theorem restoredEntries_keys :
    ∀ es : List (Value κ × Value κ), (restoredEntries es).map (·.1) = (es.map (·.1)).map restored
  | [] => rfl
  | (k, v) :: es => by
    rw [restoredEntries, List.map_cons, restoredEntries_keys es, List.map_cons, List.map_cons]

mutual

/-- Whether the scale of every decimal in it is of 64 bits. -/
def hasWordScales : Value κ → Bool
  | .decimal d => d.HasWordScale
  | .list items => allHaveWordScales items
  | .map entries => allEntriesHaveWordScales entries
  | _ => true

/-- Whether the scales in all items are of 64 bits. -/
def allHaveWordScales : List (Value κ) → Bool
  | [] => true
  | v :: vs => hasWordScales v && allHaveWordScales vs

/-- Whether the scales in all keys and values are of 64 bits. -/
def allEntriesHaveWordScales : List (Value κ × Value κ) → Bool
  | [] => true
  | (k, v) :: es => hasWordScales k && hasWordScales v && allEntriesHaveWordScales es

end

mutual

/-- What is left has no part of the user's own kind. -/
theorem hasCustomPart_restored : ∀ w : Value κ, w.restored.hasCustomPart = false
  | .nil | .bool _ | .int _ | .float _ | .string _ | .bytes _ | .timestamp _ | .decimal _
  | .custom _ => rfl
  | .uint n => by
    rw [restored, Keycode.natural]
    split
    next => rfl
    next => rfl
  | .list items => anyHasCustomPart_restoredAll items
  | .map entries => anyEntryHasCustomPart_restoredEntries entries

/-- No restored item holds a value of the user's own kind. -/
theorem anyHasCustomPart_restoredAll : ∀ vs : List (Value κ),
    anyHasCustomPart (restoredAll vs) = false
  | [] => rfl
  | v :: vs => Bool.or_eq_false_iff.mpr
    ⟨hasCustomPart_restored v, anyHasCustomPart_restoredAll vs⟩

theorem anyEntryHasCustomPart_restoredEntries : ∀ es : List (Value κ × Value κ),
    anyEntryHasCustomPart (restoredEntries es) = false
  | [] => rfl
  | (k, v) :: es => Bool.or_eq_false_iff.mpr
    ⟨Bool.or_eq_false_iff.mpr ⟨hasCustomPart_restored k, hasCustomPart_restored v⟩,
      anyEntryHasCustomPart_restoredEntries es⟩

end

/-- No value of the user's own kind is read. -/
theorem restored_ne_custom (w : Value κ) (c : κ) : w.restored ≠ .custom c := by
  intro h
  have hplain := hasCustomPart_restored w
  rw [h] at hplain
  cases hplain

end Value

namespace Keycode

variable {κ : Type}

/-! ## Reading a key code -/

/-- If anything is read it is `a`, and `rest` is left; and if `sure` then something is read. -/
structure Reads {α : Type} {input : Bytes} (sure : Prop) (r : Except Fault (Taken α input)) (a : α)
    (rest : Bytes) : Prop where
  only : ∀ t, r = .ok t → t.value = a ∧ t.rest = rest
  surely : sure → ∃ t, r = .ok t

section Reads

variable {α β : Type} {input rest : Bytes} {sure sure' : Prop} {r : Except Fault (Taken α input)}
  {a : α}

theorem Reads.ok {shorter : rest.length < input.length} :
    Reads sure (.ok ⟨a, rest, shorter⟩ : Except Fault (Taken α input)) a rest := by
  refine ⟨fun t ht => ?_, fun _ => ⟨_, rfl⟩⟩
  cases ht
  exact ⟨rfl, rfl⟩

theorem Reads.imp (h : Reads sure r a rest) (himp : sure' → sure) : Reads sure' r a rest :=
  ⟨h.only, fun hsure => h.surely (himp hsure)⟩

/-- What was surely read, and what is left behind it. -/
theorem Reads.exists (h : Reads sure r a rest) (hsure : sure) :
    ∃ shorter, r = .ok ⟨a, rest, shorter⟩ := by
  obtain ⟨⟨value, left, shorter⟩, ht⟩ := h.surely hsure
  obtain ⟨rfl, rfl⟩ := h.only _ ht
  exact ⟨shorter, ht⟩

/-- What is made of a reading. -/
theorem Reads.map {input' : Bytes} {g : Taken α input → Taken β input'} {b : β}
    (h : Reads sure r a rest)
    (hg : ∀ shorter, (g ⟨a, rest, shorter⟩).value = b ∧ (g ⟨a, rest, shorter⟩).rest = rest) :
    Reads sure (r.map g) b rest := by
  constructor
  · intro t ht
    cases r with
    | error e => cases ht
    | ok t₀ =>
      cases ht
      obtain ⟨value, left, shorter⟩ := t₀
      obtain ⟨rfl, rfl⟩ := h.only _ rfl
      exact hg shorter
  · intro hsure
    obtain ⟨t, rfl⟩ := h.surely hsure
    exact ⟨g t, rfl⟩

/-- A reading that goes on where another one has ended. -/
theorem Reads.bind {input' : Bytes} {f : Taken α input → Except Fault (Taken β input')} {b : β}
    {rest' : Bytes} (h : Reads sure r a rest)
    (hf : ∀ shorter, Reads sure (f ⟨a, rest, shorter⟩) b rest') :
    Reads sure (r.bind f) b rest' := by
  constructor
  · intro t ht
    cases r with
    | error e => cases ht
    | ok t₀ =>
      obtain ⟨value, left, shorter⟩ := t₀
      obtain ⟨rfl, rfl⟩ := h.only _ rfl
      exact (hf shorter).only t ht
  · intro hsure
    obtain ⟨shorter, rfl⟩ := h.exists hsure
    exact (hf shorter).surely hsure

end Reads

/-- The bytes of a number that fits into them are read as that number. -/
theorem reads_readNat {sure : Prop} {count n : Nat} (hn : n < 256 ^ (count + 1)) (rest : Bytes) :
    Reads sure (readNat count (Bytes.ofNat (count + 1) n ++ rest)) n rest := by
  have hlength := Bytes.length_ofNat (count + 1) n
  unfold readNat
  rw [dif_pos (by rw [List.length_append, hlength]; omega)]
  refine ⟨fun t ht => ?_, fun _ => ⟨_, rfl⟩⟩
  cases ht
  dsimp only
  rw [List.take_left' hlength, List.drop_left' hlength, Bytes.toNat_ofNat hn]
  exact ⟨rfl, rfl⟩

/-- A byte string with its end marked is read up to the mark. -/
theorem reads_unescape {sure : Prop} :
    ∀ b rest : Bytes, Reads sure (unescape (escape b ++ rest)) b rest
  | [], _ => Reads.ok
  | byte :: b, rest => by
    have ih : Reads sure _ b rest := reads_unescape b rest
    by_cases hzero : byte = 0x00
    · have hescape : escape (byte :: b) ++ rest = 0x00 :: 0xff :: (escape b ++ rest) := by
        rw [escape, if_pos hzero]
        rfl
      rw [hescape, hzero, unescape]
      exact ih.map fun _ => ⟨rfl, rfl⟩
    · have hescape : escape (byte :: b) ++ rest = byte :: (escape b ++ rest) := by
        rw [escape, if_neg hzero]
        rfl
      rw [hescape]
      unfold unescape
      rw [if_neg hzero]
      exact ih.map fun _ => ⟨rfl, rfl⟩

theorem shifted_lt {n : Int} (h : -0x8000000000000000 ≤ n) (h' : n < 0x8000000000000000) :
    (n + 0x8000000000000000).toNat < 256 ^ 8 := by
  omega

/-- Shifting a signed number is undone by shifting it back. -/
theorem unshifted_shifted {n : Int} (h : -0x8000000000000000 ≤ n) :
    unshifted (n + 0x8000000000000000).toNat = n := by
  unfold unshifted
  omega

/-- The seconds and nanoseconds of a point in time are read as that point in time. -/
theorem reads_timestamp {sure : Prop} (t : Timestamp) (rest : Bytes) :
    Reads sure (readTimestamp (shifted t.seconds ++ Bytes.ofNat 4 t.nanos ++ rest)) t rest := by
  obtain ⟨seconds, nanos, hvalid⟩ := t
  obtain ⟨hfirst, hlast, hnanos⟩ := id hvalid
  unfold Timestamp.firstSecond at hfirst
  unfold Timestamp.lastSecond at hlast
  dsimp only
  unfold readTimestamp shifted
  rw [List.append_assoc]
  refine (reads_readNat (shifted_lt (by omega) (by omega)) _).bind fun _ => ?_
  refine (reads_readNat (n := nanos) (by omega) _).bind fun _ => ?_
  dsimp only
  rw [unshifted_shifted (by omega), Timestamp.of?, dif_pos hvalid]
  exact Reads.ok

section Values

variable [CustomKind κ]

omit [CustomKind κ] in
/-- An integer is read as the signed one, if there is one. -/
theorem reads_encodeInt {sure : Prop} {n : Int} (h : -0x8000000000000000 ≤ n)
    (h' : n < 0x10000000000000000) (rest : Bytes) :
    Reads sure (readValue (κ := κ) (encodeInt n ++ rest))
      (if n < 0 then .int (Int64.ofInt n) else natural n.toNat) rest := by
  unfold encodeInt
  by_cases hneg : n < 0
  · rw [if_pos hneg, if_pos hneg, List.cons_append, readValue, if_neg (by decide),
      if_neg (by decide), readScalar, if_neg (by decide), if_neg (by decide), if_pos rfl]
    refine (reads_readNat (shifted_lt h (by omega)) rest).map fun _ => ⟨?_, rfl⟩
    show Value.int (Int64.ofInt (unshifted _)) = _
    rw [unshifted_shifted h]
  · rw [if_neg hneg, if_neg hneg, List.cons_append, readValue, if_neg (by decide),
      if_neg (by decide), readScalar, if_neg (by decide), if_neg (by decide), if_neg (by decide),
      if_pos rfl]
    exact (reads_readNat (n := n.toNat) (by omega) rest).map fun _ => ⟨rfl, rfl⟩

/-- A key code is never taken for the end of a list. -/
theorem head_ne_closing (v : Value κ) (rest : Bytes) :
    (encode v ++ rest).head? ≠ some closing := by
  intro h
  cases v with
  | int n =>
    unfold encode encodeInt at h
    split at h
    next => cases h
    next => cases h
  | uint n =>
    unfold encode encodeInt at h
    split at h
    next => cases h
    next => cases h
  | _ =>
    unfold encode at h
    cases h

mutual

/-- What is read from the key code of a value, whatever follows, is the restored value. Only a scale
that no text is read with keeps it from being read. -/
theorem reads_encode : ∀ (v : Value κ) (rest : Bytes),
    Reads (v.hasWordScales = true) (readValue (encode v ++ rest)) v.restored rest
  | .nil, rest => by
    rw [encode, Value.restored, List.cons_append, readValue]
    exact Reads.ok
  | .bool b, rest => by
    have hbyte : (if b then 0x01 else 0x00 : UInt8) :: rest = Bytes.ofNat 1 b.toNat ++ rest := by
      cases b <;> rfl
    rw [encode, Value.restored, List.cons_append, List.singleton_append, hbyte, readValue]
    show Reads _ ((readNat 0 (Bytes.ofNat 1 b.toNat ++ rest)).bind fun t =>
      if t.value = 0 then .ok ((t.map fun _ => Value.bool false).after boolTag)
      else if t.value = 1 then .ok ((t.map fun _ => Value.bool true).after boolTag)
      else .error (.invalidBool (UInt8.ofNat t.value))) (Value.bool b) rest
    refine (reads_readNat (Nat.lt_trans b.toNat_lt (by decide)) rest).bind fun _ => ?_
    cases b with
    | false => exact Reads.ok
    | true => exact Reads.ok
  | .int n, rest => by
    -- What was signed is small enough to be read as signed again.
    have hread : Reads ((.int n : Value κ).hasWordScales = true)
        (readValue (κ := κ) (encodeInt n.toInt ++ rest)) _ rest :=
      reads_encodeInt n.le_toInt (Int.lt_trans n.toInt_lt (by decide)) rest
    rw [encode, Value.restored]
    split at hread
    next hneg =>
      rw [Int64.ofInt_toInt] at hread
      exact hread
    next hneg =>
      unfold natural at hread
      have hlt := n.toInt_lt
      rw [if_pos (by omega), ← Int64.ofInt_eq_ofNat, Int.toNat_of_nonneg (by omega),
        Int64.ofInt_toInt] at hread
      exact hread
  | .uint n, rest => by
    have hlt := n.toNat_lt
    have hread : Reads ((.uint n : Value κ).hasWordScales = true)
        (readValue (κ := κ) (encodeInt n.toNat ++ rest)) _ rest :=
      reads_encodeInt (by omega) (by omega) rest
    rw [if_neg (by omega), Int.toNat_natCast] at hread
    rw [encode, Value.restored]
    exact hread
  | .float x, rest => by
    rw [encode, Value.restored, List.cons_append, readValue]
    show Reads _ ((readNat 7 (Bytes.ofNat 8 x.orderKey ++ rest)).map fun t =>
      (t.map fun n => Value.float (.ofOrderKey n)).after floatTag) (Value.float x) rest
    refine (reads_readNat x.orderKey_lt rest).map fun _ => ⟨?_, rfl⟩
    exact congrArg Value.float x.ofOrderKey_orderKey
  | .string s, rest => by
    rw [encode, Value.restored, List.cons_append, readValue]
    refine (reads_unescape _ rest).bind fun _ => ?_
    unfold Taken.map?
    dsimp only
    rw [Text.ofUtf8?_utf8]
    exact Reads.ok
  | .bytes b, rest => by
    rw [encode, Value.restored, List.cons_append, readValue]
    exact (reads_unescape _ rest).map fun _ => ⟨rfl, rfl⟩
  | .timestamp t, rest => by
    rw [encode, Value.restored, List.cons_append, readValue]
    exact (reads_timestamp t rest).map fun _ => ⟨rfl, rfl⟩
  | .decimal d, rest => by
    rw [encode, Value.restored, List.cons_append, readValue]
    refine (reads_unescape _ rest).bind fun _ => ?_
    unfold Taken.map?
    dsimp only
    rw [Text.ofUtf8?_utf8, Option.bind_some]
    cases hparse : Decimal.parse? d.text with
    | none =>
      refine ⟨fun t ht => ?_, fun hscale => ?_⟩
      · cases ht
      · rw [(of_decide_eq_true hscale : d.HasWordScale).parse?_text] at hparse
        cases hparse
    | some e =>
      rw [Decimal.parse?_text hparse]
      exact Reads.ok
  | .list items, rest => by
    rw [encode, Value.restored, List.cons_append, List.append_assoc, readValue]
    exact (reads_encodeAll items rest).map fun _ => ⟨rfl, rfl⟩
  | .map entries, rest => by
    rw [encode, Value.restored, List.cons_append, List.append_assoc, readValue]
    exact (reads_encodeEntries entries rest).map fun _ => ⟨rfl, rfl⟩
  | .custom c, rest => by
    rw [encode, Value.restored, List.cons_append, readValue]
    exact (reads_unescape _ rest).map fun _ => ⟨rfl, rfl⟩

/-- The key codes of items up to the closing byte are read as the restored items. -/
theorem reads_encodeAll : ∀ (vs : List (Value κ)) (rest : Bytes),
    Reads (Value.allHaveWordScales vs = true)
      (readItems (encodeAll vs ++ ([closing] ++ rest))) (Value.restoredAll vs) rest
  | [], rest => by
    rw [encodeAll, Value.restoredAll, List.nil_append, readItems,
      dif_pos (show ([closing] ++ rest).head? = some closing from rfl)]
    exact Reads.ok
  | v :: vs, rest => by
    rw [encodeAll, Value.restoredAll, List.append_assoc, readItems, dif_neg (head_ne_closing v _)]
    refine ((reads_encode v _).imp fun hsure => (Bool.and_eq_true_iff.mp hsure).1).bind fun _ => ?_
    refine Reads.map ?_ fun _ => ⟨rfl, rfl⟩
    exact (reads_encodeAll vs rest).imp fun hsure => (Bool.and_eq_true_iff.mp hsure).2

/-- The key codes of keys and values up to the closing byte are read as the restored ones. -/
theorem reads_encodeEntries : ∀ (es : List (Value κ × Value κ)) (rest : Bytes),
    Reads (Value.allEntriesHaveWordScales es = true)
      (readEntries (encodeEntries es ++ ([closing] ++ rest))) (Value.restoredEntries es) rest
  | [], rest => by
    rw [encodeEntries, Value.restoredEntries, List.nil_append, readEntries,
      dif_pos (show ([closing] ++ rest).head? = some closing from rfl)]
    exact Reads.ok
  | (k, v) :: es, rest => by
    have hsplit : Value.allEntriesHaveWordScales ((k, v) :: es) = true →
        (k.hasWordScales = true ∧ v.hasWordScales = true) ∧
          Value.allEntriesHaveWordScales es = true := fun hsure =>
      (Bool.and_eq_true_iff.mp hsure).imp_left Bool.and_eq_true_iff.mp
    rw [encodeEntries, Value.restoredEntries, List.append_assoc, List.append_assoc, readEntries,
      dif_neg (head_ne_closing k _)]
    refine ((reads_encode k _).imp fun hsure => (hsplit hsure).1.1).bind fun _ => ?_
    refine ((reads_encode v _).imp fun hsure => (hsplit hsure).1.2).bind fun _ => ?_
    refine Reads.map ?_ fun _ => ⟨rfl, rfl⟩
    exact (reads_encodeEntries es rest).imp fun hsure => (hsplit hsure).2

end

/-- A key code is read as the restored value. -/
theorem decode_encode {v u : Value κ} (h : decode (encode v) = .ok u) : u = v.restored := by
  have hread := reads_encode v []
  rw [List.append_nil] at hread
  unfold decode read at h
  cases ht : readValue (κ := κ) (encode v) with
  | error e =>
    rw [ht] at h
    cases h
  | ok t =>
    obtain ⟨hvalue, hrest⟩ := hread.only t ht
    rw [ht] at h
    unfold Except.bind at h
    dsimp only at h
    rw [hrest] at h
    cases h
    exact hvalue

/-! ## The key code of a restored value -/

/-- What a magnitude is read as has the key code of that magnitude. -/
theorem encode_natural {n : Nat} (h : n < 0x10000000000000000) :
    encode (natural n : Value κ) = encodeInt n := by
  unfold natural
  split
  next hsmall =>
    rw [encode, Int64.toInt_ofNat_of_lt hsmall]
  next =>
    rw [encode, UInt64.toNat_ofNat', Nat.mod_eq_of_lt h]

mutual

/-- Without a part of the user's own kind the key code is the same. -/
theorem encode_restored : ∀ {v : Value κ}, v.hasCustomPart = false →
    encode v.restored = encode v
  | .nil, _ | .bool _, _ | .int _, _ | .float _, _ | .string _, _ | .bytes _, _ | .timestamp _, _ =>
    rfl
  | .uint n, _ => by
    rw [Value.restored, encode, encode_natural n.toNat_lt]
  | .decimal d, _ => by
    rw [Value.restored, encode, encode, Decimal.text_restored]
  | .list items, h => by
    rw [Value.restored, encode, encode, encodeAll_restored h]
  | .map entries, h => by
    rw [Value.restored, encode, encode, encodeEntries_restored h]

/-- Items without values of the user's own kind keep their key codes when they are restored. -/
theorem encodeAll_restored : ∀ {vs : List (Value κ)}, Value.anyHasCustomPart vs = false →
    encodeAll (Value.restoredAll vs) = encodeAll vs
  | [], _ => rfl
  | v :: vs, h => by
    obtain ⟨hv, hvs⟩ := Bool.or_eq_false_iff.mp h
    rw [Value.restoredAll, encodeAll, encodeAll, encode_restored hv, encodeAll_restored hvs]

theorem encodeEntries_restored : ∀ {es : List (Value κ × Value κ)},
    Value.anyEntryHasCustomPart es = false →
    encodeEntries (Value.restoredEntries es) = encodeEntries es
  | [], _ => rfl
  | (k, v) :: es, h => by
    obtain ⟨hkv, hes⟩ := Bool.or_eq_false_iff.mp h
    obtain ⟨hk, hv⟩ := Bool.or_eq_false_iff.mp hkv
    rw [Value.restoredEntries, encodeEntries, encodeEntries, encode_restored hk, encode_restored hv,
      encodeEntries_restored hes]

end

/-- As long, and not later. -/
structure Below (a b : Bytes) : Prop where
  length : a.length = b.length
  order : (compare a b).isLE = true

theorem Below.refl (a : Bytes) : Below a a := ⟨rfl, Std.ReflCmp.isLE_rfl⟩

/-- What is as long and not later part for part is so as a whole. -/
theorem Below.append {a b x y : Bytes} (h : Below a b) (h' : Below x y) :
    Below (a ++ x) (b ++ y) := by
  constructor
  · rw [List.length_append, List.length_append, h.length, h'.length]
  · rw [Bytes.compare_append_of_length_eq h.length]
    have hfirst := h.order
    have hsecond := h'.order
    cases hc : compare a b with
    | lt => rfl
    | eq => exact hsecond
    | gt =>
      rw [hc] at hfirst
      cases hfirst

mutual

/-- In any case the key code does not come later: the tag of a value of the user's own kind is the
largest of all, and is replaced by that of bytes. -/
theorem below_encode_restored : ∀ v : Value κ, Below (encode v.restored) (encode v)
  | .nil | .bool _ | .int _ | .float _ | .string _ | .bytes _ | .timestamp _ => Below.refl _
  | .uint n => by
    rw [encode_restored (v := .uint n) rfl]
    exact Below.refl _
  | .decimal d => by
    rw [encode_restored (v := .decimal d) rfl]
    exact Below.refl _
  | .list items => by
    rw [Value.restored, encode, encode]
    exact (Below.refl [listTag]).append ((below_encodeAll_restored items).append (Below.refl _))
  | .map entries => by
    rw [Value.restored, encode, encode]
    exact (Below.refl [mapTag]).append ((below_encodeEntries_restored entries).append (Below.refl _))
  | .custom c => by
    rw [Value.restored, encode, encode]
    have htags : Below [bytesTag] [customTag] := ⟨rfl, by decide⟩
    exact htags.append (Below.refl _)

/-- Restoring items makes their key codes neither longer nor shorter, and not later. -/
theorem below_encodeAll_restored : ∀ vs : List (Value κ),
    Below (encodeAll (Value.restoredAll vs)) (encodeAll vs)
  | [] => Below.refl _
  | v :: vs => by
    rw [Value.restoredAll, encodeAll, encodeAll]
    exact (below_encode_restored v).append (below_encodeAll_restored vs)

theorem below_encodeEntries_restored : ∀ es : List (Value κ × Value κ),
    Below (encodeEntries (Value.restoredEntries es)) (encodeEntries es)
  | [] => Below.refl _
  | (k, v) :: es => by
    rw [Value.restoredEntries, encodeEntries, encodeEntries]
    exact ((below_encode_restored k).append (below_encode_restored v)).append
      (below_encodeEntries_restored es)

end

mutual

/-- A part of the user's own kind changes the key code, wherever it is. The parts keep their lengths, so that
a difference in one of them is not made up for by another. -/
theorem hasCustomPart_of_encode_restored : ∀ {v : Value κ}, encode v.restored = encode v →
    v.hasCustomPart = false
  | .nil, _ | .bool _, _ | .int _, _ | .uint _, _ | .float _, _ | .string _, _ | .bytes _, _
  | .timestamp _, _ | .decimal _, _ => rfl
  | .list items, h => by
    rw [Value.restored, encode, encode, List.cons_inj_right] at h
    exact anyHasCustomPart_of_encodeAll_restored (List.append_cancel_right h)
  | .map entries, h => by
    rw [Value.restored, encode, encode, List.cons_inj_right] at h
    exact anyEntryHasCustomPart_of_encodeEntries_restored (List.append_cancel_right h)
  | .custom c, h => by
    rw [Value.restored, encode, encode, List.cons.injEq] at h
    exact absurd h.1 (by decide)

/-- Items that keep their key codes when they are restored hold no value of the user's own kind. -/
theorem anyHasCustomPart_of_encodeAll_restored : ∀ {vs : List (Value κ)},
    encodeAll (Value.restoredAll vs) = encodeAll vs → Value.anyHasCustomPart vs = false
  | [], _ => rfl
  | v :: vs, h => by
    rw [Value.restoredAll, encodeAll, encodeAll] at h
    obtain ⟨hv, hvs⟩ := List.append_inj h (below_encode_restored v).length
    exact Bool.or_eq_false_iff.mpr ⟨hasCustomPart_of_encode_restored hv,
      anyHasCustomPart_of_encodeAll_restored hvs⟩

theorem anyEntryHasCustomPart_of_encodeEntries_restored : ∀ {es : List (Value κ × Value κ)},
    encodeEntries (Value.restoredEntries es) = encodeEntries es →
    Value.anyEntryHasCustomPart es = false
  | [], _ => rfl
  | (k, v) :: es, h => by
    rw [Value.restoredEntries, encodeEntries, encodeEntries] at h
    obtain ⟨hkv, hes⟩ := List.append_inj h
      ((below_encode_restored k).append (below_encode_restored v)).length
    obtain ⟨hk, hv⟩ := List.append_inj hkv (below_encode_restored k).length
    have hparts := Bool.or_eq_false_iff.mpr
      ⟨hasCustomPart_of_encode_restored hk, hasCustomPart_of_encode_restored hv⟩
    exact Bool.or_eq_false_iff.mpr ⟨hparts, anyEntryHasCustomPart_of_encodeEntries_restored hes⟩

end

/-- The key code is the same exactly if there is no part of the user's own kind. -/
theorem encode_restored_iff {v : Value κ} :
    encode v.restored = encode v ↔ v.hasCustomPart = false :=
  ⟨hasCustomPart_of_encode_restored, encode_restored⟩

end Values

end Keycode

/-! ## The text of a restored value -/

namespace Value

variable {κ : Type} [CustomKind κ]

mutual

/-- Without a part of the user's own kind the text is the same. -/
theorem text_restored : ∀ {v : Value κ}, v.hasCustomPart = false → v.restored.text = v.text
  | .nil, _ | .bool _, _ | .int _, _ | .float _, _ | .string _, _ | .bytes _, _ | .timestamp _, _ =>
    rfl
  | .uint n, _ => by
    rw [restored, Keycode.natural]
    split
    next hsmall =>
      rw [text, text, Int64.toInt_ofNat_of_lt hsmall]
      unfold Digits.intText Digits.ofInt Digits.text
      rw [if_neg (by omega), Int.natAbs_natCast, List.nil_append]
    next => rw [UInt64.ofNat_toNat]
  | .decimal d, _ => by
    rw [restored, text, text, Decimal.text_restored]
  | .list items, h => by
    rw [restored, text, text, textAll_restored h]
  | .map entries, h => by
    rw [restored, text, text, textEntries_restored h]

/-- Restoring items without values of the user's own kind keeps their text. -/
theorem textAll_restored : ∀ {vs : List (Value κ)}, anyHasCustomPart vs = false →
    textAll (restoredAll vs) = textAll vs
  | [], _ => rfl
  | v :: vs, h => by
    obtain ⟨hv, hvs⟩ := Bool.or_eq_false_iff.mp h
    rw [restoredAll, textAll, textAll, text_restored hv, textAll_restored hvs]

theorem textEntries_restored : ∀ {es : List (Value κ × Value κ)}, anyEntryHasCustomPart es = false →
    textEntries (restoredEntries es) = textEntries es
  | [], _ => rfl
  | (k, v) :: es, h => by
    obtain ⟨hkv, hes⟩ := Bool.or_eq_false_iff.mp h
    obtain ⟨hk, hv⟩ := Bool.or_eq_false_iff.mp hkv
    rw [restoredEntries, textEntries, textEntries, text_restored hk, text_restored hv,
      textEntries_restored hes]

end

end Value

end RecordStore
