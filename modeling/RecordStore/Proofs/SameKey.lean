import RecordStore.Proofs.KeyOrder

/-!
# Which keys are the same

What is stored under a key is stored under its key code, so two keys are one where their key codes are
one. That is so exactly if they are the same up to representation (`Value.SameKey`, `encode_eq_iff`):
integers by their number, decimals by their text, values of the user's own kind by their bytes, lists
and maps part by part, and anything else as it is. The key codes of the parts of a list stand one after
the other with nothing between them, so the induction is on what two byte strings begin with: if each
begins with a key code, then these are key codes of the same value and what is left is equal
(`encode_append_inj`).
-/

namespace RecordStore

/-! ## The same key in two representations -/

namespace Value

variable {κ : Type} [CustomKind κ]

mutual

/-- Both values are the same as keys: integers of one number, signed or not, decimals of one text,
lists and maps whose parts are the same, and otherwise values that are equal. -/
inductive SameKey : Value κ → Value κ → Prop
  | nil : SameKey .nil .nil
  | bool (b : Bool) : SameKey (.bool b) (.bool b)
  | integer {v w : Value κ} {n : Int} (h : v.number? = some (.integer n))
    (h' : w.number? = some (.integer n)) : SameKey v w
  | float (x : Binary64) : SameKey (.float x) (.float x)
  | string (s : String) : SameKey (.string s) (.string s)
  | bytes (b : Bytes) : SameKey (.bytes b) (.bytes b)
  | timestamp (t : Timestamp) : SameKey (.timestamp t) (.timestamp t)
  | decimal {d e : Decimal} (h : d.text = e.text) : SameKey (.decimal d) (.decimal e)
  | list {vs ws : List (Value κ)} (h : SameKeys vs ws) : SameKey (.list vs) (.list ws)
  | map {es fs : List (Value κ × Value κ)} (h : SameEntries es fs) : SameKey (.map es) (.map fs)
  | custom {c d : κ} (h : CustomKind.toBytes c = CustomKind.toBytes d) :
    SameKey (.custom c) (.custom d)

/-- Item by item. -/
inductive SameKeys : List (Value κ) → List (Value κ) → Prop
  | nil : SameKeys [] []
  | cons {v w : Value κ} {vs ws : List (Value κ)} (h : SameKey v w) (h' : SameKeys vs ws) :
    SameKeys (v :: vs) (w :: ws)

/-- Key by key and value by value. -/
inductive SameEntries : List (Value κ × Value κ) → List (Value κ × Value κ) → Prop
  | nil : SameEntries [] []
  | cons {k l v w : Value κ} {es fs : List (Value κ × Value κ)} (hkey : SameKey k l)
    (hvalue : SameKey v w) (h : SameEntries es fs) : SameEntries ((k, v) :: es) ((l, w) :: fs)

end

end Value

namespace Keycode

open Value (SameKey SameKeys SameEntries)

/-! ## Parts that end by themselves -/

/-- A reading has one result. -/
theorem Reads.unique {α : Type} {input rest rest' : Bytes} {r : Except Fault (Taken α input)} {a a' : α}
    (h : Reads True r a rest) (h' : Reads True r a' rest') : a = a' ∧ rest = rest' := by
  obtain ⟨t, ht⟩ := h.surely trivial
  obtain ⟨ha, hrest⟩ := h.only t ht
  obtain ⟨ha', hrest'⟩ := h'.only t ht
  exact ⟨ha.symm.trans ha', hrest.symm.trans hrest'⟩

/-- An escaped text ends where it ends, whatever follows it. -/
theorem escape_append_inj {a b x y : Bytes} (h : escape a ++ x = escape b ++ y) : a = b ∧ x = y := by
  have hread : Reads True (unescape (escape a ++ x)) a x := reads_unescape a x
  rw [h] at hread
  exact hread.unique (reads_unescape b y)

/-- A number of fixed length is read off the front. -/
theorem ofNat_append_inj {count m n : Nat} {x y : Bytes} (hm : m < 256 ^ (count + 1))
    (hn : n < 256 ^ (count + 1))
    (h : Bytes.ofNat (count + 1) m ++ x = Bytes.ofNat (count + 1) n ++ y) : m = n ∧ x = y := by
  have hread : Reads True (readNat count (Bytes.ofNat (count + 1) m ++ x)) m x := reads_readNat hm x
  rw [h] at hread
  exact hread.unique (reads_readNat hn y)

theorem timestamp_append_inj {s t : Timestamp} {x y : Bytes}
    (h : shifted s.seconds ++ Bytes.ofNat 4 s.nanos ++ x =
      shifted t.seconds ++ Bytes.ofNat 4 t.nanos ++ y) : s = t ∧ x = y := by
  have hread : Reads True _ s x := reads_timestamp s x
  rw [h] at hread
  exact hread.unique (reads_timestamp t y)

/-- Integers are of one length, and in order. -/
theorem encodeInt_append_inj {m n : Int} {x y : Bytes} (hm : -0x8000000000000000 ≤ m)
    (hm' : m < 0x10000000000000000) (hn : -0x8000000000000000 ≤ n) (hn' : n < 0x10000000000000000)
    (h : encodeInt m ++ x = encodeInt n ++ y) : m = n ∧ x = y := by
  have hlength : ∀ i : Int, (encodeInt i).length = 9 := by
    intro i
    unfold encodeInt shifted
    split <;> rw [List.length_cons, Bytes.length_ofNat]
  obtain ⟨hcode, hrest⟩ := List.append_inj h ((hlength m).trans (hlength n).symm)
  exact ⟨encodeInt_inj hm hm' hn hn' hcode, hrest⟩

theorem utf8_inj {s t : String} (h : Text.utf8 s = Text.utf8 t) : s = t := by
  have hread := Text.ofUtf8?_utf8 s
  rw [h, Text.ofUtf8?_utf8] at hread
  exact (Option.some.inj hread).symm

/-! ## Values that end by themselves -/

section Values

variable {κ : Type} [CustomKind κ]

/-- The first byte of the key codes of a kind, the two signs of integers counted as one. -/
def kindTag : Kind → UInt8
  | .nil => nilTag
  | .bool => boolTag
  | .int | .uint => naturalTag
  | .float => floatTag
  | .string => stringTag
  | .bytes => bytesTag
  | .timestamp => timestampTag
  | .decimal => decimalTag
  | .list => listTag
  | .map => mapTag
  | .custom => customTag

/-- The tag that a value begins with tells its family. -/
theorem family_encode (v : Value κ) (rest : Bytes) :
    family (encode v ++ rest) = some (kindTag v.kind) := by
  cases v with
  | int n | uint n =>
    unfold encode encodeInt
    split <;> rfl
  | _ =>
    rw [encode]
    rfl

/-- Key codes with the same beginning are of one kind, or both of integers. -/
theorem kind_of_append_eq {v w : Value κ} {x y : Bytes} (h : encode v ++ x = encode w ++ y) :
    v.kind = w.kind ∨ (v.kind = .int ∨ v.kind = .uint) ∧ (w.kind = .int ∨ w.kind = .uint) := by
  have htags : ∀ k l : Kind, kindTag k = kindTag l →
      k = l ∨ (k = .int ∨ k = .uint) ∧ (l = .int ∨ l = .uint) := by
    intro k l
    cases k <;> cases l <;> decide
  refine htags _ _ (Option.some.inj ?_)
  rw [← family_encode v x, ← family_encode w y, h]

/-- An integer in front is an integer on the other side. -/
theorem sameKey_of_integer {v w : Value κ} {n : Int} {x y : Bytes} (hv : v.number? = some (.integer n))
    (h : encode v ++ x = encode w ++ y) : SameKey v w ∧ x = y := by
  have hkind : v.kind = .int ∨ v.kind = .uint := by cases v <;> simp_all [Value.number?, Value.kind]
  obtain ⟨m, hw⟩ : ∃ m : Int, w.number? = some (.integer m) := by
    have hw : w.kind = .int ∨ w.kind = .uint := by
      rcases kind_of_append_eq h with heq | ⟨-, hw⟩
      · exact heq ▸ hkind
      · exact hw
    cases w with
    | int m => exact ⟨_, rfl⟩
    | uint m => exact ⟨_, rfl⟩
    | _ => rcases hw with hw | hw <;> cases hw
  obtain ⟨hvcode, hvlow, hvhigh⟩ := encode_integer hv
  obtain ⟨hwcode, hwlow, hwhigh⟩ := encode_integer hw
  rw [hvcode, hwcode] at h
  obtain ⟨rfl, hrest⟩ := encodeInt_append_inj hvlow hvhigh hwlow hwhigh h
  exact ⟨.integer hv hw, hrest⟩

mutual

/-- A key code that stands in front of something is that of one value up to representation, and leaves
the same behind it. -/
theorem encode_append_inj : ∀ (v : Value κ) {w : Value κ} {x y : Bytes},
    encode v ++ x = encode w ++ y → SameKey v w ∧ x = y
  | .int _, _, _, _, h | .uint _, _, _, _, h => sameKey_of_integer rfl h
  -- In what follows the tag tells that `w` is of the same kind, and the body then tells the rest.
  | .nil, w, x, y, h => by
    have hkind := kind_of_append_eq h
    cases w with
    | nil => exact ⟨.nil, List.append_cancel_left h⟩
    | _ => simp [Value.kind] at hkind
  | .bool b, w, x, y, h => by
    have hkind := kind_of_append_eq h
    cases w with
    | bool b' =>
      rw [encode, encode] at h
      cases b <;> cases b' <;> simp_all [SameKey.bool]
    | _ => simp [Value.kind] at hkind
  | .float d, w, x, y, h => by
    have hkind := kind_of_append_eq h
    cases w with
    | float d' =>
      rw [encode, encode] at h
      obtain ⟨hkey, hrest⟩ := ofNat_append_inj d.orderKey_lt d'.orderKey_lt (List.cons.inj h).2
      rw [← d.ofOrderKey_orderKey, hkey, d'.ofOrderKey_orderKey]
      exact ⟨.float d', hrest⟩
    | _ => simp [Value.kind] at hkind
  | .string s, w, x, y, h => by
    have hkind := kind_of_append_eq h
    cases w with
    | string s' =>
      rw [encode, encode] at h
      obtain ⟨htext, hrest⟩ := escape_append_inj (List.cons.inj h).2
      exact ⟨utf8_inj htext ▸ .string s, hrest⟩
    | _ => simp [Value.kind] at hkind
  | .bytes b, w, x, y, h => by
    have hkind := kind_of_append_eq h
    cases w with
    | bytes b' =>
      rw [encode, encode] at h
      obtain ⟨rfl, hrest⟩ := escape_append_inj (List.cons.inj h).2
      exact ⟨.bytes b, hrest⟩
    | _ => simp [Value.kind] at hkind
  | .timestamp t, w, x, y, h => by
    have hkind := kind_of_append_eq h
    cases w with
    | timestamp t' =>
      rw [encode, encode] at h
      obtain ⟨rfl, hrest⟩ := timestamp_append_inj (List.cons.inj h).2
      exact ⟨.timestamp t, hrest⟩
    | _ => simp [Value.kind] at hkind
  | .decimal d, w, x, y, h => by
    have hkind := kind_of_append_eq h
    cases w with
    | decimal d' =>
      rw [encode, encode] at h
      obtain ⟨htext, hrest⟩ := escape_append_inj (List.cons.inj h).2
      exact ⟨.decimal (utf8_inj htext), hrest⟩
    | _ => simp [Value.kind] at hkind
  | .list vs, w, x, y, h => by
    have hkind := kind_of_append_eq h
    cases w with
    | list ws =>
      rw [encode, encode, List.cons_append, List.cons_append, List.append_assoc,
        List.append_assoc] at h
      obtain ⟨hitems, hrest⟩ := encodeAll_append_inj vs (List.cons.inj h).2
      exact ⟨.list hitems, hrest⟩
    | _ => simp [Value.kind] at hkind
  | .map es, w, x, y, h => by
    have hkind := kind_of_append_eq h
    cases w with
    | map fs =>
      rw [encode, encode, List.cons_append, List.cons_append, List.append_assoc,
        List.append_assoc] at h
      obtain ⟨hentries, hrest⟩ := encodeEntries_append_inj es (List.cons.inj h).2
      exact ⟨.map hentries, hrest⟩
    | _ => simp [Value.kind] at hkind
  | .custom c, w, x, y, h => by
    have hkind := kind_of_append_eq h
    cases w with
    | custom c' =>
      rw [encode, encode] at h
      obtain ⟨hbytes, hrest⟩ := escape_append_inj (List.cons.inj h).2
      exact ⟨.custom hbytes, hrest⟩
    | _ => simp [Value.kind] at hkind

/-- Items up to the closing byte, which begins no item. -/
theorem encodeAll_append_inj : ∀ (vs : List (Value κ)) {ws : List (Value κ)} {x y : Bytes},
    encodeAll vs ++ ([closing] ++ x) = encodeAll ws ++ ([closing] ++ y) → SameKeys vs ws ∧ x = y
  | [], [], _, _, h => ⟨.nil, List.append_cancel_left (List.append_cancel_left h)⟩
  | [], w :: ws, x, y, h => by
    rw [encodeAll, encodeAll, List.append_assoc] at h
    exact absurd (congrArg List.head? h).symm (head_ne_closing w _)
  | v :: vs, [], x, y, h => by
    rw [encodeAll, encodeAll, List.append_assoc] at h
    exact absurd (congrArg List.head? h) (head_ne_closing v _)
  | v :: vs, w :: ws, x, y, h => by
    rw [encodeAll, encodeAll, List.append_assoc, List.append_assoc] at h
    obtain ⟨hfirst, hbehind⟩ := encode_append_inj v h
    obtain ⟨hitems, hrest⟩ := encodeAll_append_inj vs hbehind
    exact ⟨.cons hfirst hitems, hrest⟩

/-- The entries of a map end where they end, and their encoding tells them up to the same keys. -/
theorem encodeEntries_append_inj :
    ∀ (es : List (Value κ × Value κ)) {fs : List (Value κ × Value κ)} {x y : Bytes},
    encodeEntries es ++ ([closing] ++ x) = encodeEntries fs ++ ([closing] ++ y) →
      SameEntries es fs ∧ x = y
  | [], [], _, _, h => ⟨.nil, List.append_cancel_left (List.append_cancel_left h)⟩
  | [], (l, w) :: fs, x, y, h => by
    rw [encodeEntries, encodeEntries, List.append_assoc, List.append_assoc] at h
    exact absurd (congrArg List.head? h).symm (head_ne_closing l _)
  | (k, v) :: es, [], x, y, h => by
    rw [encodeEntries, encodeEntries, List.append_assoc, List.append_assoc] at h
    exact absurd (congrArg List.head? h) (head_ne_closing k _)
  | (k, v) :: es, (l, w) :: fs, x, y, h => by
    rw [encodeEntries, encodeEntries] at h
    simp only [List.append_assoc] at h
    obtain ⟨hkey, hbehind⟩ := encode_append_inj k h
    obtain ⟨hvalue, hbehind⟩ := encode_append_inj v hbehind
    obtain ⟨hentries, hrest⟩ := encodeEntries_append_inj es hbehind
    exact ⟨.cons hkey hvalue hentries, hrest⟩

end

mutual

/-- The representation does not show in the key code. -/
theorem encode_of_sameKey : ∀ {v w : Value κ}, SameKey v w → encode v = encode w
  | _, _, .nil | _, _, .bool _ | _, _, .float _ | _, _, .string _ | _, _, .bytes _
  | _, _, .timestamp _ => rfl
  | _, _, .integer h h' => (encode_integer h).1.trans (encode_integer h').1.symm
  | _, _, .decimal h => by rw [encode, encode, h]
  | _, _, .list h => by rw [encode, encode, encodeAll_of_sameKeys h]
  | _, _, .map h => by rw [encode, encode, encodeEntries_of_sameEntries h]
  | _, _, .custom h => by rw [encode, encode, h]

/-- Lists of the same keys have the same encoding. -/
theorem encodeAll_of_sameKeys : ∀ {vs ws : List (Value κ)}, SameKeys vs ws →
    encodeAll vs = encodeAll ws
  | _, _, .nil => rfl
  | _, _, .cons h h' => by
    rw [encodeAll, encodeAll, encode_of_sameKey h, encodeAll_of_sameKeys h']

theorem encodeEntries_of_sameEntries : ∀ {es fs : List (Value κ × Value κ)}, SameEntries es fs →
    encodeEntries es = encodeEntries fs
  | _, _, .nil => rfl
  | _, _, .cons hkey hvalue h => by
    rw [encodeEntries, encodeEntries, encode_of_sameKey hkey, encode_of_sameKey hvalue,
      encodeEntries_of_sameEntries h]

end

/-- Two keys have one key code exactly if they are the same up to representation. -/
theorem encode_eq_iff {v w : Value κ} : encode v = encode w ↔ SameKey v w :=
  ⟨fun h => (encode_append_inj v (x := []) (y := []) (congrArg (· ++ []) h)).1, encode_of_sameKey⟩

instance (v w : Value κ) : Decidable (SameKey v w) := decidable_of_iff _ encode_eq_iff

end Values

end Keycode

namespace Value.SameKey

variable {κ : Type} [CustomKind κ] {u v w : Value κ}

theorem symm (h : SameKey v w) : SameKey w v :=
  Keycode.encode_eq_iff.mp (Keycode.encode_eq_iff.mpr h).symm

theorem trans (h : SameKey u v) (h' : SameKey v w) : SameKey u w :=
  Keycode.encode_eq_iff.mp ((Keycode.encode_eq_iff.mpr h).trans (Keycode.encode_eq_iff.mpr h'))

end Value.SameKey

end RecordStore
