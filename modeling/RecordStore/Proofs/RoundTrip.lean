import RecordStore.Proofs.Restored

/-!
# Key codes read back

Without a part of the user's own kind, and with scales that a text can be read with, a value is read
back from its key code as itself up to representation (`Value.ReadBack`), and has the same key code
again. A key code says where it ends: cut short at any place it is refused because bytes are missing
(`readValue_cut`), and with anything behind it because bytes are left. `decode_roundTrip` puts the
three together; it follows the nesting of the value, and in a list or a map a cut lies either inside
one part or behind one that was read.
-/

namespace RecordStore

/-! ## The same value in another representation -/

namespace Value

variable {κ : Type}

mutual

/-- The second value is the first one up to representation: an unsigned integer is signed where it
can be, a decimal is the same number with the same text, and anything else is unchanged. -/
inductive ReadBack : Value κ → Value κ → Prop
  | nil : ReadBack .nil .nil
  | bool (b : Bool) : ReadBack (.bool b) (.bool b)
  | int (n : Int64) : ReadBack (.int n) (.int n)
  | signed {n : UInt64} {m : Int64} (h : m.toInt = n.toNat) : ReadBack (.uint n) (.int m)
  | unsigned {n : UInt64} (h : 0x8000000000000000 ≤ n.toNat) : ReadBack (.uint n) (.uint n)
  | float (x : Binary64) : ReadBack (.float x) (.float x)
  | string (s : String) : ReadBack (.string s) (.string s)
  | bytes (b : Bytes) : ReadBack (.bytes b) (.bytes b)
  | timestamp (t : Timestamp) : ReadBack (.timestamp t) (.timestamp t)
  | decimal {d e : Decimal} (hnumber : e.toRat = d.toRat) (htext : e.text = d.text) :
    ReadBack (.decimal d) (.decimal e)
  | list {vs ws : List (Value κ)} (h : ReadBackAll vs ws) : ReadBack (.list vs) (.list ws)
  | map {es fs : List (Value κ × Value κ)} (h : ReadBackEntries es fs) :
    ReadBack (.map es) (.map fs)

/-- Item by item. -/
inductive ReadBackAll : List (Value κ) → List (Value κ) → Prop
  | nil : ReadBackAll [] []
  | cons {v w : Value κ} {vs ws : List (Value κ)} (h : ReadBack v w) (h' : ReadBackAll vs ws) :
    ReadBackAll (v :: vs) (w :: ws)

/-- Key by key and value by value. -/
inductive ReadBackEntries : List (Value κ × Value κ) → List (Value κ × Value κ) → Prop
  | nil : ReadBackEntries [] []
  | cons {k l v w : Value κ} {es fs : List (Value κ × Value κ)} (hkey : ReadBack k l)
    (hvalue : ReadBack v w) (h : ReadBackEntries es fs) :
    ReadBackEntries ((k, v) :: es) ((l, w) :: fs)

end

variable [CustomKind κ]

mutual

/-- A value without a part of the user's own kind is restored up to representation. -/
theorem readBack_restored : ∀ {v : Value κ}, v.hasCustomPart = false → ReadBack v v.restored
  | .nil, _ => .nil
  | .bool b, _ => .bool b
  | .int n, _ => .int n
  | .uint n, _ => by
    rw [restored, Keycode.natural]
    split
    next hsmall => exact .signed (Int64.toInt_ofNat_of_lt hsmall)
    next hlarge =>
      rw [UInt64.ofNat_toNat]
      exact .unsigned (Nat.le_of_not_lt hlarge)
  | .float x, _ => .float x
  | .string s, _ => .string s
  | .bytes b, _ => .bytes b
  | .timestamp t, _ => .timestamp t
  | .decimal d, _ => .decimal d.toRat_restored d.text_restored
  | .list _, h => .list (readBack_restoredAll h)
  | .map _, h => .map (readBack_restoredEntries h)

/-- A list without custom parts reads back as its restored values. -/
theorem readBack_restoredAll : ∀ {vs : List (Value κ)}, anyHasCustomPart vs = false →
    ReadBackAll vs (restoredAll vs)
  | [], _ => .nil
  | _ :: _, h => by
    obtain ⟨hv, hvs⟩ := Bool.or_eq_false_iff.mp h
    exact .cons (readBack_restored hv) (readBack_restoredAll hvs)

theorem readBack_restoredEntries : ∀ {es : List (Value κ × Value κ)},
    anyEntryHasCustomPart es = false → ReadBackEntries es (restoredEntries es)
  | [], _ => .nil
  | (_, _) :: _, h => by
    obtain ⟨hkv, hes⟩ := Bool.or_eq_false_iff.mp h
    obtain ⟨hk, hv⟩ := Bool.or_eq_false_iff.mp hkv
    exact .cons (readBack_restored hk) (readBack_restored hv) (readBack_restoredEntries hes)

end

end Value

namespace Keycode

variable {κ : Type}

/-! ## Cut short -/

/-- Too few bytes for a number end the input. -/
theorem readNat_cut {count : Nat} {bytes : Bytes} (h : bytes.length ≤ count) :
    readNat count bytes = .error .unexpectedEnd := by
  unfold readNat
  rw [dif_neg (Nat.not_lt.mpr h)]

/-- Without all of its end mark a byte string does not end. -/
theorem unescape_cut : ∀ {b p q : Bytes}, escape b = p ++ q → q ≠ [] →
    unescape p = .error .unexpectedEnd
  | _, [], _, _, _ => rfl
  | [], [_], _, h, _ => by
    cases h
    rfl
  | [], _ :: _ :: _, _, h, hq => by
    obtain ⟨-, h⟩ := List.cons.inj h
    obtain ⟨-, h⟩ := List.cons.inj h
    exact absurd (List.append_eq_nil_iff.mp h.symm).2 hq
  | byte :: b, first :: p, q, h, hq => by
    unfold escape at h
    split at h
    next =>
      -- A zero byte takes two: the cut may fall between them.
      obtain ⟨rfl, hmark⟩ := List.cons.inj h
      cases p with
      | nil => rfl
      | cons mark p =>
        obtain ⟨rfl, hrest⟩ : 0xff = mark ∧ escape b = p ++ q := List.cons.inj hmark
        show ((unescape p).map _ : Except Fault _) = _
        rw [unescape_cut hrest hq]
        rfl
    next hzero =>
      obtain ⟨rfl, hrest⟩ := List.cons.inj h
      unfold unescape
      rw [if_neg hzero, unescape_cut hrest hq]
      rfl

theorem readTimestamp_cut {bytes : Bytes} (h : bytes.length < 12) :
    readTimestamp bytes = .error .unexpectedEnd := by
  unfold readTimestamp
  by_cases hseconds : bytes.length ≤ 7
  · rw [readNat_cut hseconds]
    rfl
  · unfold readNat
    rw [dif_pos (by omega)]
    show (readNat 3 (bytes.drop 8)).bind _ = _
    rw [readNat_cut (by rw [List.length_drop]; omega)]
    rfl

theorem readValue_nil : readValue (κ := κ) [] = .error .unexpectedEnd := by
  rw [readValue]

/-- Where two halves are cut at another place, the cut lies inside the first one or behind it. -/
theorem append_cut {a tail p q : Bytes} (h : a ++ tail = p ++ q) :
    (∃ c, c ≠ [] ∧ a = p ++ c) ∨ ∃ c, p = a ++ c ∧ tail = c ++ q := by
  rcases List.append_eq_append_iff.mp h with ⟨c, hp, htail⟩ | ⟨c, ha, hq⟩
  · exact .inr ⟨c, hp, htail⟩
  · by_cases hc : c = []
    · subst hc
      rw [List.append_nil] at ha
      exact .inr ⟨[], by rw [ha, List.append_nil], hq.symm⟩
    · exact .inl ⟨c, hc, ha⟩

theorem length_cut {a p q : Bytes} (h : a = p ++ q) (hq : q ≠ []) : p.length < a.length := by
  have hpositive := List.length_pos_iff.mpr hq
  rw [h, List.length_append]
  omega

/-- Behind its first byte a value without parts is read by the rule of its kind. -/
theorem readValue_scalar {tag : UInt8} (hlist : tag ≠ listTag) (hmap : tag ≠ mapTag)
    (bytes : Bytes) : readValue (κ := κ) (tag :: bytes) = readScalar tag bytes := by
  rw [readValue, if_neg hlist, if_neg hmap]

/-- A proper prefix of an encoded integer ends too early. -/
theorem readValue_encodeInt_cut {n : Int} {p q : Bytes} (h : encodeInt n = p ++ q) (hq : q ≠ []) :
    readValue (κ := κ) p = .error .unexpectedEnd := by
  cases p with
  | nil => exact readValue_nil
  | cons first p =>
    unfold encodeInt at h
    split at h
    next =>
      obtain ⟨rfl, hrest⟩ := List.cons.inj h
      have hlength := length_cut hrest hq
      unfold shifted at hlength
      rw [Bytes.length_ofNat] at hlength
      rw [readValue_scalar (by decide) (by decide)]
      show (readNat 7 p).map _ = _
      rw [readNat_cut (by omega)]
      rfl
    next =>
      obtain ⟨rfl, hrest⟩ := List.cons.inj h
      have hlength := length_cut hrest hq
      rw [Bytes.length_ofNat] at hlength
      rw [readValue_scalar (by decide) (by decide)]
      show (readNat 7 p).map _ = _
      rw [readNat_cut (by omega)]
      rfl

/-! ## One value and nothing else -/

/-- A value that uses the bytes up is decoded. -/
theorem decode_ok {bytes : Bytes} {v : Value κ} {shorter : [].length < bytes.length}
    (h : readValue bytes = .ok ⟨v, [], shorter⟩) : decode bytes = .ok v := by
  unfold decode read
  rw [h]
  rfl

/-- Bytes behind the value are refused, and the error counts them. -/
theorem decode_trailing {bytes rest : Bytes} {v : Value κ} {shorter : rest.length < bytes.length}
    (h : readValue bytes = .ok ⟨v, rest, shorter⟩) (hrest : rest ≠ []) :
    decode (κ := κ) bytes = .error (.codec (Fault.trailing rest.length).reason) := by
  unfold decode read
  rw [h]
  show (if rest.isEmpty then _ else _ : Except Fault (Value κ)).mapError _ = _
  rw [if_neg (by simp [hrest])]
  rfl

theorem decode_error {bytes : Bytes} {fault : Fault}
    (h : readValue (κ := κ) bytes = .error fault) :
    decode (κ := κ) bytes = .error fault.error := by
  unfold decode read
  rw [h]
  rfl

variable [CustomKind κ]

/-- What a key code begins with is not taken for the end of a list either. -/
theorem head_cut_ne_closing {v : Value κ} {p c : Bytes} (h : encode v = p ++ c) :
    p.head? ≠ some closing := by
  intro hclosing
  refine head_ne_closing v [] ?_
  rw [List.append_nil, h, List.head?_append, hclosing, Option.some_or]

mutual

/-- A key code cut short is refused because bytes are missing. -/
theorem readValue_cut : ∀ (v : Value κ) {p q : Bytes}, v.hasWordScales = true →
    encode v = p ++ q → q ≠ [] → readValue (κ := κ) p = .error .unexpectedEnd
  | _, [], _, _, _, _ => readValue_nil
  | .nil, _ :: _, _, _, h, hq => by
    obtain ⟨-, h⟩ := List.cons.inj h
    exact absurd (List.append_eq_nil_iff.mp h.symm).2 hq
  -- The tag is there, so that the cut is in the body behind it.
  | .bool _, _ :: p, _, _, h, hq => by
    obtain ⟨rfl, hrest⟩ := List.cons.inj h
    rw [readValue_scalar (by decide) (by decide)]
    have hlength : p.length ≤ 0 := Nat.le_of_lt_succ (length_cut hrest hq)
    show (readNat 0 p).bind _ = _
    rw [readNat_cut hlength]
    rfl
  | .int _, _ :: _, _, _, h, hq => readValue_encodeInt_cut h hq
  | .uint _, _ :: _, _, _, h, hq => readValue_encodeInt_cut h hq
  | .float x, _ :: p, _, _, h, hq => by
    obtain ⟨rfl, hrest⟩ := List.cons.inj h
    have hlength := length_cut hrest hq
    rw [Bytes.length_ofNat] at hlength
    rw [readValue_scalar (by decide) (by decide)]
    show (readNat 7 p).map _ = _
    rw [readNat_cut (by omega)]
    rfl
  | .string _, _ :: p, _, _, h, hq => by
    obtain ⟨rfl, hrest⟩ := List.cons.inj h
    rw [readValue_scalar (by decide) (by decide)]
    show (unescape p).bind _ = _
    rw [unescape_cut hrest hq]
    rfl
  | .bytes _, _ :: p, _, _, h, hq => by
    obtain ⟨rfl, hrest⟩ := List.cons.inj h
    rw [readValue_scalar (by decide) (by decide)]
    show (unescape p).map _ = _
    rw [unescape_cut hrest hq]
    rfl
  | .timestamp t, _ :: p, _, _, h, hq => by
    obtain ⟨rfl, hrest⟩ := List.cons.inj h
    have hlength := length_cut hrest hq
    unfold shifted at hlength
    rw [List.length_append, Bytes.length_ofNat, Bytes.length_ofNat] at hlength
    rw [readValue_scalar (by decide) (by decide)]
    show (readTimestamp p).map _ = _
    rw [readTimestamp_cut (by omega)]
    rfl
  | .decimal _, _ :: p, _, _, h, hq => by
    obtain ⟨rfl, hrest⟩ := List.cons.inj h
    rw [readValue_scalar (by decide) (by decide)]
    show (unescape p).bind _ = _
    rw [unescape_cut hrest hq]
    rfl
  | .list items, _ :: p, _, hscales, h, hq => by
    obtain ⟨rfl, hrest⟩ := List.cons.inj h
    rw [readValue, if_pos rfl, readItems_cut items hscales hrest hq]
    rfl
  | .map entries, _ :: p, _, hscales, h, hq => by
    obtain ⟨rfl, hrest⟩ := List.cons.inj h
    rw [readValue, if_neg (by decide), if_pos rfl, readEntries_cut entries hscales hrest hq]
    rfl
  | .custom _, _ :: p, _, _, h, hq => by
    obtain ⟨rfl, hrest⟩ := List.cons.inj h
    rw [readValue_scalar (by decide) (by decide)]
    show (unescape p).map _ = _
    rw [unescape_cut hrest hq]
    rfl

/-- Cut off anywhere, the items of a list end too early. -/
theorem readItems_cut : ∀ (vs : List (Value κ)) {p q : Bytes},
    Value.allHaveWordScales vs = true → encodeAll vs ++ [closing] = p ++ q → q ≠ [] →
    readItems (κ := κ) p = .error .unexpectedEnd
  | [], p, q, _, h, hq => by
    rcases List.append_eq_singleton_iff.mp h.symm with ⟨rfl, -⟩ | ⟨-, rfl⟩
    · rw [readItems, dif_neg (by decide), readValue_nil]
      rfl
    · exact absurd rfl hq
  | v :: vs, p, q, hscales, h, hq => by
    obtain ⟨hv, hvs⟩ := Bool.and_eq_true_iff.mp hscales
    rw [encodeAll, List.append_assoc] at h
    rcases append_cut h with ⟨c, hc, hcut⟩ | ⟨c, rfl, hrest⟩
    · rw [readItems, dif_neg (head_cut_ne_closing hcut), readValue_cut v hv hcut hc]
      rfl
    · obtain ⟨shorter, hread⟩ := (reads_encode v c).exists hv
      rw [readItems, dif_neg (head_ne_closing v c), hread]
      show (readItems c).map _ = _
      rw [readItems_cut vs hvs hrest hq]
      rfl

theorem readEntries_cut : ∀ (es : List (Value κ × Value κ)) {p q : Bytes},
    Value.allEntriesHaveWordScales es = true → encodeEntries es ++ [closing] = p ++ q → q ≠ [] →
    readEntries (κ := κ) p = .error .unexpectedEnd
  | [], p, q, _, h, hq => by
    rcases List.append_eq_singleton_iff.mp h.symm with ⟨rfl, -⟩ | ⟨-, rfl⟩
    · rw [readEntries, dif_neg (by decide), readValue_nil]
      rfl
    · exact absurd rfl hq
  | (k, v) :: es, p, q, hscales, h, hq => by
    obtain ⟨hkv, hes⟩ := Bool.and_eq_true_iff.mp hscales
    obtain ⟨hk, hv⟩ := Bool.and_eq_true_iff.mp hkv
    rw [encodeEntries, List.append_assoc, List.append_assoc] at h
    -- The cut is in the key, in the value, or behind both of them.
    rcases append_cut h with ⟨c, hc, hcut⟩ | ⟨c, rfl, hvalue⟩
    · rw [readEntries, dif_neg (head_cut_ne_closing hcut), readValue_cut k hk hcut hc]
      rfl
    · obtain ⟨shorter, hread⟩ := (reads_encode k c).exists hk
      rw [readEntries, dif_neg (head_ne_closing k c), hread]
      show (readValue c).bind _ = _
      rcases append_cut hvalue with ⟨c', hc', hcut⟩ | ⟨c', rfl, hrest⟩
      · rw [readValue_cut v hv hcut hc']
        rfl
      · obtain ⟨shorter', hread'⟩ := (reads_encode v c').exists hv
        rw [hread']
        show (readEntries c').map _ = _
        rw [readEntries_cut es hes hrest hq]
        rfl

end

/-- The key code of a value without a part of the user's own kind, whatever its nesting, is read: as
the value up to representation, which has the same key code again. It is read with nothing missing
and nothing behind it only. The scales are those that a decimal is ever read with. -/
theorem decode_roundTrip {v : Value κ} (hplain : v.hasCustomPart = false)
    (hscales : v.hasWordScales = true) :
    (∃ w, decode (encode v) = .ok w ∧ v.ReadBack w ∧ encode w = encode v) ∧
      (∀ p, p <+: encode v → p ≠ encode v →
        decode (κ := κ) p = .error (.codec Fault.unexpectedEnd.reason)) ∧
      ∀ p, encode v <+: p → p ≠ encode v →
        decode (κ := κ) p =
          .error (.codec (Fault.trailing (p.length - (encode v).length)).reason) := by
  refine ⟨⟨v.restored, ?_, Value.readBack_restored hplain, encode_restored hplain⟩, ?_, ?_⟩
  · obtain ⟨shorter, hread⟩ := (reads_encode v []).exists hscales
    rw [← List.append_nil (encode v)]
    exact decode_ok hread
  · rintro p ⟨q, hp⟩ hne
    refine decode_error (readValue_cut v hscales hp.symm fun hq => hne ?_)
    rw [← hp, hq, List.append_nil]
  · rintro _ ⟨q, rfl⟩ hne
    obtain ⟨shorter, hread⟩ := (reads_encode v q).exists hscales
    rw [List.length_append, Nat.add_sub_cancel_left]
    refine decode_trailing hread fun hq => hne ?_
    rw [hq, List.append_nil]

/-- A map with a list in it, zero bytes in its texts and a decimal with a negative scale. -/
def nested : Value Empty :=
  .map [(.bytes [0x00, 0xff], .list [.uint 7, .int (-3), .decimal ⟨15, -1⟩, .list []]),
    (.string "", .uint 0xffffffffffffffff)]

/-- A nested value: it reads back, a prefix ends too early, and a longer input has trailing bytes. -/
theorem decode_roundTrip_nested :
    nested.hasCustomPart = false ∧ nested.hasWordScales = true ∧
      (∃ w, decode (encode nested) = .ok w ∧ nested.ReadBack w ∧ encode w = encode nested) ∧
      (∀ p, p <+: encode nested → p ≠ encode nested →
        decode (κ := Empty) p = .error (.codec Fault.unexpectedEnd.reason)) ∧
      ∀ p, encode nested <+: p → p ≠ encode nested →
        decode (κ := Empty) p =
          .error (.codec (Fault.trailing (p.length - (encode nested).length)).reason) :=
  ⟨by decide, by decide, decode_roundTrip (by decide) (by decide)⟩

end Keycode

end RecordStore
