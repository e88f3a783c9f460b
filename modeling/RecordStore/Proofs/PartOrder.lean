import RecordStore.Proofs.SameKey

/-!
# The order of lists and maps

The key codes of the parts of a list stand one after the other, each as long as it happens to be, and yet
the byte order of two lists is the lexicographic order of the codes of their parts (`compare_parts`).
Two facts carry it. No key code is the front of a different one, so two codes decide before anything that
follows them (`compare_encode_append`); and the closing byte is below every tag, so the list that ends
first comes first (`compare_closing_encode`). A map is coded as the list of its keys and values in turn
(`encodeEntries_eq`), which is why nothing has to be shown of maps again.
-/

namespace RecordStore

/-- Byte strings neither of which is a front of the other decide before what follows them. -/
theorem Bytes.compare_append_of_apart {a b : Bytes} (h : ∀ x y, a ++ x = b ++ y → a = b) (x y : Bytes) :
    compare (a ++ x) (b ++ y) = (compare a b).then (compare x y) := by
  induction a generalizing b with
  | nil =>
    obtain rfl := h b [] (by rw [List.nil_append, List.append_nil])
    rfl
  | cons first as ih =>
    cases b with
    | nil =>
      have hnil := h [] (first :: as) (by rw [List.append_nil, List.nil_append])
      cases hnil
    | cons first' bs =>
      rw [List.cons_append, List.cons_append, List.compare_cons_cons, List.compare_cons_cons,
        Ordering.then_assoc]
      by_cases hfirst : first = first'
      · -- The first bytes are equal, so what is behind them is apart as well.
        subst hfirst
        rw [ih]
        intro x' y' heq
        exact (List.cons.inj (h x' y' (congrArg (first :: ·) heq))).2
      · have hne : compare first first' ≠ .eq := fun heq =>
          hfirst (Std.LawfulEqCmp.eq_of_compare heq)
        cases hc : compare first first' with
        | lt => rfl
        | gt => rfl
        | eq => exact absurd hc hne

namespace Keycode

variable {κ : Type} [CustomKind κ]

/-! ## Parts -/

/-- Two key codes decide before what follows them. -/
theorem compare_encode_append (v w : Value κ) (x y : Bytes) :
    compare (encode v ++ x) (encode w ++ y) = (compare (encode v) (encode w)).then (compare x y) := by
  refine Bytes.compare_append_of_apart ?_ x y
  intro x' y' h
  exact encode_of_sameKey (encode_append_inj v h).1

/-- The closing byte comes before every key code. -/
theorem compare_closing_encode (v : Value κ) (x y : Bytes) :
    compare (closing :: x) (encode v ++ y) = .lt := by
  obtain ⟨tag, more, hcode, -⟩ := encode_eq_cons v
  have hne : tag ≠ closing := by
    intro htag
    refine head_ne_closing v [] ?_
    rw [hcode, htag]
    rfl
  rw [hcode, List.cons_append, List.compare_cons_cons, closing, compare_zero_byte hne]
  rfl

/-- Key codes one after the other, closed, are ordered by the first of them that differ; what follows
the closing byte counts only if none do. -/
theorem compare_encodeAll (vs ws : List (Value κ)) (x y : Bytes) :
    compare (encodeAll vs ++ closing :: x) (encodeAll ws ++ closing :: y) =
      (compare (vs.map encode) (ws.map encode)).then (compare x y) := by
  induction vs generalizing ws with
  | nil =>
    cases ws with
    | nil =>
      rw [encodeAll, List.nil_append, List.nil_append, List.compare_cons_cons,
        Std.compare_self]
      rfl
    | cons w ws =>
      rw [encodeAll, encodeAll, List.nil_append, List.append_assoc, compare_closing_encode]
      rfl
  | cons v vs ih =>
    cases ws with
    | nil =>
      have hswap : compare (encode v ++ (encodeAll vs ++ closing :: x)) (closing :: y) =
          (compare (closing :: y) (encode v ++ (encodeAll vs ++ closing :: x))).swap :=
        Std.OrientedCmp.eq_swap
      rw [encodeAll, encodeAll, List.nil_append, List.append_assoc, hswap, compare_closing_encode]
      rfl
    | cons w ws =>
      rw [encodeAll, encodeAll, List.append_assoc, List.append_assoc, compare_encode_append, ih,
        List.map_cons, List.map_cons, List.compare_cons_cons, Ordering.then_assoc]

/-! ## Lists and maps -/

theorem compare_encode_list (vs ws : List (Value κ)) :
    compare (encode (.list vs)) (encode (.list ws)) = compare (vs.map encode) (ws.map encode) := by
  rw [encode, encode, List.compare_cons_cons, Std.compare_self, compare_encodeAll,
    Std.compare_self, Ordering.then_eq]
  rfl

/-- The keys and values of a map in turn. -/
def alternating (es : List (Value κ × Value κ)) : List (Value κ) := es.flatMap fun e => [e.1, e.2]

theorem encodeEntries_eq (es : List (Value κ × Value κ)) :
    encodeEntries es = encodeAll (alternating es) := by
  induction es with
  | nil => rfl
  | cons e es ih =>
    obtain ⟨k, v⟩ := e
    rw [encodeEntries, ih, List.append_assoc]
    rfl

theorem compare_encode_map (es fs : List (Value κ × Value κ)) :
    compare (encode (.map es)) (encode (.map fs)) =
      compare ((alternating es).map encode) ((alternating fs).map encode) := by
  rw [← compare_encode_list, encode, encode, encode, encode, encodeEntries_eq, encodeEntries_eq,
    List.compare_cons_cons, List.compare_cons_cons, Std.compare_self,
    Std.compare_self]

/-- Two lists, of whatever values and however nested, are ordered by their key codes, and so as values,
as the sequences of the codes of their items are: by the first that differ, and the list that is a front
of the other comes first. Two maps are ordered in the same way by the codes of their keys and values in
turn. -/
theorem compare_parts (vs ws : List (Value κ)) (es fs : List (Value κ × Value κ)) :
    (compare (encode (.list vs)) (encode (.list ws)) = compare (vs.map encode) (ws.map encode) ∧
      Value.cmp (.list vs) (.list ws) = .ok (compare (vs.map encode) (ws.map encode))) ∧
    compare (encode (.map es)) (encode (.map fs)) =
        compare ((alternating es).map encode) ((alternating fs).map encode) ∧
      Value.cmp (.map es) (.map fs) =
        .ok (compare ((alternating es).map encode) ((alternating fs).map encode)) := by
  have hlist := compare_encode_list vs ws
  have hmap := compare_encode_map es fs
  have hcmpList : Value.cmp (.list vs) (.list ws) =
      .ok (compare (encode (.list vs)) (encode (.list ws))) := rfl
  have hcmpMap : Value.cmp (.map es) (.map fs) =
      .ok (compare (encode (.map es)) (encode (.map fs))) := rfl
  exact ⟨⟨hlist, hlist ▸ hcmpList⟩, hmap, hmap ▸ hcmpMap⟩

end Keycode

end RecordStore
