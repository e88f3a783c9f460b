/-!
# Finite maps kept in key order

A `SortedMap` is a list of pairs in strictly ascending order of their keys. The list is the
whole content: two maps with the same pairs are equal, and walking a map in key order is
walking its list. Main statements: `find?_insert`, `find?_erase` (a change at one key is seen
there and nowhere else) and `mem_toList_iff` (the pairs are exactly what `find?` answers).
-/

namespace RecordStore

open Std

/-- Strictly ascending keys. -/
def KeysAscend {α β : Type} [Ord α] (entries : List (α × β)) : Prop :=
  entries.Pairwise fun a b => compare a.1 b.1 = .lt

/-- A finite map as the list of its pairs in strictly ascending key order. -/
structure SortedMap (α β : Type) [Ord α] where
  toList : List (α × β)
  sorted : KeysAscend toList

namespace SortedMap

variable {α β : Type} [Ord α]

/-! ## On bare lists -/

/-- The value paired with `k`; the search ends at the first larger key. -/
def lookup (k : α) : List (α × β) → Option β
  | [] => none
  | e :: es =>
    match compare k e.1 with
    | .lt => none
    | .eq => some e.2
    | .gt => lookup k es

/-- Puts a pair in its place, over the pair of the same key if there is one. -/
def place (k : α) (v : β) : List (α × β) → List (α × β)
  | [] => [(k, v)]
  | e :: es =>
    match compare k e.1 with
    | .lt => (k, v) :: e :: es
    | .eq => (k, v) :: es
    | .gt => e :: place k v es

/-- Takes out the pair of key `k`, if there is one. -/
def remove (k : α) : List (α × β) → List (α × β)
  | [] => []
  | e :: es =>
    match compare k e.1 with
    | .lt => e :: es
    | .eq => es
    | .gt => e :: remove k es

theorem mem_of_mem_place {k : α} {v : β} {e : α × β} {es : List (α × β)}
    (h : e ∈ place k v es) : e = (k, v) ∨ e ∈ es := by
  induction es with
  | nil => exact .inl (by simpa [place] using h)
  | cons a es ih =>
    simp only [place] at h
    split at h <;> simp only [List.mem_cons] at h ⊢ <;> grind

theorem mem_of_mem_remove {k : α} {e : α × β} {es : List (α × β)}
    (h : e ∈ remove k es) : e ∈ es := by
  induction es with
  | nil => simp [remove] at h
  | cons a es ih =>
    simp only [remove] at h
    split at h <;> simp only [List.mem_cons] at h ⊢ <;> grind

theorem keysAscend_place [TransOrd α] [LawfulEqOrd α] {k : α} {v : β} {es : List (α × β)}
    (h : KeysAscend es) : KeysAscend (place k v es) := by
  induction es with
  | nil => simp [place, KeysAscend]
  | cons a es ih =>
    obtain ⟨ha, hes⟩ := List.pairwise_cons.1 h
    simp only [place]
    split
    case h_1 hlt =>
      refine List.pairwise_cons.2 ⟨fun b hb => ?_, h⟩
      rcases List.mem_cons.1 hb with rfl | hb
      · exact hlt
      · exact TransCmp.lt_trans hlt (ha b hb)
    case h_2 heq =>
      refine List.pairwise_cons.2 ⟨fun b hb => ?_, hes⟩
      exact TransCmp.lt_of_eq_of_lt heq (ha b hb)
    case h_3 hgt =>
      refine List.pairwise_cons.2 ⟨fun b hb => ?_, ih hes⟩
      rcases mem_of_mem_place hb with rfl | hb
      · exact OrientedCmp.lt_of_gt hgt
      · exact ha b hb

theorem keysAscend_remove {k : α} {es : List (α × β)} (h : KeysAscend es) :
    KeysAscend (remove k es) := by
  induction es with
  | nil => simpa [remove] using h
  | cons a es ih =>
    obtain ⟨ha, hes⟩ := List.pairwise_cons.1 h
    simp only [remove]
    split
    · exact h
    · exact hes
    · exact List.pairwise_cons.2 ⟨fun b hb => ha b (mem_of_mem_remove hb), ih hes⟩

/-! ## Maps -/

/-- The map without pairs. -/
def empty : SortedMap α β := ⟨[], List.Pairwise.nil⟩

instance : Inhabited (SortedMap α β) := ⟨empty⟩

/-- The value at `k`. -/
def find? (m : SortedMap α β) (k : α) : Option β := lookup k m.toList

/-- Whether `k` has a value. -/
def contains (m : SortedMap α β) (k : α) : Bool := (m.find? k).isSome

/-- The keys, ascending. -/
def keys (m : SortedMap α β) : List α := m.toList.map (·.1)

/-- Whether the map has no pairs. -/
def isEmpty (m : SortedMap α β) : Bool := m.toList.isEmpty

/-- The map with value `v` at `k`. -/
def insert [TransOrd α] [LawfulEqOrd α] (m : SortedMap α β) (k : α) (v : β) : SortedMap α β :=
  ⟨place k v m.toList, keysAscend_place m.sorted⟩

/-- Puts several values in; of two under one key the later stays. -/
def insertAll [TransOrd α] [LawfulEqOrd α] (m : SortedMap α β) (entries : List (α × β)) :
    SortedMap α β :=
  entries.foldl (fun m e => m.insert e.1 e.2) m

/-- The map without a value at `k`. -/
def erase (m : SortedMap α β) (k : α) : SortedMap α β :=
  ⟨remove k m.toList, keysAscend_remove m.sorted⟩

@[ext] theorem ext {m n : SortedMap α β} (h : m.toList = n.toList) : m = n := by
  cases m; cases n; simpa using h

/-! ## What `find?` answers after each operation -/

theorem lookup_eq_none_of_lt {k : α} {es : List (α × β)}
    (h : ∀ e ∈ es, compare k e.1 = .lt) : lookup k es = none := by
  cases es with
  | nil => rfl
  | cons a es => simp [lookup, h a (by simp)]

@[simp] theorem find?_empty (k : α) : (empty : SortedMap α β).find? k = none := rfl

section Laws

variable [TransOrd α] [LawfulEqOrd α] [DecidableEq α]

theorem lookup_place {k j : α} {v : β} {es : List (α × β)} (h : KeysAscend es) :
    lookup j (place k v es) = if j = k then some v else lookup j es := by
  induction es with
  | nil =>
    by_cases hjk : j = k
    · subst hjk; simp [place, lookup]
    · have : compare j k ≠ .eq := fun he => hjk (LawfulEqOrd.eq_of_compare he)
      cases hc : compare j k <;> simp_all [place, lookup]
  | cons a es ih =>
    obtain ⟨ha, hes⟩ := List.pairwise_cons.1 h
    simp only [place]
    split
    -- The new entry stands in front of a larger key.
    case h_1 hlt =>
      by_cases hjk : j = k
      · subst hjk; simp [lookup]
      · have hne : compare j k ≠ .eq := fun he => hjk (LawfulEqOrd.eq_of_compare he)
        cases hc : compare j k with
        | lt =>
          have hja : compare j a.1 = .lt := TransCmp.lt_trans hc hlt
          simp [lookup, hc, hja, hjk]
        | eq => exact absurd hc hne
        | gt => simp [lookup, hc, hjk]
    -- It takes the place of its own key.
    case h_2 heq =>
      have hka : k = a.1 := LawfulEqOrd.eq_of_compare heq
      subst hka
      by_cases hjk : j = a.1
      · subst hjk; simp [lookup]
      · have hne : compare j a.1 ≠ .eq := fun he => hjk (LawfulEqOrd.eq_of_compare he)
        cases hc : compare j a.1 <;> simp_all [lookup]
    -- It goes further behind.
    case h_3 hgt =>
      simp only [lookup, ih hes]
      by_cases hjk : j = k
      · subst hjk; simp [hgt]
      · simp [hjk]

theorem lookup_remove {k j : α} {es : List (α × β)} (h : KeysAscend es) :
    lookup j (remove k es) = if j = k then none else lookup j es := by
  induction es with
  | nil => simp [remove, lookup]
  | cons a es ih =>
    obtain ⟨ha, hes⟩ := List.pairwise_cons.1 h
    simp only [remove]
    split
    case h_1 hlt =>
      by_cases hjk : j = k
      · subst hjk; simp [lookup, hlt]
      · simp [hjk]
    case h_2 heq =>
      have hka : k = a.1 := LawfulEqOrd.eq_of_compare heq
      subst hka
      by_cases hjk : j = a.1
      · subst hjk; simp [lookup_eq_none_of_lt ha]
      · have hne : compare j a.1 ≠ .eq := fun he => hjk (LawfulEqOrd.eq_of_compare he)
        simp only [hjk, if_false, lookup]
        cases hc : compare j a.1 with
        | lt => exact lookup_eq_none_of_lt fun e he => TransCmp.lt_trans hc (ha e he)
        | eq => exact absurd hc hne
        | gt => rfl
    case h_3 hgt =>
      simp only [lookup, ih hes]
      by_cases hjk : j = k
      · subst hjk; simp [hgt]
      · simp [hjk]

omit [DecidableEq α] in
theorem mem_iff_lookup {k : α} {v : β} {es : List (α × β)} (h : KeysAscend es) :
    (k, v) ∈ es ↔ lookup k es = some v := by
  induction es with
  | nil => simp [lookup]
  | cons a es ih =>
    obtain ⟨ha, hes⟩ := List.pairwise_cons.1 h
    simp only [List.mem_cons, lookup]
    cases hc : compare k a.1 with
    | lt =>
      simp only [reduceCtorEq, iff_false, not_or]
      refine ⟨fun he => ?_, fun hm => ?_⟩
      · rw [← he] at hc; simp at hc
      · have := ha _ hm
        rw [OrientedCmp.gt_of_lt this] at hc; cases hc
    | eq =>
      have hk : k = a.1 := LawfulEqOrd.eq_of_compare hc
      subst hk
      simp only [Option.some.injEq]
      constructor
      · rintro (he | hm)
        · rw [← he]
        · have := ha _ hm; simp at this
      · intro hv; subst hv; exact .inl rfl
    | gt =>
      rw [← ih hes]
      simp only [or_iff_right_iff_imp]
      intro he; rw [← he] at hc; simp at hc

theorem find?_insert (m : SortedMap α β) (k j : α) (v : β) :
    (m.insert k v).find? j = if j = k then some v else m.find? j :=
  lookup_place m.sorted

theorem find?_erase (m : SortedMap α β) (k j : α) :
    (m.erase k).find? j = if j = k then none else m.find? j :=
  lookup_remove m.sorted

omit [DecidableEq α] in
/-- The pairs of the list are exactly the answers of `find?`. -/
theorem mem_toList_iff (m : SortedMap α β) {k : α} {v : β} :
    (k, v) ∈ m.toList ↔ m.find? k = some v :=
  mem_iff_lookup m.sorted

omit [DecidableEq α] in
theorem mem_keys_iff {m : SortedMap α β} {k : α} : k ∈ m.keys ↔ ∃ v, m.find? k = some v := by
  unfold keys
  rw [List.mem_map]
  constructor
  · intro h
    obtain ⟨e, he, rfl⟩ := h
    exact ⟨e.2, m.mem_toList_iff.mp he⟩
  · intro h
    obtain ⟨v, hv⟩ := h
    exact ⟨(k, v), m.mem_toList_iff.mpr hv, rfl⟩

end Laws

end SortedMap

end RecordStore
