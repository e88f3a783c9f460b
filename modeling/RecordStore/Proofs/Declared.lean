import RecordStore.Schema.Declaration

/-!
# Schemas that were built

A declaration that cannot be right leaves a fault, and no fault is forgotten. So a schema that was built
has every field that was declared for it, with the index that was declared on it: no other declaration
took its place (`build_indexedField`, `build_sliceIndex`).
-/

namespace RecordStore

namespace SortedMap

open Std

variable {α β : Type} [Ord α] [TransOrd α] [LawfulEqOrd α] [DecidableEq α]

/-- The keys of a map that entries were put into are its own and theirs. -/
theorem mem_keys_insertAll {k : α} : ∀ {entries : List (α × β)} {m : SortedMap α β},
    k ∈ (m.insertAll entries).keys ↔ k ∈ m.keys ∨ k ∈ entries.map (·.1)
  | [], m => by
    rw [List.map_nil]
    exact ⟨.inl, fun h => h.resolve_right List.not_mem_nil⟩
  | e :: entries, m => by
    have hinsert : k ∈ (m.insert e.1 e.2).keys ↔ k ∈ m.keys ∨ k = e.1 := by
      rw [mem_keys_iff, mem_keys_iff, find?_insert]
      by_cases hk : k = e.1
      · simp [hk]
      · simp [hk]
    show k ∈ ((m.insert e.1 e.2).insertAll entries).keys ↔ _
    rw [mem_keys_insertAll, hinsert, List.map_cons, List.mem_cons, or_assoc]

end SortedMap

namespace Schema

variable {κ ρ : Type}

/-- A list is filed under the key codes of its items. -/
theorem itemCodes_list [CustomKind κ] (items : List (Value κ)) :
    ∃ codes, itemCodes (.list items) = .ok codes ∧
      ∀ code, code ∈ codes ↔ ∃ item ∈ items, code = Keycode.encode item := by
  refine ⟨_, rfl, fun code => ?_⟩
  rw [SortedMap.mem_keys_insertAll, List.map_map, List.mem_map]
  constructor
  · intro h
    obtain ⟨item, hitem, rfl⟩ := h.resolve_left List.not_mem_nil
    exact ⟨item, hitem, rfl⟩
  · intro h
    obtain ⟨item, hitem, rfl⟩ := h
    exact .inr ⟨item, hitem, rfl⟩

/-- Two schemas have the same under a name. -/
def SameAt (s s' : Schema κ ρ) (name : String) : Prop :=
  s'.fields.find? name = s.fields.find? name ∧ s'.indexes.find? name = s.indexes.find? name ∧
    s'.sliceIndexes.find? name = s.sliceIndexes.find? name

theorem SameAt.trans {s s' s'' : Schema κ ρ} {name : String} (h : s.SameAt s' name)
    (h' : s'.SameAt s'' name) : s.SameAt s'' name :=
  ⟨h'.1.trans h.1, h'.2.1.trans h.2.1, h'.2.2.trans h.2.2⟩

/-- A field is declared with an index under its name, of one kind or the other. -/
structure FieldWithIndex (s : Schema κ ρ) (name : String) : Prop where
  field : s.fields.contains name = true
  index : s.hasIndex name = true

/-- A slice index is always on a field of its name. -/
def SlicesAreFields (s : Schema κ ρ) : Prop :=
  ∀ name, s.sliceIndexes.contains name = true → s.fields.contains name = true

/-- A field with a scalar index on its values, and no slice index. -/
structure IndexesField [CustomKind κ] (s : Schema κ ρ) (name : String) (get : ρ → Value κ) :
    Prop where
  ne_key : name ≠ keyField
  field : s.fields.find? name = some get
  index : s.indexes.find? name = some fun r => .ok (some (Keycode.encode (get r)))
  slice : s.sliceIndexes.find? name = none

/-- A field with a slice index on its items. -/
structure IndexesItems [CustomKind κ] (s : Schema κ ρ) (name : String) (get : ρ → Value κ) :
    Prop where
  ne_key : name ≠ keyField
  field : s.fields.find? name = some get
  slice : s.sliceIndexes.find? name = some fun r => itemCodes (get r)

/-- An indexed field has an index of its name. -/
theorem IndexesField.hasIndex [CustomKind κ] {s : Schema κ ρ} {name : String} {get : ρ → Value κ}
    (h : s.IndexesField name get) : s.hasIndex name = true := by
  unfold Schema.hasIndex SortedMap.contains
  rw [h.index]
  rfl

theorem IndexesItems.hasIndex [CustomKind κ] {s : Schema κ ρ} {name : String} {get : ρ → Value κ}
    (h : s.IndexesItems name get) : s.hasIndex name = true := by
  unfold Schema.hasIndex SortedMap.contains
  rw [h.slice]
  exact Bool.or_true _

theorem valueOf_field {s : Schema κ ρ} {key : Value κ} {record : ρ} {name : String}
    {get : ρ → Value κ} (hkey : name ≠ keyField) (hfield : s.fields.find? name = some get) :
    s.valueOf key record name = .ok (get record) := by
  unfold valueOf readField
  rw [if_neg hkey, hfield]

namespace Draft

theorem fault_blame (d : Draft κ ρ) (f : Fault) : (d.blame f).fault ≠ none := by
  unfold blame
  cases d.fault with
  | none => simp
  | some g => simp

/-- A field without a fault is neither the key nor declared before. -/
theorem fieldFault?_eq_none {d : Draft κ ρ} {name : String} (h : d.fieldFault? name = none) :
    name ≠ keyField ∧ d.schema.fields.contains name = false := by
  unfold fieldFault? at h
  split at h
  next => cases h
  next hkey =>
    split at h
    next => cases h
    next =>
      split at h
      next => cases h
      next htwice => exact ⟨hkey, by simpa using htwice⟩

/-- An index without a fault is not declared before. -/
theorem indexFault?_eq_none {d : Draft κ ρ} {name : String} (h : d.indexFault? name = none) :
    d.schema.hasIndex name = false := by
  unfold indexFault? at h
  split at h
  next => cases h
  next =>
    split at h
    next => cases h
    next htwice => simpa using htwice

variable [CustomKind κ]

/-- What a declaration without a fault adds, and why it could. -/
theorem declare_cases {d : Draft κ ρ} {x : Declaration κ ρ} (h : (d.declare x).fault = none) :
    d.fault = none ∧ match x with
      | .field name get =>
        d.fieldFault? name = none ∧ (d.declare x).schema = addField d.schema name get
      | .indexedField name get =>
        d.fieldFault? name = none ∧ (d.declare x).schema = { addField d.schema name get with
          indexes := d.schema.indexes.insert name fun r => .ok (some (Keycode.encode (get r))) }
      | .sliceIndex name get =>
        d.fieldFault? name = none ∧ (d.declare x).schema = { addField d.schema name get with
          sliceIndexes := d.schema.sliceIndexes.insert name fun r => itemCodes (get r) }
      | .index name file =>
        d.indexFault? name = none ∧ (d.declare x).schema =
          { d.schema with indexes := d.schema.indexes.insert name file } := by
  cases x with
  | field name get | indexedField name get | sliceIndex name get =>
    cases hfault : d.fieldFault? name with
    | some f =>
      rw [declare, hfault] at h
      exact absurd h (fault_blame d f)
    | none =>
      rw [declare, hfault] at h ⊢
      exact ⟨h, hfault, rfl⟩
  | index name file =>
    cases hfault : d.indexFault? name with
    | some f =>
      rw [declare, hfault] at h
      exact absurd h (fault_blame d f)
    | none =>
      rw [declare, hfault] at h ⊢
      exact ⟨h, hfault, rfl⟩

/-- What is declared later takes no one's place. -/
theorem sameAt_declare {d : Draft κ ρ} {x : Declaration κ ρ} {name : String}
    (h : (d.declare x).fault = none) (hname : d.schema.FieldWithIndex name) :
    d.schema.SameAt (d.declare x).schema name := by
  -- A declaration without a fault is of another name, for this one is taken.
  have hfield : ∀ {n}, d.fieldFault? n = none → name ≠ n := by
    intro n hn heq
    have hfree := (fieldFault?_eq_none hn).2
    rw [← heq, hname.field] at hfree
    cases hfree
  have hindex : ∀ {n}, d.indexFault? n = none → name ≠ n := by
    intro n hn heq
    have hfree := indexFault?_eq_none hn
    rw [← heq, hname.index] at hfree
    cases hfree
  obtain ⟨-, hcase⟩ := declare_cases h
  cases x with
  | field n get =>
    obtain ⟨hn, hschema⟩ := hcase
    rw [hschema]
    exact ⟨by rw [addField, SortedMap.find?_insert, if_neg (hfield hn)], rfl, rfl⟩
  | indexedField n get =>
    obtain ⟨hn, hschema⟩ := hcase
    rw [hschema]
    exact ⟨by rw [addField, SortedMap.find?_insert, if_neg (hfield hn)],
      by rw [SortedMap.find?_insert, if_neg (hfield hn)], rfl⟩
  | sliceIndex n get =>
    obtain ⟨hn, hschema⟩ := hcase
    rw [hschema]
    exact ⟨by rw [addField, SortedMap.find?_insert, if_neg (hfield hn)], rfl,
      by rw [SortedMap.find?_insert, if_neg (hfield hn)]⟩
  | index n file =>
    obtain ⟨hn, hschema⟩ := hcase
    rw [hschema]
    exact ⟨rfl, by rw [SortedMap.find?_insert, if_neg (hindex hn)], rfl⟩

/-- A declaration without a fault leaves every slice index on a field. -/
theorem slicesAreFields_declare {d : Draft κ ρ} {x : Declaration κ ρ}
    (h : (d.declare x).fault = none) (hd : d.schema.SlicesAreFields) :
    (d.declare x).schema.SlicesAreFields := by
  have hkept : ∀ {name n : String} {get : ρ → Value κ}, d.schema.sliceIndexes.contains name = true →
      (d.schema.fields.insert n get).contains name = true := by
    intro name n get hslice
    unfold SortedMap.contains
    rw [SortedMap.find?_insert]
    split
    next => rfl
    next => exact hd name hslice
  obtain ⟨-, hcase⟩ := declare_cases h
  intro name hname
  cases x with
  | field n get =>
    obtain ⟨-, hschema⟩ := hcase
    rw [hschema] at hname ⊢
    exact hkept hname
  | indexedField n get =>
    obtain ⟨-, hschema⟩ := hcase
    rw [hschema] at hname ⊢
    exact hkept hname
  | sliceIndex n get =>
    obtain ⟨-, hschema⟩ := hcase
    rw [hschema] at hname ⊢
    -- A slice index comes with its field.
    by_cases heq : name = n
    · show (d.schema.fields.insert n get).contains name = true
      unfold SortedMap.contains
      rw [SortedMap.find?_insert, if_pos heq]
      rfl
    · refine hkept ?_
      unfold SortedMap.contains at hname
      rw [SortedMap.find?_insert, if_neg heq] at hname
      exact hname
  | index n file =>
    obtain ⟨-, hschema⟩ := hcase
    rw [hschema] at hname ⊢
    exact hd name hname

/-- What has an index under its name stays through all that is declared after it. -/
theorem foldl_declare : ∀ {xs : List (Declaration κ ρ)} {d : Draft κ ρ},
    (xs.foldl declare d).fault = none → d.fault = none ∧ ∀ name, d.schema.FieldWithIndex name →
      d.schema.SameAt (xs.foldl declare d).schema name
  | [], d, h => ⟨h, fun _ _ => ⟨rfl, rfl, rfl⟩⟩
  | x :: xs, d, h => by
    rw [List.foldl_cons] at h
    obtain ⟨hfault, hrest⟩ := foldl_declare h
    refine ⟨(declare_cases hfault).1, fun name hname => ?_⟩
    have hsame := sameAt_declare hfault hname
    refine hsame.trans (hrest name ⟨?_, ?_⟩)
    · unfold SortedMap.contains
      rw [hsame.1]
      exact hname.field
    · unfold hasIndex SortedMap.contains
      rw [hsame.2.1, hsame.2.2]
      exact hname.index

/-- Each declaration had its turn, and the schema still has what it brought with an index. -/
theorem exists_declare {x : Declaration κ ρ} : ∀ {xs : List (Declaration κ ρ)} {d : Draft κ ρ},
    x ∈ xs → (xs.foldl declare d).fault = none → d.schema.SlicesAreFields →
      ∃ d₁ : Draft κ ρ, d₁.schema.SlicesAreFields ∧ (d₁.declare x).fault = none ∧
        ∀ name, (d₁.declare x).schema.FieldWithIndex name →
          (d₁.declare x).schema.SameAt (xs.foldl declare d).schema name
  | y :: xs, d, hx, h, hd => by
    rw [List.foldl_cons] at h ⊢
    obtain ⟨hfault, hrest⟩ := foldl_declare h
    rcases List.mem_cons.mp hx with rfl | hx
    · exact ⟨d, hd, hfault, hrest⟩
    · exact exists_declare hx h (slicesAreFields_declare hfault hd)

end Draft

variable [CustomKind κ] {typeName name : String} {declarations : List (Declaration κ ρ)}
  {s : Schema κ ρ} {get : ρ → Value κ}

/-- A schema is built if no declaration has a fault, and then it is the draft's. -/
theorem build_eq_ok (h : build typeName declarations = .ok s) :
    (declarations.foldl Draft.declare ⟨blank typeName, none⟩).fault = none ∧
      s = (declarations.foldl Draft.declare ⟨blank typeName, none⟩).schema := by
  unfold build at h
  dsimp only at h
  split at h
  next => cases h
  next hfault =>
    split at h
    next => cases h
    next =>
      cases h
      exact ⟨hfault, rfl⟩

/-- The name of a type that was built is not empty and has no colon. -/
theorem typeName_of_build (h : build typeName declarations = .ok s) :
    typeName ≠ "" ∧ ':' ∉ typeName.toList := by
  unfold build at h
  dsimp only at h
  split at h
  next => cases h
  next =>
    split at h
    next => cases h
    next hname =>
      obtain ⟨hempty, hcolon⟩ := not_or.mp hname
      exact ⟨hempty, fun hmem => hcolon (List.contains_iff_mem.mpr hmem)⟩

omit [CustomKind κ] in
theorem slicesAreFields_blank : (blank typeName : Schema κ ρ).SlicesAreFields := by
  intro name h
  cases h

/-- A schema that was built has each of its indexed fields. -/
theorem build_indexedField (h : build typeName declarations = .ok s)
    (hx : .indexedField name get ∈ declarations) : s.IndexesField name get := by
  obtain ⟨hfault, rfl⟩ := build_eq_ok h
  obtain ⟨d, hslices, hfault, hsame⟩ := Draft.exists_declare hx hfault slicesAreFields_blank
  obtain ⟨-, hfree, hschema⟩ := Draft.declare_cases hfault
  obtain ⟨hkey, hfree⟩ := Draft.fieldFault?_eq_none hfree
  rw [hschema] at hsame
  have hfield : (d.schema.fields.insert name get).find? name = some get := by
    rw [SortedMap.find?_insert, if_pos rfl]
  have hindex : (d.schema.indexes.insert name fun r => .ok (some (Keycode.encode (get r)))).find?
      name = some fun r => .ok (some (Keycode.encode (get r))) := by
    rw [SortedMap.find?_insert, if_pos rfl]
  have hslice : d.schema.sliceIndexes.find? name = none := by
    cases hslice : d.schema.sliceIndexes.find? name with
    | none => rfl
    | some file =>
      have hthere := hslices name (by rw [SortedMap.contains, hslice]; rfl)
      rw [hfree] at hthere
      cases hthere
  obtain ⟨hfields, hindexes, hsliceIndexes⟩ := hsame name
    ⟨by rw [SortedMap.contains, Draft.addField, hfield]; rfl,
      by rw [hasIndex, SortedMap.contains, hindex]; rfl⟩
  exact ⟨hkey, hfields.trans hfield, hindexes.trans hindex, hsliceIndexes.trans hslice⟩

/-- A schema that was built has each of its fields with a slice index. -/
theorem build_sliceIndex (h : build typeName declarations = .ok s)
    (hx : .sliceIndex name get ∈ declarations) : s.IndexesItems name get := by
  obtain ⟨hfault, rfl⟩ := build_eq_ok h
  obtain ⟨d, -, hfault, hsame⟩ := Draft.exists_declare hx hfault slicesAreFields_blank
  obtain ⟨-, hfree, hschema⟩ := Draft.declare_cases hfault
  obtain ⟨hkey, -⟩ := Draft.fieldFault?_eq_none hfree
  rw [hschema] at hsame
  have hfield : (d.schema.fields.insert name get).find? name = some get := by
    rw [SortedMap.find?_insert, if_pos rfl]
  have hslice : (d.schema.sliceIndexes.insert name fun r => itemCodes (get r)).find? name =
      some fun r => itemCodes (get r) := by
    rw [SortedMap.find?_insert, if_pos rfl]
  obtain ⟨hfields, -, hsliceIndexes⟩ := hsame name
    ⟨by rw [SortedMap.contains, Draft.addField, hfield]; rfl,
      by rw [hasIndex, SortedMap.contains, SortedMap.contains, hslice, Bool.or_comm]; rfl⟩
  exact ⟨hkey, hfields.trans hfield, hsliceIndexes.trans hslice⟩

end Schema

end RecordStore
