import RecordStore.Proofs.Declared

/-!
# Which index a schema has for each declaration

The field declarations look for an earlier field of their name and not for an earlier index, and a
custom index looks for an earlier index. So of two declarations of one index the later is refused,
unless it declares a field and the earlier does not: `Overtaken` is that one case, and `Excludes` is
every case that is refused. `build_indexes` says which declarations build, what the schema then has,
and that it has each declared index once, as it was declared, just if none was overtaken.
-/

namespace RecordStore

namespace SortedMap

open Std

variable {α β : Type} [Ord α] [LawfulEqOrd α]

/-- Placing an entry under a new key adds it to the others. -/
theorem perm_place {k : α} {v : β} {entries : List (α × β)} (h : k ∉ entries.map (·.1)) :
    (place k v entries).Perm ((k, v) :: entries) := by
  induction entries with
  | nil => exact .refl _
  | cons e entries ih =>
    rw [List.map_cons, List.mem_cons, not_or] at h
    unfold place
    split
    case h_1 => exact .refl _
    case h_2 heq => exact absurd (LawfulEqOrd.eq_of_compare heq) h.1
    case h_3 => exact ((ih h.2).cons e).trans (.swap _ _ _)

/-- Entries that are put in under different new keys are all there. -/
theorem perm_insertAll [TransOrd α] : ∀ {entries : List (α × β)} {m : SortedMap α β},
    (m.keys ++ entries.map (·.1)).Nodup → (m.insertAll entries).toList.Perm (m.toList ++ entries)
  | [], m, _ => by
    rw [List.append_nil]
    exact .refl _
  | e :: entries, m, h => by
    rw [List.map_cons] at h
    have hmiddle : ((e.1 :: m.keys) ++ entries.map (·.1)).Nodup := List.perm_middle.nodup_iff.mp h
    have hnew : e.1 ∉ m.keys := fun hmem =>
      (List.nodup_cons.mp hmiddle).1 (List.mem_append_left _ hmem)
    have hplace : (m.insert e.1 e.2).toList.Perm (e :: m.toList) := perm_place hnew
    have hrest : ((m.insert e.1 e.2).keys ++ entries.map (·.1)).Nodup :=
      ((hplace.map (·.1)).append_right _).nodup_iff.mpr hmiddle
    exact ((perm_insertAll hrest).trans (hplace.append_right entries)).trans List.perm_middle.symm

end SortedMap

namespace Schema

variable {κ ρ : Type}

/-! ## What a declaration declares -/

namespace Declaration

/-- The field that is declared. -/
def field? : Declaration κ ρ → Option String
  | .field name _ | .indexedField name _ | .sliceIndex name _ => some name
  | .index _ _ => none

/-- The index that is declared. -/
def index? : Declaration κ ρ → Option String
  | .indexedField name _ | .sliceIndex name _ | .index name _ => some name
  | .field _ _ => none

/-- The scalar index that is declared, with the value a record is filed under. -/
def scalarIndex? [CustomKind κ] :
    Declaration κ ρ → Option (String × (ρ → Except Error (Option Bytes)))
  | .indexedField name get => some (name, fun r => .ok (some (Keycode.encode (get r))))
  | .index name file => some (name, file)
  | .field _ _ | .sliceIndex _ _ => none

/-- The slice index that is declared, with the values a record is filed under. -/
def sliceIndex? [CustomKind κ] :
    Declaration κ ρ → Option (String × (ρ → Except Error (List Bytes)))
  | .sliceIndex name get => some (name, fun r => itemCodes (get r))
  | .field _ _ | .indexedField _ _ | .index _ _ => none

/-- The name can be declared at all. -/
def WellNamed : Declaration κ ρ → Prop
  | .field name _ | .indexedField name _ | .sliceIndex name _ =>
    name ≠ keyField ∧ hasEmptyPart true name.toList = false
  | .index name _ => name ≠ "" ∧ name ≠ keyField

/-- The later declaration is refused because of the earlier one: a field because of a field, and an
index that is not on a field because of an index. -/
def Excludes (earlier : Declaration κ ρ) : Declaration κ ρ → Prop
  | .field name _ | .indexedField name _ | .sliceIndex name _ => earlier.field? = some name
  | .index name _ => earlier.index? = some name

/-- The earlier declaration is of an index that is not on a field, and the later one is of a field
with an index of the same name. -/
def Overtaken (earlier later : Declaration κ ρ) : Prop :=
  earlier.field? = none ∧ later.field? ≠ none ∧ earlier.index? = later.index?

/-- Two declarations of one index, in this order, are refused unless the first is overtaken. -/
theorem overtaken_iff {x y : Declaration κ ρ} (h : ¬x.Excludes y) :
    x.Overtaken y ↔ ∃ name, x.index? = some name ∧ y.index? = some name := by
  cases x <;> cases y <;> simp_all [Overtaken, Excludes, field?, index?, eq_comm]

/-- A declaration makes an index if it makes a scalar or a slice index of that name. -/
theorem index?_eq_some_iff [CustomKind κ] {x : Declaration κ ρ} {name : String} :
    x.index? = some name ↔
      x.scalarIndex?.map (·.1) = some name ∨ x.sliceIndex?.map (·.1) = some name := by
  cases x with
  | field n get => exact (or_self_iff).symm
  | indexedField n get => exact (or_iff_left fun h => nomatch h).symm
  | sliceIndex n get => exact (or_iff_right fun h => nomatch h).symm
  | index n file => exact (or_iff_left fun h => nomatch h).symm

/-- An index is scalar or slice. -/
theorem perm_filterMap_index? [CustomKind κ] (declarations : List (Declaration κ ρ)) :
    (declarations.filterMap index?).Perm ((declarations.filterMap scalarIndex?).map (·.1) ++
      (declarations.filterMap sliceIndex?).map (·.1)) := by
  induction declarations with
  | nil => exact .refl _
  | cons x declarations ih =>
    cases x with
    | field name get => exact ih
    | indexedField name get => exact ih.cons name
    | sliceIndex name get => exact (ih.cons name).trans List.perm_middle.symm
    | index name file => exact ih.cons name

end Declaration

/-- The schema has each declared index once, under its name and with the function of its declaration,
and no index besides; no name is of a scalar and of a slice index. -/
structure HasIndexesOf [CustomKind κ] (s : Schema κ ρ) (declarations : List (Declaration κ ρ)) :
    Prop where
  names : s.indexNames.Nodup
  scalar : s.indexes.toList.Perm (declarations.filterMap Declaration.scalarIndex?)
  slice : s.sliceIndexes.toList.Perm (declarations.filterMap Declaration.sliceIndex?)

/-! ## Which declarations are taken -/

namespace Draft

theorem contains_iff {β : Type} {m : SortedMap String β} {name : String} :
    m.contains name = true ↔ name ∈ m.keys := by
  rw [SortedMap.mem_keys_iff]
  exact Option.isSome_iff_exists

/-- A field has no fault exactly if it is well named and not declared before. -/
theorem fieldFault?_eq_none_iff {d : Draft κ ρ} {name : String} : d.fieldFault? name = none ↔
    (name ≠ keyField ∧ hasEmptyPart true name.toList = false) ∧
      ¬d.schema.fields.contains name = true := by
  unfold fieldFault?
  by_cases hkey : name = keyField
  · simp [hkey]
  · by_cases hempty : hasEmptyPart true name.toList = true
    · simp [hkey, hempty]
    · simp [hkey, hempty]

/-- An index has no fault exactly if it is well named and not declared before, as either kind. -/
theorem indexFault?_eq_none_iff {d : Draft κ ρ} {name : String} : d.indexFault? name = none ↔
    (name ≠ "" ∧ name ≠ keyField) ∧ ¬d.schema.hasIndex name = true := by
  unfold indexFault?
  rw [← not_or]
  by_cases hname : name = "" ∨ name = keyField
  · simp [hname]
  · simp [hname]

/-- A declaration is taken by what is declared so far. -/
def Accepts (d : Draft κ ρ) : Declaration κ ρ → Prop
  | .field name _ | .indexedField name _ | .sliceIndex name _ => d.fieldFault? name = none
  | .index name _ => d.indexFault? name = none

theorem accepts_blank {typeName : String} {x : Declaration κ ρ} :
    (⟨blank typeName, none⟩ : Draft κ ρ).Accepts x ↔ x.WellNamed := by
  have hnone : ∀ name, ¬(blank typeName : Schema κ ρ).fields.contains name = true ∧
      ¬(blank typeName : Schema κ ρ).hasIndex name = true :=
    fun _ => ⟨Bool.false_ne_true, Bool.false_ne_true⟩
  cases x with
  | field name get => exact fieldFault?_eq_none_iff.trans (and_iff_left (hnone name).1)
  | indexedField name get => exact fieldFault?_eq_none_iff.trans (and_iff_left (hnone name).1)
  | sliceIndex name get => exact fieldFault?_eq_none_iff.trans (and_iff_left (hnone name).1)
  | index name file => exact indexFault?_eq_none_iff.trans (and_iff_left (hnone name).2)

variable [CustomKind κ]

/-- A declaration leaves no fault just if it is taken and there was none. -/
theorem fault_declare {d : Draft κ ρ} {x : Declaration κ ρ} :
    (d.declare x).fault = none ↔ d.fault = none ∧ d.Accepts x := by
  constructor
  · intro h
    obtain ⟨hfault, hcase⟩ := declare_cases h
    cases x with
    | field name get => exact ⟨hfault, hcase.1⟩
    | indexedField name get => exact ⟨hfault, hcase.1⟩
    | sliceIndex name get => exact ⟨hfault, hcase.1⟩
    | index name file => exact ⟨hfault, hcase.1⟩
  · intro h
    obtain ⟨hfault, hx⟩ := h
    cases x
    all_goals
      unfold Accepts at hx
      rw [declare, hx]
      exact hfault

/-- What a declaration that is taken adds to each map. -/
theorem schema_declare {d : Draft κ ρ} {x : Declaration κ ρ} (h : (d.declare x).fault = none) :
    (∀ name, (d.declare x).schema.fields.contains name = true ↔
        d.schema.fields.contains name = true ∨ x.field? = some name) ∧
      (d.declare x).schema.indexes = d.schema.indexes.insertAll x.scalarIndex?.toList ∧
      (d.declare x).schema.sliceIndexes = d.schema.sliceIndexes.insertAll x.sliceIndex?.toList := by
  have hfields : ∀ (n : String) (get : ρ → Value κ) (name : String),
      (d.schema.fields.insert n get).contains name = true ↔
        d.schema.fields.contains name = true ∨ some n = some name := by
    intro n get name
    unfold SortedMap.contains
    rw [SortedMap.find?_insert]
    by_cases hname : name = n
    · simp [hname]
    · simp [hname, Ne.symm hname]
  obtain ⟨-, hcase⟩ := declare_cases h
  cases x with
  | field n get | indexedField n get | sliceIndex n get =>
    rw [hcase.2]
    exact ⟨hfields n get, rfl, rfl⟩
  | index n file =>
    rw [hcase.2]
    exact ⟨fun name => ⟨.inl, fun h => h.resolve_right fun h => nomatch h⟩, rfl, rfl⟩

/-- A declaration adds its index to those that are there. -/
theorem hasIndex_declare {d : Draft κ ρ} {x : Declaration κ ρ} (h : (d.declare x).fault = none)
    (name : String) : (d.declare x).schema.hasIndex name = true ↔
      d.schema.hasIndex name = true ∨ x.index? = some name := by
  have hput : ∀ {β : Type} (m : SortedMap String β) (addition : Option (String × β)),
      (m.insertAll addition.toList).contains name = true ↔
        m.contains name = true ∨ addition.map (·.1) = some name := by
    intro β m addition
    rw [contains_iff, contains_iff, SortedMap.mem_keys_insertAll, ← Option.toList_map, Option.mem_toList]
  obtain ⟨-, hindexes, hslices⟩ := schema_declare h
  unfold hasIndex
  rw [hindexes, hslices, Bool.or_eq_true, Bool.or_eq_true, hput, hput, or_or_or_comm,
    Declaration.index?_eq_some_iff]

/-- What is declared later is taken as it would have been before, unless it is excluded. -/
theorem accepts_declare {d : Draft κ ρ} {x y : Declaration κ ρ} (h : (d.declare x).fault = none) :
    (d.declare x).Accepts y ↔ d.Accepts y ∧ ¬x.Excludes y := by
  have hfield : ∀ name, (d.declare x).fieldFault? name = none ↔
      d.fieldFault? name = none ∧ ¬x.field? = some name := by
    intro name
    rw [fieldFault?_eq_none_iff, fieldFault?_eq_none_iff, (schema_declare h).1, not_or,
      ← and_assoc]
  have hindex : ∀ name, (d.declare x).indexFault? name = none ↔
      d.indexFault? name = none ∧ ¬x.index? = some name := by
    intro name
    rw [indexFault?_eq_none_iff, indexFault?_eq_none_iff, hasIndex_declare h, not_or,
      ← and_assoc]
  cases y with
  | field name get => exact hfield name
  | indexedField name get => exact hfield name
  | sliceIndex name get => exact hfield name
  | index name file => exact hindex name

/-- A run of declarations leaves no fault just if each is taken on its own and none excludes a later
one. -/
theorem fault_foldl_declare : ∀ {xs : List (Declaration κ ρ)} {d : Draft κ ρ},
    (xs.foldl declare d).fault = none ↔
      d.fault = none ∧ (∀ x ∈ xs, d.Accepts x) ∧ xs.Pairwise fun x y => ¬x.Excludes y
  | [], d => by simp
  | x :: xs, d => by
    rw [List.foldl_cons, fault_foldl_declare, List.forall_mem_cons, List.pairwise_cons]
    by_cases h : (d.declare x).fault = none
    · have haccepts : (∀ y ∈ xs, (d.declare x).Accepts y) ↔
          (∀ y ∈ xs, d.Accepts y) ∧ ∀ y ∈ xs, ¬x.Excludes y := by
        simp only [accepts_declare h]
        exact ⟨fun hall => ⟨fun y hy => (hall y hy).1, fun y hy => (hall y hy).2⟩,
          fun hall y hy => ⟨hall.1 y hy, hall.2 y hy⟩⟩
      obtain ⟨hfault, hx⟩ := fault_declare.mp h
      rw [haccepts, and_assoc]
      exact ⟨fun hrest => ⟨hfault, ⟨hx, hrest.2.1⟩, hrest.2.2⟩,
        fun hrest => ⟨h, hrest.2.1.2, hrest.2.2⟩⟩
    · exact ⟨fun hrest => absurd hrest.1 h,
        fun hrest => absurd (fault_declare.mpr ⟨hrest.1, hrest.2.1.1⟩) h⟩

/-- The indexes are put in in the order of their declarations. -/
theorem indexes_foldl_declare : ∀ {xs : List (Declaration κ ρ)} {d : Draft κ ρ},
    (xs.foldl declare d).fault = none →
      (xs.foldl declare d).schema.indexes =
          d.schema.indexes.insertAll (xs.filterMap Declaration.scalarIndex?) ∧
        (xs.foldl declare d).schema.sliceIndexes =
          d.schema.sliceIndexes.insertAll (xs.filterMap Declaration.sliceIndex?)
  | [], d, _ => ⟨rfl, rfl⟩
  | x :: xs, d, h => by
    rw [List.foldl_cons] at h ⊢
    obtain ⟨-, hindexes, hslices⟩ := schema_declare (foldl_declare h).1
    obtain ⟨hindexes', hslices'⟩ := indexes_foldl_declare h
    rw [hindexes', hslices', hindexes, hslices]
    exact ⟨by cases x <;> rfl, by cases x <;> rfl⟩

end Draft

/-! ## The schema -/

variable [CustomKind κ] {typeName : String} {declarations : List (Declaration κ ρ)} {s : Schema κ ρ}

/-- The type has a name that it can have. -/
def NamesType (typeName : String) : Prop := typeName ≠ "" ∧ ':' ∉ typeName.toList

/-- A schema is built exactly if all names are good and no declaration excludes a later one. -/
theorem exists_build_iff : (∃ s, build typeName declarations = .ok s) ↔
    NamesType typeName ∧ (∀ x ∈ declarations, x.WellNamed) ∧
      declarations.Pairwise fun x y => ¬x.Excludes y := by
  have hdraft : (declarations.foldl Draft.declare ⟨blank typeName, none⟩).fault = none ↔
      (∀ x ∈ declarations, x.WellNamed) ∧ declarations.Pairwise fun x y => ¬x.Excludes y := by
    rw [Draft.fault_foldl_declare, and_iff_right rfl]
    simp only [Draft.accepts_blank]
  rw [← hdraft]
  constructor
  · intro h
    obtain ⟨s, hs⟩ := h
    exact ⟨typeName_of_build hs, (build_eq_ok hs).1⟩
  · intro h
    obtain ⟨⟨hempty, hcolon⟩, hfault⟩ := h
    have hname : ¬(typeName = "" ∨ typeName.toList.contains ':' = true) :=
      not_or.mpr ⟨hempty, fun hmem => hcolon (List.contains_iff_mem.mp hmem)⟩
    refine ⟨(declarations.foldl Draft.declare ⟨blank typeName, none⟩).schema, ?_⟩
    unfold build
    dsimp only
    rw [hfault]
    exact if_neg hname

/-- A schema has the indexes of declarations of different indexes. -/
theorem hasIndexesOf_iff
    (hindexes : s.indexes = SortedMap.empty.insertAll (declarations.filterMap Declaration.scalarIndex?))
    (hslices : s.sliceIndexes =
      SortedMap.empty.insertAll (declarations.filterMap Declaration.sliceIndex?)) :
    s.HasIndexesOf declarations ↔ (declarations.filterMap Declaration.index?).Nodup := by
  have hperm := Declaration.perm_filterMap_index? declarations
  constructor
  · intro h
    have hnames : s.indexNames.Perm (declarations.filterMap Declaration.index?) :=
      ((h.scalar.map Prod.fst).append (h.slice.map Prod.fst)).trans hperm.symm
    exact hnames.nodup_iff.mp h.names
  · intro h
    obtain ⟨hscalar, hslice, -⟩ := List.nodup_append.mp (hperm.nodup_iff.mp h)
    have hindexes' : s.indexes.toList.Perm (declarations.filterMap Declaration.scalarIndex?) := by
      rw [hindexes]
      exact SortedMap.perm_insertAll hscalar
    have hslices' : s.sliceIndexes.toList.Perm (declarations.filterMap Declaration.sliceIndex?) := by
      rw [hslices]
      exact SortedMap.perm_insertAll hslice
    have hnames : s.indexNames.Perm (declarations.filterMap Declaration.index?) :=
      ((hindexes'.map Prod.fst).append (hslices'.map Prod.fst)).trans hperm.symm
    exact ⟨hnames.nodup_iff.mpr h, hindexes', hslices'⟩

omit [CustomKind κ] in
/-- Declarations that build are of different indexes just if none is overtaken. -/
theorem nodup_index?_iff (h : declarations.Pairwise fun x y => ¬x.Excludes y) :
    (declarations.filterMap Declaration.index?).Nodup ↔
      declarations.Pairwise fun x y => ¬x.Overtaken y := by
  have hpair : ∀ {x y : Declaration κ ρ}, ¬x.Excludes y → (¬x.Overtaken y ↔
      ∀ a, x.index? = some a → ∀ b, y.index? = some b → a ≠ b) := by
    intro x y hxy
    rw [Declaration.overtaken_iff hxy]
    exact ⟨fun hno a ha b hb hab => hno ⟨a, ha, hab ▸ hb⟩,
      fun hne hname => by obtain ⟨a, ha, hb⟩ := hname; exact hne a ha a hb rfl⟩
  unfold List.Nodup
  rw [List.pairwise_filterMap]
  constructor
  · intro hne
    exact h.imp₂ (fun x y hxy hne => (hpair hxy).mpr hne) hne
  · intro hno
    exact h.imp₂ (fun x y hxy hno => (hpair hxy).mp hno) hno

/-- Declarations build just if each of them and the type has a name it can have and none excludes a
later one. The schema then has, under each name, the index that was declared last; and it has every
declared index, once and as it was declared, just if no declaration of an index was overtaken by a
field with an index of the same name. Only then were no two of the declarations of the same index. -/
theorem build_indexes (typeName : String) (declarations : List (Declaration κ ρ)) :
    ((∃ s, build typeName declarations = .ok s) ↔
      NamesType typeName ∧ (∀ x ∈ declarations, x.WellNamed) ∧
        declarations.Pairwise fun x y => ¬x.Excludes y) ∧
    ∀ s, build typeName declarations = .ok s →
      s.indexes = SortedMap.empty.insertAll (declarations.filterMap Declaration.scalarIndex?) ∧
      s.sliceIndexes = SortedMap.empty.insertAll (declarations.filterMap Declaration.sliceIndex?) ∧
      (s.HasIndexesOf declarations ↔ declarations.Pairwise fun x y => ¬x.Overtaken y) ∧
      ((declarations.filterMap Declaration.index?).Nodup ↔
        declarations.Pairwise fun x y => ¬x.Overtaken y) := by
  refine ⟨exists_build_iff, fun s h => ?_⟩
  obtain ⟨-, -, hexcludes⟩ := exists_build_iff.mp ⟨s, h⟩
  obtain ⟨hfault, hs⟩ := build_eq_ok h
  obtain ⟨hindexes, hslices⟩ := Draft.indexes_foldl_declare hfault
  rw [← hs] at hindexes hslices
  have hnodup := nodup_index?_iff hexcludes
  exact ⟨hindexes, hslices, (hasIndexesOf_iff hindexes hslices).trans hnodup, hnodup⟩

section Tags

/-- Items, which are their tags, filed under how many there are. -/
def tagCount : Declaration Empty (List String) :=
  .index "tags" fun tags => .ok (some (Keycode.encode (.uint (.ofNat tags.length) : Value Empty)))

/-- Items filed under each of their tags. -/
def eachTag : Declaration Empty (List String) :=
  .sliceIndex "tags" fun tags => .list (tags.map .string)

/-- The two declarations build in one order, and the name is then that of two indexes; in the other
order the second is refused. -/
theorem build_indexes_tags :
    tagCount.Overtaken eachTag ∧
      (∃ s, build "Item" [tagCount, eachTag] = .ok s ∧ s.indexNames = ["tags", "tags"] ∧
        ¬s.HasIndexesOf [tagCount, eachTag]) ∧
      ¬∃ s, build "Item" [eachTag, tagCount] = .ok s := by
  have htags : tagCount.Overtaken eachTag := ⟨rfl, nofun, rfl⟩
  obtain ⟨-, hbuilt⟩ := build_indexes "Item" [tagCount, eachTag]
  obtain ⟨hother, -⟩ := build_indexes "Item" [eachTag, tagCount]
  refine ⟨htags, ⟨_, rfl, rfl, fun h => ?_⟩, fun h => ?_⟩
  · have hnone := (hbuilt _ rfl).2.2.1.mp h
    exact (List.pairwise_cons.mp hnone).1 eachTag (List.mem_singleton_self _) htags
  · have hnone := (hother.mp h).2.2
    exact (List.pairwise_cons.mp hnone).1 tagCount (List.mem_singleton_self _) rfl

end Tags

end Schema

end RecordStore
