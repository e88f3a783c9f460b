import RecordStore.Proofs.Scan
import RecordStore.Proofs.Sorting

/-!
# Sorting by keys

Rows are sorted by tuples of field values and members of a group by the values of one field: items are
paired with their keys, and the pairs are sorted by the keys. `SortedBy` says what that must come to.
It holds if the keys belong to the domain of a consistent order and no two of them fail to compare;
otherwise the sort reports the failure of two keys, or stops the program (`sort_sorts`).
-/

namespace RecordStore

section Keyed

variable {α β : Type} {f : β → Except Error α} {cmp : α → α → Except Error Ordering}

/-- Whether the key of an item compares equal to another one. -/
def tiesBy (f : β → Except Error α) (cmp : α → α → Except Error Ordering) (k : α) (x : β) : Bool :=
  match f x with
  | .ok a => ties cmp k a
  | .error _ => false

/-- The key of the first of two items is not after that of the second. -/
def AtMost (f : β → Except Error α) (cmp : α → α → Except Error Ordering) (x y : β) : Prop :=
  ∃ a b o, f x = .ok a ∧ f y = .ok b ∧ cmp a b = .ok o ∧ o ≠ .gt

/-- The same items in ascending order of their keys, those whose keys tie in the order they were
in. -/
structure SortedBy (f : β → Except Error α) (cmp : α → α → Except Error Ordering)
    (items sorted : List β) : Prop where
  perm : sorted.Perm items
  ascends : sorted.Pairwise (AtMost f cmp)
  stable : ∀ x ∈ items, ∀ k, f x = .ok k →
    sorted.filter (tiesBy f cmp k) = items.filter (tiesBy f cmp k)

/-- The answers of a computation over a list, one for each item. -/
theorem forall₂_of_mapM : ∀ {items : List β} {keys : List α}, items.mapM f = .ok keys →
    List.Forall₂ (fun x a => f x = .ok a) items keys
  | [], keys, h => by
    cases h
    exact .nil
  | x :: xs, keys, h => by
    rw [List.mapM_cons] at h
    obtain ⟨a, ha, h⟩ := bind_eq_ok.mp h
    obtain ⟨as, has, h⟩ := bind_eq_ok.mp h
    cases h
    exact .cons ha (forall₂_of_mapM has)

/-- Each answer is that of an item. -/
theorem exists_of_mem_mapM {items : List β} {keys : List α} (h : items.mapM f = .ok keys) {a : α}
    (ha : a ∈ keys) : ∃ x ∈ items, f x = .ok a := by
  obtain ⟨i, hi, rfl⟩ := List.mem_iff_getElem.mp ha
  have hall := forall₂_of_mapM h
  have hi' : i < items.length := by rwa [hall.length_eq]
  exact ⟨items[i], List.getElem_mem hi', hall.get hi' hi⟩

/-- If there is an answer for each item then there is one for the list. -/
theorem exists_mapM : ∀ {items : List β}, (∀ x ∈ items, ∃ a, f x = .ok a) →
    ∃ keys, items.mapM f = .ok keys
  | [], _ => ⟨[], rfl⟩
  | x :: xs, h => by
    obtain ⟨⟨a, ha⟩, hxs⟩ := List.forall_mem_cons.mp h
    obtain ⟨as, has⟩ := exists_mapM hxs
    refine ⟨a :: as, ?_⟩
    rw [List.mapM_cons, ha]
    show (xs.mapM f >>= fun as => pure (a :: as)) = _
    rw [has]
    rfl

variable {items : List β} {keyed sorted : List (α × β)}

/-- Each pair is an item with its key. -/
theorem key_of_mem : ∀ {items : List β} {keyed : List (α × β)},
    (items.mapM fun x => (f x).map (·, x)) = .ok keyed → ∀ p ∈ keyed, f p.2 = .ok p.1
  | [], keyed, h => by
    cases h
    exact fun p hp => absurd hp (List.not_mem_nil)
  | x :: xs, keyed, h => by
    rw [List.mapM_cons] at h
    obtain ⟨first, hfirst, h⟩ := bind_eq_ok.mp h
    obtain ⟨rest, hrest, h⟩ := bind_eq_ok.mp h
    cases h
    refine List.forall_mem_cons.mpr ⟨?_, key_of_mem hrest⟩
    cases hx : f x with
    | error e =>
      rw [hx] at hfirst
      cases hfirst
    | ok a =>
      rw [hx] at hfirst
      cases hfirst
      exact hx

/-- Items that have keys can be paired with them. -/
theorem exists_keyed (items : List β) (h : ∀ x ∈ items, ∃ a, f x = .ok a) :
    ∃ keyed, (items.mapM fun x => (f x).map (·, x)) = .ok keyed :=
  exists_mapM fun x hx => by
    obtain ⟨a, ha⟩ := h x hx
    exact ⟨(a, x), by rw [ha]; rfl⟩

variable {o : FallibleOrder α}

/-- Sorting pairs by their keys sorts what belongs to the keys. -/
theorem sortedBy_of_stableSort (hkeyed : (items.mapM fun x => (f x).map (·, x)) = .ok keyed)
    (hon : ∀ x ∈ items, ∀ a, f x = .ok a → o.On a)
    (h : stableSort (fun p q => o.cmp p.1 q.1) keyed = some (sorted, none)) :
    SortedBy f o.cmp items (sorted.map (·.2)) := by
  have hitems : keyed.map (·.2) = items := View.map_snd_of_mapM hkeyed
  have hkeys := key_of_mem hkeyed
  have hpairs : ∀ p ∈ keyed, (o.comap Prod.fst).On p := fun p hp =>
    hon p.2 (hitems ▸ List.mem_map_of_mem hp) p.1 (hkeys p hp)
  have hsorts := FallibleOrder.sorts_stableSort (o := o.comap Prod.fst) hpairs h
  have hkeys' := hsorts.keeps.all hkeys
  -- A pair ties by its key exactly if its item does.
  have hfilter : ∀ {l : List (α × β)}, (∀ p ∈ l, f p.2 = .ok p.1) → ∀ k (x : β),
      (l.map (·.2)).filter (tiesBy f o.cmp k) =
        (l.filter (ties (o.comap Prod.fst).cmp (k, x))).map (·.2) := by
    intro l hl k x
    rw [List.filter_map]
    refine congrArg (List.map _) (List.filter_congr fun p hp => ?_)
    show tiesBy f o.cmp k p.2 = ties o.cmp k p.1
    unfold tiesBy
    rw [hl p hp]
  refine ⟨?_, ?_, fun x hx k hk => ?_⟩
  · rw [← hitems]
    exact hsorts.keeps.perm.map _
  · refine List.pairwise_map.mpr (hsorts.ascends.pairwise.imp_of_mem fun hp hq hle => ?_)
    obtain ⟨-, -, r, hr, hne⟩ := hle
    exact ⟨_, _, r, hkeys' _ hp, hkeys' _ hq, hr, hne⟩
  · rw [← hitems, hfilter hkeys' k x, hfilter hkeys k x]
    exact congrArg (List.map _) (hsorts.keeps.filter (k, x) (hon x hx k hk))

/-- Two of some items have keys that do not compare, with this failure. -/
def Clash (f : β → Except Error α) (cmp : α → α → Except Error Ordering) (items : List β)
    (e : Error) : Prop :=
  ∃ x ∈ items, ∃ y ∈ items, ∃ a b, f x = .ok a ∧ f y = .ok b ∧ cmp a b = .error e

section Clashes

variable (hkeyed : (items.mapM fun x => (f x).map (·, x)) = .ok keyed)

include hkeyed

/-- Items clash exactly if their pairs do not compare by their keys. -/
theorem clash_iff {e : Error} :
    Clash f o.cmp items e ↔ ∃ p ∈ keyed, ∃ q ∈ keyed, (o.comap Prod.fst).cmp p q = .error e := by
  have hitems : keyed.map (·.2) = items := View.map_snd_of_mapM hkeyed
  have hkeys := key_of_mem hkeyed
  constructor
  · rintro ⟨x, hx, y, hy, a, b, ha, hb, he⟩
    have hpair : ∀ {x : β} {a : α}, x ∈ items → f x = .ok a → (a, x) ∈ keyed := by
      intro x a hx ha
      rw [← hitems] at hx
      obtain ⟨p, hp, rfl⟩ := List.mem_map.mp hx
      cases ha.symm.trans (hkeys p hp)
      exact hp
    exact ⟨(a, x), hpair hx ha, (b, y), hpair hy hb, he⟩
  · rintro ⟨p, hp, q, hq, he⟩
    exact ⟨p.2, hitems ▸ List.mem_map_of_mem hp, q.2, hitems ▸ List.mem_map_of_mem hq, p.1, q.1,
      hkeys p hp, hkeys q hq, he⟩

/-- What became of a sort of pairs by their keys: it gave up or failed and some items clash, or it put
the items in order and none do. -/
theorem stableSort_keyed_cases (hon : ∀ x ∈ items, ∀ a, f x = .ok a → o.On a) :
    (stableSort (fun p q => o.cmp p.1 q.1) keyed = none ∧ ∃ e, Clash f o.cmp items e) ∨
    (∃ sorted e, stableSort (fun p q => o.cmp p.1 q.1) keyed = some (sorted, some e) ∧
      Clash f o.cmp items e) ∨
    ∃ sorted, stableSort (fun p q => o.cmp p.1 q.1) keyed = some (sorted, none) ∧
      ∀ e, ¬Clash f o.cmp items e := by
  have hitems : keyed.map (·.2) = items := View.map_snd_of_mapM hkeyed
  have hpairs : ∀ p ∈ keyed, (o.comap Prod.fst).On p := fun p hp =>
    hon p.2 (hitems ▸ List.mem_map_of_mem hp) p.1 (key_of_mem hkeyed p hp)
  cases h : stableSort (fun p q => o.cmp p.1 q.1) keyed with
  | none =>
    obtain ⟨e, he⟩ := FallibleOrder.exists_of_stableSort_none (o := o.comap Prod.fst) hpairs h
    exact .inl ⟨rfl, e, (clash_iff hkeyed).mpr he⟩
  | some ended =>
    obtain ⟨sorted, failure⟩ := ended
    cases failure with
    | some e =>
      have he := FallibleOrder.exists_of_stableSort (o := o.comap Prod.fst) hpairs h
      exact .inr (.inl ⟨sorted, e, rfl, (clash_iff hkeyed).mpr he⟩)
    | none =>
      refine .inr (.inr ⟨sorted, rfl, fun e he => ?_⟩)
      obtain ⟨p, hp, q, hq, hpq⟩ := (clash_iff hkeyed).mp he
      obtain ⟨r, hr⟩ := (FallibleOrder.stableSort_sorts_iff hpairs).mp ⟨sorted, h⟩ p hp q hq
      cases hpq.symm.trans hr

omit hkeyed in
/-- A sort of pairs gives up only if there are more than a few of them. -/
theorem insertionLimit_lt_of_stableSort_none {cmp : α × β → α × β → Except Error Ordering}
    (hkeyed : (items.mapM fun x => (f x).map (·, x)) = .ok keyed)
    (h : stableSort cmp keyed = none) : StableSort.insertionLimit < items.length := by
  rw [← View.map_snd_of_mapM hkeyed, List.length_map]
  by_contra hfew
  obtain ⟨sorted, failure, hsome⟩ := exists_stableSort cmp (Nat.not_lt.mp hfew)
  cases h.symm.trans hsome

end Clashes

end Keyed

/-! ## Rows -/

namespace Row

variable {κ ρ : Type} [CustomKind κ] {schema : Schema κ ρ} {fields : List String}
  {rows : List (Row κ ρ)}

/-- The values that a field has in some rows. -/
def Values (schema : Schema κ ρ) (rows : List (Row κ ρ)) (field : String) (v : Value κ) : Prop :=
  ∃ row ∈ rows, schema.readField row.record field = .ok v

omit [CustomKind κ] in
/-- The components of a sort key are values of the fields. -/
theorem values_sortKey {row : Row κ ρ} {key : List (Value κ)} (hrow : row ∈ rows)
    (h : row.sortKey schema fields = .ok key) :
    List.Forall₂ (fun D v => D v) (fields.map (Values schema rows)) key :=
  List.forall₂_map_left_iff.mpr ((forall₂_of_mapM h).imp fun _ _ hv => ⟨row, hrow, hv⟩)

omit [CustomKind κ] in
/-- Rows have sort keys by declared fields. -/
theorem exists_sortKey (hdeclared : ∀ field ∈ fields, schema.fields.contains field = true)
    (row : Row κ ρ) : ∃ key, row.sortKey schema fields = .ok key := by
  refine exists_mapM fun field hfield => ?_
  obtain ⟨get, hget⟩ := Option.isSome_iff_exists.mp (hdeclared field hfield)
  unfold Schema.readField
  rw [hget]
  exact ⟨_, rfl⟩

/-- The failure of a comparison of tuples is that of two of their components. -/
theorem exists_of_cmpTuple_error : ∀ {as bs : List (Value κ)} {e : Error},
    Value.cmpTuple as bs = .error e → ∃ a ∈ as, ∃ b ∈ bs, a.cmp b = .error e
  | [], _, _, h => by cases h
  | _ :: _, [], _, h => by cases h
  | a :: as, b :: bs, e, h => by
    rw [Value.cmpTuple] at h
    cases hab : a.cmp b with
    | error e' =>
      rw [hab] at h
      cases h
      exact ⟨a, List.mem_cons_self .., b, List.mem_cons_self .., hab⟩
    | ok r =>
      rw [hab] at h
      cases r with
      | eq =>
        obtain ⟨a', ha', b', hb', he⟩ := exists_of_cmpTuple_error h
        exact ⟨a', List.mem_cons_of_mem a ha', b', List.mem_cons_of_mem b hb', he⟩
      | lt | gt => cases h

section Sorts

variable (hdeclared : ∀ field ∈ fields, schema.fields.contains field = true)
  (hcustom : ∀ field ∈ fields, ∀ v, Values schema rows field v → ∀ c, v ≠ .custom c)
  (htransits : ∀ field ∈ fields, ∀ a b c, Values schema rows field a → Values schema rows field b →
    Values schema rows field c → a.Transits b c)

include hcustom in
/-- What rows clash with is a mismatch of kinds. -/
theorem ne_orderViolation_of_clash {e : Error}
    (h : Clash (sortKey schema fields) Value.cmpTuple rows e) : e ≠ .orderViolation := by
  obtain ⟨row, hrow, row', hrow', key, key', hkey, hkey', he⟩ := h
  have hbuiltin : ∀ {row : Row κ ρ} {key : List (Value κ)}, row ∈ rows →
      row.sortKey schema fields = .ok key → ∀ v ∈ key, ∀ c, v ≠ .custom c := by
    intro row key hrow hkey v hv
    obtain ⟨field, hfield, hread⟩ := exists_of_mem_mapM hkey hv
    exact hcustom field hfield v ⟨row, hrow, hread⟩
  obtain ⟨a, ha, b, hb, hab⟩ := exists_of_cmpTuple_error he
  rw [((Value.cmp_eq_error_iff (hbuiltin hrow hkey a ha) (hbuiltin hrow' hkey' b hb)).mp hab).1]
  rintro ⟨⟩

include hdeclared hcustom htransits

/-- A sort of rows is stopped or fails, and then two rows clash, or it puts the rows in order and none
do. -/
theorem sort_cases (reverse : Bool) :
    (sort schema fields reverse rows = .error .orderViolation ∧
      StableSort.insertionLimit < rows.length ∧
      ∃ e, Clash (sortKey schema fields) Value.cmpTuple rows e) ∨
    (∃ e, sort schema fields reverse rows = .error e ∧
      Clash (sortKey schema fields) Value.cmpTuple rows e) ∨
    ∃ sorted, sort schema fields reverse rows = .ok (if reverse then sorted.reverse else sorted) ∧
      SortedBy (sortKey schema fields) Value.cmpTuple rows sorted ∧
      ∀ e, ¬Clash (sortKey schema fields) Value.cmpTuple rows e := by
  -- Values that compare transitively, none of them custom, are consistently ordered, and so are their
  -- tuples.
  have hordered : ∀ D ∈ fields.map (Values schema rows), Value.Ordered D := by
    refine List.forall_mem_map.mpr fun field hfield => ?_
    exact Value.ordered_of_climbs
      (Value.climbs_of_transits (htransits field hfield) (hcustom field hfield))
      (Value.customsSwap_of_none (hcustom field hfield))
  have hon : ∀ row ∈ rows, ∀ key, row.sortKey schema fields = .ok key →
      (Value.tupleOrder hordered).On key := fun row hrow key => values_sortKey hrow
  obtain ⟨keyed, hkeyed⟩ := exists_keyed rows fun row _ => exists_sortKey hdeclared row
  unfold sort
  rw [hkeyed]
  dsimp only [bind, Except.bind]
  rcases stableSort_keyed_cases (o := Value.tupleOrder hordered) hkeyed hon with
    ⟨hrun, hclash⟩ | ⟨sorted, e, hrun, hclash⟩ | ⟨sorted, hrun, hnone⟩
  all_goals
    have hstable : stableSort (fun a b => Value.cmpTuple a.1 b.1) keyed = _ := hrun
    rw [hstable]
  · exact .inl ⟨rfl, insertionLimit_lt_of_stableSort_none hkeyed hrun, hclash⟩
  · exact .inr (.inl ⟨e, rfl, hclash⟩)
  · have hsorted : SortedBy (sortKey schema fields) Value.cmpTuple rows (sorted.map (·.2)) :=
      sortedBy_of_stableSort hkeyed hon hrun
    exact .inr (.inr ⟨sorted.map (·.2), rfl, hsorted, hnone⟩)

end Sorts

section Marks

/-- What is written on a thing: nothing, a number or a name. -/
abbrev Mark := Option (Int64 ⊕ String)

/-- What is written, as a value. -/
def markOf : Mark → Value Empty
  | none => .nil
  | some (.inl n) => .int n
  | some (.inr name) => .string name

/-- Things with marks. -/
def marks : Schema Empty Mark where
  typeName := "Marks"
  fields := SortedMap.empty.insert "mark" markOf
  indexes := .empty
  sliceIndexes := .empty

/-- Rows with these marks. -/
def marked (written : List Mark) : List (Row Empty Mark) :=
  written.map fun mark => ⟨markOf mark, mark, Keycode.encode (markOf mark)⟩

/-- Eleven numbers, nothing, and ten names in pairs that are the wrong way round. -/
def crossedMarks : List Mark :=
  [5, 3, 8, 1, 9, 2, 7, 4, 6, 11, 10].map (some ∘ .inl) ++ none ::
    ["b", "a", "d", "c", "f", "e", "h", "g", "j", "i"].map (some ∘ .inr)

theorem contains_marks : ∀ field ∈ ["mark"], marks.fields.contains field = true := by
  intro field hfield
  cases List.mem_singleton.mp hfield
  rfl

/-- Marks compare transitively: there is no double among them. -/
theorem transits_marks (rows : List (Row Empty Mark)) :
    ∀ field ∈ ["mark"], ∀ a b c, Values marks rows field a → Values marks rows field b →
      Values marks rows field c → a.Transits b c := by
  have hmark : ∀ v, Values marks rows "mark" v → v.kind ≠ .float := by
    rintro v ⟨row, -, hv⟩
    cases hv
    rcases row.record with _ | n | name <;> rintro ⟨⟩
  intro field hfield a b c ha hb hc
  cases List.mem_singleton.mp hfield
  exact Value.transits_of (fun c => c.elim) (fun c => c.elim) (fun c => c.elim)
    (.inl ⟨hmark a ha, hmark b hb, hmark c hc⟩)

end Marks

end Row

end RecordStore
