import RecordStore.Proofs.Transitivity

/-!
# Orders that may fail

A comparison that fails for some pairs can still be consistent on a domain: each item equals itself,
swapping two items swaps the answer, and two steps that do not go down make one that does not. That is
a `FallibleOrder`. `Le` and `Lt` say that two items of the domain compare so, and they chain although
not every pair compares. A list is `KeepsTies` of another one if it has the same items and items that
tie are in the same order; blocks that go strictly up may be moved past each other. `Sorts` adds that
the list ascends.

Values are such a domain if comparing them is transitive and those of the user's own kind equal
themselves and swap (`ordered_of_climbs`), and so are tuples of such values.
-/

namespace RecordStore

/-- A comparison and a domain on which it is consistent. Items of the domain need not compare. -/
structure FallibleOrder (α : Type) where
  cmp : α → α → Except Error Ordering
  On : α → Prop
  self : ∀ {a}, On a → cmp a a = .ok .eq
  swap : ∀ {a b o}, On a → On b → cmp a b = .ok o → cmp b a = .ok o.swap
  climbs : ∀ {a b c o o'}, On a → On b → On c → cmp a b = .ok o → cmp b c = .ok o' → o ≠ .gt →
    o' ≠ .gt → cmp a c = .ok (o.then o')

/-- Comparing is transitive on a domain: two steps that do not go down make one that does not, and it
stays in place only if both do. -/
def Climbs {α : Type} (cmp : α → α → Except Error Ordering) (On : α → Prop) : Prop :=
  ∀ a b c o o', On a → On b → On c → cmp a b = .ok o → cmp b c = .ok o' → o ≠ .gt → o' ≠ .gt →
    ∃ o'', cmp a c = .ok o'' ∧ o'' ≠ .gt ∧ (o'' = .eq → o = .eq ∧ o' = .eq)

/-- Where swapping swaps the answer, two steps that stay in place make one that does. -/
theorem Climbs.then_eq {α : Type} {cmp : α → α → Except Error Ordering} {On : α → Prop}
    (h : Climbs cmp On)
    (hswap : ∀ {a b o}, On a → On b → cmp a b = .ok o → cmp b a = .ok o.swap) {a b c : α}
    {o o' : Ordering} (ha : On a) (hb : On b) (hc : On c) (hab : cmp a b = .ok o)
    (hbc : cmp b c = .ok o') (hne : o ≠ .gt) (hne' : o' ≠ .gt) : cmp a c = .ok (o.then o') := by
  obtain ⟨o'', hac, hup, heq⟩ := h a b c o o' ha hb hc hab hbc hne hne'
  rw [hac]
  cases o'' with
  | gt => exact absurd rfl hup
  | eq =>
    obtain ⟨rfl, rfl⟩ := heq rfl
    rfl
  | lt =>
    cases o with
    | lt => rfl
    | gt => exact absurd rfl hne
    | eq =>
      cases o' with
      | lt => rfl
      | gt => exact absurd rfl hne'
      | eq =>
        -- The way back does not go down either, though it has to.
        obtain ⟨r, hr, hnot, -⟩ := h c b a .eq .eq hc hb ha (hswap hb hc hbc) (hswap ha hb hab)
          (by decide) (by decide)
        cases hr.symm.trans (hswap ha hc hac)
        exact absurd rfl hnot

/-- Whether an item compares equal to another one. -/
def ties {α : Type} (cmp : α → α → Except Error Ordering) (k x : α) : Bool :=
  match cmp k x with
  | .ok .eq => true
  | _ => false

/-- Items tie exactly if they compare equal. -/
theorem ties_iff {α : Type} {cmp : α → α → Except Error Ordering} {k x : α} :
    ties cmp k x = true ↔ cmp k x = .ok .eq := by
  unfold ties
  split
  next h => exact ⟨fun _ => h, fun _ => rfl⟩
  next h => exact ⟨fun hfalse => Bool.noConfusion hfalse, fun heq => absurd heq h⟩

namespace FallibleOrder

variable {α β : Type} (o : FallibleOrder α) {a b c : α}

/-- The first of two items of the domain is not after the second. -/
def Le (a b : α) : Prop := o.On a ∧ o.On b ∧ ∃ r, o.cmp a b = .ok r ∧ r ≠ .gt

/-- The first of two items of the domain is before the second. -/
def Lt (a b : α) : Prop := o.On a ∧ o.On b ∧ o.cmp a b = .ok .lt

variable {o}

theorem Le.refl (h : o.On a) : o.Le a a := ⟨h, h, .eq, o.self h, by decide⟩

theorem Lt.le (h : o.Lt a b) : o.Le a b := ⟨h.1, h.2.1, .lt, h.2.2, by decide⟩

theorem Le.trans (hab : o.Le a b) (hbc : o.Le b c) : o.Le a c := by
  obtain ⟨ha, hb, r, hr, hne⟩ := hab
  obtain ⟨-, hc, r', hr', hne'⟩ := hbc
  refine ⟨ha, hc, r.then r', o.climbs ha hb hc hr hr' hne hne', ?_⟩
  cases r <;> cases r' <;> first | exact absurd rfl hne | exact absurd rfl hne' | decide

theorem Lt.trans_le (hab : o.Lt a b) (hbc : o.Le b c) : o.Lt a c := by
  obtain ⟨ha, hb, hr⟩ := hab
  obtain ⟨-, hc, r', hr', hne'⟩ := hbc
  exact ⟨ha, hc, o.climbs ha hb hc hr hr' (by decide) hne'⟩

theorem Le.trans_lt (hab : o.Le a b) (hbc : o.Lt b c) : o.Lt a c := by
  obtain ⟨ha, hb, r, hr, hne⟩ := hab
  obtain ⟨-, hc, hr'⟩ := hbc
  refine ⟨ha, hc, (o.climbs ha hb hc hr hr' hne (by decide)).trans ?_⟩
  cases r with
  | lt | eq => rfl
  | gt => exact absurd rfl hne

/-- What comes after an item is not before it or level with it. -/
theorem Lt.not_le (h : o.Lt a b) : ¬o.Le b a := by
  rintro ⟨hb, ha, r, hr, hne⟩
  cases hr.symm.trans (o.swap ha hb h.2.2)
  exact hne rfl

/-- If an item is not before another one then the other one is not after it. -/
theorem le_of_cmp {r : Ordering} (ha : o.On a) (hb : o.On b) (h : o.cmp a b = .ok r)
    (hne : r ≠ .lt) : o.Le b a := by
  refine ⟨hb, ha, r.swap, o.swap ha hb h, fun hgt => hne ?_⟩
  cases r with
  | lt => rfl
  | eq | gt => cases hgt

/-- Two items that tie with a third one are not strictly one before the other. -/
theorem Lt.not_ties {k : α} (h : o.Lt a b) (hk : o.On k) (ha : ties o.cmp k a = true) :
    ties o.cmp k b = false := by
  cases hb : ties o.cmp k b with
  | false => rfl
  | true =>
    have hka := ties_iff.mp ha
    have hkb := ties_iff.mp hb
    have hbk : o.Le b k := ⟨h.2.1, hk, .eq, o.swap hk h.2.1 hkb, by decide⟩
    exact absurd (hbk.trans ⟨hk, h.1, .eq, hka, by decide⟩) h.not_le

/-- Two items one of which is before the other do not tie. -/
theorem Lt.ties_eq_false (h : o.Lt a b) : ties o.cmp a b = false ∧ ties o.cmp b a = false :=
  ⟨h.not_ties h.1 (ties_iff.mpr (o.self h.1)), by
    cases hties : ties o.cmp b a with
    | false => rfl
    | true => cases (ties_iff.mp hties).symm.trans (o.swap h.1 h.2.1 h.2.2)⟩

/-! ## Rearrangements that keep ties in order -/

variable (o)

/-- The same items, and those that tie with one of the domain in the same order. -/
structure KeepsTies (l r : List α) : Prop where
  perm : r.Perm l
  filter : ∀ k, o.On k → r.filter (ties o.cmp k) = l.filter (ties o.cmp k)

/-- The items are in the domain and none is before an earlier one. -/
structure Ascends (l : List α) : Prop where
  on : ∀ x ∈ l, o.On x
  pairwise : l.Pairwise o.Le

/-- The same items in ascending order, those that tie in the order they were in. -/
structure Sorts (l r : List α) : Prop where
  keeps : o.KeepsTies l r
  ascends : o.Ascends r

variable {o} {l l' r r' s : List α}

namespace KeepsTies

theorem refl (l : List α) : o.KeepsTies l l := ⟨List.Perm.refl _, fun _ _ => rfl⟩

theorem trans (h : o.KeepsTies l r) (h' : o.KeepsTies r s) : o.KeepsTies l s :=
  ⟨h'.perm.trans h.perm, fun k hk => (h'.filter k hk).trans (h.filter k hk)⟩

theorem symm (h : o.KeepsTies l r) : o.KeepsTies r l :=
  ⟨h.perm.symm, fun k hk => (h.filter k hk).symm⟩

/-- Rearrangements that keep ties can be put one behind the other. -/
theorem append (h : o.KeepsTies l r) (h' : o.KeepsTies l' r') :
    o.KeepsTies (l ++ l') (r ++ r') :=
  ⟨h.perm.append h'.perm, fun k hk => by
    rw [List.filter_append, List.filter_append, h.filter k hk, h'.filter k hk]⟩

theorem cons (x : α) (h : o.KeepsTies l r) : o.KeepsTies (x :: l) (x :: r) :=
  (refl [x]).append h

/-- Read from behind, a rearrangement that keeps ties keeps them. -/
theorem reverse (h : o.KeepsTies l r) : o.KeepsTies l.reverse r.reverse :=
  ⟨(List.reverse_perm r).trans (h.perm.trans (List.reverse_perm l).symm), fun k hk => by
    rw [List.filter_reverse, List.filter_reverse, h.filter k hk]⟩

theorem all {P : α → Prop} (h : o.KeepsTies l r) (hl : ∀ x ∈ l, P x) : ∀ x ∈ r, P x :=
  fun x hx => hl x (h.perm.mem_iff.mp hx)

end KeepsTies

/-- A block all of whose items are before those of the block in front of it may be moved there: no item
ties with items of both blocks. -/
theorem keepsTies_append_comm (as bs : List α) (h : ∀ b ∈ bs, ∀ a ∈ as, o.Lt b a) :
    o.KeepsTies (as ++ bs) (bs ++ as) := by
  refine ⟨List.perm_append_comm, fun k hk => ?_⟩
  rw [List.filter_append, List.filter_append]
  by_cases hb : ∃ b ∈ bs, ties o.cmp k b = true
  · obtain ⟨b, hb, htie⟩ := hb
    have hnone : as.filter (ties o.cmp k) = [] := by
      refine List.filter_eq_nil_iff.mpr fun a ha hta => ?_
      rw [(h b hb a ha).not_ties hk htie] at hta
      exact Bool.noConfusion hta
    rw [hnone, List.append_nil, List.nil_append]
  · have hnone : bs.filter (ties o.cmp k) = [] :=
      List.filter_eq_nil_iff.mpr fun b hmem htie => hb ⟨b, hmem, htie⟩
    rw [hnone, List.append_nil, List.nil_append]

/-- One item before all of a block may be moved in front of it. -/
theorem keepsTies_cons_comm {x : α} (as : List α) (h : ∀ a ∈ as, o.Lt x a) (l : List α) :
    o.KeepsTies (as ++ x :: l) (x :: (as ++ l)) := by
  have hmove : o.KeepsTies (as ++ [x] ++ l) ([x] ++ as ++ l) := by
    refine (keepsTies_append_comm as [x] fun b hb => ?_).append (KeepsTies.refl l)
    rw [List.mem_singleton.mp hb]
    exact h
  rwa [List.append_assoc, List.append_assoc] at hmove

/-- A stretch that falls strictly may be turned round. -/
theorem keepsTies_reverse : ∀ {l : List α}, l.Pairwise (fun a b => o.Lt b a) →
    o.KeepsTies l l.reverse
  | [], _ => KeepsTies.refl []
  | x :: l, h => by
    obtain ⟨hx, hl⟩ := List.pairwise_cons.mp h
    rw [List.reverse_cons]
    refine KeepsTies.trans ?_ ((keepsTies_reverse hl).append (KeepsTies.refl [x]))
    refine keepsTies_append_comm [x] l fun b hb a ha => ?_
    rw [List.mem_singleton.mp ha]
    exact hx b hb

/-! ## Ascending lists -/

namespace Ascends

theorem nil : o.Ascends [] := ⟨fun _ h => absurd h (List.not_mem_nil), List.Pairwise.nil⟩

theorem singleton (h : o.On a) : o.Ascends [a] :=
  ⟨fun x hx => by rwa [List.mem_singleton.mp hx], List.pairwise_singleton ..⟩

/-- An item that is not after those of an ascending list can be put in front of it. -/
theorem cons (ha : o.On a) (hle : ∀ x ∈ l, o.Le a x) (h : o.Ascends l) : o.Ascends (a :: l) :=
  ⟨List.forall_mem_cons.mpr ⟨ha, h.on⟩, List.pairwise_cons.mpr ⟨hle, h.pairwise⟩⟩

/-- Ascending lists can be put one behind the other if none of the first items is after a later one. -/
theorem append (h : o.Ascends l) (h' : o.Ascends r) (hle : ∀ x ∈ l, ∀ y ∈ r, o.Le x y) :
    o.Ascends (l ++ r) :=
  ⟨List.forall_mem_append.mpr ⟨h.on, h'.on⟩, List.pairwise_append.mpr ⟨h.pairwise, h'.pairwise, hle⟩⟩

theorem tail (h : o.Ascends (a :: l)) : o.Ascends l :=
  ⟨fun x hx => h.on x (List.mem_cons_of_mem a hx), h.pairwise.of_cons⟩

theorem head_on (h : o.Ascends (a :: l)) : o.On a := h.on a (List.mem_cons_self ..)

/-- The first item of an ascending list is not after any of them. -/
theorem head_le (h : o.Ascends (a :: l)) : ∀ x ∈ a :: l, o.Le a x :=
  List.forall_mem_cons.mpr ⟨Le.refl h.head_on, (List.pairwise_cons.mp h.pairwise).1⟩

/-- Items of the domain that are all alike ascend. -/
theorem of_between (hon : ∀ x ∈ l, o.On x) (hle : ∀ x ∈ l, o.Le x a) (hge : ∀ x ∈ l, o.Le a x) :
    o.Ascends l :=
  ⟨hon, List.pairwise_of_forall_mem_list fun x hx y hy => (hle x hx).trans (hge y hy)⟩

end Ascends

namespace Sorts

theorem refl (h : o.Ascends l) : o.Sorts l l := ⟨KeepsTies.refl l, h⟩

/-- An item that is not after the others stays in front when they are sorted. -/
theorem cons (ha : o.On a) (hle : ∀ x ∈ l, o.Le a x) (h : o.Sorts l r) :
    o.Sorts (a :: l) (a :: r) :=
  ⟨h.keeps.cons a, h.ascends.cons ha (h.keeps.all hle)⟩

/-- Parts can be sorted each for itself if no item of the first is after one of the second. -/
theorem append (h : o.Sorts l r) (h' : o.Sorts l' r') (hle : ∀ x ∈ l, ∀ y ∈ l', o.Le x y) :
    o.Sorts (l ++ l') (r ++ r') :=
  ⟨h.keeps.append h'.keeps, h.ascends.append h'.ascends
    (h.keeps.all fun x hx => h'.keeps.all (hle x hx))⟩

end Sorts

/-- What is sorted after a rearrangement that keeps ties is sorted as a whole. -/
theorem KeepsTies.sorts (h : o.KeepsTies l r) (h' : o.Sorts r s) : o.Sorts l s :=
  ⟨h.trans h'.keeps, h'.ascends⟩

/-! ## The order the other way round, and of items with something besides -/

variable (o)

/-- The order the other way round. -/
def flip : FallibleOrder α where
  cmp a b := o.cmp b a
  On := o.On
  self := o.self
  swap ha hb h := o.swap hb ha h
  climbs {a b c r r'} ha hb hc h h' hne hne' := by
    refine (o.climbs hc hb ha h' h hne' hne).trans (congrArg Except.ok ?_)
    cases r <;> cases r' <;> first | exact absurd rfl hne | exact absurd rfl hne' | rfl

/-- The order of items by something that belongs to them. -/
def comap (f : β → α) : FallibleOrder β where
  cmp a b := o.cmp (f a) (f b)
  On b := o.On (f b)
  self := o.self
  swap := o.swap
  climbs := o.climbs

variable {o}

theorem le_flip : o.flip.Le a b ↔ o.Le b a := and_left_comm

/-- The other way round, an item is before another one if that one is before it. -/
theorem lt_flip : o.flip.Lt a b ↔ o.Lt b a := and_left_comm

theorem ties_flip {k x : α} (hk : o.On k) (hx : o.On x) :
    ties o.flip.cmp k x = ties o.cmp k x := by
  refine Bool.eq_iff_iff.mpr (ties_iff.trans (Iff.trans ?_ ties_iff.symm))
  exact ⟨fun h => o.swap hx hk h, fun h => o.swap hk hx h⟩

/-- What keeps ties in order does so both ways. -/
theorem KeepsTies.of_flip (hl : ∀ x ∈ l, o.On x) (h : o.flip.KeepsTies l r) : o.KeepsTies l r := by
  refine ⟨h.perm, fun k hk => ?_⟩
  have hsame : ∀ {s : List α}, (∀ x ∈ s, o.On x) →
      s.filter (ties o.flip.cmp k) = s.filter (ties o.cmp k) := fun hs =>
    List.filter_congr fun x hx => ties_flip hk (hs x hx)
  rw [← hsame hl, ← hsame (h.all hl)]
  exact h.filter k hk

/-- What ascends the other way round ascends from behind. -/
theorem ascends_flip : o.flip.Ascends l ↔ o.Ascends l.reverse := by
  have hpairs : l.Pairwise o.flip.Le ↔ l.reverse.Pairwise o.Le := by
    rw [List.pairwise_reverse]
    exact ⟨fun h => h.imp fun h => le_flip.mp h, fun h => h.imp fun h => le_flip.mpr h⟩
  constructor
  · rintro ⟨hon, h⟩
    exact ⟨fun x hx => hon x (List.mem_reverse.mp hx), hpairs.mp h⟩
  · rintro ⟨hon, h⟩
    exact ⟨fun x hx => hon x (List.mem_reverse.mpr hx), hpairs.mpr h⟩

/-- A list sorted the other way round is sorted from behind. -/
theorem Sorts.of_flip (h : o.flip.Sorts l r) : o.Sorts l.reverse r.reverse := by
  have hl : ∀ x ∈ l, o.On x := h.keeps.symm.all h.ascends.on
  exact ⟨(h.keeps.of_flip hl).reverse, ascends_flip.mp h.ascends⟩

end FallibleOrder

/-! ## Values -/

namespace Value

variable {κ : Type} [CustomKind κ]

/-- Values equal themselves, and swapping two of them swaps the answer. -/
structure Swaps (D : Value κ → Prop) : Prop where
  self : ∀ {a}, D a → a.cmp a = .ok .eq
  swap : ∀ {a b o}, D a → D b → a.cmp b = .ok o → b.cmp a = .ok o.swap

/-- Comparing is consistent on some values. -/
structure Ordered (D : Value κ → Prop) : Prop extends Swaps D where
  climbs : ∀ {a b c o o'}, D a → D b → D c → a.cmp b = .ok o → b.cmp c = .ok o' → o ≠ .gt →
    o' ≠ .gt → a.cmp c = .ok (o.then o')

/-- What is asked of values of the user's own kind among some values: that they equal themselves and
swap. -/
structure CustomsSwap (D : Value κ → Prop) : Prop where
  self : ∀ c, D (.custom c) → (Value.custom c).cmp (.custom c) = .ok .eq
  swap : ∀ c d o, D (.custom c) → D (.custom d) → (Value.custom c).cmp (.custom d) = .ok o →
    (Value.custom d).cmp (.custom c) = .ok o.swap

variable {D : Value κ → Prop}

/-- Without values of the user's own kind nothing is asked. -/
theorem customsSwap_of_none (h : ∀ a, D a → ∀ c, a ≠ .custom c) : CustomsSwap D where
  self c hc := absurd rfl (h _ hc c)
  swap c _ _ hc _ := absurd rfl (h _ hc c)

/-- All other values equal themselves and swap anyway, with those of the user's own kind too. -/
theorem CustomsSwap.swaps (h : CustomsSwap D) : Swaps D := by
  refine ⟨fun {a} ha => ?_, fun {a b o} ha hb hcmp => ?_⟩
  · by_cases hca : ∃ c, a = .custom c
    · obtain ⟨c, rfl⟩ := hca
      exact h.self c ha
    · exact cmp_self fun c h => hca ⟨c, h⟩
  · by_cases hca : ∃ c, a = .custom c
    · obtain ⟨c, rfl⟩ := hca
      cases b with
      | custom d => exact h.swap c d o ha hb hcmp
      | _ => exact congrArg (Except.map Ordering.swap) hcmp
    · by_cases hcb : ∃ d, b = .custom d
      · obtain ⟨d, rfl⟩ := hcb
        -- Behind a built-in value a custom one is asked, and its answer is turned round.
        have hmap : a.cmp (.custom d) = (CustomKind.compareTo d a).map Ordering.swap := by
          cases a with
          | custom c => exact absurd ⟨c, rfl⟩ hca
          | _ => rfl
        rw [hmap] at hcmp
        show CustomKind.compareTo d a = _
        cases hd : CustomKind.compareTo d a with
        | error e =>
          rw [hd] at hcmp
          cases hcmp
        | ok r =>
          rw [hd] at hcmp
          cases hcmp
          rw [Ordering.swap_swap]
      · exact cmp_swap (fun c h => hca ⟨c, h⟩) (fun d h => hcb ⟨d, h⟩) hcmp

/-- A step up from a built-in kind stays within numbers, or within one kind, or starts at `nil`; so
what compares with its end compares with its start. -/
theorem exists_cmp_of_steps {a b c : Value κ} {o o' : Ordering} (ha : ∀ d, a ≠ .custom d)
    (hb : ∀ d, b ≠ .custom d) (hc : ∀ d, c ≠ .custom d) (hab : a.cmp b = .ok o)
    (hbc : b.cmp c = .ok o') (hne : o ≠ .gt) : ∃ o'', a.cmp c = .ok o'' := by
  cases h : a.cmp c with
  | ok o'' => exact ⟨o'', rfl⟩
  | error e =>
    obtain ⟨-, hna, hnc, hnumbers, hkinds⟩ := (cmp_eq_error_iff ha hc).mp h
    -- A step up from a value that is not `nil` does not end at `nil`.
    have hnb : b.kind ≠ .nil := by
      intro hnil
      cases b with
      | nil =>
        obtain ⟨x, y, -, hy, -⟩ | ⟨-, -, hcodes⟩ := (cmp_eq_ok_iff ha hb).mp hab
        · cases hy
        · rw [compare_nil_encode a hna] at hcodes
          exact hne hcodes.symm
      | _ => cases hnil
    -- So each step is between numbers or within one kind.
    have hstep : ∀ {u v : Value κ} {r : Ordering}, (∀ d, u ≠ .custom d) → (∀ d, v ≠ .custom d) →
        u.cmp v = .ok r → u.kind ≠ .nil → v.kind ≠ .nil →
        u.kind.isNumeric = true ∧ v.kind.isNumeric = true ∨ u.kind = v.kind := by
      intro u v r hu hv huv hnu hnv
      obtain ⟨x, y, hx, hy, -⟩ | ⟨-, hk, -⟩ := (cmp_eq_ok_iff hu hv).mp huv
      · exact .inl (exists_number?_iff.mp ⟨x, y, hx, hy⟩)
      · exact .inr ((hk.resolve_left hnu).resolve_left hnv)
    rcases hstep ha hb hab hna hnb with ⟨hnum, hnum'⟩ | hab'
    · rcases hstep hb hc hbc hnb hnc with ⟨-, hnum''⟩ | hbc'
      · exact absurd ⟨hnum, hnum''⟩ hnumbers
      · exact absurd ⟨hnum, hbc' ▸ hnum'⟩ hnumbers
    · rcases hstep hb hc hbc hnb hnc with ⟨hnum', hnum''⟩ | hbc'
      · exact absurd ⟨hab' ▸ hnum', hnum''⟩ hnumbers
      · exact absurd (hab'.trans hbc') hkinds

/-- Values of the built-in kinds chain if all triples that compare do. -/
theorem climbs_of_transits (htransits : ∀ a b c, D a → D b → D c → a.Transits b c)
    (hcustom : ∀ a, D a → ∀ c, a ≠ .custom c) : Climbs cmp D := by
  intro a b c o o' ha hb hc hab hbc hne hne'
  obtain ⟨o'', hac⟩ :=
    exists_cmp_of_steps (hcustom a ha) (hcustom b hb) (hcustom c hc) hab hbc hne
  exact ⟨o'', hac, htransits a b c ha hb hc o o' o'' hab hbc hac hne hne'⟩

/-- Integers are values whose triples all do. -/
theorem transits_of_ints (h : ∀ a, D a → ∃ n, a = .int n) (a b c : Value κ) (ha : D a) (hb : D b)
    (hc : D c) : a.Transits b c := by
  obtain ⟨l, rfl⟩ := h a ha
  obtain ⟨m, rfl⟩ := h b hb
  obtain ⟨n, rfl⟩ := h c hc
  exact transits_of (by simp) (by simp) (by simp) (.inl ⟨by rintro ⟨⟩, by rintro ⟨⟩, by rintro ⟨⟩⟩)

/-- Comparing is consistent where it is transitive and the values of the user's own kind swap. -/
theorem ordered_of_climbs (hclimbs : Climbs cmp D) (hcustoms : CustomsSwap D) : Ordered D where
  toSwaps := hcustoms.swaps
  climbs := hclimbs.then_eq hcustoms.swaps.swap

/-- The order of values on which comparing is consistent. -/
def Ordered.order (h : Ordered D) : FallibleOrder (Value κ) where
  cmp := cmp
  On := D
  self := h.self
  swap := h.swap
  climbs := h.climbs

/-! ## Tuples -/

/-- A tuple equals itself if each of its components does. -/
theorem cmpTuple_self :
    ∀ {Ds : List (Value κ → Prop)} {as}, (∀ D ∈ Ds, Swaps D) →
      List.Forall₂ (fun D v => D v) Ds as → cmpTuple as as = .ok .eq
  | _, _, _, .nil => rfl
  | _, _, h, .cons ha has => by
    obtain ⟨hD, hDs⟩ := List.forall_mem_cons.mp h
    unfold cmpTuple
    rw [hD.self ha]
    exact cmpTuple_self hDs has

/-- The first components decide unless they are equal, and then the others do. -/
theorem cmpTuple_cons {a b : Value κ} {as bs : List (Value κ)} {o : Ordering} :
    cmpTuple (a :: as) (b :: bs) = .ok o ↔
      ∃ r, a.cmp b = .ok r ∧ (r ≠ .eq ∧ o = r ∨ r = .eq ∧ cmpTuple as bs = .ok o) := by
  rw [cmpTuple]
  cases a.cmp b with
  | error e => simp
  | ok r => cases r <;> simp [eq_comm]

/-- Swapping two tuples swaps the answer if it does so for their components. -/
theorem cmpTuple_swap :
    ∀ {Ds : List (Value κ → Prop)} {as bs o}, (∀ D ∈ Ds, Swaps D) →
      List.Forall₂ (fun D v => D v) Ds as → List.Forall₂ (fun D v => D v) Ds bs →
      cmpTuple as bs = .ok o → cmpTuple bs as = .ok o.swap
  | _, _, _, _, _, .nil, .nil, ho => by
    cases ho
    rfl
  | _, _, _, _, h, .cons ha has, .cons hb hbs, ho => by
    obtain ⟨hD, hDs⟩ := List.forall_mem_cons.mp h
    obtain ⟨r, hr, ⟨hne, rfl⟩ | ⟨rfl, hrest⟩⟩ := cmpTuple_cons.mp ho
    · refine cmpTuple_cons.mpr ⟨_, hD.swap ha hb hr, .inl ⟨fun heq => hne ?_, rfl⟩⟩
      exact Ordering.swap_eq_eq.mp heq
    · exact cmpTuple_cons.mpr ⟨_, hD.swap ha hb hr, .inr ⟨rfl, cmpTuple_swap hDs has hbs hrest⟩⟩

/-- Two steps up lead up. The first components go up, or are equal and then the rest goes up. -/
theorem cmpTuple_climbs :
    ∀ {Ds : List (Value κ → Prop)} {as bs cs o o'}, (∀ D ∈ Ds, Ordered D) →
      List.Forall₂ (fun D v => D v) Ds as → List.Forall₂ (fun D v => D v) Ds bs →
      List.Forall₂ (fun D v => D v) Ds cs → cmpTuple as bs = .ok o → cmpTuple bs cs = .ok o' →
      o ≠ .gt → o' ≠ .gt → cmpTuple as cs = .ok (o.then o')
  | _, _, _, _, _, _, _, .nil, .nil, .nil, ho, ho', _, _ => by
    cases ho
    cases ho'
    rfl
  | _, _, _, _, o, o', h, .cons ha has, .cons hb hbs, .cons hc hcs, ho, ho', hne, hne' => by
    obtain ⟨hD, hDs⟩ := List.forall_mem_cons.mp h
    obtain ⟨r, hr, hrest⟩ := cmpTuple_cons.mp ho
    obtain ⟨r', hr', hrest'⟩ := cmpTuple_cons.mp ho'
    have hup : r ≠ .gt := by
      rcases hrest with ⟨-, rfl⟩ | ⟨rfl, -⟩
      · exact hne
      · decide
    have hup' : r' ≠ .gt := by
      rcases hrest' with ⟨-, rfl⟩ | ⟨rfl, -⟩
      · exact hne'
      · decide
    -- The first components decide unless both steps stay in place there, and then the rest does.
    refine cmpTuple_cons.mpr ⟨r.then r', hD.climbs ha hb hc hr hr' hup hup', ?_⟩
    rcases hrest with ⟨hfirst, rfl⟩ | ⟨rfl, hrest⟩
    · cases o with
      | lt => exact .inl ⟨by rintro ⟨⟩, rfl⟩
      | eq => exact absurd rfl hfirst
      | gt => exact absurd rfl hne
    · rcases hrest' with ⟨hfirst, rfl⟩ | ⟨rfl, hrest'⟩
      · cases o with
        | lt =>
          cases o' with
          | lt => exact .inl ⟨by decide, rfl⟩
          | eq => exact absurd rfl hfirst
          | gt => exact absurd rfl hne'
        | eq => exact .inl ⟨hfirst, rfl⟩
        | gt => exact absurd rfl hne
      · exact .inr ⟨rfl, cmpTuple_climbs hDs has hbs hcs hrest hrest' hne hne'⟩

variable {Ds : List (Value κ → Prop)}

/-- The order of tuples whose components are values on which comparing is consistent. -/
def tupleOrder (h : ∀ D ∈ Ds, Ordered D) : FallibleOrder (List (Value κ)) where
  cmp := cmpTuple
  On := List.Forall₂ (fun D v => D v) Ds
  self := cmpTuple_self fun D hD => (h D hD).toSwaps
  swap := cmpTuple_swap fun D hD => (h D hD).toSwaps
  climbs := cmpTuple_climbs h

end Value

end RecordStore
