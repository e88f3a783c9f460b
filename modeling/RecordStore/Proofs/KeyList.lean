import RecordStore.KeyList
import Mathlib

/-!
# Key lists as sets in order

A key list that `Ascends` is a set of keys kept in strictly ascending order. The halving search then
tells where a key is (`search_at`), or which keys are below it and which above (`search_before`), so
adding and removing change the set by the one key and keep the order. An ascending list is settled
by its members (`ascends_ext`).
-/

namespace RecordStore.KeyList

open Std

/-- The keys are strictly ascending. -/
def Ascends (l : KeyList) : Prop := l.keys.Pairwise fun a b => compare a b = .lt

theorem ascends_empty : empty.Ascends := List.Pairwise.nil

theorem Ascends.lt {l : KeyList} (h : l.Ascends) {i j : Nat} (hi : i < l.keys.length)
    (hj : j < l.keys.length) (hij : i < j) : compare l.keys[i] l.keys[j] = .lt :=
  (List.pairwise_iff_getElem.mp h) i j hi hj hij

/-- A key that is in order with its neighbours is there once. -/
theorem Ascends.nodup {l : KeyList} (h : l.Ascends) : l.keys.Nodup :=
  List.Pairwise.imp (fun hab => by rintro rfl; simp at hab) h

/-- Two ascending lists with the same members are one list. -/
theorem ascends_ext {l l' : KeyList} (h : l.Ascends) (h' : l'.Ascends)
    (hm : ∀ k, k ∈ l.keys ↔ k ∈ l'.keys) : l = l' := by
  have hp : l.keys.Perm l'.keys := (List.perm_ext_iff_of_nodup h.nodup h'.nodup).mpr hm
  have he : l.keys = l'.keys := by
    refine hp.eq_of_pairwise (fun a b _ _ hab hba => ?_) h h'
    rw [OrientedCmp.gt_of_lt hba] at hab
    cases hab
  cases l
  cases l'
  exact congrArg KeyList.mk he

/-! ## The search -/

/-- The halving keeps, and ends with, a window of positions: what lies before its first position is
smaller than the key, what lies behind it is larger. -/
theorem narrow_spec {l : KeyList} (h : l.Ascends) (key : Bytes) :
    ∀ (size base : Nat), 1 ≤ size → base + size ≤ l.keys.length →
      (∀ i (hi : i < l.keys.length), i < base → compare l.keys[i] key = .lt) →
      (∀ i (hi : i < l.keys.length), base + size ≤ i → compare l.keys[i] key = .gt) →
      narrow l.keys key size base < l.keys.length ∧
      (∀ i (hi : i < l.keys.length), i < narrow l.keys key size base →
        compare l.keys[i] key = .lt) ∧
      (∀ i (hi : i < l.keys.length), narrow l.keys key size base < i →
        compare l.keys[i] key = .gt)
  | size, base, hsize, hfit, hbelow, habove => by
    unfold narrow
    by_cases hone : size ≤ 1
    · rw [if_pos hone]
      exact ⟨by omega, hbelow, fun i hi hlt => habove i hi (by omega)⟩
    · rw [if_neg hone]
      have hmid : base + size / 2 < l.keys.length := by omega
      have hget : l.keys.getD (base + size / 2) [] = l.keys[base + size / 2] := by
        rw [List.getD_eq_getElem?_getD, List.getElem?_eq_getElem hmid]
        rfl
      dsimp only
      rw [hget]
      split
      next hgt =>
        -- The middle key is too large, and so are all behind it.
        refine narrow_spec h key (size - size / 2) base (by omega) (by omega) hbelow ?_
        intro i hi hle
        rcases Nat.eq_or_lt_of_le (show base + size / 2 ≤ i by omega) with heq | hlt
        · subst heq
          exact hgt
        · exact OrientedCmp.gt_of_lt
            (TransCmp.lt_trans (OrientedCmp.lt_of_gt hgt) (h.lt hmid hi hlt))
      next hne =>
        refine narrow_spec h key (size - size / 2) (base + size / 2) (by omega) (by omega) ?_ ?_
        · intro i hi hlt
          have hstep := h.lt hi hmid hlt
          cases hc : compare l.keys[base + size / 2] key with
          | lt => exact TransCmp.lt_trans hstep hc
          | eq => exact TransCmp.lt_of_lt_of_eq hstep hc
          | gt => exact absurd hc hne
        · intro i hi hle
          exact habove i hi (by omega)
  termination_by size => size
  decreasing_by all_goals omega

/-- A key that is found is at the place that is told. -/
theorem search_at {l : KeyList} (h : l.Ascends) {key : Bytes} {p : Nat}
    (hs : l.search key = .at p) : ∃ hp : p < l.keys.length, l.keys[p] = key := by
  unfold search at hs
  split at hs
  next => cases hs
  next hne =>
    have hpos : 1 ≤ l.keys.length := List.length_pos_iff.mpr hne
    obtain ⟨hlt, -, -⟩ := narrow_spec h key l.keys.length 0 hpos (by omega)
      (fun i _ hi => absurd hi (by omega)) (fun i hi hle => absurd hle (by omega))
    dsimp only at hs
    rw [List.getD_eq_getElem?_getD, List.getElem?_eq_getElem hlt] at hs
    split at hs
    next heq =>
      cases hs
      exact ⟨hlt, LawfulEqCmp.eq_of_compare heq⟩
    next => cases hs
    next => cases hs

/-- A key that is not found separates the keys below it from those above it. -/
theorem search_before {l : KeyList} (h : l.Ascends) {key : Bytes} {p : Nat}
    (hs : l.search key = .before p) :
    (∀ k ∈ l.keys.take p, compare k key = .lt) ∧ (∀ k ∈ l.keys.drop p, compare key k = .lt) := by
  -- A position serves if the keys before it are smaller and the others are larger.
  have hsplit : ∀ q : Nat,
      (∀ i (hi : i < l.keys.length), i < q → compare l.keys[i] key = .lt) →
      (∀ i (hi : i < l.keys.length), q ≤ i → compare l.keys[i] key = .gt) →
      (∀ k ∈ l.keys.take q, compare k key = .lt) ∧
        (∀ k ∈ l.keys.drop q, compare key k = .lt) := by
    intro q hbelow habove
    constructor
    · intro k hk
      obtain ⟨i, hi, rfl⟩ := List.mem_take_iff_getElem.mp hk
      exact hbelow i (by omega) (by omega)
    · intro k hk
      obtain ⟨i, hi, rfl⟩ := List.mem_drop_iff_getElem.mp hk
      exact OrientedCmp.lt_of_gt (habove (q + i) (by omega) (by omega))
  unfold search at hs
  split at hs
  next hnil =>
    rw [hnil]
    simp
  next hne =>
    have hpos : 1 ≤ l.keys.length := List.length_pos_iff.mpr hne
    obtain ⟨hlt, hbelow, habove⟩ := narrow_spec h key l.keys.length 0 hpos (by omega)
      (fun i _ hi => absurd hi (by omega)) (fun i hi hle => absurd hle (by omega))
    dsimp only at hs
    rw [List.getD_eq_getElem?_getD, List.getElem?_eq_getElem hlt] at hs
    split at hs
    next => cases hs
    -- The last key left is smaller, so the position is behind it.
    next hclt =>
      cases hs
      refine hsplit _ (fun i hi hle => ?_) (fun i hi hle => habove i hi (by omega))
      rcases Nat.eq_or_lt_of_le (Nat.lt_succ_iff.mp hle) with heq | hl
      · subst heq
        exact hclt
      · exact hbelow i hi hl
    -- It is larger, so the position is its own.
    next hcgt =>
      cases hs
      refine hsplit _ hbelow (fun i hi hle => ?_)
      rcases Nat.eq_or_lt_of_le hle with heq | hl
      · subst heq
        exact hcgt
      · exact habove i hi hl

/-- A search that stops between keys says that the key is not there. -/
theorem not_mem_of_search {l : KeyList} (h : l.Ascends) {key : Bytes} {p : Nat}
    (hs : l.search key = .before p) : key ∉ l.keys := by
  obtain ⟨hbelow, habove⟩ := search_before h hs
  intro hk
  rw [← List.take_append_drop p l.keys] at hk
  rcases List.mem_append.mp hk with hk | hk
  · simpa using hbelow key hk
  · simpa using habove key hk

/-- An ascending list contains a key exactly if it lists it. -/
theorem contains_eq_true_iff {l : KeyList} (h : l.Ascends) (key : Bytes) :
    l.contains key = true ↔ key ∈ l.keys := by
  unfold contains
  split
  next p hs =>
    obtain ⟨hp, rfl⟩ := search_at h hs
    exact ⟨fun _ => List.getElem_mem hp, fun _ => rfl⟩
  next p hs => exact ⟨nofun, fun hk => absurd hk (not_mem_of_search h hs)⟩

/-! ## Adding and removing -/

/-- After an addition the list has the key and those from before. -/
theorem mem_add_iff {l : KeyList} (h : l.Ascends) (key : Bytes) {k : Bytes} :
    k ∈ (l.add key).keys ↔ k = key ∨ k ∈ l.keys := by
  unfold add
  split
  next p hs =>
    obtain ⟨hp, rfl⟩ := search_at h hs
    exact ⟨Or.inr, fun hk => hk.elim (fun he => he ▸ List.getElem_mem hp) id⟩
  next p hs =>
    show k ∈ l.keys.take p ++ key :: l.keys.drop p ↔ _
    conv => rhs; rw [← List.take_append_drop p l.keys]
    rw [List.mem_append, List.mem_append, List.mem_cons, or_left_comm]

theorem ascends_add {l : KeyList} (h : l.Ascends) (key : Bytes) : (l.add key).Ascends := by
  unfold add
  split
  next => exact h
  next p hs =>
    obtain ⟨hbelow, habove⟩ := search_before h hs
    have hparts : (l.keys.take p ++ l.keys.drop p).Pairwise fun a b => compare a b = .lt := by
      rw [List.take_append_drop]
      exact h
    obtain ⟨htake, hdrop, hcross⟩ := List.pairwise_append.mp hparts
    refine List.pairwise_append.mpr ⟨htake, List.pairwise_cons.mpr ⟨habove, hdrop⟩, ?_⟩
    intro a ha b hb
    rcases List.mem_cons.mp hb with rfl | hb
    · exact hbelow a ha
    · exact hcross a ha b hb

/-- After a removal the list has the keys from before without the one. -/
theorem mem_remove_iff {l : KeyList} (h : l.Ascends) (key : Bytes) {k : Bytes} :
    k ∈ (l.remove key).keys ↔ k ≠ key ∧ k ∈ l.keys := by
  unfold remove
  split
  next p hs =>
    obtain ⟨hp, rfl⟩ := search_at h hs
    show k ∈ l.keys.eraseIdx p ↔ _
    rw [List.mem_eraseIdx_iff_getElem]
    constructor
    · rintro ⟨i, hi, hne, rfl⟩
      exact ⟨fun he => hne ((List.Nodup.getElem_inj_iff h.nodup).mp he), List.getElem_mem hi⟩
    · rintro ⟨hne, hk⟩
      obtain ⟨i, hi, rfl⟩ := List.getElem_of_mem hk
      exact ⟨i, hi, fun he => hne (by subst he; rfl), rfl⟩
  next p hs =>
    refine ⟨fun hk => ⟨?_, hk⟩, fun hk => hk.2⟩
    rintro rfl
    exact not_mem_of_search h hs hk

/-- With a key a list is not empty. -/
theorem isEmpty_add (l : KeyList) (key : Bytes) : (l.add key).isEmpty = false := by
  unfold add isEmpty
  split
  next p hs =>
    unfold search at hs
    split at hs
    next => cases hs
    next hne => simpa using hne
  next p _ => simp

theorem ascends_remove {l : KeyList} (h : l.Ascends) (key : Bytes) : (l.remove key).Ascends := by
  unfold remove
  split
  next => exact List.Pairwise.sublist (List.eraseIdx_sublist ..) h
  next => exact h

/-- Removing a key leaves a list as it is exactly if the key is not there. -/
theorem remove_eq_self_iff {l : KeyList} (h : l.Ascends) (key : Bytes) :
    l.remove key = l ↔ key ∉ l.keys := by
  constructor
  · intro hsame hk
    rw [← hsame] at hk
    exact ((mem_remove_iff h key).mp hk).1 rfl
  · intro hnot
    refine ascends_ext (ascends_remove h key) h fun k => (mem_remove_iff h key).trans ?_
    exact ⟨And.right, fun hk => ⟨fun heq => hnot (heq ▸ hk), hk⟩⟩

end RecordStore.KeyList
