import RecordStore.Query.Clause
import RecordStore.Proofs.Scan
import RecordStore.Proofs.ValueOrder

/-!
# Looking up a key and asking for it

A lookup goes by the key code: it finds the record that is stored under just these bytes. A query for
the key goes by the value that is read back from the key code. Which of the records a query finds lies
under the key code is therefore a question about the key alone: the value that is read back has to
compare equal to the key (`find_key`). That is so of every key without a part of the user's own kind,
and of no list and no map with one. A key of the user's own kind decides itself, by how it compares
with its bytes.
-/

namespace RecordStore

namespace Value

variable {κ : Type} [CustomKind κ] {k : Value κ}

/-- A key is found equal once it is read back if it has no part of the user's own kind, and otherwise
only if it is itself of that kind. -/
theorem cmp_restored_self (hk : ∀ c, k ≠ .custom c) :
    k.restored.cmp k = .ok .eq ↔ k.hasCustomPart = false := by
  constructor
  · intro h
    cases k with
    | custom c => exact absurd rfl (hk c)
    | list items =>
      have hcompare : compare (Keycode.encode (Value.list items).restored)
          (Keycode.encode (Value.list items)) = .eq := Except.ok.inj h
      exact Keycode.encode_restored_iff.mp (Std.LawfulEqOrd.eq_of_compare hcompare)
    | map entries =>
      have hcompare : compare (Keycode.encode (Value.map entries).restored)
          (Keycode.encode (Value.map entries)) = .eq := Except.ok.inj h
      exact Keycode.encode_restored_iff.mp (Std.LawfulEqOrd.eq_of_compare hcompare)
    | _ => rfl
  · intro hplain
    have hdouble : k.KeepsDouble k := by
      intro d x hd hx
      rw [hd] at hx
      cases hx
    exact (cmp_restored hplain hplain hdouble _).mpr (cmp_self hk)

/-- A key of the user's own kind is compared with its bytes. -/
theorem cmp_restored_custom (c : κ) : (Value.custom c).restored.cmp (.custom c) = .ok .eq ↔
    CustomKind.compareTo c (.bytes (CustomKind.toBytes c)) = .ok .eq := by
  show (CustomKind.compareTo c (.bytes (CustomKind.toBytes c))).map Ordering.swap = .ok .eq ↔ _
  cases CustomKind.compareTo c (.bytes (CustomKind.toBytes c)) with
  | error e => exact ⟨by rintro ⟨⟩, by rintro ⟨⟩⟩
  | ok o => cases o <;> simp [Except.map]

end Value

/-- The term that asks for a key. -/
def Term.keyIs {κ ρ : Type} (k : Value κ) : Term κ ρ :=
  Term.all.addCriterion keyField ⟨.compares .eq k, false⟩

namespace Store

variable {κ ρ : Type} [CustomKind κ] {s : Store} {type : RecordType κ ρ} {b : Buckets}
  {k : Value κ} {rows : List (Row κ ρ)} {record : ρ}

/-- A lookup goes by the key code. -/
theorem get_eq_ok : s.get type b k = .ok record ↔
    ∃ bytes, b.get? type.name (Keycode.encode k) = some bytes ∧
      (s.view type b).decode bytes = .ok record := by
  unfold get read?
  cases b.get? type.name (Keycode.encode k) with
  | none => simp
  | some bytes =>
    have hdecode : (s.view type b).decode bytes = s.codec.read type.ofJson? bytes := rfl
    simp only [Option.some.injEq, exists_eq_left', hdecode]
    cases s.codec.read type.ofJson? bytes <;> simp [Except.map]

omit [CustomKind κ] in
/-- The only criteria of a term that asks for a key are those on the key. -/
theorem find?_keyIs (field : String) : (Term.keyIs k : Term κ ρ).criteria.find? field =
    if field = keyField then some [⟨.compares .eq k, false⟩] else none := by
  unfold Term.keyIs Term.addCriterion Term.criteriaOn
  rw [SortedMap.find?_insert]
  rfl

omit [CustomKind κ] in
theorem criteriaOn_keyIs :
    (Term.keyIs k : Term κ ρ).criteriaOn keyField = [⟨.compares .eq k, false⟩] := by
  unfold Term.criteriaOn
  rw [find?_keyIs, if_pos rfl]
  rfl

omit [CustomKind κ] in
/-- The criterion with which the walk for a key accepts entries. -/
theorem walkCriteria_keyIs (typeName : String) :
    (Plan.primaryKey typeName).walkCriteria (Term.keyIs k : Term κ ρ) =
      [⟨.compares .eq k, false⟩] := criteriaOn_keyIs

/-- The walk for a key accepts an entry that is read back as a value equal to the key. -/
theorem accepts_keyIs {e : Entry} :
    ((s.view type b).candidates (.primaryKey type.name) (Term.keyIs k)).accepts e = true ↔
      ∃ key, Keycode.decode e.1 = .ok key ∧ key.cmp k = .ok .eq := by
  have hcriteria : ((s.view type b).candidates (.primaryKey type.name) (Term.keyIs k)).criteria =
      [⟨.compares .eq k, false⟩] := walkCriteria_keyIs type.name
  rw [Candidates.accepts_primaryKey rfl, hcriteria]
  refine exists_congr fun key => and_congr_right fun _ => ?_
  rw [Criterion.allHoldOf_equals]
  constructor
  · intro h
    obtain ⟨o, ho, htrue⟩ := h
    rw [ho, Ordering.isEq_iff_eq_eq.mp htrue.symm]
  · intro h
    exact ⟨.eq, h, rfl⟩

/-- The walk for a key does not pass over the entry under its key code. -/
theorem mem_ahead_keyIs {bytes : Bytes} (h : b.get? type.name (Keycode.encode k) = some bytes) :
    (Keycode.encode k, bytes) ∈
      ((s.view type b).candidates (.primaryKey type.name) (Term.keyIs k)).ahead := by
  have hahead : ((s.view type b).candidates (.primaryKey type.name) (Term.keyIs k)).ahead =
      Candidates.walkFrom (b.entries type.name)
        ((Plan.primaryKey type.name).walkCriteria (Term.keyIs k : Term κ ρ)) := rfl
  rw [hahead, walkCriteria_keyIs]
  refine Candidates.mem_walkFrom (Buckets.mem_entries_iff.mpr h) fun target htarget => ?_
  -- If the walk starts behind the first entry then it is at the key code itself.
  obtain ⟨relation, v, hcriteria, -, -, -, rfl⟩ := Candidates.startCode?_eq_some htarget
  cases hcriteria
  simp

/-- A query for a key finds under its key code what the lookup finds, if the key that is read back
compares equal to the key. -/
theorem exists_row_keyIs
    (hfind : (s.find type b (.ofSelection (.mk (Term.keyIs k) []))).result = .ok rows) :
    (∃ row ∈ rows, row.rawKey = Keycode.encode k ∧ row.record = record) ↔
      s.get type b k = .ok record ∧ k.restored.cmp k = .ok .eq := by
  obtain ⟨htold, rfl⟩ := rows_of_plain rfl hfind
  have hscan : (Plan.primaryKey (s.view type b).typeName).scan = .full ∨
      (Plan.primaryKey (s.view type b).typeName).scan = .primaryKey := .inr rfl
  simp only [View.mem_rows_records hscan]
  constructor
  · intro h
    obtain ⟨row, ⟨⟨bytes, he, haccepted, hkey, hrecord⟩, -⟩, hraw, rfl⟩ := h
    rw [hraw] at he haccepted
    have hget := Buckets.mem_entries_iff.mp ((View.ahead_candidates_suffix _ _ _).subset he)
    obtain ⟨key, hdecode, hcmp⟩ := accepts_keyIs.mp haccepted
    rw [Keycode.decode_encode hdecode] at hcmp
    exact ⟨get_eq_ok.mpr ⟨bytes, hget, hrecord⟩, hcmp⟩
  · intro h
    obtain ⟨hget, hcmp⟩ := h
    obtain ⟨bytes, hget, hrecord⟩ := get_eq_ok.mp hget
    have he : (Keycode.encode k, bytes) ∈
        ((s.view type b).candidates (.primaryKey type.name) (Term.keyIs k)).ahead :=
      mem_ahead_keyIs hget
    -- The query has rows, so the entry was told, and its key code has been read.
    obtain ⟨x, hx⟩ := htold (Buckets.has_of_get? hget) _ he
    obtain ⟨key, hkey, -⟩ := bind_eq_ok.mp hx
    cases Keycode.decode_encode hkey
    refine ⟨⟨k.restored, record, Keycode.encode k⟩, ⟨⟨bytes, he, ?_, hkey, hrecord⟩, ?_⟩, rfl, rfl⟩
    · exact accepts_keyIs.mpr ⟨k.restored, hkey, hcmp⟩
    · intro field criteria hfield hopen
      rw [find?_keyIs] at hfield
      split at hfield
      next hkeyField =>
        rw [hkeyField] at hopen
        cases hopen
      next => cases hfield

/-- What a query for a key finds under its key code. It finds the record that the lookup finds,
exactly if the key that is read back from the key code compares equal to the key. That is so of a key
that is not itself of the user's own kind exactly if no part of it is, and a key of that kind is
compared with its bytes. -/
theorem find_key {q : Query κ ρ}
    (hbuild : Query.build type.schema [.wherever keyField 0 (.compares .eq k)] = .ok q)
    (hfind : (s.find type b q).result = .ok rows) :
    (∀ record, (∃ row ∈ rows, row.rawKey = Keycode.encode k ∧ row.record = record) ↔
      s.get type b k = .ok record ∧ k.restored.cmp k = .ok .eq) ∧
    ((∀ c, k ≠ .custom c) → (k.restored.cmp k = .ok .eq ↔ k.hasCustomPart = false)) ∧
    ∀ c, k = .custom c → (k.restored.cmp k = .ok .eq ↔
      CustomKind.compareTo c (.bytes (CustomKind.toBytes c)) = .ok .eq) := by
  obtain rfl : Query.ofSelection (.mk (Term.keyIs k) []) = q := Except.ok.inj hbuild
  refine ⟨fun record => exists_row_keyIs hfind, Value.cmp_restored_self, fun c hc => ?_⟩
  rw [hc]
  exact Value.cmp_restored_custom c

section Parcels

theorem get_heavyKey {b : Buckets}
    (hrecords : b.entries parcels.name = twoParcels.entries parcels.name) :
    standard.get parcels b (.uint 3) = .ok true := by
  refine get_eq_ok.mpr ⟨Text.utf8 "true", Buckets.mem_entries_iff.mp ?_, by cbv⟩
  rw [hrecords, entries_twoParcels]
  exact List.mem_cons_self ..

/-- The heavy parcel is looked up and asked for. -/
theorem find_key_parcels : ∃ rows,
    Query.build parcels.schema [.wherever keyField 0 (.compares .eq (.uint 3))] =
      .ok (.ofSelection (.mk (Term.keyIs (.uint 3)) [])) ∧
    (standard.find parcels twoParcels (.ofSelection (.mk (Term.keyIs (.uint 3)) []))).result =
      .ok rows ∧
    standard.get parcels twoParcels (.uint 3) = .ok true ∧
    ∃ row ∈ rows, row.rawKey = Keycode.encode (.uint 3 : Value Empty) ∧ row.record = true := by
  obtain ⟨rows, hrows⟩ : ∃ rows, (standard.find parcels twoParcels
      (.ofSelection (.mk (Term.keyIs (.uint 3)) []))).result = .ok rows :=
    exists_plain (fun b => by cbv) (fun b => by cbv) (fun b => ⟨⟨_, by cbv⟩, ⟨_, by cbv⟩⟩)
      fun b recheck => by cases recheck <;> exact ⟨⟨_, by cbv⟩, ⟨_, by cbv⟩⟩
  have hget := get_heavyKey (b := twoParcels) rfl
  obtain ⟨hiff, hplain, -⟩ := find_key rfl hrows
  exact ⟨rows, rfl, hrows, hget, (hiff true).mpr ⟨hget, (hplain (by rintro c ⟨⟩)).mpr rfl⟩⟩

end Parcels

section Envelopes

/-- Envelopes that may be sent, under sealed keys. -/
def envelopes : RecordType Value.Sealed Bool where
  schema := { typeName := "Envelopes", fields := .empty, indexes := .empty, sliceIndexes := .empty }
  toJson? sent := some (.bool sent)
  ofJson? := fun
    | .bool sent => some sent
    | _ => none

/-- A list with a sealed value in it. -/
def sealedKey : Value Value.Sealed := .list [.custom ⟨[0x01]⟩]

/-- An envelope under this key. -/
def oneEnvelope : Buckets := (standard.insert envelopes sealedKey true .empty).2

theorem entries_oneEnvelope :
    oneEnvelope.entries envelopes.name = [(Keycode.encode sealedKey, Text.utf8 "true")] := by
  decide +kernel

theorem exists_envelopes {b : Buckets}
    (hrecords : b.entries envelopes.name = oneEnvelope.entries envelopes.name) :
    ∃ rows, (standard.find envelopes b
      (.ofSelection (.mk (Term.keyIs sealedKey) []))).result = .ok rows := by
  rw [entries_oneEnvelope] at hrecords
  have hplan : (standard.view envelopes b).plan (Term.keyIs sealedKey) =
      .ok (.primaryKey "Envelopes") := by cbv
  refine View.exists_rows (by cbv) hplan (View.sound_records (.inr rfl) rfl) ?_ ?_
  · show ∀ e ∈ b.entries envelopes.name, _
    rw [hrecords, List.forall_mem_singleton]
    exact ⟨_, by cbv⟩
  · show ∀ e ∈ b.entries envelopes.name, _
    rw [hrecords, List.forall_mem_singleton]
    intro recheck
    cases recheck <;> exact ⟨_, by cbv⟩

theorem get_sealedKey {b : Buckets}
    (hrecords : b.entries envelopes.name = oneEnvelope.entries envelopes.name) :
    standard.get envelopes b sealedKey = .ok true := by
  refine get_eq_ok.mpr ⟨Text.utf8 "true", Buckets.mem_entries_iff.mp ?_, by cbv⟩
  rw [hrecords, entries_oneEnvelope]
  exact List.mem_cons_self ..

/-- A lookup finds the envelope and a query does not: what is read back is a list with bytes in it. -/
theorem find_key_ne_get : ∃ rows,
    Query.build envelopes.schema [.wherever keyField 0 (.compares .eq sealedKey)] =
      .ok (.ofSelection (.mk (Term.keyIs sealedKey) [])) ∧
    (standard.find envelopes oneEnvelope
      (.ofSelection (.mk (Term.keyIs sealedKey) []))).result = .ok rows ∧
    standard.get envelopes oneEnvelope sealedKey = .ok true ∧
    ∀ row ∈ rows, row.rawKey ≠ Keycode.encode sealedKey := by
  obtain ⟨rows, hrows⟩ := exists_envelopes rfl
  refine ⟨rows, rfl, hrows, get_sealedKey rfl, fun row hrow hraw => ?_⟩
  have hequal := ((exists_row_keyIs hrows).mp ⟨row, hrow, hraw, rfl⟩).2
  have hplain := (Value.cmp_restored_self (by rintro c ⟨⟩)).mp hequal
  cases hplain

end Envelopes

end Store

end RecordStore
