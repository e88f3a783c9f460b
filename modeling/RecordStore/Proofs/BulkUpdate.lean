import RecordStore.Proofs.Incremental
import RecordStore.Proofs.Removal
import RecordStore.Proofs.RoundTrip

/-!
# Changing what a query selects

The rows of `updateMatching` are selected before the first of them is changed, so no change can bring a
row in or out. They have different keys, and so each is still as it was found when its turn comes: its
record is what the indexes list for its key, and can be taken out of them if it can be indexed at all
(`exists_changeRow`). What a row becomes is never touched again, and no other key is touched either
(`exists_changeRows`). A record that an index refuses may be stored all the same, as it has no place in
that index; then the row cannot be changed, whatever it would become.
-/

namespace RecordStore

namespace Store

variable {κ ρ : Type} {s : Store} {t : RecordType κ ρ} {b b' : Buckets} {key : Bytes}
  {record old : ρ} {covers : String → Bytes → Prop}

/-! ## One row -/

/-- Indexes in step with the records can be read. -/
theorem InStepFor.readable (hb : s.InStepFor t covers b) : s.Readable t b :=
  fun index hindex => ⟨_, hb index hindex⟩

/-- A record can be kept under a key: it can be written, what is written is read back with the values
of the record, and no index refuses it. -/
structure Admits (s : Store) (t : RecordType κ ρ) (key : Bytes) (record : ρ) : Prop where
  encodes : ∃ bytes, s.codec.write (t.toJson? record) = .ok bytes
  keeps : s.KeepsValuesOf t record
  indexes : s.Indexes t key record

/-- What the codec writes for a record is stored under the key. -/
def Holding (s : Store) (t : RecordType κ ρ) (b : Buckets) (key : Bytes) (record : ρ) : Prop :=
  ∃ bytes, s.codec.write (t.toJson? record) = .ok bytes ∧ b.get? t.name key = some bytes

/-- A stored record that can be indexed makes way for one that can be kept; the key is covered then,
and no other record is touched. -/
theorem exists_changeRow (hcodec : s.codec.StoresKeyLists) (hb : s.InStepFor t covers b)
    (hread : s.read? t b key = .ok (some old)) (hkey : key ≠ []) (hold : s.Indexes t key old)
    (hnew : s.Admits t key record) :
    ∃ b₁ b₂, (s.unfile t key old).Ends b () b₁ ∧ (s.write t key record).Ends b₁ () b₂ ∧
      s.InStepFor t (fun index k => covers index k ∨ k = key) b₂ ∧ s.Holding t b₂ key record ∧
      ∀ k, k ≠ key → b₂.get? t.name k = b.get? t.name k := by
  obtain ⟨b₁, hunfile⟩ := exists_change hcodec hb.readable hold .remove
  obtain ⟨hb₁, hsame⟩ := inStepFor_unfile hcodec.keeps hb hread hunfile
  obtain ⟨stored, hstored, -⟩ := read?_eq_some.mp hread
  have hhas : b₁.has t.name = true := Buckets.has_of_get? ((hsame key).trans hstored)
  obtain ⟨bytes, hbytes⟩ := hnew.encodes
  obtain ⟨b₂, hwrite, hget⟩ := exists_write hcodec hb₁.readable hhas hkey hbytes hnew.indexes
  obtain ⟨hb₂, -⟩ := inStepFor_writeKept hcodec.keeps hnew.keeps hb₁ hwrite
  refine ⟨b₁, b₂, hunfile, hwrite, hb₂, ⟨bytes, hbytes, ?_⟩, fun k hk => ?_⟩
  · rw [hget, if_pos rfl]
  · rw [hget, if_neg hk, hsame]

/-! ## All rows -/

section Rows

variable {σ : Type} {change : σ → ρ → Except Error (ρ × σ)} {state state' : σ}
  {rows : List (Row κ ρ)} {records : List ρ}

/-- What a change makes of the records of rows: it is applied to each of them once, in their order, and
may go by what it has done before. -/
def changed (change : σ → ρ → Except Error (ρ × σ)) (state : σ) (rows : List (Row κ ρ)) :
    Except Error (List ρ × σ) :=
  (rows.mapM fun row => StateT.mk fun state => change state row.record).run state

/-- The rows are changed one after the other, each with the state that the one before it left. -/
theorem changed_cons {row : Row κ ρ} :
    changed change state (row :: rows) = .ok (records, state') ↔
      ∃ record state₁ rest, change state row.record = .ok (record, state₁) ∧
        changed change state₁ rows = .ok (rest, state') ∧ records = record :: rest := by
  unfold changed
  rw [List.mapM_cons, StateT.run_bind, bind_eq_ok]
  constructor
  · intro h
    obtain ⟨⟨record, state₁⟩, hchange, h⟩ := h
    rw [StateT.run_bind, bind_eq_ok] at h
    obtain ⟨⟨rest, state₂⟩, hrest, h⟩ := h
    cases h
    exact ⟨record, state₁, rest, hchange, hrest, rfl⟩
  · intro h
    obtain ⟨record, state₁, rest, hchange, hrest, rfl⟩ := h
    refine ⟨(record, state₁), hchange, ?_⟩
    rw [StateT.run_bind, bind_eq_ok]
    exact ⟨(rest, state'), hrest, rfl⟩

/-- Rows with different keys are changed one after the other, if each change can be kept. Afterwards
the changed records are stored under their keys, and nothing else has changed. -/
theorem exists_changeRows (hcodec : s.codec.StoresKeyLists) :
    ∀ {state : σ} {rows : List (Row κ ρ)} {records : List ρ} {covers : String → Bytes → Prop}
      {b : Buckets}, s.InStepFor t covers b → (rows.map (·.rawKey)).Nodup →
      (∀ row ∈ rows, s.read? t b row.rawKey = .ok (some row.record)) →
      (∀ row ∈ rows, row.rawKey ≠ []) → (∀ row ∈ rows, s.Indexes t row.rawKey row.record) →
      changed change state rows = .ok (records, state') →
      List.Forall₂ (fun row record => s.Admits t row.rawKey record) rows records →
      ∃ b', (s.changeRows t change state rows).Ends b () b' ∧
        s.InStepFor t (fun index k => covers index k ∨ ∃ row ∈ rows, k = row.rawKey) b' ∧
        List.Forall₂ (fun row record => s.Holding t b' row.rawKey record) rows records ∧
        ∀ k, (∀ row ∈ rows, row.rawKey ≠ k) → b'.get? t.name k = b.get? t.name k
  | state, [], records, covers, b, hb, _, _, _, _, _, hnew => by
    cases hnew
    refine ⟨b, Step.ends_pure.mpr ⟨rfl, rfl⟩, ?_, .nil, fun _ _ => rfl⟩
    exact hb.congr (fun _ _ => rfl) fun index v k _ => by simp
  | state, row :: rows, records, covers, b, hb, hnodup, hread, hkey, hold, hchanged, hnew => by
    obtain ⟨record, state₁, rest, hchange, hrest, rfl⟩ := changed_cons.mp hchanged
    cases hnew with
    | cons hrecord hnew =>
    rw [List.forall_mem_cons] at hkey hold
    obtain ⟨b₁, b₂, hunfile, hwrite, hb₂, hholding, hother⟩ :=
      exists_changeRow hcodec hb (hread row (List.mem_cons_self ..)) hkey.1 hold.1 hrecord
    -- The rows behind it are under other keys, and their records are as they were.
    have hne := rawKey_ne hnodup
    have hread₂ : ∀ row' ∈ rows, s.read? t b₂ row'.rawKey = .ok (some row'.record) := by
      intro row' hrow'
      rw [read?_congr (hother _ (hne row' hrow'))]
      exact hread row' (List.mem_cons_of_mem _ hrow')
    obtain ⟨-, htail⟩ := List.nodup_cons.mp hnodup
    obtain ⟨b', hends, hb', hall, hrestOther⟩ :=
      exists_changeRows hcodec hb₂ htail hread₂ hkey.2 hold.2 hrest hnew
    refine ⟨b', ?_, ?_, .cons ?_ hall, fun k hk => ?_⟩
    · unfold changeRows
      rw [Step.ends_bind]
      refine ⟨(), b₁, hunfile, Step.ends_liftExcept_bind.mpr ⟨_, hchange, ?_⟩⟩
      exact Step.ends_bind.mpr ⟨(), b₂, hwrite, hends⟩
    · exact hb'.congr (fun _ _ => rfl) fun index v k _ => by simp [or_assoc]
    · -- What the row has become is not touched again.
      obtain ⟨bytes, hbytes, hget⟩ := hholding
      exact ⟨bytes, hbytes, (hrestOther _ hne).trans hget⟩
    · rw [List.forall_mem_cons] at hk
      exact (hrestOther k hk.2).trans (hother k (Ne.symm hk.1))

/-- A row that was changed had a record that no index refuses. -/
theorem refusal_of_changeRows : ∀ {state : σ} {rows : List (Row κ ρ)} {b : Buckets} {u : Unit},
    (s.changeRows t change state rows).Ends b u b' →
      ∀ row ∈ rows, (Course.filing t row.record).refusal = none
  | _, [], _, _, _ => fun _ hrow => absurd hrow List.not_mem_nil
  | state, row :: rows, b, u, h => by
    unfold changeRows at h
    rw [Step.ends_bind] at h
    obtain ⟨_, b₁, hunfile, h⟩ := h
    rw [Step.ends_liftExcept_bind] at h
    obtain ⟨⟨record, state₁⟩, -, h⟩ := h
    obtain ⟨_, b₂, -, hrest⟩ := Step.ends_bind.mp h
    rw [Course.unfile_eq, Course.ends_run] at hunfile
    refine List.forall_mem_cons.mpr ⟨?_, refusal_of_changeRows hrest⟩
    exact (Course.refusal_changing .add .remove _).trans hunfile.1

/-- Let a query have rows whose records can be indexed, and a change succeed on each of them, with
results that can be kept. Then `updateMatching` counts the rows, and ends with the changed record of
each row stored under its key, all other records as they were, and the indexes in step. -/
theorem updateMatching_selected [CustomKind κ] (hcodec : s.codec.StoresKeyLists) (hb : s.InStep t b)
    {q : Query κ ρ} (hfind : (s.find t b q).result = .ok rows)
    (hold : ∀ row ∈ rows, s.Indexes t row.rawKey row.record)
    (hchanged : changed change state rows = .ok (records, state'))
    (hnew : List.Forall₂ (fun row record => s.Admits t row.rawKey record) rows records) :
    ∃ b', (s.updateMatching t q change state).Ends b rows.length b' ∧
      List.Forall₂ (fun row record => s.Holding t b' row.rawKey record) rows records ∧
      (∀ k, (∀ row ∈ rows, row.rawKey ≠ k) → b'.get? t.name k = b.get? t.name k) ∧
      s.InStep t b' := by
  obtain ⟨hnodup, hstores⟩ := View.rows_kept (hb.for.oneValueEach hcodec.keeps) hfind
  have hkey : ∀ row ∈ rows, row.rawKey ≠ [] := by
    intro row hrow hnil
    obtain ⟨_, _, hdecode, -⟩ := hstores row hrow
    rw [hnil, Keycode.decode_error Keycode.readValue_nil] at hdecode
    cases hdecode
  obtain ⟨b', hends, hb', hholding, hother⟩ := exists_changeRows hcodec hb.for hnodup
    (fun row hrow => read?_of_stores (hstores row hrow)) hkey hold hchanged hnew
  refine ⟨b', ?_, hholding, hother, hb'.inStep fun _ _ _ _ => .inl trivial⟩
  unfold updateMatching
  rw [Step.ends_get_bind, Step.ends_liftTraced_bind]
  exact ⟨rows, hfind, Step.ends_bind.mpr ⟨(), b', hends, Step.ends_pure.mpr ⟨rfl, rfl⟩⟩⟩

end Rows

section Parcels

/-- A heavy parcel becomes light and a light one heavy; the parcels are counted. -/
def turnParcel (count : Nat) (heavy : Bool) : Except Error (Bool × Nat) := .ok (!heavy, count + 1)

theorem changed_turnParcel : ∀ (count : Nat) (rows : List (Row Empty Bool)),
    changed turnParcel count rows = .ok (rows.map fun row => !row.record, count + rows.length)
  | _, [] => rfl
  | count, row :: rows => by
    refine changed_cons.mpr ⟨!row.record, count + 1, _, rfl, ?_, rfl⟩
    rw [changed_turnParcel, List.length_cons, Nat.add_assoc, Nat.add_comm 1]

/-- The entries of a parcel are under its weight and its sizes, each size once. -/
theorem edits_parcels (heavy : Bool) : (Course.filing parcels heavy).edits =
    .entry .add "weight" (Keycode.encode (weightOf heavy)) ::
      (if heavy then [.int 8, .int 9] else [.int 2]).map fun size : Value Empty =>
        .entry .add "sizes" (Keycode.encode size) := by
  cases heavy <;> rfl

theorem indexes_parcels (key : Bytes) (heavy : Bool) : standard.Indexes parcels key heavy := by
  refine (indexes_iff (s := standard) Codec.storesKeyLists_json).mpr
    ⟨by cases heavy <;> rfl, fun index value h => ?_⟩
  obtain ⟨v, rfl⟩ : ∃ v : Value Empty, value = Keycode.encode v := by
    rw [edits_parcels, List.mem_cons, List.mem_map] at h
    rcases h with h | ⟨size, -, h⟩
    · cases h
      exact ⟨_, rfl⟩
    · cases h
      exact ⟨_, rfl⟩
  obtain ⟨tag, more, hcode, -⟩ := Keycode.encode_eq_cons v
  rw [hcode]
  exact List.cons_ne_nil _ _

theorem admits_parcels (key : Bytes) (heavy : Bool) : standard.Admits parcels key heavy :=
  ⟨⟨_, rfl⟩, keepsValues_parcels heavy, indexes_parcels key heavy⟩

/-- All parcels that are stored are found by the index on their weight. -/
theorem exists_byWeight_twoParcels : ∃ rows,
    (standard.find parcels twoParcels (.ofSelection (.mk allByWeight []))).result = .ok rows ∧
      ∀ row, (standard.view parcels twoParcels).Stores row → row ∈ rows := by
  have hone := inStep_twoParcels.for.oneValueEach (s := standard) Codec.keepsKeyLists_json
  have hhas : twoParcels.has "_index:Parcels:weight" = true :=
    Buckets.has_of_entries (by simp [weights_twoParcels])
  obtain ⟨rows, hrows⟩ := exists_byWeight hone hhas (List.Subset.refl _) rfl
  have hstep := inStepIfThere_twoParcels
  refine ⟨rows, hrows, fun row hrow => ?_⟩
  generalize twoParcels = b at hhas hrows hstep hrow
  obtain ⟨plan, hplan, hmem, -⟩ := rows_of_hinted (s := standard) (t := Term.all)
    Codec.keepsKeyLists_json (Schema.build_indexedField build_parcels (List.mem_cons_self ..)) hstep
    hrows
  cases hplan.symm.trans (plan_allByWeight hhas)
  rw [if_pos (by rfl)] at hmem
  refine (hmem.2.2 row).mpr ⟨⟨hrow, fun field criteria _ hfind => ?_⟩, fun c hc => ?_⟩
  · cases hfind
  · cases hc

/-- Both parcels are turned, and change places in the index that they were found by. -/
theorem updateMatching_selected_parcels :
    Codec.json.StoresKeyLists ∧ standard.InStep parcels twoParcels ∧ ∃ rows,
      (standard.find parcels twoParcels (.ofSelection (.mk allByWeight []))).result = .ok rows ∧
      (∀ row ∈ rows, standard.Indexes parcels row.rawKey row.record) ∧
      changed turnParcel 0 rows = .ok (rows.map fun row => !row.record, rows.length) ∧
      List.Forall₂ (fun row record => standard.Admits parcels row.rawKey record) rows
        (rows.map fun row => !row.record) ∧
      heavyRow ∈ rows ∧ ∃ b',
        (standard.updateMatching parcels (.ofSelection (.mk allByWeight [])) turnParcel 0).Ends
          twoParcels rows.length b' ∧
        b'.get? parcels.name heavyRow.rawKey = some (Text.utf8 "false") ∧
        standard.InStep parcels b' := by
  obtain ⟨rows, hrows, hall⟩ := exists_byWeight_twoParcels
  have hheavy : heavyRow ∈ rows := hall _ (matches_heavyRow rfl).stores
  have hchanged : changed turnParcel 0 rows = .ok (rows.map fun row => !row.record, rows.length) := by
    rw [changed_turnParcel, Nat.zero_add]
  have hadmits : List.Forall₂ (fun row record => standard.Admits parcels row.rawKey record) rows
      (rows.map fun row => !row.record) :=
    List.forall₂_map_right_iff.mpr (List.forall₂_same.mpr fun row _ => admits_parcels _ _)
  have hindexes : ∀ row ∈ rows, standard.Indexes parcels row.rawKey row.record :=
    fun row _ => indexes_parcels _ _
  obtain ⟨b', hends, hholding, -, hb'⟩ := updateMatching_selected (s := standard) (t := parcels)
    Codec.storesKeyLists_json inStep_twoParcels hrows hindexes hchanged hadmits
  refine ⟨Codec.storesKeyLists_json, inStep_twoParcels, rows, hrows, hindexes, hchanged, hadmits,
    hheavy, b', hends, ?_, hb'⟩
  obtain ⟨bytes, hwrite, hget⟩ :=
    List.forall₂_same.mp (List.forall₂_map_right_iff.mp hholding) heavyRow hheavy
  rw [hget, ← Except.ok.inj hwrite]
  decide +kernel

end Parcels

section Drawers

/-- The labels of a drawer; those of an old one are only counted. -/
def labelsOf (relabelled : Bool) : Value Empty := if relabelled then .list [.int 1] else .int 5

/-- Drawers, with an index on each label. -/
def drawers : RecordType Empty Bool where
  schema :=
    { typeName := "Drawers"
      fields := SortedMap.empty.insert "labels" labelsOf
      indexes := .empty
      sliceIndexes := SortedMap.empty.insert "labels" fun relabelled =>
        Schema.itemCodes (labelsOf relabelled) }
  toJson? relabelled := some (.bool relabelled)
  ofJson? := fun
    | .bool relabelled => some relabelled
    | _ => none

/-- Drawers before there was an index. -/
def plainDrawers : RecordType Empty Bool :=
  { drawers with schema := { drawers.schema with sliceIndexes := .empty } }

/-- An old drawer from that time. -/
def oldDrawer : Buckets := Step.after (standard.insert plainDrawers (.int 1) false) .empty

theorem entries_oldDrawer :
    oldDrawer.entries drawers.name = [(Keycode.encode (.int 1 : Value Empty), Text.utf8 "false")] := by
  decide +kernel

/-- Giving a drawer labels. -/
def relabelDrawer (_ : Unit) (_ : Bool) : Except Error (Bool × Unit) := .ok (true, ())

theorem changed_relabelDrawer : ∀ rows : List (Row Empty Bool),
    changed relabelDrawer () rows = .ok (rows.map fun _ => true, ())
  | [] => rfl
  | _ :: rows => changed_cons.mpr ⟨true, (), _, rfl, changed_relabelDrawer rows, rfl⟩

theorem read_drawer (relabelled : Bool) : standard.codec.read drawers.ofJson?
    (Text.utf8 (if relabelled then "true" else "false")) = .ok relabelled := by
  cases relabelled <;> cbv

/-- An old drawer has no place in the index on labels, which is in step without it. -/
theorem inStep_oldDrawer : standard.InStep drawers oldDrawer := by
  intro index hindex
  obtain rfl : index = "labels" := List.mem_singleton.mp (mem_indexNames.mpr hindex)
  have hmissing : oldDrawer.has (Index.bucketName drawers.name "labels") = false := by
    decide +kernel
  refine (Index.lists_nothing (Buckets.get?_of_not_has hmissing)).congr (fun _ => rfl)
    fun v k => iff_of_false id fun hfiled => ?_
  obtain ⟨record, hread, hyields⟩ := hfiled
  obtain ⟨bytes, hget, hread⟩ := read?_eq_some.mp hread
  have hmem : (k, bytes) ∈ oldDrawer.entries drawers.name := Buckets.mem_entries_iff.mpr hget
  rw [entries_oldDrawer] at hmem
  cases List.mem_singleton.mp hmem
  cases (read_drawer false).symm.trans hread
  rcases hyields with ⟨file, hfile, -⟩ | ⟨file, vs, hfile, hvs, -⟩
  · cases hfile
  · cases hfile
    cases hvs

theorem admits_relabelled (key : Bytes) : standard.Admits drawers key true := by
  refine ⟨⟨_, rfl⟩, fun bytes hwrite => ⟨true, ?_, fun _ _ => Iff.rfl⟩,
    (indexes_iff (s := standard) Codec.storesKeyLists_json).mpr ⟨rfl, fun index value h => ?_⟩⟩
  · cases hwrite
    exact read_drawer true
  · cases List.mem_singleton.mp h
    decide

/-- The old drawer is found. -/
theorem exists_drawers : ∃ rows,
    (standard.find drawers oldDrawer (.ofSelection (.mk Term.all []))).result = .ok rows ∧
      ⟨.int 1, false, Keycode.encode (.int 1 : Value Empty)⟩ ∈ rows := by
  refine ⟨_, find_all ?_, List.mem_singleton_self _⟩
  rw [entries_oldDrawer]
  generalize oldDrawer = b
  exact .cons ⟨rfl, by cbv, read_drawer false⟩ .nil

/-- The old drawer is found and the new labels could be kept, but it cannot be taken out of an index
that refuses it. -/
theorem updateMatching_refused_drawers : ∃ rows,
    Schema.build drawers.name [.sliceIndex "labels" labelsOf] = .ok drawers.schema ∧
      Codec.json.StoresKeyLists ∧ standard.InStep drawers oldDrawer ∧
      (standard.find drawers oldDrawer (.ofSelection (.mk Term.all []))).result = .ok rows ∧
      changed relabelDrawer () rows = .ok (rows.map fun _ => true, ()) ∧
      List.Forall₂ (fun row record => standard.Admits drawers row.rawKey record) rows
        (rows.map fun _ => true) ∧
      ∀ n b', ¬(standard.updateMatching drawers (.ofSelection (.mk Term.all [])) relabelDrawer ()).Ends
        oldDrawer n b' := by
  obtain ⟨rows, hrows, hold⟩ := exists_drawers
  have hadmits : List.Forall₂ (fun row record => standard.Admits drawers row.rawKey record) rows
      (rows.map fun _ => true) :=
    List.forall₂_map_right_iff.mpr (List.forall₂_same.mpr fun row _ => admits_relabelled _)
  refine ⟨rows, rfl, Codec.storesKeyLists_json, inStep_oldDrawer, hrows, changed_relabelDrawer rows,
    hadmits, fun n b' hends => ?_⟩
  unfold updateMatching at hends
  rw [Step.ends_get_bind, Step.ends_liftTraced_bind] at hends
  obtain ⟨rows', hrows', hends⟩ := hends
  cases hrows.symm.trans hrows'
  obtain ⟨_, b₁, hchange, -⟩ := Step.ends_bind.mp hends
  cases refusal_of_changeRows hchange _ hold

end Drawers

end Store

end RecordStore
