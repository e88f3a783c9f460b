import RecordStore.Proofs.FailedWrite
import RecordStore.Proofs.StoredRows

/-!
# What calls keep

However long it is, a call on a type makes but a few kinds of changes: it makes the bucket of the
records and counts its sequence, it stores and takes out records there, it changes entries of index
buckets and drops index buckets. A property that each of these changes keeps (`KeptByCalls`) is kept
by every call, whether it ends or fails (`kept_mutation`). Records are stored under few keys: those
that are taken already, those that are given to the call, and the next number where the call counts.
-/

namespace RecordStore

open Step (Keeps)

/-! ## Indexes -/

namespace Index

variable {κ ρ : Type} {P : Buckets → Prop} {codec : Codec} {own : String → Prop}

/-- To change an entry is to make its bucket, and to take the entry out or to store it. -/
theorem keeps_changeEntry {bucket : String} {value : Bytes} (hcreate : Keeps P (Buckets.create bucket))
    (hdelete : Keeps P (Buckets.delete bucket value))
    (hput : ∀ bytes, Keeps P (Buckets.put bucket value bytes)) (change : Change) (key : Bytes) :
    Keeps P (changeEntry codec change bucket key value) := by
  have hstore : ∀ keys, Keeps P (storeKeys codec bucket value keys) := by
    intro keys
    unfold storeKeys
    split
    next => exact hdelete
    next => exact (Step.keeps_liftExcept _).bind hput
  have hthere : Keeps P (do
      let s ← Step.get
      if s.has bucket then
        let keys ← keysAt codec s bucket value
        storeKeys codec bucket value (change.apply keys key) : Step Buckets Unit) := by
    refine Step.keeps_get.bind fun s => ?_
    split
    next => exact (Step.keeps_liftExcept _).bind fun keys => hstore _
    next => exact Step.keeps_pure ()
  unfold changeEntry
  split
  next => exact hcreate.bind fun _ => hthere
  next => exact hthere

/-- What is kept when entries of these buckets are changed, and when one of the buckets is dropped. -/
structure KeptIn (codec : Codec) (own : String → Prop) (P : Buckets → Prop) : Prop where
  entry : ∀ {bucket}, own bucket → ∀ (change : Change) (key value : Bytes),
    Keeps P (changeEntry codec change bucket key value)
  drop : ∀ {bucket}, own bucket → Keeps P (Buckets.deleteBucket bucket)

/-- A record comes in and goes out through the buckets of the declared indexes. -/
theorem KeptIn.changeAll (h : KeptIn codec own P) {schema : Schema κ ρ}
    (hown : ∀ index, schema.hasIndex index = true → own (bucketName schema.typeName index))
    (change : Change) (key : Bytes) (record : ρ) :
    Keeps P (changeAll codec change schema key record) := by
  have hnamed : ∀ {index}, index ∈ schema.indexNames → own (bucketName schema.typeName index) :=
    fun hname => hown _ (Store.mem_indexNames.mp hname)
  unfold Index.changeAll
  refine (Step.keeps_forM fun entry hentry => ?_).bind fun _ => Step.keeps_forM fun entry hentry => ?_
  · have hentry := hnamed (List.mem_append_left _ (List.mem_map_of_mem hentry))
    refine (Step.keeps_liftExcept _).bind fun value? => ?_
    cases value? with
    | none => exact Step.keeps_pure ()
    | some value => exact h.entry hentry change key value
  · have hentry := hnamed (List.mem_append_right _ (List.mem_map_of_mem hentry))
    refine (Step.keeps_liftExcept _).bind fun values => Step.keeps_forM fun value _ => ?_
    exact h.entry hentry change key value

end Index

namespace Store

/-! ## Building anew -/

section Rebuild

variable {κ ρ : Type} {s : Store} {t : RecordType κ ρ} {own : String → Prop} {P : Buckets → Prop}
  {b : Buckets}

/-- What is kept when a bucket is dropped is kept when it may not be there. -/
theorem keeps_dropIfPresent {bucket : String} (h : Keeps P (Buckets.deleteBucket bucket)) :
    Keeps P (dropIfPresent bucket) := by
  refine Step.keeps_get.bind fun b => ?_
  split
  next => exact h
  next => exact Step.keeps_pure ()

/-- What every entry of the own indexes keeps is kept when a whole list is filed, copied or not. -/
theorem keeps_fileEntries (h : Index.KeptIn s.codec own P)
    (hown : ∀ index, t.schema.hasIndex index = true → own (Index.bucketName t.name index))
    {copying : Bool} : ∀ {entries : List Entry},
      (copying = true → ∀ e ∈ entries, Keeps P (Buckets.put t.name e.1 e.2)) →
        Keeps P (s.fileEntries t copying entries)
  | [], _ => Step.keeps_pure ()
  | (key, bytes) :: entries, hput => by
    have hrest : Keeps P (s.fileEntries t copying entries) := keeps_fileEntries h hown
      fun hcopying e he => hput hcopying e (List.mem_cons_of_mem _ he)
    have hfile : ∀ record, Keeps P (do
        Index.add s.codec t.schema key record
        s.fileEntries t copying entries) := fun record =>
      (h.changeAll hown .add key record).bind fun _ => hrest
    unfold fileEntries
    refine (Step.keeps_liftExcept _).bind fun record => ?_
    split
    next hcopying => exact (hput hcopying _ (List.mem_cons_self ..)).bind fun _ => hfile record
    next => exact hfile record

/-- Where nothing is copied, building anew only changes and drops the declared indexes. What is copied
from another bucket was stored there before. -/
theorem kept_rebuild (h : Index.KeptIn s.codec own P)
    (hown : ∀ index, t.schema.hasIndex index = true → own (Index.bucketName t.name index))
    {source : Option String} (hcreate : source.isSome = true → Keeps P (Buckets.create t.name))
    (hput : ∀ origin, source = some origin → ∀ key bytes, b.get? origin key = some bytes →
      Keeps P (Buckets.put t.name key bytes)) (hb : P b) : P ((s.rebuild t source).after b) := by
  obtain ⟨b₁, hdrop, -⟩ := exists_dropAll t.name t.schema.indexNames b
  have hdrops : Keeps P
      (t.schema.indexNames.forM fun index => dropIfPresent (Index.bucketName t.name index)) :=
    Step.keeps_forM fun index hindex =>
      keeps_dropIfPresent (h.drop (hown index (mem_indexNames.mp hindex)))
  have hb₁ : P b₁ := by
    have hafter := hdrops b hb
    rwa [Step.after, hdrop.2] at hafter
  -- The entries are read when the indexes are gone, which may have left less of them.
  have hcopies : source.isSome = true → ∀ e ∈ b₁.entries (source.getD t.name),
      Keeps P (Buckets.put t.name e.1 e.2) := by
    intro hsome e he
    obtain ⟨origin, rfl⟩ := Option.isSome_iff_exists.mp hsome
    have hentry := Buckets.mem_entries_iff.mp he
    rw [Option.getD_some, get?_dropAll hdrop] at hentry
    split at hentry
    next => cases hentry
    next => exact hput origin rfl e.1 e.2 hentry
  have hfile : Keeps P (do
      s.fileEntries t source.isSome (b₁.entries (source.getD t.name))
      Step.report (.rebuildComplete t.name (b₁.entries (source.getD t.name)).length)
      pure (b₁.entries (source.getD t.name)).length : Step Buckets Nat) :=
    (keeps_fileEntries h hown hcopies).bind fun _ =>
      (Step.keeps_report _).bind fun _ => Step.keeps_pure _
  unfold rebuild
  rw [Step.after_bind_of_ends (a := ()) (Step.ends_report.mpr rfl), Step.after_bind_of_ends hdrop,
    Step.after_get_bind]
  dsimp only
  split
  next hcreates =>
    have hsome := (Bool.and_eq_true_iff.mp hcreates).1
    exact ((hcreate hsome).bind fun _ => hfile) b₁ hb₁
  next => exact hfile b₁ hb₁

end Rebuild

/-! ## Calls -/

section Calls

variable {κ ρ : Type}

/-- What is kept by each of the changes that a call makes, if records are stored under these keys
only. -/
structure KeptByCalls (s : Store) (t : RecordType κ ρ) (keys : Bytes → Prop) (P : Buckets → Prop) :
    Prop where
  indexes : Index.KeptIn s.codec (fun n => ∃ index, n = Index.bucketName t.name index) P
  create : Keeps P (Buckets.create t.name)
  put : ∀ {key}, keys key → ∀ bytes, Keeps P (Buckets.put t.name key bytes)
  delete : ∀ key, Keeps P (Buckets.delete t.name key)
  count : Keeps P (Buckets.nextSequence t.name)

namespace KeptByCalls

variable {s : Store} {t : RecordType κ ρ} {keys : Bytes → Prop} {P : Buckets → Prop} {b : Buckets}

theorem unfile (h : KeptByCalls s t keys P) (key : Bytes) (record : ρ) :
    Keeps P (s.unfile t key record) :=
  h.indexes.changeAll (fun index _ => ⟨index, rfl⟩) .remove key record

theorem write (h : KeptByCalls s t keys P) {key : Bytes} (hkey : keys key) (record : ρ) :
    Keeps P (s.write t key record) := by
  unfold Store.write
  refine (Step.keeps_liftExcept _).bind fun bytes => (h.put hkey bytes).bind fun _ => ?_
  exact h.indexes.changeAll (fun index _ => ⟨index, rfl⟩) .add key record

theorem take (h : KeptByCalls s t keys P) (key : Bytes) (record : ρ) : Keeps P (s.take t key record) :=
  (h.delete key).bind fun _ => h.unfile key record

theorem removeIndex (h : KeptByCalls s t keys P) (index : String) :
    Keeps P (s.removeIndex t index) := by
  unfold Store.removeIndex
  refine Step.keeps_get.bind fun b => ?_
  split
  next => exact (h.indexes.drop ⟨index, rfl⟩).bind fun _ => Step.keeps_report _
  next => exact Step.keeps_fail _

/-- A rebuild keeps it if the keys that are copied are allowed. -/
theorem rebuild (h : KeptByCalls s t keys P) {source : Option String}
    (hcopied : ∀ origin, source = some origin → ∀ key, (b.get? origin key).isSome = true → keys key)
    (hb : P b) : P ((s.rebuild t source).after b) := by
  refine kept_rebuild h.indexes (fun index _ => ⟨index, rfl⟩) (fun _ => h.create)
    (fun origin horigin key bytes hget => h.put ?_ bytes) hb
  exact hcopied origin horigin key (Option.isSome_of_eq_some hget)

theorem changeRows (h : KeptByCalls s t keys P) {σ : Type} (change : σ → ρ → Except Error (ρ × σ)) :
    ∀ (state : σ) {rows : List (Row κ ρ)}, (∀ row ∈ rows, keys row.rawKey) →
      Keeps P (s.changeRows t change state rows)
  | _, [], _ => Step.keeps_pure ()
  | state, row :: rows, hrows => by
    unfold Store.changeRows
    refine (h.unfile row.rawKey row.record).bind fun _ => ?_
    refine (Step.keeps_liftExcept _).bind fun changed => ?_
    obtain ⟨record, state'⟩ := changed
    refine (h.write (hrows row (List.mem_cons_self ..)) record).bind fun _ => ?_
    exact h.changeRows change state' fun row hrow => hrows row (List.mem_cons_of_mem _ hrow)

variable [CustomKind κ]

theorem insert (h : KeptByCalls s t keys P) {key : Value κ} (hkey : keys (Keycode.encode key))
    (record : ρ) : Keeps P (s.insert t key record) := by
  unfold Store.insert
  dsimp only
  refine h.create.bind fun _ => Step.keeps_get.bind fun b => ?_
  split
  next => exact Step.keeps_fail _
  next => exact h.write hkey record

/-- The record is stored under the next number, and only if there is one. -/
theorem insertNext (h : KeptByCalls s t keys P)
    (hnext : upcoming b t.name ≠ 0 → keys (Keycode.encode (.uint (upcoming b t.name) : Value κ)))
    (record : ρ) (hb : P b) : P ((s.insertNext t record).after b) := by
  unfold Store.insertNext
  have hcreated := h.create b hb
  rcases Step.ends_or_fails (Buckets.create t.name) b with ⟨_, hcreate⟩ | ⟨e, hcreate⟩
  · rw [Step.after_bind_of_ends hcreate]
    have hbucket := Buckets.bucket?_create hcreate
    generalize (Buckets.create t.name).after b = b₁ at hcreated hbucket
    have hcounted := h.count b₁ hcreated
    rcases Step.ends_or_fails (Buckets.nextSequence t.name) b₁ with ⟨id, hcount⟩ | ⟨e, hcount⟩
    · rw [Step.after_bind_of_ends hcount]
      obtain ⟨rfl, hid⟩ := Buckets.nextSequence_ends hbucket hcount
      exact ((h.insert (hnext hid) record).bind fun _ => Step.keeps_pure _) _ hcounted
    · rwa [Step.after_bind_of_fails hcount]
  · rwa [Step.after_bind_of_fails hcreate]

/-- An update keeps it if the stored keys are allowed, for it writes under no other. -/
theorem update (h : KeptByCalls s t keys P)
    (hthere : ∀ key, (b.get? t.name key).isSome = true → keys key) (key : Value κ) (record : ρ)
    (hb : P b) : P ((s.update t key record).after b) := by
  unfold Store.update
  dsimp only
  rw [Step.after_get_bind, Step.after_liftExcept_bind]
  cases hread : s.read? t b (Keycode.encode key) with
  | error e => exact hb
  | ok existing? =>
    cases existing? with
    | none => exact hb
    | some existing =>
      obtain ⟨bytes, hget, -⟩ := read?_eq_some.mp hread
      have hkey := hthere (Keycode.encode key) (Option.isSome_of_eq_some hget)
      exact ((h.unfile _ existing).bind fun _ => h.write hkey record) b hb

theorem upsert (h : KeptByCalls s t keys P) {key : Value κ} (hkey : keys (Keycode.encode key))
    (record : ρ) : Keeps P (s.upsert t key record) := by
  unfold Store.upsert
  dsimp only
  refine h.create.bind fun _ => Step.keeps_get.bind fun b => ?_
  refine (Step.keeps_liftExcept _).bind fun existing? => ?_
  cases existing? with
  | none => exact h.write hkey record
  | some existing => exact (h.unfile _ existing).bind fun _ => h.write hkey record

theorem deleteRecord (h : KeptByCalls s t keys P) (key : Value κ) : Keeps P (s.delete t key) := by
  unfold Store.delete
  dsimp only
  refine Step.keeps_get.bind fun b => (Step.keeps_liftExcept _).bind fun existing? => ?_
  cases existing? with
  | none => exact Step.keeps_fail _
  | some existing => exact h.take _ existing

/-- The rows of a query are stored, so they are written under keys that are taken. -/
theorem updateMatching (h : KeptByCalls s t keys P)
    (hthere : ∀ key, (b.get? t.name key).isSome = true → keys key) {σ : Type} (q : Query κ ρ)
    (change : σ → ρ → Except Error (ρ × σ)) (state : σ) (hb : P b) :
    P ((s.updateMatching t q change state).after b) := by
  unfold Store.updateMatching
  rw [Step.after_get_bind, Step.after_liftTraced_bind]
  cases hrows : (s.find t b q).result with
  | error e => exact hb
  | ok rows =>
    have hstored : ∀ row ∈ rows, keys row.rawKey := by
      intro row hrow
      obtain ⟨bytes, hget, -⟩ := View.rows_stored (v := s.view t b) hrows row hrow
      exact hthere row.rawKey (Option.isSome_of_eq_some hget)
    exact ((h.changeRows change state hstored).bind fun _ => Step.keeps_pure _) b hb

theorem deleteMatching (h : KeptByCalls s t keys P) (q : Query κ ρ) :
    Keeps P (s.deleteMatching t q) := by
  unfold Store.deleteMatching
  refine Step.keeps_get.bind fun b => (Step.keeps_liftTraced _).bind fun rows => ?_
  exact (Step.keeps_forM fun row _ => h.take row.rawKey row.record).bind fun _ => Step.keeps_pure _

end KeptByCalls

/-- A call that changes buckets: a write, or a call of maintenance that names a bucket. -/
inductive Mutation (κ ρ : Type) : Type 1 where
  | write (w : Write κ ρ)
  | reindexFrom (source : String)
  | removeIndex (index : String)

namespace Mutation

variable [CustomKind κ]

/-- What a call does, its answer aside. -/
def run (s : Store) (t : RecordType κ ρ) : Mutation κ ρ → Step Buckets Unit
  | .write w => w.run s t
  | .reindexFrom source => do let _ ← s.reindexFrom t source
  | .removeIndex index => s.removeIndex t index

/-- The keys that are given to a call to store records under: one is named, or they are those of the
bucket that is copied. -/
def Gives (b : Buckets) : Mutation κ ρ → Bytes → Prop
  | .write (.insert key _), k | .write (.upsert key _), k => k = Keycode.encode key
  | .reindexFrom source, k => (b.get? source k).isSome = true
  | _, _ => False

omit [CustomKind κ] in
/-- Whether a call stores a record under the next number. -/
def counts : Mutation κ ρ → Bool
  | .write (.insertNext _) => true
  | _ => false

end Mutation

variable [CustomKind κ] {s : Store} {t : RecordType κ ρ} {keys : Bytes → Prop} {P : Buckets → Prop}
  {b : Buckets}

/-- What is kept by each of the changes that calls make is kept by every call: by one that ends, and
by one that fails. -/
theorem kept_mutation (h : KeptByCalls s t keys P) (m : Mutation κ ρ)
    (hthere : ∀ key, (b.get? t.name key).isSome = true → keys key)
    (hgiven : ∀ key, m.Gives b key → keys key)
    (hnext : m.counts = true → upcoming b t.name ≠ 0 →
      keys (Keycode.encode (.uint (upcoming b t.name) : Value κ)))
    (hb : P b) : P ((m.run s t).after b) := by
  cases m with
  | write w =>
    cases w with
    | insert key record => exact h.insert (hgiven _ rfl) record b hb
    | insertNext record =>
      exact (Step.after_bind_pure _ _ b).symm ▸ h.insertNext (hnext rfl) record hb
    | update key record => exact h.update hthere key record hb
    | upsert key record => exact h.upsert (hgiven _ rfl) record b hb
    | delete key => exact h.deleteRecord key b hb
    | updateMatching q change state =>
      exact (Step.after_bind_pure _ _ b).symm ▸ h.updateMatching hthere q change state hb
    | deleteMatching q => exact ((h.deleteMatching q).bind fun _ => Step.keeps_pure ()) b hb
    | reindex => exact (Step.after_bind_pure _ _ b).symm ▸ h.rebuild nofun hb
  | reindexFrom source =>
    -- The keys that are copied are those that the call is given.
    have hcopied : ∀ origin, some source = some origin → ∀ key, (b.get? origin key).isSome = true →
        keys key := by
      intro origin horigin key hkey
      cases horigin
      exact hgiven key hkey
    exact (Step.after_bind_pure _ _ b).symm ▸ h.rebuild hcopied hb
  | removeIndex index => exact h.removeIndex index b hb

end Calls

end Store

end RecordStore
