import RecordStore.Proofs.Rebuild

/-!
# Histories of write scopes

A history is a list of write scopes, each a list of writing calls. A scope in which a call fails is
rolled back, and so is one that is not committed; any other publishes what its calls have done. After
every history the indexes are in step with the records (`inStep_history`), so that what they hold is
settled by the records alone.
-/

namespace RecordStore.Store

variable {κ ρ : Type} [CustomKind κ]

/-- A call that writes. -/
inductive Write (κ ρ : Type) : Type 1 where
  | insert (key : Value κ) (record : ρ)
  | insertNext (record : ρ)
  | update (key : Value κ) (record : ρ)
  | upsert (key : Value κ) (record : ρ)
  | delete (key : Value κ)
  | updateMatching {σ : Type} (q : Query κ ρ) (change : σ → ρ → Except Error (ρ × σ)) (state : σ)
  | deleteMatching (q : Query κ ρ)
  | reindex

/-- What a call does, its answer aside. -/
def Write.run (s : Store) (t : RecordType κ ρ) : Write κ ρ → Step Buckets Unit
  | .insert key record => s.insert t key record
  | .insertNext record => do let _ ← s.insertNext t record
  | .update key record => s.update t key record
  | .upsert key record => s.upsert t key record
  | .delete key => s.delete t key
  | .updateMatching q change state => do let _ ← s.updateMatching t q change state
  | .deleteMatching q => do let _ ← s.deleteMatching t q
  | .reindex => do let _ ← s.reindex t

/-- The calls of a write scope, and whether it is committed if none of them fails. -/
structure Scope (κ ρ : Type) where
  writes : List (Write κ ρ)
  commits : Bool

/-- A scope on a database: its calls in order, the first that fails ending it. -/
def Scope.run (s : Store) (t : RecordType κ ρ) (db : Database) (scope : Scope κ ρ) : Database :=
  if scope.commits then (Database.update (scope.writes.forM (Write.run s t)) db).2 else db

/-- The database after scopes in order, from an empty one. -/
def history (s : Store) (t : RecordType κ ρ) (scopes : List (Scope κ ρ)) : Database :=
  scopes.foldl (Scope.run s t) .empty

variable {s : Store} {t : RecordType κ ρ}

/-- The keys under which a call files a record: those that it stores one under, and any key if it
files all records. -/
def Write.files (s : Store) (t : RecordType κ ρ) (b : Buckets) : Write κ ρ → Bytes → Prop
  | .insert key _, k | .update key _, k | .upsert key _, k => k = Keycode.encode key
  | .insertNext record, k => ∃ id b', (s.insertNext t record).Ends b id b' ∧
    k = Keycode.encode (.uint id : Value κ)
  | .updateMatching q _ _, k => ∃ rows, (s.find t b q).result = .ok rows ∧
    ∃ row ∈ rows, k = row.rawKey
  | .delete _, _ | .deleteMatching _, _ => False
  | .reindex, _ => True

/-- Each call keeps what the indexes cover, and adds the keys that it files a record under. -/
theorem inStepFor_write_run (hcodec : s.codec.KeepsKeyLists) (hvalues : s.KeepsValues t)
    (w : Write κ ρ) {covers : String → Bytes → Prop} {b b' : Buckets} {u : Unit}
    (hb : s.InStepFor t covers b) (h : (w.run s t).Ends b u b') :
    s.InStepFor t (fun index k => covers index k ∨ w.files s t b k) b' := by
  -- A call that files nothing adds no key.
  have hkept : ∀ {b' : Buckets}, s.InStepFor t covers b' →
      s.InStepFor t (fun index k => covers index k ∨ False) b' := fun hb' =>
    hb'.congr (fun _ _ => rfl) fun _ _ _ _ => (or_iff_left id).symm
  cases w with
  | insert key record => exact inStepFor_insert hcodec hvalues hb h
  | update key record => exact inStepFor_update hcodec hvalues hb h
  | upsert key record => exact inStepFor_upsert hcodec hvalues hb h
  | delete key => exact hkept (inStepFor_delete hcodec hb h)
  | insertNext record =>
    obtain ⟨id, b₁, h, hpure⟩ := Step.ends_bind.mp h
    obtain ⟨-, rfl⟩ := Step.ends_pure.mp hpure
    refine (inStepFor_insertNext hcodec hvalues hb h).congr (fun _ _ => rfl) fun _ _ k _ => ?_
    refine or_congr_right ⟨fun hk => ⟨id, _, h, hk⟩, ?_⟩
    rintro ⟨id', b', h', hk⟩
    rw [hk, (h.unique h').1]
  | updateMatching q change state =>
    obtain ⟨n, b₁, h, hpure⟩ := Step.ends_bind.mp h
    obtain ⟨-, rfl⟩ := Step.ends_pure.mp hpure
    obtain ⟨rows, hrows, hb'⟩ := inStepFor_updateMatching hcodec hvalues hb h
    refine hb'.congr (fun _ _ => rfl) fun _ _ k _ => or_congr_right ⟨fun hk => ⟨rows, hrows, hk⟩, ?_⟩
    rintro ⟨rows', hrows', hk⟩
    rw [hrows] at hrows'
    cases hrows'
    exact hk
  | deleteMatching q =>
    obtain ⟨n, b₁, h, hpure⟩ := Step.ends_bind.mp h
    obtain ⟨-, rfl⟩ := Step.ends_pure.mp hpure
    exact hkept (inStepFor_deleteMatching hcodec hb h)
  | reindex =>
    obtain ⟨n, b₁, h, hpure⟩ := Step.ends_bind.mp h
    obtain ⟨-, rfl⟩ := Step.ends_pure.mp hpure
    exact (inStep_reindex hcodec h).for.congr (fun _ _ => rfl) fun _ _ _ _ =>
      (iff_of_true trivial (.inr trivial))

/-- The keys under which calls file a record, each in the state that those before it leave. -/
def filedBy (s : Store) (t : RecordType κ ρ) : Buckets → List (Write κ ρ) → Bytes → Prop
  | _, [], _ => False
  | b, w :: ws, k => w.files s t b k ∨ s.filedBy t (w.run s t b).2 ws k

/-- Calls one after the other keep what the indexes cover, and add the keys that they file a record
under. -/
theorem inStepFor_forM (hcodec : s.codec.KeepsKeyLists) (hvalues : s.KeepsValues t) :
    ∀ (ws : List (Write κ ρ)) {covers : String → Bytes → Prop} {b b' : Buckets} {u : Unit},
      s.InStepFor t covers b → (ws.forM (Write.run s t)).Ends b u b' →
      s.InStepFor t (fun index k => covers index k ∨ s.filedBy t b ws k) b'
  | [], covers, b, b', u, hb, h => by
    obtain ⟨-, rfl⟩ := Step.ends_pure.mp h
    exact hb.congr (fun _ _ => rfl) fun _ _ _ _ => (or_iff_left id).symm
  | w :: ws, covers, b, b', u, hb, h => by
    have h : (w.run s t >>= fun _ => ws.forM (Write.run s t)).Ends b u b' := h
    obtain ⟨_, b₁, hw, h⟩ := Step.ends_bind.mp h
    refine (inStepFor_forM hcodec hvalues ws (inStepFor_write_run hcodec hvalues w hb hw) h).congr
      (fun _ _ => rfl) fun index v k _ => ?_
    rw [or_assoc, filedBy, hw.2]

/-- Each call keeps the indexes in step. -/
theorem inStep_write_run (hcodec : s.codec.KeepsKeyLists) (hvalues : s.KeepsValues t)
    (w : Write κ ρ) {b b' : Buckets} {u : Unit} (hb : s.InStep t b)
    (h : (w.run s t).Ends b u b') : s.InStep t b' :=
  (inStepFor_write_run hcodec hvalues w hb.for h).inStep fun _ _ _ _ => .inl trivial

/-- A scope publishes what all its calls have done, or nothing. -/
theorem inStep_scope (hcodec : s.codec.KeepsKeyLists) (hvalues : s.KeepsValues t)
    (scope : Scope κ ρ) {db : Database} (hdb : s.InStep t db.committed) :
    s.InStep t (scope.run s t db).committed := by
  unfold Scope.run
  split
  next =>
    unfold Database.update
    dsimp only
    split
    next u hok =>
      exact Step.forM_keeps (fun w b u b' h hb => inStep_write_run hcodec hvalues w hb h)
        scope.writes ⟨hok, rfl⟩ hdb
    next => exact hdb
  next => exact hdb

theorem inStep_foldl (hcodec : s.codec.KeepsKeyLists) (hvalues : s.KeepsValues t) :
    ∀ (scopes : List (Scope κ ρ)) {db : Database}, s.InStep t db.committed →
      s.InStep t (scopes.foldl (Scope.run s t) db).committed
  | [], _, hdb => hdb
  | scope :: scopes, _, hdb => inStep_foldl hcodec hvalues scopes (inStep_scope hcodec hvalues scope hdb)

omit [CustomKind κ] in
/-- In step with the same records, indexes hold the same. -/
theorem InStep.get?_eq {b b' : Buckets} (hb : s.InStep t b) (hb' : s.InStep t b')
    (hrecords : ∀ k, b'.get? t.name k = b.get? t.name k) {index : String}
    (hindex : t.schema.hasIndex index = true) (v : Bytes) :
    b'.get? (Index.bucketName t.name index) v = b.get? (Index.bucketName t.name index) v := by
  refine (hb index hindex).get?_eq ((hb' index hindex).congr (fun _ => rfl) fun v k => ?_) v
  exact filed_congr (hrecords k)

/-- After every history of write scopes the bucket of each declared index has an entry under a value
exactly if a stored record yields that value, and the entry is the ascending list of exactly the keys
of those records, as the codec writes it. So what the indexes hold depends on the stored records
only, and not on the history. -/
theorem inStep_history (hcodec : s.codec.KeepsKeyLists) (hvalues : s.KeepsValues t)
    (scopes : List (Scope κ ρ)) :
    s.InStep t (s.history t scopes).committed ∧
      ∀ scopes' : List (Scope κ ρ),
        (∀ k, (s.history t scopes').committed.get? t.name k =
          (s.history t scopes).committed.get? t.name k) →
        ∀ index, t.schema.hasIndex index = true → ∀ v,
          (s.history t scopes').committed.get? (Index.bucketName t.name index) v =
            (s.history t scopes).committed.get? (Index.bucketName t.name index) v := by
  have hstep : ∀ scopes : List (Scope κ ρ), s.InStep t (s.history t scopes).committed :=
    fun scopes => inStep_foldl hcodec hvalues scopes inStep_empty
  refine ⟨hstep scopes, fun scopes' hrecords index hindex v => ?_⟩
  exact (hstep scopes).get?_eq (hstep scopes') hrecords hindex v

section Labels

/-- What is stored for a list of labels is read back as that list. -/
theorem readsBack_labels : standard.ReadsBack labels := Codec.keepsKeyLists_json

theorem keepsValues_labels : standard.KeepsValues labels := readsBack_labels.keepsValues

/-- A scope that is committed, one that is rolled back as its last call fails, and one that is not
committed. -/
def labelScopes : List (Scope Empty KeyList) :=
  [⟨[.insert (.bool false) ⟨[[1], [2]]⟩], true⟩,
    ⟨[.insertNext ⟨[[3]]⟩, .insert (.bool false) ⟨[[4]]⟩], true⟩,
    ⟨[.delete (.bool false)], false⟩]

/-- Of these scopes only the first has left entries. -/
theorem inStep_history_labels :
    Codec.json.KeepsKeyLists ∧ standard.KeepsValues labels ∧
      standard.InStep labels (standard.history labels labelScopes).committed ∧
      (standard.history labels labelScopes).committed.get? "_index:Labels:all" [2] =
        some (Text.utf8 "[[2,0]]") ∧
      (standard.history labels labelScopes).committed.get? "_index:Labels:all" [3] = none :=
  ⟨Codec.keepsKeyLists_json, keepsValues_labels,
    (inStep_history (s := standard) Codec.keepsKeyLists_json keepsValues_labels labelScopes).1,
    by decide +kernel, by decide +kernel⟩

end Labels

end RecordStore.Store
