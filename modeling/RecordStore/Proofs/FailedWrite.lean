import RecordStore.Proofs.Course
import RecordStore.Proofs.History

/-!
# Writes that fail

A call that writes a single record reads what is there and then makes its changes one after the other,
and any of these steps may fail. What it is about to do in a state is its `Course`, and a call that
fails is its course failing (`failsBy_call`); so it leaves behind the first few edits of its course and
nothing else (`failed_call`). A call that is refused before its first edit leaves everything as it was.
One that is refused later does not: a record that cannot be encoded is found out after the one that it
replaces has left the indexes, and a record that an index refuses is stored already.
-/

namespace RecordStore

/-! ## Courses of calls -/

namespace Course

variable {κ ρ : Type} {s : Store} {t : RecordType κ ρ} {key : Bytes}

/-- The bucket of the records has to be there. -/
def creating (t : RecordType κ ρ) (c : Course) : Course :=
  if t.name = "" then refused (.storage .emptyBucketName) else c

/-- The course goes by what was read under the key. -/
def reading (read : Except Error (Option ρ)) (missing : Course) (found : ρ → Course) : Course :=
  match read with
  | .error e => refused e
  | .ok none => missing
  | .ok (some existing) => found existing

/-- A record is stored under a key that is not taken. -/
def inserting [CustomKind κ] (s : Store) (t : RecordType κ ρ) (b : Buckets) (key : Value κ)
    (record : ρ) : Course :=
  creating t (if (b.get? t.name (Keycode.encode key)).isSome then refused (.keyExists t.name)
    else writing s t record)

/-- A record goes out of the indexes, and another one comes in its place. -/
def replacing (s : Store) (t : RecordType κ ρ) (record existing : ρ) : Course :=
  andThen (unfiling t existing) (writing s t record)

theorem Declared.creating {c : Course} (h : c.Declared t) : (creating t c).Declared t := by
  unfold Course.creating
  split
  next => exact declared_refused _
  next => exact h

theorem declared_reading {read : Except Error (Option ρ)} {missing : Course} {found : ρ → Course}
    (hmissing : missing.Declared t) (hfound : ∀ existing, (found existing).Declared t) :
    (reading read missing found).Declared t := by
  unfold reading
  split
  next => exact declared_refused _
  next => exact hmissing
  next existing => exact hfound existing

theorem declared_inserting [CustomKind κ] (b : Buckets) (key : Value κ) (record : ρ) :
    (inserting s t b key record).Declared t := by
  refine Declared.creating ?_
  split
  next => exact declared_refused _
  next => exact declared_writing record

theorem declared_replacing (record existing : ρ) : (replacing s t record existing).Declared t :=
  (declared_unfiling existing).andThen (declared_writing record)

/-- To take a record out of the indexes and write another one is the course of a replacement. -/
theorem replace_eq (record existing : ρ) : (do
    s.unfile t key existing
    s.write t key record) = (replacing s t record existing).run s t key := by
  rw [replacing, run_andThen, ← unfile_eq, ← write_eq]

end Course

namespace Store

variable {κ ρ : Type} {s : Store} {t : RecordType κ ρ} {b b₁ b' : Buckets} {e : Error}

/-- A course fails from a state that holds the same. -/
def FailsBy (s : Store) (t : RecordType κ ρ) (key : Bytes) (c : Course) (b : Buckets) (e : Error)
    (b' : Buckets) : Prop :=
  ∃ b₁ : Buckets, (∀ n k, b₁.get? n k = b.get? n k) ∧ (c.run s t key).Fails b₁ e b'

/-- A failure goes by what is read from the buckets it starts in. -/
theorem FailsBy.of_same {key : Bytes} {c : Course} (h : s.FailsBy t key c b₁ e b')
    (hsame : ∀ n k, b₁.get? n k = b.get? n k) : s.FailsBy t key c b e b' := by
  obtain ⟨b₂, hb₂, hrun⟩ := h
  exact ⟨b₂, fun n k => (hb₂ n k).trans (hsame n k), hrun⟩

/-- A course that is run and fails does so by itself. -/
theorem failsBy_run {key : Bytes} {c : Course} (h : (c.run s t key).Fails b e b') :
    s.FailsBy t key c b e b' :=
  ⟨b, fun _ _ => rfl, h⟩

theorem failsBy_refused (key : Bytes) (e : Error) : s.FailsBy t key (.refused e) b e b :=
  failsBy_run (Step.fails_fail.mpr ⟨rfl, rfl⟩)

/-- Making the bucket fails, or what comes after it. -/
theorem failsBy_creating {key : Bytes} {c : Course} {α : Type} {m : Step Buckets α}
    (h : (Buckets.create t.name >>= fun _ => m).Fails b e b')
    (hm : ∀ {u b₁}, (Buckets.create t.name).Ends b u b₁ → m.Fails b₁ e b' →
      s.FailsBy t key c b₁ e b') : s.FailsBy t key (.creating t c) b e b' := by
  unfold Course.creating
  rcases Step.fails_bind.mp h with hcreate | ⟨u, b₁, hcreate, h⟩
  · obtain ⟨hname, rfl, rfl⟩ := Buckets.create_fails hcreate
    rw [if_pos hname]
    exact failsBy_refused key _
  · rw [if_neg (Buckets.name_ne_of_create hcreate)]
    exact (hm hcreate h).of_same (Buckets.get?_create hcreate)

/-- Reading fails, or what is done with what was read. -/
theorem failsBy_reading {key : Bytes} {read : Except Error (Option ρ)} {missing : Course}
    {found : ρ → Course} {m : Option ρ → Step Buckets Unit}
    (h : (liftM read >>= m : Step Buckets Unit).Fails b e b')
    (hmissing : (m none).Fails b e b' → s.FailsBy t key missing b e b')
    (hfound : ∀ existing, (m (some existing)).Fails b e b' →
      s.FailsBy t key (found existing) b e b') :
    s.FailsBy t key (.reading read missing found) b e b' := by
  unfold Course.reading
  rcases Step.fails_liftExcept_bind.mp h with ⟨rfl, rfl⟩ | ⟨read?, rfl, h⟩
  · exact failsBy_refused key e
  · cases read? with
    | none => exact hmissing h
    | some existing => exact hfound existing h

/-! ## Calls -/

/-- A call that writes a single record. -/
inductive Call (κ ρ : Type) where
  | insert (key : Value κ) (record : ρ)
  | insertNext (record : ρ)
  | update (key : Value κ) (record : ρ)
  | upsert (key : Value κ) (record : ρ)
  | delete (key : Value κ)

/-- The number that the sequence of a bucket gives out next, 0 if there is none left. -/
def upcoming (b : Buckets) (name : String) : UInt64 := ((b.bucket? name).getD .empty).sequence + 1

namespace Call

/-- The call among those that write. -/
def write : Call κ ρ → Write κ ρ
  | .insert key record => .insert key record
  | .insertNext record => .insertNext record
  | .update key record => .update key record
  | .upsert key record => .upsert key record
  | .delete key => .delete key

variable [CustomKind κ]

/-- The key that a call is about, as it is stored. -/
def code (t : RecordType κ ρ) (b : Buckets) : Call κ ρ → Bytes
  | .insert key _ | .update key _ | .upsert key _ | .delete key => Keycode.encode key
  | .insertNext _ => Keycode.encode (.uint (upcoming b t.name) : Value κ)

/-- The course of a call in a state. -/
def course (s : Store) (t : RecordType κ ρ) (b : Buckets) : Call κ ρ → Course
  | .insert key record => .inserting s t b key record
  | .insertNext record =>
    .creating t (if upcoming b t.name = 0 then .refused (.storage (.sequenceOverflow t.name))
      else .inserting s t b (.uint (upcoming b t.name)) record)
  | .update key record =>
    .reading (s.read? t b (Keycode.encode key)) (.refused (.notFound (t.name ++ " record to update")))
      (.replacing s t record)
  | .upsert key record =>
    .creating t (.reading (s.read? t b (Keycode.encode key)) (.writing s t record)
      (.replacing s t record))
  | .delete key =>
    .reading (s.read? t b (Keycode.encode key)) (.refused (.notFound (t.name ++ " record to delete")))
      (.taking t)

end Call

variable [CustomKind κ]

/-- The course of every call touches declared indexes only. -/
theorem declared_course (call : Call κ ρ) : (call.course s t b).Declared t := by
  cases call with
  | insert key record => exact Course.declared_inserting b key record
  | insertNext record =>
    refine Course.Declared.creating ?_
    split
    next => exact Course.declared_refused _
    next => exact Course.declared_inserting b _ record
  | update key record =>
    exact Course.declared_reading (Course.declared_refused _) (Course.declared_replacing record)
  | upsert key record =>
    exact (Course.declared_reading (Course.declared_writing record)
      (Course.declared_replacing record)).creating
  | delete key => exact Course.declared_reading (Course.declared_refused _) Course.declared_taking

/-- An insert fails by its course. -/
theorem failsBy_insert {key : Value κ} {record : ρ} (h : (s.insert t key record).Fails b e b') :
    s.FailsBy t (Keycode.encode key) (.inserting s t b key record) b e b' := by
  refine failsBy_creating h fun hcreate h => ?_
  rw [Step.fails_get_bind, Buckets.get?_create hcreate] at h
  split
  next htaken =>
    rw [if_pos htaken] at h
    obtain ⟨rfl, rfl⟩ := Step.fails_fail.mp h
    exact failsBy_refused _ _
  next hfree =>
    rw [if_neg hfree, Course.write_eq] at h
    exact failsBy_run h

theorem failsBy_insertNext {record : ρ} (h : (s.insertNext t record).Fails b e b') :
    s.FailsBy t (Call.code t b (.insertNext record)) (Call.course s t b (.insertNext record)) b e
      b' := by
  refine failsBy_creating h fun hcreate h => ?_
  have hbucket := Buckets.bucket?_create hcreate
  rcases Step.fails_bind.mp h with hnext | ⟨id, b₂, hnext, h⟩
  · obtain ⟨hlast, rfl, rfl⟩ := Buckets.nextSequence_fails hbucket hnext
    rw [if_pos (show upcoming b t.name = 0 from hlast)]
    exact failsBy_refused _ _
  · obtain ⟨rfl, hid⟩ := Buckets.nextSequence_ends hbucket hnext
    rw [if_neg (show upcoming b t.name ≠ 0 from hid)]
    have h : (s.insert t (.uint (upcoming b t.name)) record).Fails b₂ e b' :=
      Step.fails_bind_pure.mp h
    have hnext := Buckets.get?_nextSequence hnext
    -- Neither making the bucket nor counting has stored anything.
    have hcourse : Course.inserting s t b₂ (.uint (upcoming b t.name)) record =
        .inserting s t b (.uint (upcoming b t.name)) record := by
      unfold Course.inserting
      rw [hnext, Buckets.get?_create hcreate]
    exact hcourse ▸ (failsBy_insert h).of_same hnext

/-- A call that fails is its course failing. -/
theorem failsBy_call (call : Call κ ρ) (h : (call.write.run s t).Fails b e b') :
    s.FailsBy t (call.code t b) (call.course s t b) b e b' := by
  cases call with
  | insert key record => exact failsBy_insert h
  | insertNext record => exact failsBy_insertNext (Step.fails_bind_pure.mp h)
  | update key record =>
    refine failsBy_reading (Step.fails_get_bind.mp h) (fun h => ?_) fun existing h => ?_
    · obtain ⟨rfl, rfl⟩ := Step.fails_fail.mp h
      exact failsBy_refused _ _
    · exact failsBy_run (Course.replace_eq record existing ▸ h)
  | upsert key record =>
    refine failsBy_creating h fun hcreate h => ?_
    rw [Step.fails_get_bind, read?_congr (Buckets.get?_create hcreate _ _)] at h
    refine failsBy_reading h (fun h => ?_) fun existing h => ?_
    · exact failsBy_run (Course.write_eq record ▸ h)
    · exact failsBy_run (Course.replace_eq record existing ▸ h)
  | delete key =>
    refine failsBy_reading (Step.fails_get_bind.mp h) (fun h => ?_) fun existing h => ?_
    · obtain ⟨rfl, rfl⟩ := Step.fails_fail.mp h
      exact failsBy_refused _ _
    · exact failsBy_run (Course.take_eq existing ▸ h)

/-- Replacing a record by one that cannot be encoded fails after the record has left the indexes. -/
theorem fails_update {key : Value κ} {existing record : ρ} {u : Unit}
    (hread : s.read? t b (Keycode.encode key) = .ok (some existing))
    (hunfile : (s.unfile t (Keycode.encode key) existing).Ends b u b')
    (hwrite : s.codec.write (t.toJson? record) = .error e) : (s.update t key record).Fails b e b' := by
  unfold update write
  rw [hwrite]
  refine (fails_reading hread).mpr ?_
  exact Step.fails_bind.mpr (.inr ⟨u, b', hunfile, rfl, rfl⟩)

/-- A call that writes a single record and fails leaves behind the first few edits of its course, and
all of them only if it is then refused. Beside what is held for its key, every record, every entry and
every other bucket holds what it held. So all is as it was exactly if the edits cancel out, and the
indexes are still in step exactly if the key is listed under what the record that is left there
yields. -/
theorem failed_call (hcodec : s.codec.KeepsKeyLists) (call : Call κ ρ) (hb : s.InStep t b)
    (h : (call.write.run s t).Fails b e b') :
    ∃ made, made <+: (call.course s t b).edits ∧
      (made = (call.course s t b).edits → (call.course s t b).refusal = some e) ∧
      s.Holds t b (call.code t b) (Edit.applyAll (s.held t b (call.code t b)) made) b' ∧
      ((∀ n k, b'.get? n k = b.get? n k) ↔
        (Edit.applyAll (s.held t b (call.code t b)) made).Same t (s.held t b (call.code t b))) ∧
      (s.InStep t b' ↔ ∀ index, t.schema.hasIndex index = true → ∀ v,
        (Edit.applyAll (s.held t b (call.code t b)) made).values index v ↔
          s.Filed t b' index v (call.code t b)) := by
  obtain ⟨b₁, hsame, hrun⟩ := failsBy_call call h
  have hheld := (holds_held hb (call.code t b)).congr hsame
  obtain ⟨made, hprefix, hall, hmade⟩ := Course.fails_run hcodec (declared_course call) hheld hrun
  exact ⟨made, hprefix, hall, hmade, hmade.same_iff hcodec hb, hmade.inStep_iff hcodec⟩

section Firsts

/-- Lists of labels with an index on the first one; an empty list cannot be encoded. -/
def firsts : RecordType Empty KeyList where
  schema :=
    { typeName := "Firsts"
      fields := .empty
      indexes := SortedMap.empty.insert "first" fun l => .ok l.keys.head?
      sliceIndexes := .empty }
  toJson? l := if l.isEmpty then none else some l.toJson
  ofJson? := KeyList.ofJson?

theorem keepsValues_firsts : standard.KeepsValues firsts := by
  intro l bytes hwrite
  have hwrite : Codec.json.write (if l.isEmpty then none else some l.toJson) = .ok bytes := hwrite
  split at hwrite
  next => cases hwrite
  next => exact ⟨l, Codec.keepsKeyLists_json l bytes hwrite, fun index v => Iff.rfl⟩

/-- One list that is filed. -/
def oneOfFirsts : Buckets := Step.after (standard.insert firsts (.bool false) ⟨[[1]]⟩) .empty

theorem inStep_oneOfFirsts : standard.InStep firsts oneOfFirsts := by
  have hinsert : (standard.insert firsts (.bool false) ⟨[[1]]⟩).Ends .empty () oneOfFirsts :=
    ⟨by decide +kernel, rfl⟩
  exact (inStepFor_insert (s := standard) Codec.keepsKeyLists_json keepsValues_firsts
    inStep_empty.for hinsert).inStep fun _ _ _ _ => .inl trivial

/-- The list as it is read back. -/
theorem read?_oneOfFirsts : standard.read? firsts oneOfFirsts [2, 0] = .ok (some ⟨[[1]]⟩) := by
  rw [read?_of_get? (show oneOfFirsts.get? firsts.name [2, 0] = some (Text.utf8 "[[1]]") by
    decide +kernel)]
  exact congrArg (Except.map some) (Codec.keepsKeyLists_json ⟨[[1]]⟩ _ (by decide +kernel))

/-- An empty list in its place only takes the list out of the index. -/
theorem edits_firsts {b : Buckets} (hread : standard.read? firsts b [2, 0] = .ok (some ⟨[[1]]⟩)) :
    (Call.course standard firsts b (.update (.bool false) ⟨[]⟩)).edits =
      [.entry .remove "first" [1]] := by
  show (Course.reading (standard.read? firsts b [2, 0]) _ _).edits = _
  rw [hread]
  rfl

/-- What is left when the list has gone out of the index. -/
def unfiledFirst : Buckets :=
  Step.after (Buckets.delete (Index.bucketName "Firsts" "first") [1]) oneOfFirsts

/-- Taking the list out of the index removes the entry of its label. -/
theorem unfile_oneOfFirsts :
    (standard.unfile firsts [2, 0] ⟨[[1]]⟩).Ends oneOfFirsts () unfiledFirst := by
  have hkeys : Index.keysAt Codec.json oneOfFirsts (Index.bucketName "Firsts" "first") [1] =
      .ok ⟨[[2, 0]]⟩ := by
    unfold Index.keysAt
    rw [show oneOfFirsts.get? (Index.bucketName "Firsts" "first") [1] = some (Text.utf8 "[[2,0]]") by
      decide +kernel]
    exact Codec.keepsKeyLists_json ⟨[[2, 0]]⟩ _ (by decide +kernel)
  rw [Course.unfile_eq, show Course.unfiling firsts ⟨[[1]]⟩ =
    ⟨[.entry .remove "first" [1]], none⟩ from rfl, Course.run_single]
  show (Index.changeEntry Codec.json .remove (Index.bucketName "Firsts" "first") [2, 0] [1]).Ends _ _ _
  unfold Index.changeEntry
  rw [if_neg (by decide), Step.ends_get_bind, if_pos (by decide +kernel), Step.ends_liftExcept_bind]
  refine ⟨_, hkeys, ?_⟩
  unfold Index.storeKeys
  rw [if_pos (by decide +kernel)]
  exact ⟨by decide +kernel, rfl⟩

/-- Replacing the list by an empty one fails, and leaves it stored and out of the index. -/
theorem failed_call_firsts :
    Codec.json.KeepsKeyLists ∧ standard.InStep firsts oneOfFirsts ∧
      ((Call.update (.bool false) ⟨[]⟩).write.run standard firsts).Fails oneOfFirsts
        (Codec.conversionFailed .toData) unfiledFirst ∧
      (∃ made, made <+: [.entry .remove "first" [1]] ∧
        standard.Holds firsts oneOfFirsts [2, 0]
          (Edit.applyAll (standard.held firsts oneOfFirsts [2, 0]) made) unfiledFirst) ∧
      unfiledFirst.get? "Firsts" [2, 0] = some (Text.utf8 "[[1]]") ∧
      unfiledFirst.get? (Index.bucketName "Firsts" "first") [1] = none := by
  have hfails : ((Call.update (.bool false) ⟨[]⟩).write.run standard firsts).Fails oneOfFirsts
      (Codec.conversionFailed .toData) unfiledFirst :=
    fails_update (t := firsts) read?_oneOfFirsts unfile_oneOfFirsts (by decide +kernel)
  obtain ⟨made, hprefix, -, hholds, -⟩ := failed_call (s := standard) (t := firsts)
    Codec.keepsKeyLists_json (Call.update (.bool false) ⟨[]⟩) inStep_oneOfFirsts hfails
  exact ⟨Codec.keepsKeyLists_json, inStep_oneOfFirsts, hfails,
    ⟨made, edits_firsts read?_oneOfFirsts ▸ hprefix, hholds⟩, by decide +kernel, by decide +kernel⟩

end Firsts

end Store

end RecordStore
