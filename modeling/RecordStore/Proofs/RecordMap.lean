import RecordStore.Proofs.BulkDelete
import RecordStore.Proofs.SameKey

/-!
# Records as a finite map

Calls on single records answer as a finite map from keys to records does (`RecordMap`), in which two keys
are one if they are the same up to representation. A state represents a map if what is read under the
code of each key is the record of the map, with the indexes in step and nothing in the map that they
refuse (`Represents`). Each call answers as the map does and leads to what represents the map afterwards
(`Represents.step`), so that after any calls from an empty state the next is answered as the map of
these calls answers it (`answers_as_map`).
-/

namespace RecordStore

variable {κ ρ : Type} [CustomKind κ]

/-! ## The map -/

/-- A finite map of records, no two of them under the same key. -/
structure RecordMap (κ ρ : Type) [CustomKind κ] where
  entries : List (Value κ × ρ)
  distinct : entries.Pairwise fun e f => ¬e.1.SameKey f.1

namespace RecordMap

def empty : RecordMap κ ρ := ⟨[], .nil⟩

/-- The record under a key. -/
def find? (m : RecordMap κ ρ) (key : Value κ) : Option ρ :=
  (m.entries.find? fun e => decide (e.1.SameKey key)).map (·.2)

/-- The map without a key. -/
def erase (m : RecordMap κ ρ) (key : Value κ) : RecordMap κ ρ :=
  ⟨m.entries.filter fun e => !decide (e.1.SameKey key), m.distinct.filter _⟩

/-- The map with a record under a key, in the place of the one that was there. -/
def insert (m : RecordMap κ ρ) (key : Value κ) (record : ρ) : RecordMap κ ρ where
  entries := (key, record) :: (m.erase key).entries
  distinct := by
    refine .cons (fun e he hsame => ?_) (m.erase key).distinct
    have hother : ¬e.1.SameKey key := by simpa using (List.mem_filter.mp he).2
    exact hother hsame.symm

theorem find?_erase (m : RecordMap κ ρ) (key k : Value κ) :
    (m.erase key).find? k = if key.SameKey k then none else m.find? k := by
  unfold find? erase
  rw [List.find?_filter]
  split
  next hsame =>
    have hnone : m.entries.find? (fun e =>
        decide ((!decide (e.1.SameKey key)) = true ∧ decide (e.1.SameKey k) = true)) = none := by
      refine List.find?_eq_none.mpr fun e _ => ?_
      simp only [decide_eq_true_eq, Bool.not_eq_true', decide_eq_false_iff_not, not_and]
      exact fun hother hk => hother (hk.trans hsame.symm)
    rw [hnone]
    rfl
  next hother =>
    congr 2
    funext e
    simp only [Bool.not_eq_true', decide_eq_false_iff_not, decide_eq_true_eq, decide_eq_decide,
      and_iff_right_iff_imp]
    exact fun hk hsame => hother (hsame.symm.trans hk)

/-- After an insert the key holds the record and every other key is as before. -/
theorem find?_insert (m : RecordMap κ ρ) (key k : Value κ) (record : ρ) :
    (m.insert key record).find? k = if key.SameKey k then some record else m.find? k := by
  have herase := find?_erase m key k
  unfold find? insert at *
  rw [List.find?_cons]
  split
  next hsame => rw [if_pos (of_decide_eq_true hsame)]; rfl
  next hother =>
    rw [if_neg (of_decide_eq_false hother)] at herase ⊢
    exact herase

end RecordMap

/-! ## Calls on single records -/

/-- A call on a single record. -/
inductive RecordCall (κ ρ : Type) where
  | insert (key : Value κ) (record : ρ)
  | update (key : Value κ) (record : ρ)
  | upsert (key : Value κ) (record : ρ)
  | delete (key : Value κ)
  | get (key : Value κ)

/-- What a call does; the record that is got is its answer. -/
def RecordCall.run (s : Store) (t : RecordType κ ρ) : RecordCall κ ρ → Step Buckets (Option ρ)
  | .insert key record => do
    s.insert t key record
    pure none
  | .update key record => do
    s.update t key record
    pure none
  | .upsert key record => do
    s.upsert t key record
    pure none
  | .delete key => do
    s.delete t key
    pure none
  | .get key => do
    let record ← s.get t (← Step.get) key
    pure (some record)

/-- The record of a call can be written and indexed. -/
def RecordCall.Sound (s : Store) (t : RecordType κ ρ) : RecordCall κ ρ → Prop
  | .insert key record | .update key record | .upsert key record =>
    (∃ bytes, s.codec.write (t.toJson? record) = .ok bytes) ∧
      s.Indexes t (Keycode.encode key) record
  | .delete _ | .get _ => True

/-- What a map answers to a call, and the map afterwards. -/
def RecordMap.step (typeName : String) (m : RecordMap κ ρ) :
    RecordCall κ ρ → Except Error (Option ρ) × RecordMap κ ρ
  | .insert key record =>
    match m.find? key with
    | some _ => (.error (.keyExists typeName), m)
    | none => (.ok none, m.insert key record)
  | .update key record =>
    match m.find? key with
    | some _ => (.ok none, m.insert key record)
    | none => (.error (.notFound (typeName ++ " record to update")), m)
  | .upsert key record => (.ok none, m.insert key record)
  | .delete key =>
    match m.find? key with
    | some _ => (.ok none, m.erase key)
    | none => (.error (.notFound (typeName ++ " record to delete")), m)
  | .get key =>
    match m.find? key with
    | some record => (.ok (some record), m)
    | none => (.error (.notFound (typeName ++ " record")), m)

/-- The state after calls. -/
def RecordCall.runAll (s : Store) (t : RecordType κ ρ) (b : Buckets) (calls : List (RecordCall κ ρ)) :
    Buckets :=
  calls.foldl (fun b call => (call.run s t).after b) b

/-- The map after calls. -/
def RecordMap.stepAll (typeName : String) (m : RecordMap κ ρ) (calls : List (RecordCall κ ρ)) :
    RecordMap κ ρ :=
  calls.foldl (fun m call => (m.step typeName call).2) m

namespace Store

variable {s : Store} {t : RecordType κ ρ} {b b' : Buckets} {key : Value κ} {record : ρ}
  {m : RecordMap κ ρ}

omit [CustomKind κ] in
/-- A codec that reads back what it writes admits a record that is written and indexed. -/
theorem ReadsBack.admits (hback : s.ReadsBack t) {key : Bytes}
    (hwrites : ∃ bytes, s.codec.write (t.toJson? record) = .ok bytes)
    (hindexes : s.Indexes t key record) : s.Admits t key record :=
  ⟨hwrites, hback.keepsValues record, hindexes⟩

/-- What is read under each key is the record of the map, and no index refuses it; the indexes are in
step. -/
structure Represents (s : Store) (t : RecordType κ ρ) (b : Buckets) (m : RecordMap κ ρ) : Prop where
  inStep : s.InStep t b
  reads : ∀ key, s.read? t b (Keycode.encode key) = .ok (m.find? key)
  indexes : ∀ key record, m.find? key = some record → s.Indexes t (Keycode.encode key) record

theorem represents_empty : s.Represents t .empty .empty :=
  ⟨inStep_empty, fun _ => rfl, fun _ _ h => nomatch h⟩

/-- What is stored under one key has changed, and so has the map. -/
theorem Represents.change (hm : s.Represents t b m) {m' : RecordMap κ ρ} {found : Option ρ}
    (hb' : s.InStep t b') (hhere : s.read? t b' (Keycode.encode key) = .ok found)
    (hother : ∀ k, k ≠ Keycode.encode key → b'.get? t.name k = b.get? t.name k)
    (hindexes : ∀ record, found = some record → s.Indexes t (Keycode.encode key) record)
    (hm' : ∀ k, m'.find? k = if key.SameKey k then found else m.find? k) : s.Represents t b' m' := by
  refine ⟨hb', fun k => ?_, fun k record hk => ?_⟩
  · rw [hm']
    split
    next hsame => rw [← Keycode.encode_eq_iff.mpr hsame, hhere]
    next hdiffer =>
      have hne : Keycode.encode k ≠ Keycode.encode key :=
        fun heq => hdiffer (Keycode.encode_eq_iff.mp heq.symm)
      rw [read?_congr (hother _ hne), hm.reads]
  · rw [hm'] at hk
    split at hk
    next hsame =>
      rw [← Keycode.encode_eq_iff.mpr hsame]
      exact hindexes record hk
    next => exact hm.indexes k record hk

/-- A write of one record stands for an insert into the map. -/
theorem Represents.insert (hm : s.Represents t b m) (hback : s.ReadsBack t) (hb' : s.InStep t b')
    (hholding : s.Holding t b' (Keycode.encode key) record)
    (hother : ∀ k, k ≠ Keycode.encode key → b'.get? t.name k = b.get? t.name k)
    (hindexes : s.Indexes t (Keycode.encode key) record) :
    s.Represents t b' (m.insert key record) := by
  obtain ⟨bytes, hwrite, hget⟩ := hholding
  have hhere := read?_eq_some.mpr ⟨bytes, hget, hback record bytes hwrite⟩
  refine hm.change hb' hhere hother (fun _ heq => ?_) fun k => m.find?_insert key k record
  exact Option.some.inj heq ▸ hindexes

/-- A bucket without the one record stands for the map without its key. -/
theorem Represents.erase (hm : s.Represents t b m) (hb' : s.InStep t b')
    (hgone : b'.get? t.name (Keycode.encode key) = none)
    (hother : ∀ k, k ≠ Keycode.encode key → b'.get? t.name k = b.get? t.name k) :
    s.Represents t b' (m.erase key) := by
  have hhere : s.read? t b' (Keycode.encode key) = .ok none := by
    unfold read?
    rw [hgone]
  exact hm.change hb' hhere hother (fun _ heq => nomatch heq) fun k => m.find?_erase key k

/-! ## The calls -/

omit [CustomKind κ] in
/-- A record that can be kept goes in under a key that has none, if there is a bucket for it. -/
theorem exists_addRow (hcodec : s.codec.StoresKeyLists) {key : Bytes} (hb : s.InStep t b)
    (hhas : b.has t.name = true) (hkey : key ≠ []) (hnone : b.get? t.name key = none)
    (hnew : s.Admits t key record) :
    ∃ b', (s.write t key record).Ends b () b' ∧ s.InStep t b' ∧ s.Holding t b' key record ∧
      ∀ k, k ≠ key → b'.get? t.name k = b.get? t.name k := by
  obtain ⟨bytes, hbytes⟩ := hnew.encodes
  obtain ⟨b', hwrite, hget⟩ := exists_write hcodec hb.for.readable hhas hkey hbytes hnew.indexes
  obtain ⟨hb', hother⟩ := inStepFor_writeKept hcodec.keeps hnew.keeps (hb.for.but hnone) hwrite
  refine ⟨b', hwrite, hb'.inStep fun _ _ _ _ => .inl trivial, ⟨bytes, hbytes, ?_⟩, hother⟩
  rw [hget, if_pos rfl]

/-- A call answers as a map does, and leads to what represents the map afterwards. If it fails then
nothing is changed. -/
structure Agrees (s : Store) (t : RecordType κ ρ) (b : Buckets) (call : RecordCall κ ρ)
    (x : Except Error (Option ρ) × RecordMap κ ρ) : Prop where
  answer : (call.run s t).answer b = x.1
  after : s.Represents t ((call.run s t).after b) x.2
  unchanged : ∀ e, x.1 = .error e → (call.run s t).after b = b

variable {call : RecordCall κ ρ}

/-- A call that ends agrees with the map's answer when what it leaves stands for the map's next state.
-/
theorem agrees_of_ends {found : Option ρ} (h : (call.run s t).Ends b found b')
    (hm : s.Represents t b' m) : s.Agrees t b call (.ok found, m) where
  answer := h.1
  after := by
    rw [Step.after, h.2]
    exact hm
  unchanged e he := nomatch he

theorem agrees_of_fails {e : Error} (h : (call.run s t).Fails b e b) (hm : s.Represents t b m) :
    s.Agrees t b call (.error e, m) where
  answer := h.1
  after := by
    rw [Step.after, h.2]
    exact hm
  unchanged _ _ := h.2

theorem Represents.get?_of_none (hm : s.Represents t b m) (hnone : m.find? key = none) :
    b.get? t.name (Keycode.encode key) = none :=
  get?_of_read? (hnone ▸ hm.reads key)

/-- No key has an empty encoding, for each begins with its tag. -/
theorem encode_ne_nil (key : Value κ) : Keycode.encode key ≠ [] := by
  obtain ⟨tag, more, hcode, -⟩ := Keycode.encode_eq_cons key
  rw [hcode]
  exact List.cons_ne_nil _ _

/-- A record goes in under a key that has none once there is a bucket for it. -/
theorem Represents.exists_write (hcodec : s.codec.StoresKeyLists) (hback : s.ReadsBack t)
    (hname : t.name ≠ "") (hm : s.Represents t b m)
    (hwrites : ∃ bytes, s.codec.write (t.toJson? record) = .ok bytes)
    (hindexes : s.Indexes t (Keycode.encode key) record) (hnone : m.find? key = none) :
    ∃ b₁ b', (Buckets.create t.name).Ends b () b₁ ∧
      (s.write t (Keycode.encode key) record).Ends b₁ () b' ∧
      b₁.get? t.name (Keycode.encode key) = none ∧ s.Represents t b' (m.insert key record) := by
  obtain ⟨b₁, hcreate⟩ := Buckets.exists_create hname b
  have hsame := Buckets.get?_create hcreate t.name
  have hb₁ : s.InStep t b₁ := (inStepFor_create hm.inStep.for hcreate).inStep fun _ _ _ _ => trivial
  have hfree : b₁.get? t.name (Keycode.encode key) = none := (hsame _).trans (hm.get?_of_none hnone)
  obtain ⟨b', hwrite, hb', hholding, hother⟩ := exists_addRow hcodec hb₁ (Buckets.has_create hcreate)
    (encode_ne_nil key) hfree (hback.admits hwrites hindexes)
  exact ⟨b₁, b', hcreate, hwrite, hfree,
    hm.insert hback hb' hholding (fun k hk => (hother k hk).trans (hsame k)) hindexes⟩

/-- A record takes the place of the one that is there. -/
theorem Represents.exists_replace (hcodec : s.codec.StoresKeyLists) (hback : s.ReadsBack t)
    (hm : s.Represents t b m) (hwrites : ∃ bytes, s.codec.write (t.toJson? record) = .ok bytes)
    (hindexes : s.Indexes t (Keycode.encode key) record) {old : ρ} (hold : m.find? key = some old) :
    ∃ b₁ b', (s.unfile t (Keycode.encode key) old).Ends b () b₁ ∧
      (s.write t (Keycode.encode key) record).Ends b₁ () b' ∧
      s.Represents t b' (m.insert key record) := by
  obtain ⟨b₁, b', hunfile, hwrite, hb', hholding, hother⟩ := exists_changeRow hcodec hm.inStep.for
    (hold ▸ hm.reads key) (encode_ne_nil key) (hm.indexes key old hold)
    (hback.admits hwrites hindexes)
  exact ⟨b₁, b', hunfile, hwrite, hm.insert hback (hb'.inStep fun _ _ _ _ => .inl trivial) hholding
    hother hindexes⟩

/-- An insert answers as the map does, a key that exists included. -/
theorem agrees_insert (hcodec : s.codec.StoresKeyLists) (hback : s.ReadsBack t) (hname : t.name ≠ "")
    (hm : s.Represents t b m) (hwrites : ∃ bytes, s.codec.write (t.toJson? record) = .ok bytes)
    (hindexes : s.Indexes t (Keycode.encode key) record) :
    s.Agrees t b (.insert key record) (m.step t.name (.insert key record)) := by
  unfold RecordMap.step
  dsimp only
  split
  next old hold =>
    refine agrees_of_fails (Step.fails_bind_pure.mpr (fails_insert_of_taken hname ?_ record)) hm
    obtain ⟨bytes, hget, -⟩ := read?_eq_some.mp (hold ▸ hm.reads key)
    rw [hget]
    rfl
  next hnone =>
    obtain ⟨b₁, b', hcreate, hwrite, hfree, hm'⟩ :=
      hm.exists_write hcodec hback hname hwrites hindexes hnone
    have hinsert : (s.insert t key record).Ends b () b' := by
      refine Step.ends_bind.mpr ⟨(), b₁, hcreate, Step.ends_get_bind.mpr ?_⟩
      rw [hfree]
      exact hwrite
    exact agrees_of_ends (hinsert.bind_pure _) hm'

theorem agrees_update (hcodec : s.codec.StoresKeyLists) (hback : s.ReadsBack t)
    (hm : s.Represents t b m) (hwrites : ∃ bytes, s.codec.write (t.toJson? record) = .ok bytes)
    (hindexes : s.Indexes t (Keycode.encode key) record) :
    s.Agrees t b (.update key record) (m.step t.name (.update key record)) := by
  have hread := hm.reads key
  unfold RecordMap.step
  dsimp only
  split
  next old hold =>
    obtain ⟨b₁, b', hunfile, hwrite, hm'⟩ := hm.exists_replace hcodec hback hwrites hindexes hold
    rw [hold] at hread
    have hupdate : (s.update t key record).Ends b () b' :=
      (ends_reading hread).mpr (Step.ends_bind.mpr ⟨(), b₁, hunfile, hwrite⟩)
    exact agrees_of_ends (hupdate.bind_pure _) hm'
  next hnone =>
    rw [hnone] at hread
    have hupdate : (s.update t key record).Fails b (.notFound (t.name ++ " record to update")) b :=
      (fails_reading hread).mpr (Step.fails_fail.mpr ⟨rfl, rfl⟩)
    exact agrees_of_fails (Step.fails_bind_pure.mpr hupdate) hm

theorem agrees_upsert (hcodec : s.codec.StoresKeyLists) (hback : s.ReadsBack t) (hname : t.name ≠ "")
    (hm : s.Represents t b m) (hwrites : ∃ bytes, s.codec.write (t.toJson? record) = .ok bytes)
    (hindexes : s.Indexes t (Keycode.encode key) record) :
    s.Agrees t b (.upsert key record) (m.step t.name (.upsert key record)) := by
  obtain ⟨b', hupsert, hm'⟩ : ∃ b', (s.upsert t key record).Ends b () b' ∧
      s.Represents t b' (m.insert key record) := by
    have hread := hm.reads key
    cases hold : m.find? key with
    | some old =>
      obtain ⟨b₁, b', hunfile, hwrite, hm'⟩ := hm.exists_replace hcodec hback hwrites hindexes hold
      -- The bucket is there already, so that asking for it changes nothing.
      obtain ⟨bytes, hget, -⟩ := read?_eq_some.mp (hold ▸ hread)
      have hcreate := Buckets.ends_create_of_has hname (Buckets.has_of_get? hget)
      refine ⟨b', Step.ends_bind.mpr ⟨(), b, hcreate, ?_⟩, hm'⟩
      rw [hold] at hread
      exact (ends_reading hread).mpr (Step.ends_bind.mpr ⟨(), b₁, hunfile, hwrite⟩)
    | none =>
      obtain ⟨b₁, b', hcreate, hwrite, hfree, hm'⟩ :=
        hm.exists_write hcodec hback hname hwrites hindexes hold
      refine ⟨b', Step.ends_bind.mpr ⟨(), b₁, hcreate, ?_⟩, hm'⟩
      have hread₁ : s.read? t b₁ (Keycode.encode key) = .ok none := by
        unfold read?
        rw [hfree]
      exact (ends_reading hread₁).mpr hwrite
  exact agrees_of_ends (hupsert.bind_pure _) hm'

theorem agrees_delete (hcodec : s.codec.StoresKeyLists) (hm : s.Represents t b m) (key : Value κ) :
    s.Agrees t b (.delete key) (m.step t.name (.delete key)) := by
  have hread := hm.reads key
  unfold RecordMap.step
  dsimp only
  split
  next old hold =>
    rw [hold] at hread
    obtain ⟨b', htake, hb'⟩ := exists_takeRow hcodec hm.inStep hread (hm.indexes key old hold)
    obtain ⟨hget, -⟩ := get?_take hcodec.keeps htake
    have hdelete : (s.delete t key).Ends b () b' := (ends_reading hread).mpr htake
    refine agrees_of_ends (hdelete.bind_pure _) (hm.erase hb' ?_ fun k hk => ?_)
    · rw [hget _ _ name_not_mem_indexBuckets, if_pos ⟨rfl, rfl⟩]
    · rw [hget _ _ name_not_mem_indexBuckets, if_neg fun hc => hk hc.2]
  next hnone =>
    rw [hnone] at hread
    have hdelete : (s.delete t key).Fails b (.notFound (t.name ++ " record to delete")) b :=
      (fails_reading hread).mpr (Step.fails_fail.mpr ⟨rfl, rfl⟩)
    exact agrees_of_fails (Step.fails_bind_pure.mpr hdelete) hm

theorem agrees_get (hm : s.Represents t b m) (key : Value κ) :
    s.Agrees t b (.get key) (m.step t.name (.get key)) := by
  have hget : s.get t b key = match m.find? key with
      | some record => .ok record
      | none => .error (.notFound (t.name ++ " record")) := by
    unfold get
    rw [hm.reads]
    cases m.find? key <;> rfl
  unfold RecordMap.step
  dsimp only
  split
  next record hold =>
    rw [hold] at hget
    refine agrees_of_ends (Step.ends_get_bind.mpr (Step.ends_liftExcept_bind.mpr ⟨record, hget, ?_⟩)) hm
    exact Step.ends_pure.mpr ⟨rfl, rfl⟩
  next hnone =>
    rw [hnone] at hget
    exact agrees_of_fails
      (Step.fails_get_bind.mpr (Step.fails_liftExcept_bind.mpr (.inl ⟨hget, rfl⟩))) hm

/-- Each call agrees with the map. -/
theorem Represents.step (hcodec : s.codec.StoresKeyLists) (hback : s.ReadsBack t) (hname : t.name ≠ "")
    (hm : s.Represents t b m) (call : RecordCall κ ρ) (hcall : call.Sound s t) :
    s.Agrees t b call (m.step t.name call) := by
  cases call with
  | insert key record => exact agrees_insert hcodec hback hname hm hcall.1 hcall.2
  | update key record => exact agrees_update hcodec hback hm hcall.1 hcall.2
  | upsert key record => exact agrees_upsert hcodec hback hname hm hcall.1 hcall.2
  | delete key => exact agrees_delete hcodec hm key
  | get key => exact agrees_get hm key

/-- After calls the state represents the map after the same calls. -/
theorem Represents.stepAll (hcodec : s.codec.StoresKeyLists) (hback : s.ReadsBack t)
    (hname : t.name ≠ "") : ∀ {calls : List (RecordCall κ ρ)} {b : Buckets} {m : RecordMap κ ρ},
    s.Represents t b m → (∀ call ∈ calls, call.Sound s t) →
      s.Represents t (RecordCall.runAll s t b calls) (m.stepAll t.name calls)
  | [], _, _, hm, _ => hm
  | call :: calls, b, m, hm, hsound => by
    obtain ⟨hcall, hcalls⟩ := List.forall_mem_cons.mp hsound
    have hnext := (hm.step hcodec hback hname call hcall).after
    have hrest := Represents.stepAll hcodec hback hname hnext hcalls
    exact hrest

/-- Let what is written for a record be read back as that record. Then after any calls on single
records from an empty state, each with a record that can be written and indexed, the next call is
answered as the map of these calls answers it, and changes nothing if it fails. In the map two keys are
one exactly if they are the same up to representation. -/
theorem answers_as_map (hcodec : s.codec.StoresKeyLists) (hback : s.ReadsBack t) (hname : t.name ≠ "")
    {calls : List (RecordCall κ ρ)} {call : RecordCall κ ρ} (hsound : ∀ c ∈ calls, c.Sound s t)
    (hcall : call.Sound s t) :
    (call.run s t).answer (RecordCall.runAll s t .empty calls) =
        ((RecordMap.empty.stepAll t.name calls).step t.name call).1 ∧
      ∀ e, (call.run s t).answer (RecordCall.runAll s t .empty calls) = .error e →
        (call.run s t).after (RecordCall.runAll s t .empty calls) =
          RecordCall.runAll s t .empty calls := by
  -- The invariant of the calls before, and one more step.
  have hm := represents_empty.stepAll hcodec hback hname hsound
  have hagrees := hm.step hcodec hback hname call hcall
  exact ⟨hagrees.answer, fun e he => hagrees.unchanged e (hagrees.answer ▸ he)⟩

section Parcels

/-- Ten as a decimal, in the representation in which it has no places. -/
def tenWhole : Value Empty := .decimal ⟨10, 0⟩

/-- Ten as a decimal, as a one before a power of ten. -/
def tenPower : Value Empty := .decimal ⟨1, -1⟩

/-- A parcel goes in under a list, is replaced under the same list in another representation, and one
goes in under a float and is taken out. -/
def parcelCalls : List (RecordCall Empty Bool) :=
  [.insert (.list [.int 3, tenWhole]) true, .update (.list [.uint 3, tenPower]) false,
    .upsert (.float ⟨0x4008000000000000⟩) true, .delete (.float ⟨0x4008000000000000⟩)]

theorem sound_parcels (call : RecordCall Empty Bool) : call.Sound standard parcels := by
  cases call with
  | insert key heavy | update key heavy | upsert key heavy =>
    exact ⟨⟨_, rfl⟩, indexes_parcels _ heavy⟩
  | delete key | get key => trivial

/-- The parcel is got in either representation, and stands in the way of another. -/
theorem answers_as_map_parcels :
    Codec.json.StoresKeyLists ∧ standard.ReadsBack parcels ∧ parcels.name ≠ "" ∧
      (∀ call ∈ parcelCalls, call.Sound standard parcels) ∧
      ((RecordCall.get (.list [.int 3, tenPower])).run standard parcels).answer
        (RecordCall.runAll standard parcels .empty parcelCalls) = .ok (some false) ∧
      ((RecordCall.insert (.list [.uint 3, tenWhole]) true).run standard parcels).answer
        (RecordCall.runAll standard parcels .empty parcelCalls) = .error (.keyExists "Parcels") ∧
      ((RecordCall.insert (.list [.uint 3, tenWhole]) true).run standard parcels).after
        (RecordCall.runAll standard parcels .empty parcelCalls) =
        RecordCall.runAll standard parcels .empty parcelCalls := by
  have hsound : ∀ call ∈ parcelCalls, call.Sound standard parcels := fun call _ => sound_parcels call
  have hnext := fun call => answers_as_map (s := standard) Codec.storesKeyLists_json readsBack_parcels
    (by decide) hsound (sound_parcels call)
  have hgot : ((RecordMap.empty.stepAll parcels.name parcelCalls).step parcels.name
      (.get (.list [.int 3, tenPower]))).1 = .ok (some false) := by
    decide +kernel
  have htaken : ((RecordMap.empty.stepAll parcels.name parcelCalls).step parcels.name
      (.insert (.list [.uint 3, tenWhole]) true)).1 = .error (.keyExists "Parcels") := by
    decide +kernel
  obtain ⟨hinsert, hsame⟩ := hnext (.insert (.list [.uint 3, tenWhole]) true)
  exact ⟨Codec.storesKeyLists_json, readsBack_parcels, by decide, hsound, (hnext _).1.trans hgot,
    hinsert.trans htaken, hsame _ (hinsert.trans htaken)⟩

end Parcels

end Store

end RecordStore
