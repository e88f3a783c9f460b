import RecordStore.Store.Find
import RecordStore.Store.Maintenance
import RecordStore.Proofs.Find
import RecordStore.Proofs.Index

/-!
# Indexes in step with the records

The indexes are in step when each declared one lists exactly what the stored records yield
(`InStep`). Where some records are left out of some indexes, `InStepFor` tells which are not: every
way to write keeps the keys that an index covers, and adds those that it stores a record under. A
record that is replaced first leaves the indexes, which then cover every key but its own; writing
under that key adds it again. What is taken out is the record as it is read back, and what is brought
in is the record as it is handed over, so the two have to yield the same values (`KeepsValues`).
-/

namespace RecordStore.Store

variable {κ ρ : Type}

/-- The record stored under a key yields a value for an index. -/
def Filed (s : Store) (t : RecordType κ ρ) (b : Buckets) (index : String) (v k : Bytes) : Prop :=
  ∃ record, s.read? t b k = .ok (some record) ∧ Index.Yields t.schema index record v

/-- Every declared index lists exactly what the stored records yield. -/
def InStep (s : Store) (t : RecordType κ ρ) (b : Buckets) : Prop :=
  ∀ index, t.schema.hasIndex index = true →
    Index.Lists s.codec b (Index.bucketName t.name index) (s.Filed t b index)

/-- Every declared index that has a bucket lists exactly what the stored records yield. -/
def InStepIfThere (s : Store) (t : RecordType κ ρ) (b : Buckets) : Prop :=
  ∀ index, t.schema.hasIndex index = true →
    b.has (Index.bucketName t.name index) = false ∨
      Index.Lists s.codec b (Index.bucketName t.name index) (s.Filed t b index)

/-- Every declared index lists exactly what the stored records yield under the keys that it
covers. -/
def InStepFor (s : Store) (t : RecordType κ ρ) (covers : String → Bytes → Prop) (b : Buckets) :
    Prop :=
  ∀ index, t.schema.hasIndex index = true →
    Index.Lists s.codec b (Index.bucketName t.name index) fun v k =>
      covers index k ∧ s.Filed t b index v k

/-- What is written for a record is read back as that record. -/
def ReadsBack (s : Store) (t : RecordType κ ρ) : Prop :=
  ∀ record bytes, s.codec.write (t.toJson? record) = .ok bytes →
    s.codec.read t.ofJson? bytes = .ok record

/-- What is written can be read back, and then yields the values that it yielded before. -/
def KeepsValues (s : Store) (t : RecordType κ ρ) : Prop :=
  ∀ record bytes, s.codec.write (t.toJson? record) = .ok bytes →
    ∃ record', s.codec.read t.ofJson? bytes = .ok record' ∧
      ∀ index v, Index.Yields t.schema index record' v ↔ Index.Yields t.schema index record v

/-- What is written for this record can be read back, and then yields the values of the record. -/
def KeepsValuesOf (s : Store) (t : RecordType κ ρ) (record : ρ) : Prop :=
  ∀ bytes, s.codec.write (t.toJson? record) = .ok bytes →
    ∃ record', s.codec.read t.ofJson? bytes = .ok record' ∧
      ∀ index v, Index.Yields t.schema index record' v ↔ Index.Yields t.schema index record v

/-! ## Records and index buckets -/

/-- The name of an index bucket is longer than that of the bucket of the records. -/
theorem bucketName_ne (typeName index : String) : Index.bucketName typeName index ≠ typeName := by
  intro h
  have hlen := congrArg String.length h
  unfold Index.bucketName at hlen
  simp only [String.length_append] at hlen
  have hprefix : "_index:".length = 7 := by decide
  omega

variable {s : Store} {t : RecordType κ ρ}

/-- A record that is read back as it was yields the values that it yielded. -/
theorem ReadsBack.keepsValues (hback : s.ReadsBack t) : s.KeepsValues t :=
  fun record bytes hwrite => ⟨record, hback record bytes hwrite, fun _ _ => Iff.rfl⟩

/-- An index that has a bucket lists what the stored records yield. -/
theorem InStepIfThere.lists {b : Buckets} {index : String} (h : s.InStepIfThere t b)
    (hindex : t.schema.hasIndex index = true)
    (hhas : b.has (Index.bucketName t.name index) = true) :
    Index.Lists s.codec b (Index.bucketName t.name index) (s.Filed t b index) := by
  refine (h index hindex).resolve_left ?_
  rw [hhas]
  exact Bool.noConfusion

/-- Such an index lists what the records yield, whatever their keys. -/
theorem InStepIfThere.listsAll {b : Buckets} {index : String} (h : s.InStepIfThere t b)
    (hindex : t.schema.hasIndex index = true)
    (hhas : b.has (Index.bucketName t.name index) = true) :
    Index.Lists s.codec b (Index.bucketName t.name index) fun v k =>
      True ∧ s.Filed t b index v k :=
  (h.lists hindex hhas).congr (fun _ => rfl) fun _ _ => (and_iff_right trivial).symm

theorem read?_congr {b b' : Buckets} {k : Bytes} (h : b'.get? t.name k = b.get? t.name k) :
    s.read? t b' k = s.read? t b k := by
  unfold read?
  rw [h]

theorem read?_of_get? {b : Buckets} {k bytes : Bytes} (h : b.get? t.name k = some bytes) :
    s.read? t b k = (s.codec.read t.ofJson? bytes).map some := by
  unfold read?
  rw [h]

theorem filed_congr {b b' : Buckets} {index : String} {v k : Bytes}
    (h : b'.get? t.name k = b.get? t.name k) :
    s.Filed t b' index v k ↔ s.Filed t b index v k := by
  unfold Filed
  rw [read?_congr h]

/-- Where no record is read there are no bytes. -/
theorem get?_of_read? {b : Buckets} {k : Bytes} (h : s.read? t b k = .ok none) :
    b.get? t.name k = none := by
  cases hget : b.get? t.name k with
  | none => rfl
  | some bytes =>
    rw [read?_of_get? hget] at h
    cases hread : s.codec.read t.ofJson? bytes with
    | error e =>
      rw [hread] at h
      cases h
    | ok record =>
      rw [hread] at h
      cases h

/-- What is read goes to what comes after. -/
theorem ends_reading {α : Type} {b b' : Buckets} {k : Bytes} {found : Option ρ} {a : α}
    {f : Option ρ → Step Buckets α} (hread : s.read? t b k = .ok found) :
    (Step.get >>= fun b => liftM (s.read? t b k) >>= f).Ends b a b' ↔ (f found).Ends b a b' := by
  rw [Step.ends_get_bind, hread]
  simp [and_assoc]

/-- After a record was read a step fails as it does with that record. -/
theorem fails_reading {α : Type} {b b' : Buckets} {k : Bytes} {found : Option ρ} {e : Error}
    {f : Option ρ → Step Buckets α} (hread : s.read? t b k = .ok found) :
    (Step.get >>= fun b => liftM (s.read? t b k) >>= f).Fails b e b' ↔ (f found).Fails b e b' := by
  rw [Step.fails_get_bind, hread]
  simp [and_assoc]

/-- A record that is read is what is stored under its key, decoded. -/
theorem read?_eq_some {b : Buckets} {k : Bytes} {record : ρ} :
    s.read? t b k = .ok (some record) ↔
      ∃ bytes, b.get? t.name k = some bytes ∧ s.codec.read t.ofJson? bytes = .ok record := by
  unfold read?
  cases b.get? t.name k with
  | none => simp
  | some bytes =>
    simp only [Option.some.injEq, exists_eq_left']
    cases s.codec.read t.ofJson? bytes with
    | error e => simp [Except.map]
    | ok record => simp [Except.map]

/-- A key without a record has no values. -/
theorem not_filed {b : Buckets} {index : String} {v k : Bytes} (h : b.get? t.name k = none) :
    ¬s.Filed t b index v k := by
  intro hfiled
  obtain ⟨record, hread, -⟩ := hfiled
  obtain ⟨bytes, hget, -⟩ := read?_eq_some.mp hread
  rw [h] at hget
  cases hget

/-- The values of a key are those of the record under it. -/
theorem filed_iff {b : Buckets} {index : String} {v k : Bytes} {record : ρ}
    (h : s.read? t b k = .ok (some record)) :
    s.Filed t b index v k ↔ Index.Yields t.schema index record v := by
  constructor
  · intro hfiled
    obtain ⟨record', hread, hyields⟩ := hfiled
    rw [h] at hread
    cases hread
    exact hyields
  · intro hyields
    exact ⟨record, h, hyields⟩

/-- The values of a key are those of the record that is read off what is stored. -/
theorem filed_iff_of_get? {b : Buckets} {index : String} {v k bytes : Bytes}
    (h : b.get? t.name k = some bytes) : s.Filed t b index v k ↔
      ∃ record, s.codec.read t.ofJson? bytes = .ok record ∧ Index.Yields t.schema index record v := by
  unfold Filed
  simp only [read?_eq_some, h, Option.some.injEq, exists_eq_left']

/-- What is covered matters for keys with values only. -/
theorem InStepFor.congr {covers covers' : String → Bytes → Prop} {b b' : Buckets}
    (h : s.InStepFor t covers b) (hget : ∀ n k, b'.get? n k = b.get? n k)
    (hcovers : ∀ index v k, s.Filed t b index v k → (covers index k ↔ covers' index k)) :
    s.InStepFor t covers' b' := by
  intro index hindex
  refine (h index hindex).congr (fun v => hget _ v) fun v k => ?_
  rw [filed_congr (hget _ k)]
  exact and_congr_left (hcovers index v k)

theorem InStep.for {b : Buckets} (h : s.InStep t b) : s.InStepFor t (fun _ _ => True) b := by
  intro index hindex
  exact (h index hindex).congr (fun _ => rfl) fun v k => (and_iff_right trivial).symm

theorem InStepIfThere.for {b : Buckets} (h : s.InStepIfThere t b) :
    s.InStepFor t (fun index _ => b.has (Index.bucketName t.name index) = true) b := by
  intro index hindex
  cases hhas : b.has (Index.bucketName t.name index) with
  | false =>
    refine (Index.lists_nothing (Buckets.get?_of_not_has hhas)).congr (fun _ => rfl) fun v k => ?_
    refine ⟨False.elim, fun hfiled => ?_⟩
    exact Bool.noConfusion (hhas.symm.trans hfiled.1)
  | true => exact (h.lists hindex hhas).congr (fun _ => rfl) fun v k => (and_iff_right hhas).symm

/-- Indexes that cover every key with a value are in step. -/
theorem InStepFor.inStep {covers : String → Bytes → Prop} {b : Buckets}
    (h : s.InStepFor t covers b) (hcovers : ∀ index v k, s.Filed t b index v k → covers index k) :
    s.InStep t b := by
  intro index hindex
  exact (h index hindex).congr (fun _ => rfl) fun v k =>
    and_iff_right_of_imp (hcovers index v k)

/-- A key without a record need not be covered. -/
theorem InStepFor.but {covers : String → Bytes → Prop} {b : Buckets} {key : Bytes}
    (h : s.InStepFor t covers b) (hnone : b.get? t.name key = none) :
    s.InStepFor t (fun index k => covers index k ∧ k ≠ key) b := by
  refine h.congr (fun _ _ => rfl) fun index v k hfiled => (and_iff_left ?_).symm
  intro hk
  rw [hk] at hfiled
  exact not_filed hnone hfiled

/-- Two indexes of a type have different buckets. -/
theorem bucketName_inj {typeName i j : String}
    (h : Index.bucketName typeName i = Index.bucketName typeName j) : i = j := by
  have hchars := congrArg String.toList h
  unfold Index.bucketName at hchars
  simp only [String.toList_append, List.append_assoc] at hchars
  exact String.toList_inj.mp (List.append_cancel_left (List.append_cancel_left
    (List.append_cancel_left hchars)))

/-- Bringing a record in or taking it out changes an index by the pairs of its values there. -/
theorem lists_changeAll {change : Index.Change} {key : Bytes} {record : ρ} {b b' : Buckets}
    {u : Unit} {index : String} {F : Bytes → Bytes → Prop} (hcodec : s.codec.KeepsKeyLists)
    (hF : Index.Lists s.codec b (Index.bucketName t.name index) F)
    (h : (Index.changeAll s.codec change t.schema key record).Ends b u b') :
    Index.Lists s.codec b' (Index.bucketName t.name index)
      (change.on F key (Index.Yields t.schema index record)) := by
  have hlists := (Index.changes_changeAll hcodec h).lists _ _ hF
  have hhere : (fun v => ∃ i, Index.bucketName t.name index = Index.bucketName t.schema.typeName i ∧
      Index.Yields t.schema i record v) = Index.Yields t.schema index record := by
    funext v
    refine propext ⟨fun h => ?_, fun h => ⟨index, rfl, h⟩⟩
    obtain ⟨i, hname, hyields⟩ := h
    exact bucketName_inj hname ▸ hyields
  rw [← hhere]
  exact hlists

/-- Bringing a record in or taking it out touches no record. -/
theorem get?_changeAll {change : Index.Change} {key : Bytes} {record : ρ} {b b' : Buckets}
    {u : Unit} (hcodec : s.codec.KeepsKeyLists)
    (h : (Index.changeAll s.codec change t.schema key record).Ends b u b') (k : Bytes) :
    b'.get? t.name k = b.get? t.name k := by
  refine (Index.changes_changeAll hcodec h).frame t.name (fun v hv => ?_) k
  obtain ⟨index, hname, -⟩ := hv
  exact bucketName_ne _ index hname.symm

/-- Where nothing is stored nothing is filed. -/
theorem inStep_empty : s.InStep t .empty := by
  intro index _
  refine (Index.lists_nothing fun v => rfl).congr (fun _ => rfl) fun v k => ?_
  exact ⟨False.elim, not_filed rfl⟩

/-! ## Taking out and bringing in -/

section Steps

variable {b b' : Buckets} {covers : String → Bytes → Prop} {key : Bytes} {record : ρ} {u : Unit}

/-- Taking the stored record of a key out of the indexes leaves them without the key. -/
theorem inStepFor_unfile (hcodec : s.codec.KeepsKeyLists) (hb : s.InStepFor t covers b)
    (hread : s.read? t b key = .ok (some record)) (h : (s.unfile t key record).Ends b u b') :
    s.InStepFor t (fun index k => covers index k ∧ k ≠ key) b' ∧
      ∀ k, b'.get? t.name k = b.get? t.name k := by
  have hsame := get?_changeAll hcodec h
  refine ⟨fun index hindex => ?_, hsame⟩
  refine (lists_changeAll hcodec (hb index hindex) h).congr (fun _ => rfl) fun v k => ?_
  show (covers index k ∧ s.Filed t b index v k) ∧
      ¬(k = key ∧ Index.Yields t.schema index record v) ↔
    (covers index k ∧ k ≠ key) ∧ s.Filed t b' index v k
  rw [filed_congr (hsame k)]
  constructor
  · rintro ⟨⟨hk, hfiled⟩, hout⟩
    refine ⟨⟨hk, ?_⟩, hfiled⟩
    -- What the key had was the values of its record, and these were taken out.
    intro heq
    refine hout ⟨heq, ?_⟩
    rw [← filed_iff hread, ← heq]
    exact hfiled
  · rintro ⟨⟨hk, hne⟩, hfiled⟩
    exact ⟨⟨hk, hfiled⟩, fun hc => hne hc.1⟩

/-- Writing a record under a key that the indexes do not cover adds the key. -/
theorem inStepFor_writeKept (hcodec : s.codec.KeepsKeyLists) (hrecord : s.KeepsValuesOf t record)
    (hb : s.InStepFor t (fun index k => covers index k ∧ k ≠ key) b)
    (h : (s.write t key record).Ends b u b') :
    s.InStepFor t (fun index k => covers index k ∨ k = key) b' ∧
      ∀ k, k ≠ key → b'.get? t.name k = b.get? t.name k := by
  unfold write at h
  rw [Step.ends_liftExcept_bind] at h
  obtain ⟨bytes, hwrite, h⟩ := h
  rw [Step.ends_bind] at h
  obtain ⟨_, b₁, hput, hadd⟩ := h
  obtain ⟨record', hread, hyields⟩ := hrecord bytes hwrite
  have hput := Buckets.get?_put hput
  have hrecords := get?_changeAll hcodec hadd
  have hother : ∀ k, k ≠ key → b'.get? t.name k = b.get? t.name k := by
    intro k hk
    rw [hrecords, hput, if_neg fun hc => hk hc.2]
  have hhere : s.read? t b' key = .ok (some record') := by
    rw [read?_of_get? (by rw [hrecords, hput, if_pos ⟨rfl, rfl⟩]), hread]
    rfl
  refine ⟨fun index hindex => ?_, hother⟩
  -- The record bucket has changed, the index bucket has not.
  have hlists : Index.Lists s.codec b₁ (Index.bucketName t.name index) fun v k =>
      (covers index k ∧ k ≠ key) ∧ s.Filed t b index v k := by
    refine (hb index hindex).congr (fun v => ?_) fun _ _ => Iff.rfl
    rw [hput, if_neg fun hc => bucketName_ne _ _ hc.1]
  refine (lists_changeAll hcodec hlists hadd).congr (fun _ => rfl) fun v k => ?_
  show ((covers index k ∧ k ≠ key) ∧ s.Filed t b index v k) ∨
      (k = key ∧ Index.Yields t.schema index record v) ↔
    (covers index k ∨ k = key) ∧ s.Filed t b' index v k
  by_cases hk : k = key
  · subst hk
    rw [filed_iff hhere, hyields]
    simp
  · rw [filed_congr (hother k hk)]
    simp [hk]

/-- Writing a record that is not in the indexes brings them in step for its key, and touches no other
record. -/
theorem inStepFor_write (hcodec : s.codec.KeepsKeyLists) (hvalues : s.KeepsValues t)
    (hb : s.InStepFor t (fun index k => covers index k ∧ k ≠ key) b)
    (h : (s.write t key record).Ends b u b') :
    s.InStepFor t (fun index k => covers index k ∨ k = key) b' ∧
      ∀ k, k ≠ key → b'.get? t.name k = b.get? t.name k :=
  inStepFor_writeKept hcodec (hvalues record) hb h

/-- Taking a stored record out, and out of the indexes, changes nothing that is covered. -/
theorem inStepFor_take (hcodec : s.codec.KeepsKeyLists) (hb : s.InStepFor t covers b)
    (hread : s.read? t b key = .ok (some record)) (h : (s.take t key record).Ends b u b') :
    s.InStepFor t covers b' ∧ ∀ k, k ≠ key → b'.get? t.name k = b.get? t.name k := by
  unfold take at h
  rw [Step.ends_bind] at h
  obtain ⟨_, b₁, hdelete, hunfile⟩ := h
  have hdelete := Buckets.get?_delete hdelete
  have hrecords := get?_changeAll hcodec hunfile
  have hother : ∀ k, k ≠ key → b'.get? t.name k = b.get? t.name k := by
    intro k hk
    rw [hrecords, hdelete, if_neg fun hc => hk hc.2]
  have hhere : b'.get? t.name key = none := by rw [hrecords, hdelete, if_pos ⟨rfl, rfl⟩]
  refine ⟨fun index hindex => ?_, hother⟩
  -- Taking out the record has left the index bucket as it was.
  have hlists : Index.Lists s.codec b₁ (Index.bucketName t.name index) fun v k =>
      covers index k ∧ s.Filed t b index v k := by
    refine (hb index hindex).congr (fun v => ?_) fun _ _ => Iff.rfl
    rw [hdelete, if_neg fun hc => bucketName_ne _ _ hc.1]
  refine (lists_changeAll hcodec hlists hunfile).congr (fun _ => rfl) fun v k => ?_
  show (covers index k ∧ s.Filed t b index v k) ∧
      ¬(k = key ∧ Index.Yields t.schema index record v) ↔
    covers index k ∧ s.Filed t b' index v k
  by_cases hk : k = key
  · subst hk
    rw [filed_iff hread]
    simp [not_filed hhere]
  · rw [filed_congr (hother k hk)]
    simp [hk]

end Steps

/-! ## The writes -/

section Writes

variable [CustomKind κ] {b b' : Buckets} {covers : String → Bytes → Prop} {key : Value κ}
  {record : ρ}

omit [CustomKind κ] in
/-- Creating the bucket of a type changes no record and no index. -/
theorem inStepFor_create (hb : s.InStepFor t covers b) {u : Unit}
    (h : (Buckets.create t.name).Ends b u b') : s.InStepFor t covers b' :=
  hb.congr (Buckets.get?_create h) fun _ _ _ _ => Iff.rfl

/-- An insert that succeeds brings the indexes in step for its key. -/
theorem inStepFor_insert (hcodec : s.codec.KeepsKeyLists) (hvalues : s.KeepsValues t)
    (hb : s.InStepFor t covers b) {u : Unit} (h : (s.insert t key record).Ends b u b') :
    s.InStepFor t (fun index k => covers index k ∨ k = Keycode.encode key) b' := by
  unfold insert at h
  dsimp only at h
  rw [Step.ends_bind] at h
  obtain ⟨_, b₁, hcreate, h⟩ := h
  rw [Step.ends_get_bind] at h
  split at h
  next => exact absurd h Step.ends_fail
  next hfree =>
    have hnone : b₁.get? t.name (Keycode.encode key) = none := by simpa using hfree
    exact (inStepFor_write hcodec hvalues ((inStepFor_create hb hcreate).but hnone) h).1

theorem inStepFor_insertNext (hcodec : s.codec.KeepsKeyLists) (hvalues : s.KeepsValues t)
    (hb : s.InStepFor t covers b) {id : UInt64} (h : (s.insertNext t record).Ends b id b') :
    s.InStepFor t (fun index k => covers index k ∨ k = Keycode.encode (.uint id : Value κ)) b' := by
  unfold insertNext at h
  rw [Step.ends_bind] at h
  obtain ⟨_, b₁, hcreate, h⟩ := h
  rw [Step.ends_bind] at h
  obtain ⟨id', b₂, hnext, h⟩ := h
  rw [Step.ends_bind] at h
  obtain ⟨_, b₃, hinsert, h⟩ := h
  obtain ⟨rfl, rfl⟩ := Step.ends_pure.mp h
  have hb₂ : s.InStepFor t covers b₂ :=
    (inStepFor_create hb hcreate).congr (Buckets.get?_nextSequence hnext) fun _ _ _ _ => Iff.rfl
  exact inStepFor_insert hcodec hvalues hb₂ hinsert

theorem inStepFor_update (hcodec : s.codec.KeepsKeyLists) (hvalues : s.KeepsValues t)
    (hb : s.InStepFor t covers b) {u : Unit} (h : (s.update t key record).Ends b u b') :
    s.InStepFor t (fun index k => covers index k ∨ k = Keycode.encode key) b' := by
  unfold update at h
  dsimp only at h
  rw [Step.ends_get_bind, Step.ends_liftExcept_bind] at h
  obtain ⟨found, hread, h⟩ := h
  cases found with
  | none => exact absurd h Step.ends_fail
  | some existing =>
    dsimp only at h
    rw [Step.ends_bind] at h
    obtain ⟨_, b₁, hunfile, hwrite⟩ := h
    exact (inStepFor_write hcodec hvalues (inStepFor_unfile hcodec hb hread hunfile).1 hwrite).1

/-- An upsert that succeeds brings the indexes in step for its key, whether the record was there or not.
-/
theorem inStepFor_upsert (hcodec : s.codec.KeepsKeyLists) (hvalues : s.KeepsValues t)
    (hb : s.InStepFor t covers b) {u : Unit} (h : (s.upsert t key record).Ends b u b') :
    s.InStepFor t (fun index k => covers index k ∨ k = Keycode.encode key) b' := by
  unfold upsert at h
  dsimp only at h
  rw [Step.ends_bind] at h
  obtain ⟨_, b₁, hcreate, h⟩ := h
  have hb₁ := inStepFor_create hb hcreate
  rw [Step.ends_get_bind, Step.ends_liftExcept_bind] at h
  obtain ⟨found, hread, h⟩ := h
  cases found with
  | none => exact (inStepFor_write hcodec hvalues (hb₁.but (get?_of_read? hread)) h).1
  | some existing =>
    dsimp only at h
    rw [Step.ends_bind] at h
    obtain ⟨_, b₂, hunfile, hwrite⟩ := h
    exact (inStepFor_write hcodec hvalues (inStepFor_unfile hcodec hb₁ hread hunfile).1 hwrite).1

/-- A delete that succeeds keeps the indexes in step. -/
theorem inStepFor_delete (hcodec : s.codec.KeepsKeyLists) (hb : s.InStepFor t covers b) {u : Unit}
    (h : (s.delete t key).Ends b u b') : s.InStepFor t covers b' := by
  unfold delete at h
  dsimp only at h
  rw [Step.ends_get_bind, Step.ends_liftExcept_bind] at h
  obtain ⟨found, hread, h⟩ := h
  cases found with
  | none => exact absurd h Step.ends_fail
  | some existing => exact (inStepFor_take hcodec hb hread h).1

/-- A key that has one value is not filed twice. -/
theorem oneValueEach_of_lists {codec : Codec} (hcodec : codec.KeepsKeyLists) {bucket : String}
    {F : Bytes → Bytes → Prop} (h : Index.Lists codec b bucket F)
    (hone : ∀ v v' k, F v k → F v' k → v = v') : Index.OneValueEach codec b bucket := by
  -- The list under a value that is read is that of the keys that have it.
  have hmem : ∀ {v bytes l}, b.get? bucket v = some bytes → Index.decodeKeys codec bytes = .ok l →
      l.Ascends ∧ ∀ k, k ∈ l.keys ↔ F v k := by
    intro v bytes l hget hl
    obtain ⟨l', hl', hascends, hmem⟩ := h.decodeKeys hcodec hget
    rw [hl] at hl'
    cases hl'
    exact ⟨hascends, hmem⟩
  intro v bytes l hget hl
  obtain ⟨hascends, hkeys⟩ := hmem hget hl
  refine ⟨hascends.nodup, fun v' bytes' l' k hget' hl' hk hk' => ?_⟩
  exact hone v v' k ((hkeys k).mp hk) (((hmem hget' hl').2 k).mp hk')

omit [CustomKind κ] in
/-- A scalar index files no key twice. -/
theorem InStepFor.oneValueEach (hcodec : s.codec.KeepsKeyLists) (hb : s.InStepFor t covers b) :
    (s.view t b).OneValueEach := by
  intro index hindex hslice
  -- A record yields one value for a scalar index.
  have hone : ∀ {record v v'}, Index.Yields t.schema index record v →
      Index.Yields t.schema index record v' → v = v' := by
    intro record v v' hv hv'
    have hscalar : ∀ {v}, Index.Yields t.schema index record v →
        ∃ file, t.schema.indexes.find? index = some file ∧ file record = .ok (some v) := by
      intro v hv
      refine hv.resolve_right fun hc => ?_
      obtain ⟨file, _, hfile, -⟩ := hc
      have hslice : t.schema.sliceIndexes.contains index = false := hslice
      unfold SortedMap.contains at hslice
      rw [hfile] at hslice
      cases hslice
    obtain ⟨file, hfile, hyield⟩ := hscalar hv
    obtain ⟨file', hfile', hyield'⟩ := hscalar hv'
    rw [hfile] at hfile'
    cases hfile'
    rw [hyield] at hyield'
    cases hyield'
    rfl
  refine oneValueEach_of_lists hcodec (hb index hindex) fun v v' k hfiled hfiled' => ?_
  obtain ⟨-, record, hread, hyields⟩ := hfiled
  exact hone hyields ((filed_iff hread).mp hfiled'.2)

omit [CustomKind κ] in
/-- A row that is stored is what is read under its key. -/
theorem read?_of_stores {row : Row κ ρ} (h : (s.view t b).Stores row) :
    s.read? t b row.rawKey = .ok (some row.record) := by
  obtain ⟨bytes, hget, -, hrecord⟩ := h
  exact read?_eq_some.mpr ⟨bytes, hget, hrecord⟩

/-- The rows that a query finds are records as they are read back, each once. -/
theorem find_stored (hcodec : s.codec.KeepsKeyLists) (hb : s.InStepFor t covers b) {q : Query κ ρ}
    {rows : List (Row κ ρ)} (h : (s.find t b q).result = .ok rows) :
    (rows.map (·.rawKey)).Nodup ∧
      ∀ row ∈ rows, s.read? t b row.rawKey = .ok (some row.record) := by
  obtain ⟨hnodup, hstores⟩ := View.rows_kept (hb.oneValueEach hcodec) h
  exact ⟨hnodup, fun row hrow => read?_of_stores (hstores row hrow)⟩

omit [CustomKind κ] in
/-- The rows behind the first one have other keys. -/
theorem rawKey_ne {row : Row κ ρ} {rows : List (Row κ ρ)}
    (h : ((row :: rows).map (·.rawKey)).Nodup) : ∀ row' ∈ rows, row'.rawKey ≠ row.rawKey := by
  intro row' hrow' heq
  obtain ⟨hhead, -⟩ := List.nodup_cons.mp h
  exact hhead (List.mem_map.mpr ⟨row', hrow', heq⟩)

omit [CustomKind κ] in
/-- Rows are changed one after the other; each is still as it was found when its turn comes. -/
theorem inStepFor_changeRows (hcodec : s.codec.KeepsKeyLists) (hvalues : s.KeepsValues t)
    {σ : Type} {change : σ → ρ → Except Error (ρ × σ)} :
    ∀ {state : σ} {rows : List (Row κ ρ)} {covers : String → Bytes → Prop} {b b' : Buckets}
      {u : Unit}, s.InStepFor t covers b →
      (rows.map (·.rawKey)).Nodup →
      (∀ row ∈ rows, s.read? t b row.rawKey = .ok (some row.record)) →
      (s.changeRows t change state rows).Ends b u b' →
      s.InStepFor t (fun index k => covers index k ∨ ∃ row ∈ rows, k = row.rawKey) b'
  | state, [], covers, b, b', u, hb, _, _, h => by
    obtain ⟨-, rfl⟩ := Step.ends_pure.mp h
    exact hb.congr (fun _ _ => rfl) fun index v k _ => by simp
  | state, row :: rows, covers, b, b', u, hb, hnodup, hread, h => by
    unfold changeRows at h
    rw [Step.ends_bind] at h
    obtain ⟨_, b₁, hunfile, h⟩ := h
    rw [Step.ends_liftExcept_bind] at h
    obtain ⟨⟨record, state'⟩, -, h⟩ := h
    dsimp only at h
    rw [Step.ends_bind] at h
    obtain ⟨_, b₂, hwrite, h⟩ := h
    obtain ⟨-, htail⟩ := List.nodup_cons.mp hnodup
    obtain ⟨hbut, hsame⟩ := inStepFor_unfile hcodec hb (hread row (List.mem_cons_self ..)) hunfile
    obtain ⟨hb₂, hother⟩ := inStepFor_write hcodec hvalues hbut hwrite
    -- The rows behind it are under other keys, and their records are as they were.
    have hrest := inStepFor_changeRows hcodec hvalues hb₂ htail (fun row' hrow' => by
      rw [read?_congr ((hother _ (rawKey_ne hnodup row' hrow')).trans (hsame _))]
      exact hread row' (List.mem_cons_of_mem _ hrow')) h
    exact hrest.congr (fun _ _ => rfl) fun index v k _ => by simp [or_assoc]

/-- Updating the records that a query selects brings the indexes in step for their keys. -/
theorem inStepFor_updateMatching (hcodec : s.codec.KeepsKeyLists) (hvalues : s.KeepsValues t)
    (hb : s.InStepFor t covers b) {σ : Type} {q : Query κ ρ}
    {change : σ → ρ → Except Error (ρ × σ)} {state : σ} {n : Nat}
    (h : (s.updateMatching t q change state).Ends b n b') :
    ∃ rows, (s.find t b q).result = .ok rows ∧
      s.InStepFor t (fun index k => covers index k ∨ ∃ row ∈ rows, k = row.rawKey) b' := by
  unfold updateMatching at h
  rw [Step.ends_get_bind, Step.ends_liftTraced_bind] at h
  obtain ⟨rows, hrows, h⟩ := h
  rw [Step.ends_bind] at h
  obtain ⟨_, b₁, hchange, h⟩ := h
  obtain ⟨-, rfl⟩ := Step.ends_pure.mp h
  obtain ⟨hnodup, hread⟩ := find_stored hcodec hb hrows
  exact ⟨rows, hrows, inStepFor_changeRows hcodec hvalues hb hnodup hread hchange⟩

omit [CustomKind κ] in
/-- Rows are taken out one after the other. -/
theorem inStepFor_takeRows (hcodec : s.codec.KeepsKeyLists) :
    ∀ {rows : List (Row κ ρ)} {b b' : Buckets} {u : Unit}, s.InStepFor t covers b →
      (rows.map (·.rawKey)).Nodup →
      (∀ row ∈ rows, s.read? t b row.rawKey = .ok (some row.record)) →
      (rows.forM fun row => s.take t row.rawKey row.record).Ends b u b' → s.InStepFor t covers b'
  | [], b, b', u, hb, _, _, h => by
    have h : (pure () : Step Buckets Unit).Ends b u b' := h
    obtain ⟨-, rfl⟩ := Step.ends_pure.mp h
    exact hb
  | row :: rows, b, b', u, hb, hnodup, hread, h => by
    have h : (s.take t row.rawKey row.record >>= fun _ =>
      rows.forM fun row => s.take t row.rawKey row.record).Ends b u b' := h
    rw [Step.ends_bind] at h
    obtain ⟨_, b₁, htake, h⟩ := h
    obtain ⟨-, htail⟩ := List.nodup_cons.mp hnodup
    obtain ⟨hb₁, hother⟩ := inStepFor_take hcodec hb (hread row (List.mem_cons_self ..)) htake
    refine inStepFor_takeRows hcodec hb₁ htail (fun row' hrow' => ?_) h
    have hne := rawKey_ne hnodup row' hrow'
    rw [read?_congr (hother _ hne)]
    exact hread row' (List.mem_cons_of_mem _ hrow')

/-- Deleting the records that a query selects keeps the indexes in step. -/
theorem inStepFor_deleteMatching (hcodec : s.codec.KeepsKeyLists) (hb : s.InStepFor t covers b)
    {q : Query κ ρ} {n : Nat} (h : (s.deleteMatching t q).Ends b n b') :
    s.InStepFor t covers b' := by
  unfold deleteMatching at h
  rw [Step.ends_get_bind, Step.ends_liftTraced_bind] at h
  obtain ⟨rows, hrows, h⟩ := h
  rw [Step.ends_bind] at h
  obtain ⟨_, b₁, htake, h⟩ := h
  obtain ⟨-, rfl⟩ := Step.ends_pure.mp h
  obtain ⟨hnodup, hread⟩ := find_stored hcodec hb hrows
  exact inStepFor_takeRows hcodec hb hnodup hread htake

end Writes

end RecordStore.Store
