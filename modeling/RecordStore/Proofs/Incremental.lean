import RecordStore.Proofs.Course
import RecordStore.Proofs.Isolation

/-!
# Building anew and building up

The indexes that `reindex` builds are those that come about when the stored records are inserted one by
one, in any order, where nothing was before. What a bucket lists is settled by the records alone, so it
remains to be shown that both ways end and that they leave the same buckets, not only the same entries.
Filing ends wherever the indexes are `Orderly`: each lists some relation, so that its key lists can be
read, and its bucket is there only with entries and was never counted (`Tidy`). Dropping all indexes
makes any state orderly, filing keeps it so (`exists_add`), and two tidy buckets of one relation are one
bucket (`Lists.bucket?_eq`).
-/

namespace RecordStore

/-- A codec stores key lists if it can write each of them and reads back what it has written. -/
def Codec.StoresKeyLists (codec : Codec) : Prop :=
  ∀ l : KeyList, ∃ bytes, codec.write (some l.toJson) = .ok bytes ∧
    Index.decodeKeys codec bytes = .ok l

/-- A codec that reads back what it has written keeps key lists. -/
theorem Codec.StoresKeyLists.keeps {codec : Codec} (h : codec.StoresKeyLists) :
    codec.KeepsKeyLists := by
  intro l bytes hwrite
  obtain ⟨bytes', hwrite', hread⟩ := h l
  rw [hwrite] at hwrite'
  cases hwrite'
  exact hread

theorem Codec.storesKeyLists_json : Codec.json.StoresKeyLists := fun l =>
  ⟨_, rfl, keepsKeyLists_json l _ rfl⟩

namespace Index

variable {codec : Codec} {b b' : Buckets} {bucket n : String} {key value : Bytes} {u : Unit}

/-! ## Buckets with nothing but entries -/

/-- The bucket is there only with entries, and its sequence was never counted. -/
def Tidy (b : Buckets) (n : String) : Prop :=
  ∀ found, b.bucket? n = some found →
    found.sequence = 0 ∧ ∃ v bytes, found.entries.find? v = some bytes

/-- A tidy bucket is there as soon as another one with its entries is. -/
theorem Tidy.has (h : Tidy b n) (hget : ∀ v, b'.get? n v = b.get? n v) (hhas : b.has n = true) :
    b'.has n = true := by
  obtain ⟨found, hfound⟩ := Option.isSome_iff_exists.mp hhas
  obtain ⟨-, v, bytes, hentry⟩ := h found hfound
  refine Buckets.has_of_get? (k := v) (v := bytes) ?_
  rw [hget, Buckets.get?_of_bucket? hfound, hentry]

/-- Tidy indexes of one relation are one bucket. -/
theorem Lists.bucket?_eq {F : Bytes → Bytes → Prop} (h : Lists codec b n F)
    (h' : Lists codec b' n F) (ht : Tidy b n) (ht' : Tidy b' n) : b'.bucket? n = b.bucket? n := by
  have hget := h.get?_eq h'
  have hhas : b'.has n = b.has n :=
    Bool.eq_iff_iff.mpr ⟨ht'.has fun v => (hget v).symm, ht.has hget⟩
  unfold Buckets.has at hhas
  cases hfound : b.bucket? n with
  | none =>
    rw [hfound] at hhas
    simpa using hhas
  | some found =>
    rw [hfound] at hhas
    obtain ⟨found', hfound'⟩ := Option.isSome_iff_exists.mp hhas
    have hentries : found'.entries = found.entries := by
      refine SortedMap.ext_find? fun v => ?_
      rw [← Buckets.get?_of_bucket? hfound', ← Buckets.get?_of_bucket? hfound, hget]
    have hsequence : found'.sequence = found.sequence :=
      (ht' found' hfound').1.trans (ht found hfound).1.symm
    rw [hfound']
    cases found'
    cases found
    simp_all

/-- Adding an entry makes the bucket if need be, and stores under the value, which is not empty. -/
theorem bucket?_addEntry (h : (changeEntry codec .add bucket key value).Ends b u b') :
    value ≠ [] ∧ ∃ bytes, b'.bucket? bucket =
      some ⟨((b.bucket? bucket).getD .empty).entries.insert value bytes,
        ((b.bucket? bucket).getD .empty).sequence⟩ := by
  unfold changeEntry at h
  rw [if_pos rfl, Step.ends_bind] at h
  obtain ⟨_, b₁, hcreate, h⟩ := h
  rw [Step.ends_get_bind, if_pos (Buckets.has_create hcreate), Step.ends_liftExcept_bind] at h
  obtain ⟨l, -, h⟩ := h
  have h : (storeKeys codec bucket value (l.add key)).Ends b₁ u b' := h
  unfold storeKeys at h
  rw [if_neg (Bool.eq_false_iff.mp (KeyList.isEmpty_add l key)), Step.ends_liftExcept_bind] at h
  obtain ⟨bytes, -, hput⟩ := h
  obtain ⟨found, hfound, hbucket⟩ := Buckets.bucket?_put hput
  rw [Buckets.bucket?_create hcreate] at hfound
  cases hfound
  exact ⟨Buckets.key_ne_of_put hput, bytes, hbucket⟩

/-- A key list is stored under every value that is not empty. -/
theorem exists_storeKeys (hcodec : codec.StoresKeyLists) (hhas : b.has bucket = true)
    (hvalue : value ≠ []) (l : KeyList) : ∃ b', (storeKeys codec bucket value l).Ends b () b' := by
  unfold storeKeys
  split
  next => exact Buckets.exists_delete hhas value
  next =>
    obtain ⟨bytes, hwrite, -⟩ := hcodec l
    obtain ⟨b', hput⟩ := Buckets.exists_put hvalue hhas bytes
    exact ⟨b', Step.ends_liftExcept_bind.mpr ⟨bytes, hwrite, hput⟩⟩

/-- Where a bucket lists something, an entry can be added to it. -/
theorem exists_addEntry (hcodec : codec.StoresKeyLists) {F : Bytes → Bytes → Prop}
    (h : Lists codec b bucket F) (hbucket : bucket ≠ "") (hvalue : value ≠ []) (key : Bytes) :
    ∃ b', (changeEntry codec .add bucket key value).Ends b () b' := by
  obtain ⟨b₁, hcreate⟩ := Buckets.exists_create hbucket b
  have hhas := Buckets.has_create hcreate
  have h₁ : Lists codec b₁ bucket F :=
    h.congr (Buckets.get?_create hcreate bucket) fun _ _ => Iff.rfl
  obtain ⟨l, hl, -⟩ := h₁.keysAt hcodec.keeps value
  obtain ⟨b', hstore⟩ := exists_storeKeys hcodec hhas hvalue (l.add key)
  refine ⟨b', ?_⟩
  unfold changeEntry
  rw [if_pos rfl, Step.ends_bind]
  refine ⟨(), b₁, hcreate, ?_⟩
  rw [Step.ends_get_bind, if_pos hhas, Step.ends_liftExcept_bind]
  exact ⟨l, hl, hstore⟩

/-- Where a bucket lists something, its entries can be changed. -/
theorem exists_changeEntry (hcodec : codec.StoresKeyLists) {F : Bytes → Bytes → Prop}
    (h : Lists codec b bucket F) (hbucket : bucket ≠ "") (hvalue : value ≠ []) (change : Change)
    (key : Bytes) : ∃ b', (changeEntry codec change bucket key value).Ends b () b' := by
  cases change with
  | add => exact exists_addEntry hcodec h hbucket hvalue key
  | remove =>
    unfold changeEntry
    rw [if_neg (by decide)]
    cases hhas : b.has bucket with
    | false =>
      refine ⟨b, Step.ends_get_bind.mpr ?_⟩
      rw [if_neg (by rw [hhas]; exact Bool.false_ne_true)]
      exact Step.ends_pure.mpr ⟨rfl, rfl⟩
    | true =>
      obtain ⟨l, hl, -⟩ := h.keysAt hcodec.keeps value
      obtain ⟨b', hstore⟩ := exists_storeKeys hcodec hhas hvalue (l.remove key)
      refine ⟨b', Step.ends_get_bind.mpr ?_⟩
      rw [if_pos hhas, Step.ends_liftExcept_bind]
      exact ⟨l, hl, hstore⟩

/-- A bucket that is not there, or is tidy and the index of some relation. -/
structure Orderly (codec : Codec) (b : Buckets) (n : String) : Prop where
  lists : ∃ F, Lists codec b n F
  tidy : Tidy b n

theorem orderly_missing (h : b.bucket? n = none) : Orderly codec b n where
  lists := ⟨_, lists_nothing (Buckets.get?_of_not_has (by simp [Buckets.has, h]))⟩
  tidy found hfound := by
    rw [h] at hfound
    cases hfound

/-- Whether a bucket is orderly depends on that bucket only. -/
theorem Orderly.congr (h : Orderly codec b n) (hsame : b'.bucket? n = b.bucket? n) :
    Orderly codec b' n where
  lists := by
    obtain ⟨F, hF⟩ := h.lists
    exact ⟨F, hF.congr (Buckets.get?_congr hsame) fun _ _ => Iff.rfl⟩
  tidy := by
    unfold Tidy
    rw [hsame]
    exact h.tidy

/-- Adding an entry keeps every bucket orderly. -/
theorem Orderly.addEntry (hcodec : codec.KeepsKeyLists) (h : Orderly codec b n)
    (hend : (changeEntry codec .add bucket key value).Ends b u b') : Orderly codec b' n := by
  by_cases hn : n = bucket
  · subst hn
    obtain ⟨F, hF⟩ := h.lists
    refine ⟨⟨_, lists_changeEntry hcodec hF hend⟩, fun found hfound => ?_⟩
    obtain ⟨-, bytes, hbucket⟩ := bucket?_addEntry hend
    rw [hbucket] at hfound
    cases hfound
    refine ⟨?_, value, bytes, by rw [SortedMap.find?_insert, if_pos rfl]⟩
    show ((b.bucket? n).getD .empty).sequence = 0
    cases hold : b.bucket? n with
    | none => rfl
    | some old => exact (h.tidy old hold).1
  · have hstays : Buckets.StaysIn (· = bucket) (changeEntry codec .add bucket key value) :=
      staysIn_changeEntry (by rfl) codec .add key value
    exact h.congr (hstays.bucket?_of_ends hend hn)

end Index

/-! ## Bringing a record in -/

namespace Course

variable {κ ρ : Type} {s : Store} {t : RecordType κ ρ} {key : Bytes} {change change' : Index.Change}
  {index : String} {value : Bytes}

/-- What is changed for the answers of indexes are entries of these indexes. -/
theorem mem_changing {edit : Edit} :
    ∀ {answers : List (String × Except Error (List Bytes))},
      edit ∈ (changing change answers).edits → ∃ index value, edit = .entry change index value
  | (_, .ok values) :: rest, h => by
    rcases List.mem_append.mp h with h | h
    · obtain ⟨value, -, rfl⟩ := List.mem_map.mp h
      exact ⟨_, value, rfl⟩
    · exact mem_changing h

/-- A record that is refused on its way in is refused on its way out. -/
theorem refusal_changing (change change' : Index.Change) :
    ∀ answers : List (String × Except Error (List Bytes)),
      (changing change answers).refusal = (changing change' answers).refusal
  | [] => rfl
  | (_, .error _) :: _ => rfl
  | (_, .ok _) :: rest => refusal_changing change change' rest

/-- And it goes out of the entries that it has come into. -/
theorem mem_edits_changing : ∀ {answers : List (String × Except Error (List Bytes))},
    .entry change index value ∈ (changing change answers).edits →
      .entry change' index value ∈ (changing change' answers).edits
  | (_, .ok values) :: rest, h => by
    rcases List.mem_append.mp h with h | h
    · obtain ⟨v, hv, heq⟩ := List.mem_map.mp h
      cases heq
      exact List.mem_append_left _ (List.mem_map_of_mem hv)
    · exact List.mem_append_right _ (mem_edits_changing h)

/-- A course ends if its edits do and nothing refuses it. -/
theorem ends_run {c : Course} {b b' : Buckets} {u : Unit} :
    (c.run s t key).Ends b u b' ↔
      c.refusal = none ∧ (c.edits.forM (Edit.run s t key)).Ends b () b' := by
  unfold run
  rw [Step.ends_bind]
  cases c.refusal with
  | none =>
    constructor
    · intro h
      obtain ⟨_, b₁, hends, hpure⟩ := h
      obtain ⟨-, rfl⟩ := Step.ends_pure.mp hpure
      exact ⟨rfl, hends⟩
    · intro h
      exact ⟨(), b', h.2, Step.ends_pure.mpr ⟨rfl, rfl⟩⟩
  | some e => simp

end Course

namespace Store

variable {κ ρ : Type} {s : Store} {t : RecordType κ ρ} {b b₁ b' : Buckets} {key : Bytes} {record : ρ}
  {u : Unit}

/-- The declared indexes are orderly. -/
def Orderly (s : Store) (t : RecordType κ ρ) (b : Buckets) : Prop :=
  ∀ index, t.schema.hasIndex index = true →
    Index.Orderly s.codec b (Index.bucketName t.name index)

/-- A record can be indexed: there is a state in which it comes into the indexes without an error. -/
def Indexes (s : Store) (t : RecordType κ ρ) (key : Bytes) (record : ρ) : Prop :=
  ∃ b b', (Index.add s.codec t.schema key record).Ends b () b'

theorem bucketName_ne_empty (typeName index : String) : Index.bucketName typeName index ≠ "" := by
  intro hempty
  have hcolon := colon_mem_bucketName typeName index
  rw [hempty] at hcolon
  cases hcolon

/-- Each declared index lists something, so that its key lists can be read. -/
def Readable (s : Store) (t : RecordType κ ρ) (b : Buckets) : Prop :=
  ∀ index, t.schema.hasIndex index = true →
    ∃ F, Index.Lists s.codec b (Index.bucketName t.name index) F

/-- What orderly indexes list can be read. -/
theorem Orderly.readable (hb : s.Orderly t b) : s.Readable t b :=
  fun index hindex => (hb index hindex).lists

theorem readable_empty : s.Readable t .empty :=
  fun _ _ => ⟨_, Index.lists_nothing fun _ => rfl⟩

/-- Whether the indexes can be read is not up to the records. -/
theorem Readable.congr (hb : s.Readable t b)
    (hsame : ∀ n, n ≠ t.name → ∀ k, b'.get? n k = b.get? n k) : s.Readable t b' := by
  intro index hindex
  obtain ⟨F, hF⟩ := hb index hindex
  exact ⟨F, hF.congr (hsame _ (bucketName_ne t.name index)) fun _ _ => Iff.rfl⟩

/-- Changing an entry of an index keeps the indexes readable. -/
theorem Readable.changeEntry (hcodec : s.codec.KeepsKeyLists) {change : Index.Change}
    {bucket : String} {value : Bytes} (hb : s.Readable t b)
    (h : (Index.changeEntry s.codec change bucket key value).Ends b u b') : s.Readable t b' := by
  intro index hindex
  obtain ⟨F, hF⟩ := hb index hindex
  exact ⟨_, (Index.changes_changeEntry hcodec h).lists _ _ hF⟩

/-- What no index refuses, and yields no empty value, can be brought in and taken out wherever the
indexes can be read. What is kept when an entry is changed is kept. -/
theorem exists_changeAll (hcodec : s.codec.StoresKeyLists) {P : Buckets → Prop}
    {change : Index.Change} (hreadable : ∀ b, P b → s.Readable t b)
    (hkeeps : ∀ b b' index value, P b →
      (Index.changeEntry s.codec change (Index.bucketName t.name index) key value).Ends b () b' → P b')
    (hrefusal : (Course.filing t record).refusal = none)
    (hvalues : ∀ index value, .entry .add index value ∈ (Course.filing t record).edits → value ≠ [])
    (hb : P b) : ∃ b', (Index.changeAll s.codec change t.schema key record).Ends b () b' ∧ P b' := by
  obtain ⟨b', hends, hb'⟩ : ∃ b', ((Course.changing change (Course.answers t record)).edits.forM
      (Edit.run s t key)).Ends b () b' ∧ P b' := by
    refine Step.exists_forM (fun edit hedit b hb => ?_) hb
    obtain ⟨index, value, rfl⟩ := Course.mem_changing hedit
    have hadds : .entry .add index value ∈ (Course.filing t record).edits :=
      Course.mem_edits_changing hedit
    obtain ⟨F, hF⟩ := hreadable b hb index (Course.declared_filing record _ hadds)
    obtain ⟨b', hentry⟩ := Index.exists_changeEntry hcodec hF (bucketName_ne_empty t.name index)
      (hvalues index value hadds) change key
    exact ⟨b', hentry, hkeeps b b' index value hb hentry⟩
  refine ⟨b', ?_, hb'⟩
  rw [Course.changeAll_eq, Course.ends_run]
  exact ⟨(Course.refusal_changing change .add _).trans hrefusal, hends⟩

/-- A record can be indexed, under whatever key, exactly if no index refuses it and it yields no empty
value. -/
theorem indexes_iff (hcodec : s.codec.StoresKeyLists) : s.Indexes t key record ↔
    (Course.filing t record).refusal = none ∧
      ∀ index value, .entry .add index value ∈ (Course.filing t record).edits → value ≠ [] := by
  constructor
  · intro h
    obtain ⟨b, b', h⟩ := h
    unfold Index.add at h
    rw [Course.changeAll_eq, Course.ends_run] at h
    obtain ⟨hrefusal, hends⟩ := h
    refine ⟨hrefusal, fun index value hedit => ?_⟩
    obtain ⟨b₁, _, b₂, hentry⟩ := Step.exists_of_forM hends hedit
    exact (Index.bucket?_addEntry hentry).1
  · intro h
    obtain ⟨b', hends, -⟩ := exists_changeAll hcodec (fun _ => id)
      (fun _ _ _ _ hb hentry => hb.changeEntry hcodec.keeps hentry) h.1 h.2 readable_empty
    exact ⟨.empty, b', hends⟩

/-- A record that can be indexed at all can be wherever the indexes can be read, and can go again. -/
theorem exists_change (hcodec : s.codec.StoresKeyLists) (hb : s.Readable t b)
    (h : s.Indexes t key record) (change : Index.Change) :
    ∃ b', (Index.changeAll s.codec change t.schema key record).Ends b () b' := by
  obtain ⟨hrefusal, hvalues⟩ := (indexes_iff hcodec).mp h
  obtain ⟨b', hends, -⟩ := exists_changeAll hcodec (fun _ => id)
    (fun _ _ _ _ hb hentry => hb.changeEntry hcodec.keeps hentry) hrefusal hvalues hb
  exact ⟨b', hends⟩

/-- Where the indexes are orderly it leaves them so when it comes. -/
theorem exists_add (hcodec : s.codec.StoresKeyLists) (hb : s.Orderly t b)
    (h : s.Indexes t key record) :
    ∃ b', (Index.add s.codec t.schema key record).Ends b () b' ∧ s.Orderly t b' := by
  obtain ⟨hrefusal, hvalues⟩ := (indexes_iff hcodec).mp h
  exact exists_changeAll hcodec (fun _ => Orderly.readable)
    (fun _ _ _ _ hb hentry i hi => (hb i hi).addEntry hcodec.keeps hentry) hrefusal hvalues hb

/-- A record that can be written and indexed is written where there is a bucket for it. -/
theorem exists_write (hcodec : s.codec.StoresKeyLists) (hb : s.Readable t b)
    (hhas : b.has t.name = true) (hkey : key ≠ []) {bytes : Bytes}
    (hwrite : s.codec.write (t.toJson? record) = .ok bytes) (h : s.Indexes t key record) :
    ∃ b', (s.write t key record).Ends b () b' ∧
      ∀ k, b'.get? t.name k = if k = key then some bytes else b.get? t.name k := by
  obtain ⟨b₁, hput⟩ := Buckets.exists_put hkey hhas bytes
  have hget := Buckets.get?_put hput
  have hb₁ : s.Readable t b₁ := hb.congr fun n hn k => by rw [hget, if_neg fun hc => hn hc.1]
  obtain ⟨b', hadd⟩ := exists_change hcodec hb₁ h .add
  refine ⟨b', ?_, fun k => ?_⟩
  · unfold write
    rw [Step.ends_liftExcept_bind]
    exact ⟨bytes, hwrite, Step.ends_bind.mpr ⟨(), b₁, hput, hadd⟩⟩
  · rw [get?_changeAll hcodec.keeps hadd, hget]
    simp

/-- Bringing a record in leaves the indexes orderly. -/
theorem Orderly.add (hcodec : s.codec.StoresKeyLists) (hb : s.Orderly t b)
    (h : (Index.add s.codec t.schema key record).Ends b u b') : s.Orderly t b' := by
  obtain ⟨b₁, hends, hb₁⟩ := exists_add hcodec hb ⟨b, b', h⟩
  obtain ⟨-, rfl⟩ := h.unique hends
  exact hb₁

/-! ## Building anew -/

/-- Entries that decode and whose records can be indexed are filed. -/
theorem exists_fileEntries (hcodec : s.codec.StoresKeyLists) :
    ∀ (entries : List Entry) {b : Buckets}, s.Orderly t b →
      (∀ k bytes, (k, bytes) ∈ entries →
        ∃ record, s.codec.read t.ofJson? bytes = .ok record ∧ s.Indexes t k record) →
      ∃ b', (s.fileEntries t false entries).Ends b () b' ∧ s.Orderly t b'
  | [], b, hb, _ => ⟨b, Step.ends_pure.mpr ⟨rfl, rfl⟩, hb⟩
  | (k, bytes) :: entries, b, hb, hentries => by
    obtain ⟨record, hread, hindexes⟩ := hentries k bytes (List.mem_cons_self ..)
    obtain ⟨b₁, hadd, hb₁⟩ := exists_add hcodec hb hindexes
    obtain ⟨b', hrest, hb'⟩ := exists_fileEntries hcodec entries hb₁ fun k bytes hmem =>
      hentries k bytes (List.mem_cons_of_mem _ hmem)
    refine ⟨b', ?_, hb'⟩
    unfold fileEntries
    rw [Step.ends_liftExcept_bind]
    exact ⟨record, hread, Step.ends_bind.mpr ⟨(), b₁, hadd, hrest⟩⟩

/-- Every stored record decodes and can be indexed. -/
def AllIndex (s : Store) (t : RecordType κ ρ) (b : Buckets) : Prop :=
  ∀ k bytes, b.get? t.name k = some bytes →
    ∃ record, s.codec.read t.ofJson? bytes = .ok record ∧ s.Indexes t k record

/-- Nothing but the buckets of declared indexes is touched. -/
theorem bucket?_reindex {n : Nat} (h : (s.reindex t).Ends b n b') {name : String}
    (hname : name ∉ indexBuckets t) : b'.bucket? name = b.bucket? name := by
  have hstays : Buckets.StaysIn (· ∈ indexBuckets t) (s.rebuild t none) :=
    staysIn_rebuild (fun hsome => Bool.noConfusion hsome) fun index hindex => mem_indexBuckets hindex
  exact hstays.bucket?_of_ends h hname

/-- Whatever the indexes hold, they are built if all records can be indexed. -/
theorem exists_reindex (hcodec : s.codec.StoresKeyLists) (hall : s.AllIndex t b) :
    ∃ b', (s.reindex t).Ends b (b.entries t.name).length b' ∧ s.Orderly t b' := by
  obtain ⟨b₁, hdrop, hdropped⟩ := exists_dropAll t.name t.schema.indexNames b
  have hb₁ : s.Orderly t b₁ := fun index hindex =>
    Index.orderly_missing ((hdropped _).trans (if_pos (mem_indexBuckets hindex)))
  have hsame : b₁.bucket? t.name = b.bucket? t.name :=
    (hdropped _).trans (if_neg name_not_mem_indexBuckets)
  obtain ⟨b', hfile, hb'⟩ := exists_fileEntries hcodec (b.entries t.name) hb₁
    fun k bytes hmem => hall k bytes (Buckets.mem_entries_iff.mp hmem)
  refine ⟨b', ?_, hb'⟩
  unfold reindex rebuild
  rw [Step.ends_bind]
  refine ⟨(), b, Step.ends_report.mpr rfl, ?_⟩
  rw [Step.ends_bind]
  refine ⟨(), b₁, hdrop, ?_⟩
  rw [Step.ends_get_bind, Option.getD_none, Buckets.entries_congr hsame]
  show (s.fileEntries t false (b.entries t.name) >>= fun _ => _).Ends b₁ _ b'
  rw [Step.ends_bind]
  exact ⟨(), b', hfile, rfl, rfl⟩

/-! ## Building up -/

section Inserting

variable [CustomKind κ]

/-- Records are inserted one after the other. -/
def insertAll (s : Store) (t : RecordType κ ρ) (records : List (Value κ × ρ)) : Step Buckets Unit :=
  records.forM fun (key, record) => s.insert t key record

omit [CustomKind κ] in
/-- To store a record touches no other bucket. -/
theorem bucket?_of_stored {bytes : Bytes} {b₂ : Buckets} {v : Unit}
    (hcreate : (Buckets.create t.name).Ends b u b₁)
    (hput : (Buckets.put t.name key bytes).Ends b₁ v b₂) {n : String} (hn : n ≠ t.name) :
    b₂.bucket? n = b.bucket? n := by
  have hcreates : Buckets.StaysIn (· = t.name) (Buckets.create t.name) :=
    Buckets.staysIn_create (by rfl)
  have hputs : Buckets.StaysIn (· = t.name) (Buckets.put t.name key bytes) :=
    Buckets.staysIn_put (by rfl) key bytes
  exact (hputs.bucket?_of_ends hput hn).trans (hcreates.bucket?_of_ends hcreate hn)

omit [CustomKind κ] in
/-- Outside the bucket of the records the indexes stay orderly. -/
theorem Orderly.congr (hb : s.Orderly t b)
    (hsame : ∀ n, n ≠ t.name → b'.bucket? n = b.bucket? n) : s.Orderly t b' :=
  fun index hindex => (hb index hindex).congr (hsame _ (bucketName_ne t.name index))

/-- An insertion stores a record, which touches no index bucket, and brings it into the indexes. -/
theorem ends_insert {key : Value κ} (h : (s.insert t key record).Ends b u b') :
    ∃ b₁, (∀ n, n ≠ t.name → b₁.bucket? n = b.bucket? n) ∧
      (Index.add s.codec t.schema (Keycode.encode key) record).Ends b₁ u b' := by
  unfold insert at h
  dsimp only at h
  rw [Step.ends_bind] at h
  obtain ⟨_, b₁, hcreate, h⟩ := h
  rw [Step.ends_get_bind] at h
  split at h
  next => exact absurd h Step.ends_fail
  next =>
    unfold write at h
    rw [Step.ends_liftExcept_bind] at h
    obtain ⟨bytes, -, h⟩ := h
    rw [Step.ends_bind] at h
    obtain ⟨_, b₂, hput, hadd⟩ := h
    exact ⟨b₂, fun n hn => bucket?_of_stored hcreate hput hn, hadd⟩

/-- An insert that succeeds keeps the indexes orderly. -/
theorem Orderly.insert (hcodec : s.codec.StoresKeyLists) {key : Value κ} (hb : s.Orderly t b)
    (h : (s.insert t key record).Ends b u b') : s.Orderly t b' := by
  obtain ⟨b₁, hsame, hadd⟩ := ends_insert h
  exact (hb.congr hsame).add hcodec hadd

/-- Inserting records adds the pairs of their keys and values to each index. -/
theorem lists_insertAll (hcodec : s.codec.StoresKeyLists) {index : String} :
    ∀ {records : List (Value κ × ρ)} {b : Buckets} {F : Bytes → Bytes → Prop},
      Index.Lists s.codec b (Index.bucketName t.name index) F →
      (s.insertAll t records).Ends b u b' →
      Index.Lists s.codec b' (Index.bucketName t.name index) fun v k => F v k ∨
        ∃ r ∈ records, k = Keycode.encode r.1 ∧ Index.Yields t.schema index r.2 v
  | [], b, F, hF, h => by
    obtain ⟨-, rfl⟩ := Step.ends_pure.mp h
    exact hF.congr (fun _ => rfl) fun v k => by simp
  | (key, record) :: records, b, F, hF, h => by
    have h : (s.insert t key record >>= fun _ => s.insertAll t records).Ends b u b' := h
    obtain ⟨_, b₁, hinsert, hrest⟩ := Step.ends_bind.mp h
    obtain ⟨b₂, hsame, hadd⟩ := ends_insert hinsert
    have hF₂ : Index.Lists s.codec b₂ (Index.bucketName t.name index) F :=
      hF.congr (Buckets.get?_congr (hsame _ (bucketName_ne t.name index))) fun _ _ => Iff.rfl
    refine (lists_insertAll hcodec (lists_changeAll hcodec.keeps hF₂ hadd) hrest).congr
      (fun _ => rfl) fun v k => ?_
    show (F v k ∨ k = Keycode.encode key ∧ Index.Yields t.schema index record v) ∨ _ ↔ _
    rw [or_assoc, List.exists_mem_cons_iff]

/-- A record goes in that can be written and indexed, under a key that is free, wherever the indexes can
be read. -/
theorem exists_insert_of_readable (hcodec : s.codec.StoresKeyLists) (hname : t.name ≠ "") {key : Value κ}
    {bytes : Bytes} (hb : s.Readable t b) (hfree : b.get? t.name (Keycode.encode key) = none)
    (hwrite : s.codec.write (t.toJson? record) = .ok bytes)
    (hindexes : s.Indexes t (Keycode.encode key) record) :
    ∃ b', (s.insert t key record).Ends b () b' ∧
      ∀ k, k ≠ Keycode.encode key → b'.get? t.name k = b.get? t.name k := by
  obtain ⟨b₁, hcreate⟩ := Buckets.exists_create hname b
  have hsame := Buckets.get?_create hcreate
  obtain ⟨tag, more, hcode, -⟩ := Keycode.encode_eq_cons key
  have hkey : Keycode.encode key ≠ [] := by simp [hcode]
  obtain ⟨b', hends, hget⟩ := exists_write hcodec (hb.congr fun n _ => hsame n)
    (Buckets.has_create hcreate) hkey hwrite hindexes
  refine ⟨b', ?_, fun k hk => by rw [hget, if_neg hk, hsame]⟩
  unfold insert
  dsimp only
  rw [Step.ends_bind]
  refine ⟨(), b₁, hcreate, ?_⟩
  rw [Step.ends_get_bind, if_neg (by simp [hsame, hfree])]
  exact hends

/-- Where the indexes are orderly it leaves them so. -/
theorem exists_insert (hcodec : s.codec.StoresKeyLists) (hname : t.name ≠ "") {key : Value κ}
    {bytes : Bytes} (hb : s.Orderly t b) (hfree : b.get? t.name (Keycode.encode key) = none)
    (hwrite : s.codec.write (t.toJson? record) = .ok bytes)
    (hindexes : s.Indexes t (Keycode.encode key) record) :
    ∃ b', (s.insert t key record).Ends b () b' ∧ s.Orderly t b' ∧
      ∀ k, k ≠ Keycode.encode key → b'.get? t.name k = b.get? t.name k := by
  obtain ⟨b', hinsert, hsame⟩ := exists_insert_of_readable hcodec hname hb.readable hfree hwrite hindexes
  exact ⟨b', hinsert, hb.insert hcodec hinsert, hsame⟩

/-- Under a key that is taken nothing goes in. -/
theorem fails_insert_of_taken (hname : t.name ≠ "") {key : Value κ}
    (htaken : (b.get? t.name (Keycode.encode key)).isSome = true) (record : ρ) :
    (s.insert t key record).Fails b (.keyExists t.name) b := by
  obtain ⟨bytes, hget⟩ := Option.isSome_iff_exists.mp htaken
  have hcreate := Buckets.ends_create_of_has hname (Buckets.has_of_get? hget)
  unfold insert
  dsimp only
  refine Step.fails_bind.mpr (.inr ⟨(), b, hcreate, ?_⟩)
  rw [Step.fails_get_bind, if_pos htaken]
  exact Step.fails_fail.mpr ⟨rfl, rfl⟩

/-- Records go in under different keys that are free, if each can be written and indexed. -/
theorem exists_insertAll (hcodec : s.codec.StoresKeyLists) (hname : t.name ≠ "") :
    ∀ {records : List (Value κ × ρ)} {b : Buckets}, s.Orderly t b →
      (records.map fun r => Keycode.encode r.1).Nodup →
      (∀ r ∈ records, b.get? t.name (Keycode.encode r.1) = none) →
      (∀ r ∈ records, ∃ bytes, s.codec.write (t.toJson? r.2) = .ok bytes) →
      (∀ r ∈ records, s.Indexes t (Keycode.encode r.1) r.2) →
      ∃ b', (s.insertAll t records).Ends b () b'
  | [], b, _, _, _, _, _ => ⟨b, Step.ends_pure.mpr ⟨rfl, rfl⟩⟩
  | (key, record) :: records, b, hb, hnodup, hfree, hwrite, hindexes => by
    obtain ⟨hhead, htail⟩ := List.nodup_cons.mp hnodup
    rw [List.forall_mem_cons] at hfree hwrite hindexes
    obtain ⟨⟨bytes, hbytes⟩, hwrite⟩ := hwrite
    obtain ⟨b₁, hinsert, hb₁, hother⟩ := exists_insert hcodec hname hb hfree.1 hbytes hindexes.1
    have hrest : ∀ r ∈ records, b₁.get? t.name (Keycode.encode r.1) = none := by
      intro r hr
      have hne : Keycode.encode r.1 ≠ Keycode.encode key := fun heq =>
        hhead (List.mem_map.mpr ⟨r, hr, heq⟩)
      rw [hother _ hne]
      exact hfree.2 r hr
    obtain ⟨b', hends⟩ := exists_insertAll hcodec hname hb₁ htail hrest hwrite hindexes.2
    exact ⟨b', Step.ends_bind.mpr ⟨(), b₁, hinsert, hends⟩⟩

/-! ## Both ways -/

/-- The keys of the stored records, each with the record that is read under it. -/
def storedRecords (s : Store) (t : RecordType κ ρ) (b : Buckets) :
    List (Bytes × Except Error ρ) :=
  (b.entries t.name).map fun (k, bytes) => (k, s.codec.read t.ofJson? bytes)

/-- The records are the stored ones, in some order. -/
def Enumerates (s : Store) (t : RecordType κ ρ) (b : Buckets) (records : List (Value κ × ρ)) :
    Prop :=
  (records.map fun (key, record) => (Keycode.encode key, .ok record)).Perm (s.storedRecords t b)

omit [CustomKind κ] in
/-- The stored records are those that are read under their keys. -/
theorem mem_storedRecords {k : Bytes} :
    (k, .ok record) ∈ s.storedRecords t b ↔ s.read? t b k = .ok (some record) := by
  unfold storedRecords
  rw [List.mem_map, read?_eq_some]
  constructor
  · intro h
    obtain ⟨⟨k', bytes⟩, hmem, heq⟩ := h
    obtain ⟨rfl, hread⟩ := Prod.mk.inj heq
    exact ⟨bytes, Buckets.mem_entries_iff.mp hmem, hread⟩
  · intro h
    obtain ⟨bytes, hget, hread⟩ := h
    exact ⟨(k, bytes), Buckets.mem_entries_iff.mpr hget, Prod.ext rfl hread⟩

/-- A record is read under a key exactly if it is listed with it. -/
theorem Enumerates.read?_iff {records : List (Value κ × ρ)} (h : s.Enumerates t b records)
    {k : Bytes} : s.read? t b k = .ok (some record) ↔
      ∃ r ∈ records, k = Keycode.encode r.1 ∧ r.2 = record := by
  rw [← mem_storedRecords, ← List.Perm.mem_iff h, List.mem_map]
  refine exists_congr fun r => and_congr_right fun _ => ?_
  rw [Prod.mk.injEq, Except.ok.injEq, eq_comm]

theorem Enumerates.nodup {records : List (Value κ × ρ)} (h : s.Enumerates t b records) :
    (records.map fun r => Keycode.encode r.1).Nodup := by
  have hkeys := h.map Prod.fst
  unfold storedRecords at hkeys
  rw [List.map_map, List.map_map] at hkeys
  exact hkeys.nodup_iff.mpr (Buckets.nodup_keys_entries b t.name)

/-- What the keys of the records yield is what the records yield. -/
theorem Enumerates.filed_iff {records : List (Value κ × ρ)} (h : s.Enumerates t b records)
    {index : String} {v k : Bytes} : s.Filed t b index v k ↔
      ∃ r ∈ records, k = Keycode.encode r.1 ∧ Index.Yields t.schema index r.2 v := by
  unfold Filed
  simp only [h.read?_iff]
  constructor
  · intro hfiled
    obtain ⟨record, ⟨r, hr, hk, rfl⟩, hyields⟩ := hfiled
    exact ⟨r, hr, hk, hyields⟩
  · intro hlisted
    obtain ⟨r, hr, hk, hyields⟩ := hlisted
    exact ⟨r.2, ⟨r, hr, hk, rfl⟩, hyields⟩

/-- The stored records can be indexed. -/
theorem AllIndex.of_enumerates {records : List (Value κ × ρ)} (hall : s.AllIndex t b)
    (h : s.Enumerates t b records) {r : Value κ × ρ} (hr : r ∈ records) :
    s.Indexes t (Keycode.encode r.1) r.2 := by
  obtain ⟨bytes, hget, hread⟩ := read?_eq_some.mp (h.read?_iff.mpr ⟨r, hr, rfl, rfl⟩)
  obtain ⟨record, hrecord, hindexes⟩ := hall _ bytes hget
  rw [hrecord] at hread
  cases hread
  exact hindexes

omit [CustomKind κ] in
theorem orderly_empty : s.Orderly t .empty := fun _ _ => Index.orderly_missing rfl

omit [CustomKind κ] in
/-- Each index lists what the records yielded before. -/
theorem lists_reindex (hcodec : s.codec.KeepsKeyLists) {n : Nat} (h : (s.reindex t).Ends b n b')
    {index : String} (hindex : t.schema.hasIndex index = true) :
    Index.Lists s.codec b' (Index.bucketName t.name index) (s.Filed t b index) := by
  have hrecords := bucket?_reindex h name_not_mem_indexBuckets
  exact (inStep_reindex hcodec h index hindex).congr (fun _ => rfl) fun v k =>
    filed_congr (Buckets.get?_congr hrecords k)

omit [CustomKind κ] in
/-- Indexes that were just built are built in the same way again. -/
theorem reindex_again (hcodec : s.codec.StoresKeyLists) (hall : s.AllIndex t b) {n : Nat}
    (h : (s.reindex t).Ends b n b') (hb' : s.Orderly t b') :
    (s.reindex t).Ends b' (b.entries t.name).length b' := by
  have hrecords := bucket?_reindex h name_not_mem_indexBuckets
  have hget := Buckets.get?_congr hrecords
  have hall' : s.AllIndex t b' := fun k bytes hk => hall k bytes ((hget k).symm.trans hk)
  obtain ⟨b₂, hagain, hb₂⟩ := exists_reindex hcodec hall'
  have hsame : b₂ = b' := by
    refine Buckets.ext_bucket? fun name => ?_
    by_cases hname : name ∈ indexBuckets t
    · obtain ⟨index, hindex, rfl⟩ := List.mem_map.mp hname
      have hindex := mem_indexNames.mp hindex
      have hlists : Index.Lists s.codec b' (Index.bucketName t.name index) (s.Filed t b' index) :=
        (lists_reindex hcodec.keeps h hindex).congr (fun _ => rfl) fun v k =>
          (filed_congr (hget k)).symm
      exact hlists.bucket?_eq (lists_reindex hcodec.keeps hagain hindex) (hb' index hindex).tidy
        (hb₂ index hindex).tidy
    · exact bucket?_reindex hagain hname
  rw [hsame, Buckets.entries_congr hrecords] at hagain
  exact hagain

/-- Inserted into an empty store in any order, the records leave each index as `reindex` does. -/
theorem bucket?_insertAll (hcodec : s.codec.StoresKeyLists) {records : List (Value κ × ρ)}
    (henum : s.Enumerates t b records) {n : Nat} (hreindex : (s.reindex t).Ends b n b₁)
    (hb₁ : s.Orderly t b₁) (hinsert : (s.insertAll t records).Ends .empty u b') {index : String}
    (hindex : t.schema.hasIndex index = true) :
    b₁.bucket? (Index.bucketName t.name index) = b'.bucket? (Index.bucketName t.name index) := by
  have hup : Index.Lists s.codec b' (Index.bucketName t.name index) (s.Filed t b index) := by
    refine (lists_insertAll hcodec (Index.lists_nothing fun _ => rfl) hinsert).congr (fun _ => rfl)
      fun v k => ?_
    rw [henum.filed_iff, false_or]
  have hb' : s.Orderly t b' :=
    Step.forM_keeps (fun r b u b' h hb => hb.insert hcodec h) records hinsert orderly_empty
  exact hup.bucket?_eq (lists_reindex hcodec.keeps hreindex hindex) (hb' index hindex).tidy
    (hb₁ index hindex).tidy

/-- If every stored record decodes and can be indexed, then `reindex` counts the records, whatever the
index buckets hold, and leaves the bucket of the records as it is. It leaves each index bucket as the
records leave it that are inserted one by one, in any order, into an empty store; and they all go in
there if they can be written. To build the indexes once more changes nothing. -/
theorem reindex_incremental (hcodec : s.codec.StoresKeyLists) (hname : t.name ≠ "")
    (hall : s.AllIndex t b) :
    ∃ b', (s.reindex t).Ends b (b.entries t.name).length b' ∧
      b'.bucket? t.name = b.bucket? t.name ∧
      (∀ records, s.Enumerates t b records →
        ((∀ r ∈ records, ∃ bytes, s.codec.write (t.toJson? r.2) = .ok bytes) →
          ∃ b₁, (s.insertAll t records).Ends .empty () b₁) ∧
        ∀ b₁, (s.insertAll t records).Ends .empty () b₁ →
          ∀ index, t.schema.hasIndex index = true →
            b'.bucket? (Index.bucketName t.name index) =
              b₁.bucket? (Index.bucketName t.name index)) ∧
      (s.reindex t).Ends b' (b.entries t.name).length b' := by
  obtain ⟨b', hreindex, hb'⟩ := exists_reindex hcodec hall
  refine ⟨b', hreindex, bucket?_reindex hreindex name_not_mem_indexBuckets, fun records henum => ?_,
    reindex_again hcodec hall hreindex hb'⟩
  constructor
  · intro hwrite
    exact exists_insertAll hcodec hname orderly_empty henum.nodup (fun _ _ => rfl) hwrite
      fun r hr => hall.of_enumerates henum hr
  · intro b₁ hinsert index hindex
    exact bucket?_insertAll hcodec henum hreindex hb' hinsert hindex

end Inserting

section Labels

/-- Two lists of labels; the index on the first label is damaged, and that on all of them is missing. -/
def damagedLabels : Buckets :=
  Step.after (do
    Buckets.create "Labels"
    Buckets.put "Labels" (Keycode.encode (.bool false : Value Empty)) (Text.utf8 "[[1],[2]]")
    Buckets.put "Labels" (Keycode.encode (.bool true : Value Empty)) (Text.utf8 "[[1]]")
    Buckets.create "_index:Labels:first"
    Buckets.put "_index:Labels:first" [1] (Text.utf8 "[[9]")) .empty

/-- The same lists, the other way round. -/
def undamaged : List (Value Empty × KeyList) := [(.bool true, ⟨[[1]]⟩), (.bool false, ⟨[[1], [2]]⟩)]

theorem entries_damagedLabels : damagedLabels.entries labels.name =
    [([2, 0], Text.utf8 "[[1],[2]]"), ([2, 1], Text.utf8 "[[1]]")] := by
  decide +kernel

theorem read_firstLabel :
    standard.codec.read labels.ofJson? (Text.utf8 "[[1],[2]]") = .ok ⟨[[1], [2]]⟩ :=
  Codec.keepsKeyLists_json ⟨[[1], [2]]⟩ _ (by decide +kernel)

theorem read_secondLabel : standard.codec.read labels.ofJson? (Text.utf8 "[[1]]") = .ok ⟨[[1]]⟩ :=
  Codec.keepsKeyLists_json ⟨[[1]]⟩ _ (by decide +kernel)

/-- Both lists can be read and indexed, whatever has become of the indexes. -/
theorem allIndex_damagedLabels : standard.AllIndex labels damagedLabels := by
  intro k bytes hget
  have hmem : (k, bytes) ∈ damagedLabels.entries labels.name := Buckets.mem_entries_iff.mpr hget
  rw [entries_damagedLabels, List.mem_cons, List.mem_singleton] at hmem
  rcases hmem with hentry | hentry
  · cases hentry
    exact ⟨_, read_firstLabel, .empty, _, by decide +kernel, rfl⟩
  · cases hentry
    exact ⟨_, read_secondLabel, .empty, _, by decide +kernel, rfl⟩

/-- The lists are the stored ones. -/
theorem enumerates_undamaged : standard.Enumerates labels damagedLabels undamaged := by
  unfold Enumerates storedRecords
  rw [entries_damagedLabels]
  simp only [List.map_cons, List.map_nil, read_firstLabel, read_secondLabel]
  exact List.Perm.swap ..

/-- The damage is gone, and the missing index is there, just as if the lists had been inserted. -/
theorem reindex_incremental_labels :
    Codec.json.StoresKeyLists ∧ labels.name ≠ "" ∧ standard.AllIndex labels damagedLabels ∧
      ∃ b' b₁, (standard.reindex labels).Ends damagedLabels 2 b' ∧
        (standard.insertAll labels undamaged).Ends .empty () b₁ ∧
        b'.bucket? "_index:Labels:first" = b₁.bucket? "_index:Labels:first" ∧
        b'.bucket? "_index:Labels:all" = b₁.bucket? "_index:Labels:all" := by
  obtain ⟨b', hreindex, -, hrecords, -⟩ := reindex_incremental (s := standard) (t := labels)
    Codec.storesKeyLists_json (by decide) allIndex_damagedLabels
  obtain ⟨hinserts, hsame⟩ := hrecords undamaged enumerates_undamaged
  obtain ⟨b₁, hinsert⟩ := hinserts fun r _ => ⟨_, rfl⟩
  rw [entries_damagedLabels] at hreindex
  exact ⟨Codec.storesKeyLists_json, by decide, allIndex_damagedLabels, b', b₁, hreindex, hinsert,
    hsame b₁ hinsert "first" rfl, hsame b₁ hinsert "all" rfl⟩

end Labels

end Store

end RecordStore
