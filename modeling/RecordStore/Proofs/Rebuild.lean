import RecordStore.Proofs.InStep

/-!
# Indexes built anew

Building anew drops the declared indexes and then files entries one after the other: those of the
record bucket itself (`reindex`), or those of another bucket, whose records are copied first
(`reindexFrom`). Each index then lists what the filed entries yield (`lists_fileEntries`), whatever it
held before. All records are among the entries that `reindex` files, so the indexes are in step
(`inStep_reindex`). `reindexFrom` files the entries of the source only: the indexes cover the keys of
the source, and a record under another key is there without its index entries (`reindexFrom_covers`).
-/

namespace RecordStore.Store

variable {κ ρ : Type} {s : Store} {t : RecordType κ ρ}

/-- The buckets of the declared indexes. -/
def indexBuckets (t : RecordType κ ρ) : List String :=
  t.schema.indexNames.map (Index.bucketName t.name)

theorem mem_indexNames {schema : Schema κ ρ} {index : String} :
    index ∈ schema.indexNames ↔ schema.hasIndex index = true := by
  unfold Schema.hasIndex Schema.indexNames SortedMap.contains
  rw [List.mem_append, SortedMap.mem_keys_iff, SortedMap.mem_keys_iff, Bool.or_eq_true_iff,
    Option.isSome_iff_exists, Option.isSome_iff_exists]

theorem mem_indexBuckets {index : String} (hindex : t.schema.hasIndex index = true) :
    Index.bucketName t.name index ∈ indexBuckets t :=
  List.mem_map_of_mem (mem_indexNames.mpr hindex)

theorem name_not_mem_indexBuckets : t.name ∉ indexBuckets t := by
  intro hmem
  obtain ⟨index, -, hname⟩ := List.mem_map.mp hmem
  exact bucketName_ne _ _ hname

/-- A record yields values for declared indexes only. -/
theorem hasIndex_of_yields {schema : Schema κ ρ} {index : String} {record : ρ} {v : Bytes}
    (h : Index.Yields schema index record v) : schema.hasIndex index = true := by
  rcases h with ⟨file, hfile, -⟩ | ⟨file, _, hfile, -⟩
  · exact Bool.or_eq_true_iff.mpr (.inl (Option.isSome_iff_exists.mpr ⟨file, hfile⟩))
  · exact Bool.or_eq_true_iff.mpr (.inr (Option.isSome_iff_exists.mpr ⟨file, hfile⟩))

/-! ## Dropping -/

/-- A bucket can be dropped whether it is there or not. -/
theorem exists_dropIfPresent (bucket : String) (b : Buckets) :
    ∃ b', (dropIfPresent bucket).Ends b () b' ∧
      ∀ n, b'.bucket? n = if n = bucket then none else b.bucket? n := by
  unfold dropIfPresent
  simp only [Step.ends_get_bind]
  split
  next hhas =>
    obtain ⟨b', hdrop⟩ := Buckets.exists_deleteBucket hhas
    exact ⟨b', hdrop, Buckets.bucket?_deleteBucket hdrop⟩
  next hmissing =>
    refine ⟨b, Step.ends_pure.mpr ⟨rfl, rfl⟩, fun n => ?_⟩
    split
    next hn =>
      rw [hn]
      simpa [Buckets.has] using hmissing
    next => rfl

/-- Dropping index buckets leaves every other bucket as it is. -/
theorem exists_dropAll (typeName : String) : ∀ (names : List String) (b : Buckets),
    ∃ b', (names.forM fun index => dropIfPresent (Index.bucketName typeName index)).Ends b () b' ∧
      ∀ n, b'.bucket? n =
        if n ∈ names.map (Index.bucketName typeName) then none else b.bucket? n
  | [], b => ⟨b, Step.ends_pure.mpr ⟨rfl, rfl⟩, fun n => by simp⟩
  | index :: names, b => by
    obtain ⟨b₁, hfirst, hdropped⟩ := exists_dropIfPresent (Index.bucketName typeName index) b
    obtain ⟨b', hrest, hothers⟩ := exists_dropAll typeName names b₁
    refine ⟨b', Step.ends_bind.mpr ⟨(), b₁, hfirst, hrest⟩, fun n => ?_⟩
    rw [hothers, hdropped, List.map_cons]
    by_cases hn : n = Index.bucketName typeName index
    · simp [hn]
    · simp [hn]

/-- Dropping buckets leaves nothing in them and everything in the others. -/
theorem get?_dropAll {typeName : String} {names : List String} {b b' : Buckets} {u : Unit}
    (h : (names.forM fun index => dropIfPresent (Index.bucketName typeName index)).Ends b u b')
    (n : String) (k : Bytes) :
    b'.get? n k = if n ∈ names.map (Index.bucketName typeName) then none else b.get? n k := by
  obtain ⟨b₁, hends, hdropped⟩ := exists_dropAll typeName names b
  obtain ⟨-, rfl⟩ := h.unique hends
  unfold Buckets.get?
  rw [hdropped]
  split <;> rfl

/-! ## Filing -/

/-- Filing the first of several entries, which is stored before if entries are copied. -/
theorem ends_fileEntries_cons {copying : Bool} {key bytes : Bytes} {entries : List Entry}
    {b b' : Buckets} {u : Unit}
    (h : (s.fileEntries t copying ((key, bytes) :: entries)).Ends b u b') :
    ∃ record b₁ b₂, s.codec.read t.ofJson? bytes = .ok record ∧
      (∀ n k, b₁.get? n k =
        if copying = true ∧ n = t.name ∧ k = key then some bytes else b.get? n k) ∧
      (Index.add s.codec t.schema key record).Ends b₁ () b₂ ∧
      (s.fileEntries t copying entries).Ends b₂ u b' := by
  unfold fileEntries at h
  rw [Step.ends_liftExcept_bind] at h
  obtain ⟨record, hread, h⟩ := h
  cases copying with
  | false =>
    have h : (Index.add s.codec t.schema key record >>= fun _ =>
      s.fileEntries t false entries).Ends b u b' := h
    rw [Step.ends_bind] at h
    obtain ⟨_, b₂, hadd, h⟩ := h
    exact ⟨record, b, b₂, hread, fun n k => by simp, hadd, h⟩
  | true =>
    have h : (Buckets.put t.name key bytes >>= fun _ => Index.add s.codec t.schema key record >>=
      fun _ => s.fileEntries t true entries).Ends b u b' := h
    rw [Step.ends_bind] at h
    obtain ⟨_, b₁, hput, h⟩ := h
    rw [Step.ends_bind] at h
    obtain ⟨_, b₂, hadd, h⟩ := h
    exact ⟨record, b₁, b₂, hread, fun n k => by simpa using Buckets.get?_put hput n k, hadd, h⟩

/-- Filing entries adds the pairs of their records to an index. -/
theorem lists_fileEntries (hcodec : s.codec.KeepsKeyLists) {copying : Bool} {index : String} :
    ∀ {entries : List Entry} {b b' : Buckets} {u : Unit} {F : Bytes → Bytes → Prop},
      Index.Lists s.codec b (Index.bucketName t.name index) F →
      (s.fileEntries t copying entries).Ends b u b' →
      Index.Lists s.codec b' (Index.bucketName t.name index) fun v k => F v k ∨
        ∃ bytes record, (k, bytes) ∈ entries ∧ s.codec.read t.ofJson? bytes = .ok record ∧
          Index.Yields t.schema index record v
  | [], b, b', u, F, hF, h => by
    obtain ⟨-, rfl⟩ := Step.ends_pure.mp h
    exact hF.congr (fun _ => rfl) fun v k => by simp
  | (key, bytes) :: entries, b, b', u, F, hF, h => by
    obtain ⟨record, b₁, b₂, hread, hput, hadd, h⟩ := ends_fileEntries_cons h
    -- Copying the record touches no index.
    have hF₁ : Index.Lists s.codec b₁ (Index.bucketName t.name index) F := by
      refine hF.congr (fun v => ?_) fun _ _ => Iff.rfl
      rw [hput, if_neg fun hc => bucketName_ne _ _ hc.2.1]
    have hlists := lists_fileEntries hcodec (lists_changeAll hcodec hF₁ hadd) h
    refine hlists.congr (fun _ => rfl) fun v k => ?_
    show (F v k ∨ k = key ∧ Index.Yields t.schema index record v) ∨ _ ↔ _
    rw [or_assoc]
    refine or_congr_right ⟨fun h => ?_, fun h => ?_⟩
    · rcases h with ⟨rfl, hyields⟩ | ⟨bytes', record', hmem, hread', hyields⟩
      · exact ⟨bytes, record, List.mem_cons_self .., hread, hyields⟩
      · exact ⟨bytes', record', List.mem_cons_of_mem _ hmem, hread', hyields⟩
    · obtain ⟨bytes', record', hmem, hread', hyields⟩ := h
      rcases List.mem_cons.mp hmem with heq | hmem
      · cases heq
        rw [hread] at hread'
        cases hread'
        exact .inl ⟨rfl, hyields⟩
      · exact .inr ⟨bytes', record', hmem, hread', hyields⟩

/-- Filing entries touches index buckets, and with copying the keys of the entries. -/
theorem get?_fileEntries (hcodec : s.codec.KeepsKeyLists) {copying : Bool} {n : String} {k : Bytes}
    (hn : n ∉ indexBuckets t) :
    ∀ {entries : List Entry} {b b' : Buckets} {u : Unit},
      (copying = true → n = t.name → k ∉ entries.map (·.1)) →
      (s.fileEntries t copying entries).Ends b u b' → b'.get? n k = b.get? n k
  | [], b, b', u, _, h => by
    obtain ⟨-, rfl⟩ := Step.ends_pure.mp h
    rfl
  | (key, bytes) :: entries, b, b', u, hk, h => by
    obtain ⟨record, b₁, b₂, -, hput, hadd, h⟩ := ends_fileEntries_cons h
    have hrest := get?_fileEntries hcodec hn
      (fun hcopying hname hmem => hk hcopying hname (List.mem_cons_of_mem _ hmem)) h
    rw [hrest, (Index.changes_changeAll hcodec hadd).frame n, hput, if_neg]
    · rintro ⟨hcopying, hname, rfl⟩
      exact hk hcopying hname (List.mem_cons_self ..)
    · rintro v ⟨index, rfl, hyields⟩
      exact hn (mem_indexBuckets (hasIndex_of_yields hyields))

/-- Entries that are copied are all there afterwards, if they have different keys. -/
theorem get?_fileEntries_of_mem (hcodec : s.codec.KeepsKeyLists) {key bytes : Bytes} :
    ∀ {entries : List Entry} {b b' : Buckets} {u : Unit}, (entries.map (·.1)).Nodup →
      (key, bytes) ∈ entries → (s.fileEntries t true entries).Ends b u b' →
      b'.get? t.name key = some bytes
  | [], _, _, _, _, hmem, _ => by cases hmem
  | (key', bytes') :: entries, b, b', u, hnodup, hmem, h => by
    obtain ⟨hhead, htail⟩ := List.nodup_cons.mp hnodup
    obtain ⟨record, b₁, b₂, -, hput, hadd, hrest⟩ := ends_fileEntries_cons h
    rcases List.mem_cons.mp hmem with heq | hmem
    · cases heq
      rw [get?_fileEntries hcodec name_not_mem_indexBuckets (fun _ _ => hhead) hrest,
        get?_changeAll hcodec hadd, hput, if_pos ⟨rfl, rfl, rfl⟩]
    · exact get?_fileEntries_of_mem hcodec htail hmem hrest

/-! ## Building anew -/

/-- What a bucket still holds when the declared indexes are dropped. -/
def kept (t : RecordType κ ρ) (b : Buckets) (bucket : String) (k : Bytes) : Option Bytes :=
  if bucket ∈ indexBuckets t then none else b.get? bucket k

theorem kept_name (b : Buckets) (k : Bytes) : kept t b t.name k = b.get? t.name k :=
  if_neg name_not_mem_indexBuckets

/-- Building anew is dropping and then filing the entries that the origin still holds. -/
theorem ends_rebuild {source : Option String} {b b' : Buckets} {n : Nat}
    (h : (s.rebuild t source).Ends b n b') :
    ∃ entries b₁, (∀ k bytes, (k, bytes) ∈ entries ↔
        kept t b (source.getD t.name) k = some bytes) ∧
      (entries.map (·.1)).Nodup ∧ n = entries.length ∧
      (∀ bucket k, b₁.get? bucket k = kept t b bucket k) ∧
      (s.fileEntries t source.isSome entries).Ends b₁ () b' := by
  unfold rebuild at h
  dsimp only at h
  rw [Step.ends_bind] at h
  obtain ⟨_, _, hreport, h⟩ := h
  rw [Step.ends_report.mp hreport, Step.ends_bind] at h
  obtain ⟨_, b₁, hdrop, h⟩ := h
  rw [Step.ends_get_bind] at h
  have hdrop : ∀ bucket k, b₁.get? bucket k = kept t b bucket k := get?_dropAll hdrop
  -- A copy asks for the bucket of the records first, which changes no entry.
  have hfile : ∃ b₂, (∀ bucket k, b₂.get? bucket k = b₁.get? bucket k) ∧
      (do
        s.fileEntries t source.isSome (b₁.entries (source.getD t.name))
        Step.report (.rebuildComplete t.name (b₁.entries (source.getD t.name)).length)
        pure (b₁.entries (source.getD t.name)).length : Step Buckets Nat).Ends b₂ n b' := by
    split at h
    next =>
      rw [Step.ends_bind] at h
      obtain ⟨_, b₂, hcreate, h⟩ := h
      exact ⟨b₂, Buckets.get?_create hcreate, h⟩
    next => exact ⟨b₁, fun _ _ => rfl, h⟩
  obtain ⟨b₂, hsame, h⟩ := hfile
  rw [Step.ends_bind] at h
  obtain ⟨_, b₃, hfile, h⟩ := h
  rw [Step.ends_bind] at h
  obtain ⟨_, _, hreport, h⟩ := h
  rw [Step.ends_report.mp hreport] at h
  obtain ⟨rfl, rfl⟩ := Step.ends_pure.mp h
  refine ⟨b₁.entries (source.getD t.name), b₂, fun k bytes => ?_,
    Buckets.nodup_keys_entries _ _, rfl, fun bucket k => ?_, hfile⟩
  · rw [Buckets.mem_entries_iff, hdrop]
  · rw [hsame, hdrop]

/-- Each index lists what the entries of the origin yield. -/
theorem lists_rebuild (hcodec : s.codec.KeepsKeyLists) {source : Option String} {b b' : Buckets}
    {n : Nat} (h : (s.rebuild t source).Ends b n b') {index : String}
    (hindex : t.schema.hasIndex index = true) :
    Index.Lists s.codec b' (Index.bucketName t.name index) fun v k => ∃ bytes record,
      kept t b (source.getD t.name) k = some bytes ∧
        s.codec.read t.ofJson? bytes = .ok record ∧ Index.Yields t.schema index record v := by
  obtain ⟨entries, b₁, hmem, -, -, hdrop, hfile⟩ := ends_rebuild h
  have hempty : Index.Lists s.codec b₁ (Index.bucketName t.name index) fun _ _ => False := by
    refine Index.lists_nothing fun v => ?_
    rw [hdrop]
    exact if_pos (mem_indexBuckets hindex)
  refine (lists_fileEntries hcodec hempty hfile).congr (fun _ => rfl) fun v k => ?_
  simp only [false_or, hmem]

/-- The records of the origin, over those that were there. -/
theorem get?_rebuild (hcodec : s.codec.KeepsKeyLists) {source : Option String} {b b' : Buckets}
    {n : Nat} (h : (s.rebuild t source).Ends b n b') (k : Bytes) :
    b'.get? t.name k = (kept t b (source.getD t.name) k).or (b.get? t.name k) := by
  obtain ⟨entries, b₁, hmem, hnodup, -, hdrop, hfile⟩ := ends_rebuild h
  have hbefore : b₁.get? t.name k = b.get? t.name k := (hdrop _ k).trans (kept_name b k)
  cases source with
  | none =>
    rw [Option.isSome_none] at hfile
    rw [get?_fileEntries hcodec name_not_mem_indexBuckets (fun hc => Bool.noConfusion hc) hfile,
      hbefore, Option.getD_none, kept_name, Option.or_self]
  | some source =>
    rw [Option.getD_some] at hmem ⊢
    cases hkept : kept t b source k with
    | none =>
      rw [Option.none_or, ← hbefore]
      refine get?_fileEntries hcodec name_not_mem_indexBuckets (fun _ _ hk => ?_) hfile
      obtain ⟨⟨key, bytes⟩, hentry, rfl⟩ := List.mem_map.mp hk
      have hthere := (hmem key bytes).mp hentry
      rw [hkept] at hthere
      cases hthere
    | some bytes =>
      exact get?_fileEntries_of_mem hcodec hnodup ((hmem k bytes).mpr hkept) hfile

/-- Built anew, the indexes cover the keys of the origin. -/
theorem inStepFor_rebuild (hcodec : s.codec.KeepsKeyLists) {source : Option String}
    {b b' : Buckets} {n : Nat} (h : (s.rebuild t source).Ends b n b') :
    s.InStepFor t (fun _ k => (kept t b (source.getD t.name) k).isSome = true) b' := by
  intro index hindex
  refine (lists_rebuild hcodec h hindex).congr (fun _ => rfl) fun v k => ?_
  show _ ↔ (kept t b (source.getD t.name) k).isSome = true ∧ _
  have hget := get?_rebuild hcodec h k
  cases hkept : kept t b (source.getD t.name) k with
  | none => simp
  | some bytes =>
    rw [hkept, Option.some_or] at hget
    rw [filed_iff_of_get? hget]
    simp

/-- A key with values has a record. -/
theorem isSome_of_filed {b : Buckets} {index : String} {v k : Bytes}
    (h : s.Filed t b index v k) : (b.get? t.name k).isSome = true := by
  cases hget : b.get? t.name k with
  | none => exact absurd h (not_filed hget)
  | some bytes => rfl

/-- Whatever the indexes held, built anew from the records they are in step. -/
theorem inStep_reindex (hcodec : s.codec.KeepsKeyLists) {b b' : Buckets} {n : Nat}
    (h : (s.reindex t).Ends b n b') : s.InStep t b' := by
  refine (inStepFor_rebuild hcodec h).inStep fun index v k hfiled => ?_
  have hget := get?_rebuild hcodec h k
  rw [Option.getD_none, kept_name, Option.or_self] at hget
  rw [Option.getD_none, kept_name, ← hget]
  exact isSome_of_filed hfiled

/-- Built anew from another bucket, the records are those of the bucket over those that were there,
and all other buckets but the indexes are left alone. The indexes cover the keys of the other bucket;
so they are in step exactly if no other record that was there yields a value. -/
theorem reindexFrom_covers (hcodec : s.codec.KeepsKeyLists) {source : String} {b b' : Buckets}
    {n : Nat} (h : (s.reindexFrom t source).Ends b n b') :
    (∀ k, b'.get? t.name k = (kept t b source k).or (b.get? t.name k)) ∧
      (∀ bucket, bucket ≠ t.name → bucket ∉ indexBuckets t →
        ∀ k, b'.get? bucket k = b.get? bucket k) ∧
      s.InStepFor t (fun _ k => (kept t b source k).isSome = true) b' ∧
      (s.InStep t b' ↔
        ∀ index v k, s.Filed t b index v k → (kept t b source k).isSome = true) := by
  have hrecords := get?_rebuild hcodec h
  have hcovers := inStepFor_rebuild hcodec h
  rw [Option.getD_some] at hrecords hcovers
  -- A record of another key is the one that was there.
  have hfiled : ∀ {index v k}, kept t b source k = none →
      (s.Filed t b' index v k ↔ s.Filed t b index v k) := by
    intro index v k hkept
    refine filed_congr ?_
    rw [hrecords, hkept, Option.none_or]
  refine ⟨hrecords, fun bucket hname hindex k => ?_, hcovers, ?_⟩
  · obtain ⟨entries, b₁, -, -, -, hdrop, hfile⟩ := ends_rebuild h
    rw [get?_fileEntries hcodec hindex (fun _ hc => absurd hc hname) hfile, hdrop]
    exact if_neg hindex
  · constructor
    · intro hstep index v k hbefore
      cases hkept : kept t b source k with
      | some bytes => rfl
      | none =>
        obtain ⟨record, -, hyields⟩ := id hbefore
        have hindex := hasIndex_of_yields hyields
        have hboth := (hstep index hindex).unique hcodec (hcovers index hindex) v k
        have hthere : (kept t b source k).isSome = true :=
          (hboth.mp ((hfiled hkept).mpr hbefore)).1
        rw [hkept] at hthere
        cases hthere
    · intro hall
      refine hcovers.inStep fun index v k hafter => ?_
      cases hkept : kept t b source k with
      | some bytes => rfl
      | none =>
        rw [← hkept]
        exact hall index v k ((hfiled hkept).mp hafter)

section Labels

/-- Lists of labels, with an index on the first label and one on all of them. -/
def labels : RecordType Empty KeyList where
  schema :=
    { typeName := "Labels"
      fields := .empty
      indexes := SortedMap.empty.insert "first" fun l => .ok l.keys.head?
      sliceIndexes := SortedMap.empty.insert "all" fun l => .ok l.keys }
  toJson? l := some l.toJson
  ofJson? := KeyList.ofJson?

/-- A list of labels that is filed, and another one in a bucket of its own. -/
def labelsApart : Buckets :=
  Step.after (do
    standard.insert labels (.bool false) ⟨[[1]]⟩
    Buckets.create "Apart"
    Buckets.put "Apart" (Keycode.encode (.bool true : Value Empty)) (Text.utf8 "[[2]]")) .empty

/-- The indexes are dropped, and the entries of the other bucket can be read and filed. -/
theorem exists_reindexFrom_labels :
    ∃ b', (standard.reindexFrom labels "Apart").Ends labelsApart 1 b' := by
  have hread : standard.codec.read labels.ofJson? (Text.utf8 "[[2]]") = .ok ⟨[[2]]⟩ :=
    Codec.keepsKeyLists_json ⟨[[2]]⟩ _ (by decide +kernel)
  let dropped := Step.after (labels.schema.indexNames.forM fun index =>
    dropIfPresent (Index.bucketName labels.name index)) labelsApart
  have hentries : dropped.entries "Apart" = [([2, 1], Text.utf8 "[[2]]")] := by decide +kernel
  obtain ⟨filed, hfiled⟩ : ∃ filed, (standard.fileEntries labels true
      [([2, 1], Text.utf8 "[[2]]")]).Ends ((Buckets.create labels.name).after dropped) () filed := by
    unfold fileEntries
    simp only [Step.ends_liftExcept_bind]
    exact ⟨_, _, hread, by decide +kernel, rfl⟩
  refine ⟨filed, ?_⟩
  unfold reindexFrom rebuild
  rw [Step.ends_bind]
  refine ⟨(), labelsApart, Step.ends_report.mpr rfl, ?_⟩
  rw [Step.ends_bind]
  refine ⟨(), dropped, ⟨by decide +kernel, rfl⟩, ?_⟩
  rw [Step.ends_get_bind, Option.getD_some, hentries]
  dsimp only
  rw [if_pos (by decide +kernel), Step.ends_bind]
  refine ⟨(), _, ⟨by decide +kernel, rfl⟩, ?_⟩
  rw [Step.ends_bind]
  exact ⟨(), filed, hfiled, rfl, rfl⟩

/-- The list that was filed is still there, but no longer in the indexes. -/
theorem reindexFrom_covers_labels :
    Codec.json.KeepsKeyLists ∧ ∃ b', (standard.reindexFrom labels "Apart").Ends labelsApart 1 b' ∧
      b'.get? "Labels" [2, 0] = some (Text.utf8 "[[1]]") ∧
      standard.InStepFor labels (fun _ k => (kept labels labelsApart "Apart" k).isSome = true) b' ∧
      ¬standard.InStep labels b' := by
  obtain ⟨b', hends⟩ := exists_reindexFrom_labels
  obtain ⟨hrecords, -, hcovers, hstep⟩ := reindexFrom_covers (s := standard) (t := labels)
    Codec.keepsKeyLists_json hends
  have hget : labelsApart.get? labels.name [2, 0] = some (Text.utf8 "[[1]]") := by decide +kernel
  have hread : standard.read? labels labelsApart [2, 0] = .ok (some ⟨[[1]]⟩) := by
    have hlist : standard.codec.read labels.ofJson? (Text.utf8 "[[1]]") = .ok ⟨[[1]]⟩ :=
      Codec.keepsKeyLists_json ⟨[[1]]⟩ _ (by decide +kernel)
    rw [read?_of_get? hget, hlist]
    rfl
  have hother : kept labels labelsApart "Apart" [2, 0] = none := by decide +kernel
  refine ⟨Codec.keepsKeyLists_json, b', hends, ?_, hcovers, fun hall => ?_⟩
  · show b'.get? labels.name _ = _
    rw [hrecords, hother, Option.none_or, hget]
  · have hthere := hstep.mp hall "first" [1] [2, 0] ⟨_, hread, .inl ⟨_, rfl, rfl⟩⟩
    rw [hother] at hthere
    cases hthere

end Labels

end RecordStore.Store
