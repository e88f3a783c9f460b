import RecordStore.Proofs.IndexScan
import RecordStore.Proofs.Keeping

/-!
# Record types in one store

All record types of a store keep their buckets in one space of names: the records of a type under its
name, each index under a name put together from that of the type and its own. A step that stays in
some buckets leaves every other one as it is, whether it ends or fails (`StaysIn`). Every change that
a call on a type makes stays in the buckets that the type owns, so every call does
(`staysIn_mutation`). The name of a type that was built has no colon, so what stands between the first
two colons in the name of an index bucket is the type that owns it, whatever the index is called.
Hence no two types own a bucket in common (`not_owns_name`, `not_owns_bucketName`), and a call on one
of them leaves those of the other alone.
-/

namespace RecordStore

namespace Buckets

variable {α β : Type} {own : String → Prop} {name : String}

/-- However the step goes, every bucket that is not its own is as it was: there or not, with the same
entries and the same sequence. -/
def StaysIn (own : String → Prop) (m : Step Buckets α) : Prop :=
  ∀ b n, ¬own n → (m.after b).bucket? n = b.bucket? n

/-- A step that ends and stays in its own buckets leaves every other one as it was. -/
theorem StaysIn.bucket?_of_ends {m : Step Buckets α} (h : StaysIn own m) {b b' : Buckets} {a : α}
    (hend : m.Ends b a b') {n : String} (hn : ¬own n) : b'.bucket? n = b.bucket? n := by
  have hsame := h b n hn
  rw [Step.after, hend.2] at hsame
  exact hsame

/-- The buckets that are not these are as they were. -/
def SameBeside (own : String → Prop) (b₀ b : Buckets) : Prop :=
  ∀ n, ¬own n → b.bucket? n = b₀.bucket? n

/-- To stay in some buckets is to keep the others as they were at any time. -/
theorem staysIn_iff {m : Step Buckets α} :
    StaysIn own m ↔ ∀ b₀, Step.Keeps (SameBeside own b₀) m := by
  constructor
  · intro h b₀ b hb n hn
    exact (h b n hn).trans (hb n hn)
  · intro h b
    exact h b b fun _ _ => rfl

/-! ## Single steps -/

theorem bucket?_setBucket_of_not_own (hown : own name) {b : Buckets} {n : String} (hn : ¬own n)
    (bucket : Bucket) : (b.setBucket name bucket).bucket? n = b.bucket? n := by
  rw [bucket?_setBucket, if_neg]
  intro heq
  exact hn (heq ▸ hown)

/-- Creating an own bucket stays in it. -/
theorem staysIn_create (hown : own name) : StaysIn own (create name) := by
  intro b n hn
  rcases after_create name b with hsame | ⟨-, hmade⟩
  · rw [hsame]
  · rw [hmade, bucket?_setBucket_of_not_own hown hn]

theorem staysIn_put (hown : own name) (key value : Bytes) : StaysIn own (put name key value) := by
  intro b n hn
  rcases after_put name key value b with hsame | ⟨_, -, hput⟩
  · rw [hsame]
  · rw [hput, bucket?_setBucket_of_not_own hown hn]

theorem staysIn_delete (hown : own name) (key : Bytes) : StaysIn own (delete name key) := by
  intro b n hn
  rcases after_delete name key b with hsame | ⟨_, -, htaken⟩
  · rw [hsame]
  · rw [htaken, bucket?_setBucket_of_not_own hown hn]

theorem staysIn_deleteBucket (hown : own name) : StaysIn own (deleteBucket name) := by
  intro b n hn
  rw [bucket?_after_deleteBucket, if_neg]
  intro heq
  exact hn (heq ▸ hown)

theorem staysIn_nextSequence (hown : own name) : StaysIn own (nextSequence name) := by
  intro b n hn
  rcases after_nextSequence name b with hsame | ⟨_, -, -, hcounted⟩
  · rw [hsame]
  · rw [hcounted, bucket?_setBucket_of_not_own hown hn]

end Buckets

namespace Index

open Buckets

variable {own : String → Prop} {bucket : String}

theorem staysIn_changeEntry (hown : own bucket) (codec : Codec) (change : Change) (key value : Bytes) :
    StaysIn own (changeEntry codec change bucket key value) :=
  staysIn_iff.mpr fun b₀ => keeps_changeEntry (staysIn_iff.mp (staysIn_create hown) b₀)
    (staysIn_iff.mp (staysIn_delete hown value) b₀)
    (fun bytes => staysIn_iff.mp (staysIn_put hown value bytes) b₀) change key

/-- That the others are as they were is kept by every change of an own bucket. -/
theorem keptIn_sameBeside (codec : Codec) (own : String → Prop) (b₀ : Buckets) :
    KeptIn codec own (SameBeside own b₀) where
  entry hown change key value := staysIn_iff.mp (staysIn_changeEntry hown codec change key value) b₀
  drop hown := staysIn_iff.mp (staysIn_deleteBucket hown) b₀

end Index

namespace Store

open Buckets

section Calls

variable {κ ρ : Type} {s : Store} {t : RecordType κ ρ}

/-- What is built anew is read from any bucket. It is written to those of the declared indexes, and to
that of the records only if there is another to copy from. -/
theorem staysIn_rebuild {own : String → Prop} {source : Option String}
    (hname : source.isSome = true → own t.name)
    (hindexes : ∀ index, t.schema.hasIndex index = true → own (Index.bucketName t.name index)) :
    StaysIn own (s.rebuild t source) := by
  refine staysIn_iff.mpr fun b₀ b hb => ?_
  refine kept_rebuild (Index.keptIn_sameBeside s.codec own b₀) hindexes
    (fun hsome => staysIn_iff.mp (staysIn_create (hname hsome)) b₀) ?_ hb
  intro origin horigin key bytes _
  exact staysIn_iff.mp (staysIn_put (hname (Option.isSome_of_eq_some horigin)) key bytes) b₀

/-- The buckets of a type: that of its records, and those of indexes of any name. -/
def Owns (t : RecordType κ ρ) (n : String) : Prop :=
  n = t.name ∨ ∃ index, n = Index.bucketName t.name index

theorem owns_name (t : RecordType κ ρ) : Owns t t.name := .inl rfl

/-- Every change that a call on a type makes is one of its own buckets. -/
theorem keptByCalls_sameBeside (s : Store) (t : RecordType κ ρ) (b₀ : Buckets) :
    KeptByCalls s t (fun _ => True) (SameBeside (Owns t) b₀) where
  indexes := by
    have hkept := Index.keptIn_sameBeside s.codec (Owns t) b₀
    exact ⟨fun hbucket => hkept.entry (.inr hbucket), fun hbucket => hkept.drop (.inr hbucket)⟩
  create := staysIn_iff.mp (staysIn_create (owns_name t)) b₀
  put _ bytes := staysIn_iff.mp (staysIn_put (owns_name t) _ bytes) b₀
  delete key := staysIn_iff.mp (staysIn_delete (owns_name t) key) b₀
  count := staysIn_iff.mp (staysIn_nextSequence (owns_name t)) b₀

/-- Every call on a type stays in the buckets of the type. -/
theorem staysIn_mutation [CustomKind κ] (m : Mutation κ ρ) : StaysIn (Owns t) (m.run s t) :=
  staysIn_iff.mpr fun b₀ _ hb => kept_mutation (keptByCalls_sameBeside s t b₀) m
    (fun _ _ => trivial) (fun _ _ => trivial) (fun _ _ => trivial) hb

end Calls

/-! ## Two types -/

section Names

/-- A name without colons is what stands before the first colon. -/
theorem takeWhile_colon {name : List Char} (h : ':' ∉ name) (rest : List Char) :
    (name ++ ':' :: rest).takeWhile (· ≠ ':') = name := by
  rw [List.takeWhile_append_of_pos, List.takeWhile_cons_of_neg (by decide), List.append_nil]
  intro c hc
  exact decide_eq_true fun heq => h (heq ▸ hc)

/-- The name of an index bucket settles the type, whatever the index is called. -/
theorem typeName_of_bucketName {typeName typeName' index index' : String}
    (h : ':' ∉ typeName.toList) (h' : ':' ∉ typeName'.toList)
    (hname : Index.bucketName typeName index = Index.bucketName typeName' index') :
    typeName = typeName' := by
  have hchars := congrArg String.toList hname
  unfold Index.bucketName at hchars
  simp only [String.toList_append, List.append_assoc] at hchars
  have hrest : typeName.toList ++ ':' :: index.toList = typeName'.toList ++ ':' :: index'.toList :=
    List.append_cancel_left hchars
  have hbefore := congrArg (List.takeWhile (· ≠ ':')) hrest
  rw [takeWhile_colon h, takeWhile_colon h'] at hbefore
  exact String.toList_inj.mp hbefore

/-- The name of an index bucket has a colon. -/
theorem colon_mem_bucketName (typeName index : String) :
    ':' ∈ (Index.bucketName typeName index).toList := by
  unfold Index.bucketName
  simp [String.toList_append]

variable {κ ρ : Type} {t : RecordType κ ρ} {n : String}

/-- The records of a type are not in a bucket of another. -/
theorem not_owns_name (h' : ':' ∉ n.toList) (hne : n ≠ t.name) : ¬Owns t n := by
  intro howns
  rcases howns with hname | ⟨index, hname⟩
  · exact hne hname
  · rw [hname] at h'
    exact h' (colon_mem_bucketName t.name index)

/-- The indexes of a type are not in a bucket of another. -/
theorem not_owns_bucketName (h : ':' ∉ t.name.toList) (h' : ':' ∉ n.toList) (hne : n ≠ t.name)
    (index : String) : ¬Owns t (Index.bucketName n index) := by
  intro howns
  rcases howns with hname | ⟨index', hname⟩
  · rw [← hname] at h
    exact h (colon_mem_bucketName n index)
  · exact hne (typeName_of_bucketName h' h hname)

end Names

/-- A call on a type, well or not, leaves every bucket of any other type as it was. -/
theorem mutation_leaves_other {κ κ' ρ ρ' : Type} [CustomKind κ] [CustomKind κ'] {s : Store}
    {t : RecordType κ ρ} {t' : RecordType κ' ρ'} {declarations : List (Schema.Declaration κ ρ)}
    {declarations' : List (Schema.Declaration κ' ρ')}
    (hbuild : Schema.build t.name declarations = .ok t.schema)
    (hbuild' : Schema.build t'.name declarations' = .ok t'.schema) (hne : t'.name ≠ t.name)
    (m : Mutation κ ρ) (b : Buckets) :
    ((m.run s t).after b).bucket? t'.name = b.bucket? t'.name ∧
      ∀ index, ((m.run s t).after b).bucket? (Index.bucketName t'.name index) =
        b.bucket? (Index.bucketName t'.name index) := by
  have hcolon := (Schema.typeName_of_build hbuild).2
  have hcolon' := (Schema.typeName_of_build hbuild').2
  have hstays := staysIn_mutation (s := s) (t := t) m b
  exact ⟨hstays _ (not_owns_name hcolon' hne),
    fun index => hstays _ (not_owns_bucketName hcolon hcolon' hne index)⟩

section Parcels

/-- Crates, with an index whose name reads like the end of an index bucket of parcels. -/
def crates : RecordType Empty Bool where
  schema :=
    { typeName := "Crates"
      fields := .empty
      indexes := SortedMap.empty.insert ":Parcels:weight" fun heavy =>
        .ok (some (Keycode.encode (weightOf heavy)))
      sliceIndexes := .empty }
  toJson? heavy := some (.bool heavy)
  ofJson? := parcels.ofJson?

/-- The schema of crates is built from its declarations, an index of that name included. -/
theorem build_crates : Schema.build crates.name [.index ":Parcels:weight" fun heavy =>
    .ok (some (Keycode.encode (weightOf heavy)))] = .ok crates.schema := rfl

/-- A crate comes into its own index, and the parcels stay as they are. -/
theorem mutation_leaves_other_crates :
    Schema.build crates.name [.index ":Parcels:weight" fun heavy =>
        .ok (some (Keycode.encode (weightOf heavy)))] = .ok crates.schema ∧
      Schema.build parcels.name [.indexedField "weight" weightOf, .sliceIndex "sizes" sizesOf] =
        .ok parcels.schema ∧
      parcels.name ≠ crates.name ∧
      (((Mutation.write (.insert (.uint 3) true)).run standard crates).after twoParcels).bucket?
        "_index:Parcels:weight" = twoParcels.bucket? "_index:Parcels:weight" ∧
      (((Mutation.write (.insert (.uint 3) true)).run standard crates).after twoParcels).entries
        "_index:Crates::Parcels:weight" =
          [(Keycode.encode (weightOf true), Text.utf8 "[[4,0,0,0,0,0,0,0,3]]")] := by
  refine ⟨build_crates, build_parcels, by decide, ?_, by decide +kernel⟩
  exact (mutation_leaves_other (s := standard) build_crates build_parcels (by decide)
    (.write (.insert (.uint 3) true)) twoParcels).2 "weight"

end Parcels

end Store

end RecordStore
