import RecordStore.Buckets
import RecordStore.Proofs.Step

/-!
# What is stored after a step

Each step on buckets is described by what `get?` answers afterwards: writing and taking out change
the one key in the one bucket, making a bucket and counting its sequence change nothing that is
stored. The entries of a bucket are what `get?` answers, in ascending order of their keys.
-/

namespace RecordStore

/-- Two maps with the same answers are one map. -/
theorem SortedMap.ext_find? {α β : Type} [Ord α] [Std.TransOrd α] [Std.LawfulEqOrd α]
    {m m' : SortedMap α β} (h : ∀ k, m.find? k = m'.find? k) : m = m' := by
  have hnodup : ∀ m : SortedMap α β, m.toList.Nodup := fun m =>
    List.Pairwise.imp (fun hab heq => by simp [heq] at hab) m.sorted
  have hperm : m.toList.Perm m'.toList := by
    refine (List.perm_ext_iff_of_nodup (hnodup m) (hnodup m')).mpr fun e => ?_
    rw [m.mem_toList_iff, m'.mem_toList_iff, h]
  refine SortedMap.ext (hperm.eq_of_pairwise (fun a b _ _ hab hba => ?_) m.sorted m'.sorted)
  rw [Std.OrientedCmp.gt_of_lt hba] at hab
  cases hab

namespace Buckets

/-- Two states with the same buckets are one state. -/
theorem ext_bucket? {s s' : Buckets} (h : ∀ n, s.bucket? n = s'.bucket? n) : s = s' :=
  congrArg Buckets.mk (SortedMap.ext_find? h)

/-! ## Reading -/

@[simp] theorem bucket?_setBucket (s : Buckets) (name n : String) (b : Bucket) :
    (s.setBucket name b).bucket? n = if n = name then some b else s.bucket? n :=
  SortedMap.find?_insert s.byName name n b

/-- After a bucket is set its entries are those it was set to, and other buckets keep theirs. -/
theorem get?_setBucket (s : Buckets) (name n : String) (b : Bucket) (k : Bytes) :
    (s.setBucket name b).get? n k = if n = name then b.entries.find? k else s.get? n k := by
  unfold get?
  rw [bucket?_setBucket]
  by_cases h : n = name
  · rw [if_pos h, if_pos h]
    rfl
  · rw [if_neg h, if_neg h]

theorem get?_of_bucket? {s : Buckets} {name : String} {b : Bucket} (h : s.bucket? name = some b)
    (k : Bytes) : s.get? name k = b.entries.find? k := by
  unfold get?
  rw [h]
  rfl

/-- What is stored in a bucket depends on the bucket only. -/
theorem get?_congr {s s' : Buckets} {name : String} (h : s'.bucket? name = s.bucket? name)
    (k : Bytes) : s'.get? name k = s.get? name k := by
  unfold get?
  rw [h]

/-- The entries of a name are those of its bucket. -/
theorem entries_congr {s s' : Buckets} {name : String} (h : s'.bucket? name = s.bucket? name) :
    s'.entries name = s.entries name := by
  unfold entries
  rw [h]

/-- Nothing is stored in a bucket that is not there. -/
theorem get?_of_not_has {s : Buckets} {name : String} (h : s.has name = false) (k : Bytes) :
    s.get? name k = none := by
  unfold has at h
  unfold get?
  rw [Option.isSome_eq_false_iff, Option.isNone_iff_eq_none] at h
  rw [h]
  rfl

theorem has_of_get? {s : Buckets} {name : String} {k v : Bytes} (h : s.get? name k = some v) :
    s.has name = true := by
  cases hh : s.has name with
  | true => rfl
  | false =>
    rw [get?_of_not_has hh] at h
    cases h

/-- The entries of a bucket are what can be looked up in it. -/
theorem mem_entries_iff {s : Buckets} {name : String} {k v : Bytes} :
    (k, v) ∈ s.entries name ↔ s.get? name k = some v := by
  unfold entries get?
  cases s.bucket? name with
  | none => simp
  | some b => exact b.entries.mem_toList_iff

/-- A bucket with entries is there. -/
theorem has_of_entries {s : Buckets} {name : String} (h : s.entries name ≠ []) :
    s.has name = true := by
  obtain ⟨e, he⟩ := List.exists_mem_of_ne_nil _ h
  exact has_of_get? (mem_entries_iff.mp he)

/-- Entries come in strictly ascending order of their keys. -/
theorem keysAscend_entries (s : Buckets) (name : String) : KeysAscend (s.entries name) := by
  unfold entries
  split
  next b _ => exact b.entries.sorted
  next => exact List.Pairwise.nil

theorem nodup_keys_entries (s : Buckets) (name : String) :
    ((s.entries name).map (·.1)).Nodup := by
  refine List.pairwise_map.mpr (List.Pairwise.imp ?_ (keysAscend_entries s name))
  intro a b hab heq
  rw [heq] at hab
  simp at hab

/-! ## Writing -/

/-- Making a bucket stores nothing. -/
theorem get?_create {s s' : Buckets} {name : String} {u : Unit}
    (h : (create name).Ends s u s') (n : String) (k : Bytes) : s'.get? n k = s.get? n k := by
  unfold Step.Ends create at h
  split at h
  next => cases h.1
  next =>
    split at h
    next => rw [← h.2]
    next hmissing =>
      rw [← h.2, get?_setBucket]
      split
      next hn =>
        rw [hn, get?_of_not_has (by simpa using hmissing)]
        rfl
      next => rfl

theorem name_ne_of_create {s s' : Buckets} {name : String} {u : Unit}
    (h : (create name).Ends s u s') : name ≠ "" := by
  unfold Step.Ends create at h
  split at h
  next => cases h.1
  next hname => exact hname

/-- The bucket is the one that was there, or a new one. -/
theorem bucket?_create {s s' : Buckets} {name : String} {u : Unit}
    (h : (create name).Ends s u s') : s'.bucket? name = some ((s.bucket? name).getD .empty) := by
  unfold Step.Ends create at h
  split at h
  next => cases h.1
  next =>
    split at h
    next hthere =>
      obtain ⟨b, hb⟩ := Option.isSome_iff_exists.mp hthere
      rw [← h.2, hb]
      rfl
    next hmissing =>
      have hnone : s.bucket? name = none := by simpa [has] using hmissing
      rw [← h.2, bucket?_setBucket, if_pos rfl, hnone]
      rfl

theorem has_create {s s' : Buckets} {name : String} {u : Unit}
    (h : (create name).Ends s u s') : s'.has name = true := by
  unfold has
  rw [bucket?_create h]
  rfl

/-- Storing changes what is under the one key. -/
theorem get?_put {s s' : Buckets} {name : String} {key value : Bytes} {u : Unit}
    (h : (put name key value).Ends s u s') (n : String) (k : Bytes) :
    s'.get? n k = if n = name ∧ k = key then some value else s.get? n k := by
  unfold Step.Ends put at h
  split at h
  next => cases h.1
  next =>
    split at h
    next => cases h.1
    next b hb =>
      rw [← h.2, get?_setBucket]
      by_cases hn : n = name
      · rw [if_pos hn, SortedMap.find?_insert]
        simp only [hn, true_and, get?_of_bucket? hb]
      · rw [if_neg hn, if_neg (fun hc => hn hc.1)]

/-- The bucket has to be there, and has the value from then on. -/
theorem bucket?_put {s s' : Buckets} {name : String} {key value : Bytes} {u : Unit}
    (h : (put name key value).Ends s u s') : ∃ b, s.bucket? name = some b ∧
      s'.bucket? name = some { b with entries := b.entries.insert key value } := by
  unfold Step.Ends put at h
  split at h
  next => cases h.1
  next =>
    split at h
    next => cases h.1
    next b hb =>
      refine ⟨b, hb, ?_⟩
      rw [← h.2, bucket?_setBucket, if_pos rfl]

/-- Nothing is stored under an empty key. -/
theorem key_ne_of_put {s s' : Buckets} {name : String} {key value : Bytes} {u : Unit}
    (h : (put name key value).Ends s u s') : key ≠ [] := by
  unfold Step.Ends put at h
  split at h
  next => cases h.1
  next hkey => exact hkey

/-- Storing leaves the buckets that are there, as does taking out. -/
theorem has_put {s s' : Buckets} {name : String} {key value : Bytes} {u : Unit}
    (h : (put name key value).Ends s u s') (n : String) : s'.has n = s.has n := by
  unfold Step.Ends put at h
  split at h
  next => cases h.1
  next =>
    split at h
    next => cases h.1
    next b hb =>
      unfold has
      rw [← h.2, bucket?_setBucket]
      split
      next hn => rw [hn, hb]; rfl
      next => rfl

/-- Taking out changes what is under the one key. -/
theorem get?_delete {s s' : Buckets} {name : String} {key : Bytes} {u : Unit}
    (h : (delete name key).Ends s u s') (n : String) (k : Bytes) :
    s'.get? n k = if n = name ∧ k = key then none else s.get? n k := by
  unfold Step.Ends delete at h
  split at h
  next => cases h.1
  next b hb =>
    rw [← h.2, get?_setBucket]
    by_cases hn : n = name
    · rw [if_pos hn, SortedMap.find?_erase]
      simp only [hn, true_and, get?_of_bucket? hb]
    · rw [if_neg hn, if_neg (fun hc => hn hc.1)]

theorem has_delete {s s' : Buckets} {name : String} {key : Bytes} {u : Unit}
    (h : (delete name key).Ends s u s') (n : String) : s'.has n = s.has n := by
  unfold Step.Ends delete at h
  split at h
  next => cases h.1
  next b hb =>
    unfold has
    rw [← h.2, bucket?_setBucket]
    split
    next hn => rw [hn, hb]; rfl
    next => rfl

/-- A bucket that is dropped is not there any more, and every other is as it was. -/
theorem bucket?_deleteBucket {s s' : Buckets} {name : String} {u : Unit}
    (h : (deleteBucket name).Ends s u s') (n : String) :
    s'.bucket? n = if n = name then none else s.bucket? n := by
  unfold Step.Ends deleteBucket at h
  split at h
  next =>
    rw [← h.2]
    exact SortedMap.find?_erase s.byName name n
  next => cases h.1

/-- Dropping a bucket takes out all it holds and nothing else. -/
theorem get?_deleteBucket {s s' : Buckets} {name : String} {u : Unit}
    (h : (deleteBucket name).Ends s u s') (n : String) (k : Bytes) :
    s'.get? n k = if n = name then none else s.get? n k := by
  unfold get?
  rw [bucket?_deleteBucket h]
  split <;> rfl

theorem has_deleteBucket {s s' : Buckets} {name : String} {u : Unit}
    (h : (deleteBucket name).Ends s u s') (n : String) :
    s'.has n = if n = name then false else s.has n := by
  unfold has
  rw [bucket?_deleteBucket h]
  split <;> rfl

/-- Counting a sequence stores nothing. -/
theorem get?_nextSequence {s s' : Buckets} {name : String} {id : UInt64}
    (h : (nextSequence name).Ends s id s') (n : String) (k : Bytes) :
    s'.get? n k = s.get? n k := by
  unfold Step.Ends nextSequence at h
  split at h
  next => cases h.1
  next b hb =>
    split at h
    next => cases h.1
    next =>
      rw [← h.2, get?_setBucket]
      split
      next hn => rw [hn, get?_of_bucket? hb]
      next => rfl

/-- The number that is given out is the next one, and there is one. -/
theorem nextSequence_ends {s s' : Buckets} {name : String} {id : UInt64} {b : Bucket}
    (hb : s.bucket? name = some b) (h : (nextSequence name).Ends s id s') :
    id = b.sequence + 1 ∧ b.sequence + 1 ≠ 0 := by
  unfold Step.Ends nextSequence at h
  rw [hb] at h
  dsimp only at h
  split at h
  next => cases h.1
  next hlast => exact ⟨(Except.ok.inj h.1).symm, hlast⟩

/-! ## Successes -/

theorem exists_create {name : String} (hname : name ≠ "") (s : Buckets) :
    ∃ s', (create name).Ends s () s' := by
  unfold Step.Ends create
  rw [if_neg hname]
  split <;> exact ⟨_, rfl, rfl⟩

/-- A bucket that is there is left as it is. -/
theorem ends_create_of_has {s : Buckets} {name : String} (hname : name ≠ "") (hhas : s.has name = true) :
    (create name).Ends s () s := by
  unfold Step.Ends create
  rw [if_neg hname, if_pos hhas]
  exact ⟨rfl, rfl⟩

theorem exists_put {s : Buckets} {name : String} {key : Bytes} (hkey : key ≠ [])
    (hhas : s.has name = true) (value : Bytes) : ∃ s', (put name key value).Ends s () s' := by
  obtain ⟨b, hb⟩ := Option.isSome_iff_exists.mp hhas
  unfold Step.Ends put
  rw [if_neg hkey, hb]
  exact ⟨_, rfl, rfl⟩

theorem exists_delete {s : Buckets} {name : String} (hhas : s.has name = true) (key : Bytes) :
    ∃ s', (delete name key).Ends s () s' := by
  obtain ⟨b, hb⟩ := Option.isSome_iff_exists.mp hhas
  unfold Step.Ends delete
  rw [hb]
  exact ⟨_, rfl, rfl⟩

theorem exists_deleteBucket {s : Buckets} {name : String} (hhas : s.has name = true) :
    ∃ s', (deleteBucket name).Ends s () s' := by
  unfold Step.Ends deleteBucket
  rw [if_pos hhas]
  exact ⟨_, rfl, rfl⟩

/-- A bucket that has not used up its numbers gives the next one. -/
theorem exists_nextSequence {s : Buckets} {name : String} {b : Bucket} (hb : s.bucket? name = some b)
    (hnext : b.sequence + 1 ≠ 0) : (nextSequence name).Ends s (b.sequence + 1)
      (s.setBucket name { b with sequence := b.sequence + 1 }) := by
  unfold Step.Ends nextSequence
  rw [hb]
  dsimp only
  rw [if_neg hnext]
  exact ⟨rfl, rfl⟩

/-! ## Failures

What fails has changed nothing. -/

/-- Only a bucket without a name cannot be made. -/
theorem create_fails {s s' : Buckets} {name : String} {e : Error}
    (h : (create name).Fails s e s') : name = "" ∧ e = .storage .emptyBucketName ∧ s' = s := by
  unfold Step.Fails create at h
  split at h
  next hname => exact ⟨hname, (Except.error.inj h.1).symm, h.2.symm⟩
  next =>
    split at h
    next => cases h.1
    next => cases h.1

/-- An entry that cannot be put leaves all as it was. -/
theorem put_fails {s s' : Buckets} {name : String} {key value : Bytes} {e : Error}
    (h : (put name key value).Fails s e s') : s' = s := by
  unfold Step.Fails put at h
  split at h
  next => exact h.2.symm
  next =>
    split at h
    next => exact h.2.symm
    next => cases h.1

/-- The sequence of a bucket has no next number only if it has come to its end. -/
theorem nextSequence_fails {s s' : Buckets} {name : String} {e : Error} {b : Bucket}
    (hb : s.bucket? name = some b) (h : (nextSequence name).Fails s e s') :
    b.sequence + 1 = 0 ∧ e = .storage (.sequenceOverflow name) ∧ s' = s := by
  unfold Step.Fails nextSequence at h
  rw [hb] at h
  dsimp only at h
  split at h
  next hlast => exact ⟨hlast, (Except.error.inj h.1).symm, h.2.symm⟩
  next => cases h.1

theorem delete_fails {s s' : Buckets} {name : String} {key : Bytes} {e : Error}
    (h : (delete name key).Fails s e s') : s' = s := by
  unfold Step.Fails delete at h
  split at h
  next => exact h.2.symm
  next => cases h.1

/-! ## Either way

A change leaves everything as it was, or another bucket in the place of one. -/

/-- Whether or not it succeeds, creating a bucket adds an empty one where there was none, or nothing. -/
theorem after_create (name : String) (s : Buckets) : (create name).after s = s ∨
    s.bucket? name = none ∧ (create name).after s = s.setBucket name .empty := by
  unfold Step.after create
  split
  next => exact .inl rfl
  next =>
    split
    next => exact .inl rfl
    next hmissing =>
      have hnone : s.bucket? name = none := by simpa [has] using hmissing
      exact .inr ⟨hnone, rfl⟩

/-- Whether or not it succeeds, putting an entry changes its bucket by that entry, or nothing. -/
theorem after_put (name : String) (key value : Bytes) (s : Buckets) :
    (put name key value).after s = s ∨ ∃ b, s.bucket? name = some b ∧
      (put name key value).after s =
        s.setBucket name { b with entries := b.entries.insert key value } := by
  unfold Step.after put
  split
  next => exact .inl rfl
  next =>
    split
    next => exact .inl rfl
    next b hb => exact .inr ⟨b, hb, rfl⟩

/-- Whether or not it succeeds, deleting an entry takes it out of its bucket, or nothing. -/
theorem after_delete (name : String) (key : Bytes) (s : Buckets) :
    (delete name key).after s = s ∨ ∃ b, s.bucket? name = some b ∧
      (delete name key).after s = s.setBucket name { b with entries := b.entries.erase key } := by
  unfold Step.after delete
  split
  next => exact .inl rfl
  next b hb => exact .inr ⟨b, hb, rfl⟩

/-- Whether or not it succeeds, asking for a number moves the sequence of the bucket on, or nothing. -/
theorem after_nextSequence (name : String) (s : Buckets) : (nextSequence name).after s = s ∨
    ∃ b, s.bucket? name = some b ∧ b.sequence + 1 ≠ 0 ∧
      (nextSequence name).after s = s.setBucket name { b with sequence := b.sequence + 1 } := by
  unfold Step.after nextSequence
  split
  next => exact .inl rfl
  next b hb =>
    split
    next => exact .inl rfl
    next hlast => exact .inr ⟨b, hb, hlast, rfl⟩

/-- A bucket is not there after it was dropped, whether it was before or not. -/
theorem bucket?_after_deleteBucket (name : String) (s : Buckets) (n : String) :
    ((deleteBucket name).after s).bucket? n = if n = name then none else s.bucket? n := by
  unfold Step.after deleteBucket
  split
  next => exact SortedMap.find?_erase s.byName name n
  next hmissing =>
    have hnone : s.bucket? name = none := by simpa [has] using hmissing
    split
    next hn => rw [hn, hnone]
    next => rfl

end Buckets

end RecordStore
