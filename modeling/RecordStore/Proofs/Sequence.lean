import RecordStore.Proofs.Incremental

/-!
# Numbers given out in sequence

The bucket of the records of a type counts a sequence, and `insertNext` stores a record under the next
number. What the sequence has passed and what is stored are two parts of the state that no single
change keeps in step: records are also stored under keys that are named, and copied from other buckets
with their keys, and neither moves the sequence. So what is known at any time is this: whatever is
stored is stored under a key that was given to a call, or under a number that the sequence has passed
(`Ledger.Covers`). Calls keep it, those that fail too, and so does the end of a write scope, whether
it is committed or rolled back (`Session.Reached.sound`). Hence the next number is larger than all
that were answered, and if its key is taken then it was given to a call (`insertNext_reached`), as it
is when the records of another type were copied (`insertNext_copying`).
-/

namespace RecordStore

open Buckets Step

/-! ## Keys of numbers -/

namespace Keycode

/-- The key code of a number that a sequence gives out. -/
def ofNumber (id : UInt64) : Bytes := encodeInt id.toNat

theorem encode_uint {κ : Type} [CustomKind κ] (id : UInt64) :
    encode (.uint id : Value κ) = ofNumber id := rfl

/-- Two numbers have different key codes. -/
theorem ofNumber_inj {id id' : UInt64} (h : ofNumber id = ofNumber id') : id = id' := by
  have hid := id.toNat_lt
  have hid' := id'.toNat_lt
  have hsame := encodeInt_inj (by omega) (by omega) (by omega) (by omega) h
  exact UInt64.toNat_inj.mp (Int.ofNat.inj hsame)

end Keycode

namespace Store

/-! ## The bucket of the records -/

/-- The last number that the sequence of a bucket has given out. -/
def lastNumber (b : Buckets) (n : String) : UInt64 := ((b.bucket? n).getD .empty).sequence

/-- The next number is larger, unless the sequence has come to its end. -/
theorem lastNumber_lt_upcoming {b : Buckets} {n : String} (h : upcoming b n ≠ 0) :
    lastNumber b n < upcoming b n := by
  refine UInt64.lt_add_one fun hlast => h ?_
  show lastNumber b n + 1 = 0
  rw [hlast]
  rfl

variable {n : String} {keys : Bytes → Prop} {last : UInt64} {b b' : Buckets}

/-- Records are stored under these keys only, and the sequence has come at least as far as this
number. -/
structure Tracks (n : String) (keys : Bytes → Prop) (last : UInt64) (b : Buckets) : Prop where
  stored : ∀ k, (b.get? n k).isSome = true → keys k
  last : last ≤ lastNumber b n

theorem Tracks.congr (h : Tracks n keys last b) (hsame : b'.bucket? n = b.bucket? n) :
    Tracks n keys last b' where
  stored k hk := h.stored k (by rwa [get?_congr hsame] at hk)
  last := by
    unfold lastNumber
    rw [hsame]
    exact h.last

/-- A bucket that is set tracks what its entries and its sequence say. -/
theorem tracks_setBucket {found : Bucket}
    (hstored : ∀ k, (found.entries.find? k).isSome = true → keys k) (hlast : last ≤ found.sequence) :
    Tracks n keys last (b.setBucket n found) where
  stored k hk := by
    rw [get?_setBucket, if_pos rfl] at hk
    exact hstored k hk
  last := by
    unfold lastNumber
    rw [bucket?_setBucket, if_pos rfl]
    exact hlast

/-- What is known of the bucket itself. -/
theorem Tracks.of_bucket? {found : Bucket} (h : Tracks n keys last b)
    (hfound : b.bucket? n = some found) :
    (∀ k, (found.entries.find? k).isSome = true → keys k) ∧ last ≤ found.sequence := by
  refine ⟨fun k hk => h.stored k ?_, ?_⟩
  · rw [get?_of_bucket? hfound]
    exact hk
  · have hlast := h.last
    unfold lastNumber at hlast
    rwa [hfound] at hlast

variable {κ ρ : Type} {s : Store} {t : RecordType κ ρ}

/-- Calls on a type whose records may go under certain keys use no other keys and never set its sequence
back. A record is put under one of these keys, taking records and entries out brings none, and a
sequence only counts up. -/
theorem keptByCalls_tracks : KeptByCalls s t keys (Tracks t.name keys last) where
  indexes := by
    -- The buckets of the indexes are others than that of the records.
    have hindex : ∀ {m : Step Buckets Unit},
        StaysIn (fun n => ∃ index, n = Index.bucketName t.name index) m →
          Keeps (Tracks t.name keys last) m := by
      intro m hstays b hb
      refine hb.congr (hstays b t.name fun h => ?_)
      obtain ⟨index, hname⟩ := h
      exact bucketName_ne t.name index hname.symm
    constructor
    · intro bucket hbucket change key value
      exact hindex (Index.staysIn_changeEntry hbucket s.codec change key value)
    · intro bucket hbucket
      exact hindex (staysIn_deleteBucket hbucket)
  create := by
    intro b hb
    -- A bucket that is made is empty and counts from zero, as if it had been missing.
    rcases after_create t.name b with hsame | ⟨hnone, hmade⟩
    · rwa [hsame]
    · rw [hmade]
      refine tracks_setBucket nofun ?_
      have hlast := hb.last
      unfold lastNumber at hlast
      rwa [hnone] at hlast
  put := by
    intro key hkey bytes b hb
    -- A put adds one key at most, and an allowed one.
    rcases after_put t.name key bytes b with hsame | ⟨found, hfound, hput⟩
    · rwa [hsame]
    · obtain ⟨hstored, hlast⟩ := hb.of_bucket? hfound
      rw [hput]
      refine tracks_setBucket (fun k hk => ?_) hlast
      rw [SortedMap.find?_insert] at hk
      split at hk
      next heq => exact heq ▸ hkey
      next => exact hstored k hk
  delete := by
    intro key b hb
    -- A delete leaves fewer keys and the same number.
    rcases after_delete t.name key b with hsame | ⟨found, hfound, htaken⟩
    · rwa [hsame]
    · obtain ⟨hstored, hlast⟩ := hb.of_bucket? hfound
      rw [htaken]
      refine tracks_setBucket (fun k hk => ?_) hlast
      rw [SortedMap.find?_erase] at hk
      split at hk
      next => cases hk
      next => exact hstored k hk
  count := by
    intro b hb
    -- The sequence only goes up.
    rcases after_nextSequence t.name b with hsame | ⟨found, hfound, hnext, hcounted⟩
    · rwa [hsame]
    · obtain ⟨hstored, hlast⟩ := hb.of_bucket? hfound
      rw [hcounted]
      have hlarger := lastNumber_lt_upcoming (b := b) (n := t.name)
      unfold lastNumber upcoming at hlarger
      rw [hfound] at hlarger
      exact tracks_setBucket hstored (UInt64.le_trans hlast (UInt64.le_of_lt (hlarger hnext)))

/-! ## The buckets of the indexes -/

/-- The bucket of every index of the name, declared or not, lists something. -/
def Listed (codec : Codec) (n : String) (b : Buckets) : Prop :=
  ∀ index, ∃ F, Index.Lists codec b (Index.bucketName n index) F

theorem Listed.congr {codec : Codec} (h : Listed codec n b)
    (hsame : ∀ index k, b'.get? (Index.bucketName n index) k = b.get? (Index.bucketName n index) k) :
    Listed codec n b' := by
  intro index
  obtain ⟨F, hF⟩ := h index
  exact ⟨F, hF.congr (hsame index) fun _ _ => Iff.rfl⟩

theorem Listed.readable (h : Listed s.codec t.name b) : s.Readable t b :=
  fun index _ => h index

/-- Calls keep each index listing something, whether they end or fail. -/
theorem keptByCalls_listed (hcodec : s.codec.KeepsKeyLists) :
    KeptByCalls s t keys (Listed s.codec t.name) := by
  have hrecords : ∀ {α : Type} {m : Step Buckets α}, StaysIn (· = t.name) m →
      Keeps (Listed s.codec t.name) m := fun hstays b hb =>
    hb.congr fun index => get?_congr (hstays b _ (bucketName_ne t.name index))
  constructor
  case create => exact hrecords (staysIn_create (by rfl))
  case put => exact fun _ _ => hrecords (staysIn_put (by rfl) _ _)
  case delete => exact fun _ => hrecords (staysIn_delete (by rfl) _)
  case count => exact hrecords (staysIn_nextSequence (by rfl))
  case indexes =>
    constructor
    · intro bucket _ change key value b hb
      rcases ends_or_fails (Index.changeEntry s.codec change bucket key value) b with ⟨_, h⟩ | ⟨e, h⟩
      · intro index
        obtain ⟨F, hF⟩ := hb index
        exact ⟨_, (Index.changes_changeEntry hcodec h).lists _ _ hF⟩
      · exact hb.congr fun index => Index.get?_changeEntry_of_fails h _
    · intro bucket _ b hb index
      have hdropped := bucket?_after_deleteBucket bucket b (Index.bucketName t.name index)
      split at hdropped
      next => exact (Index.orderly_missing hdropped).lists
      next =>
        obtain ⟨F, hF⟩ := hb index
        exact ⟨F, hF.congr (get?_congr hdropped) fun _ _ => Iff.rfl⟩

/-! ## Inserting under the next number -/

section InsertNext

variable [CustomKind κ] {record : ρ}

/-- To insert under the next number is to insert under a key when the number was counted. -/
theorem insertNext_counted (hname : t.name ≠ "") (hnext : upcoming b t.name ≠ 0) (record : ρ) :
    ∃ b₁, (∀ n k, b₁.get? n k = b.get? n k) ∧ lastNumber b₁ t.name = upcoming b t.name ∧
      (s.insertNext t record).after b = (s.insert t (.uint (upcoming b t.name)) record).after b₁ ∧
      (s.insertNext t record).answer b =
        ((s.insert t (.uint (upcoming b t.name)) record).answer b₁).map fun _ => upcoming b t.name := by
  obtain ⟨b₀, hcreate⟩ := exists_create hname b
  obtain ⟨b₁, hcount, hlast⟩ : ∃ b₁, (nextSequence t.name).Ends b₀ (upcoming b t.name) b₁ ∧
      lastNumber b₁ t.name = upcoming b t.name := by
    refine ⟨_, exists_nextSequence (bucket?_create hcreate) hnext, ?_⟩
    unfold lastNumber
    rw [bucket?_setBucket, if_pos rfl]
    rfl
  refine ⟨b₁, fun n k => ?_, hlast, ?_, ?_⟩
  · rw [get?_nextSequence hcount, get?_create hcreate]
  · unfold insertNext
    rw [after_bind_of_ends hcreate, after_bind_of_ends hcount, after_bind_pure]
  · unfold insertNext
    rw [answer_bind_of_ends hcreate, answer_bind_of_ends hcount, answer_bind_pure]

/-- The number that is answered is the next one, and its key was free. -/
theorem ends_insertNext {id : UInt64} (h : (s.insertNext t record).Ends b id b') :
    id = upcoming b t.name ∧ id ≠ 0 ∧ b.get? t.name (Keycode.ofNumber id) = none := by
  unfold insertNext at h
  obtain ⟨_, b₁, hcreate, h⟩ := ends_bind.mp h
  obtain ⟨id', b₂, hcount, h⟩ := ends_bind.mp h
  obtain ⟨_, b₃, hinsert, hpure⟩ := ends_bind.mp h
  obtain ⟨rfl, rfl⟩ := ends_pure.mp hpure
  obtain ⟨rfl, hnext⟩ := nextSequence_ends (bucket?_create hcreate) hcount
  refine ⟨rfl, hnext, ?_⟩
  unfold insert at hinsert
  dsimp only at hinsert
  obtain ⟨_, b₄, hcreate', hinsert⟩ := ends_bind.mp hinsert
  rw [ends_get_bind] at hinsert
  split at hinsert
  next => exact absurd hinsert ends_fail
  next hfree =>
    rw [Keycode.encode_uint, get?_create hcreate', get?_nextSequence hcount,
      get?_create hcreate] at hfree
    exact Option.not_isSome_iff_eq_none.mp hfree

/-- A record that can be written and indexed goes in under the next number if its key is free, and is
refused if it is taken. -/
theorem insertNext_cases (hcodec : s.codec.StoresKeyLists) (hname : t.name ≠ "")
    (hb : Listed s.codec t.name b) (hnext : upcoming b t.name ≠ 0)
    (hwrites : ∃ bytes, s.codec.write (t.toJson? record) = .ok bytes)
    (hindexes : s.Indexes t (Keycode.ofNumber (upcoming b t.name)) record) :
    if b.get? t.name (Keycode.ofNumber (upcoming b t.name)) = none then
      ∃ b', (s.insertNext t record).Ends b (upcoming b t.name) b'
    else ∃ b', (s.insertNext t record).Fails b (.keyExists t.name) b' := by
  obtain ⟨b₁, hsame, -, hafter, hanswer⟩ := insertNext_counted (s := s) hname hnext record
  have hkey : b₁.get? t.name (Keycode.encode (.uint (upcoming b t.name) : Value κ)) =
      b.get? t.name (Keycode.ofNumber (upcoming b t.name)) := by
    rw [hsame, Keycode.encode_uint]
  split
  next hfree =>
    obtain ⟨bytes, hwrite⟩ := hwrites
    obtain ⟨b', hinsert, -⟩ := exists_insert_of_readable hcodec hname
      (hb.congr fun _ _ => hsame _ _).readable (hkey.trans hfree) hwrite hindexes
    refine ⟨b', hanswer.trans ?_, hafter.trans hinsert.2⟩
    rw [answer, hinsert.1]
    rfl
  next htaken =>
    have hinsert := fails_insert_of_taken (s := s) (b := b₁) hname
      (by rw [hkey]; exact Option.isSome_iff_ne_none.mpr htaken) record
    refine ⟨b₁, hanswer.trans ?_, hafter.trans hinsert.2⟩
    rw [answer, hinsert.1]
    rfl

end InsertNext

/-! ## Sessions -/

/-- A call that stores a record under the next number counts it, whether it ends or fails. -/
theorem upcoming_le_lastNumber [CustomKind κ] {m : Mutation κ ρ} (hname : t.name ≠ "")
    (hcounts : m.counts = true) (hnext : upcoming b t.name ≠ 0) :
    upcoming b t.name ≤ lastNumber ((m.run s t).after b) t.name := by
  cases m with
  | write w =>
    cases w with
    | insertNext record =>
      obtain ⟨b₁, -, hlast, hafter, -⟩ := insertNext_counted (s := s) hname hnext record
      have hrun : ((Mutation.write (.insertNext record)).run s t).after b =
          (s.insert t (.uint (upcoming b t.name)) record).after b₁ :=
        (after_bind_pure _ _ b).trans hafter
      have hb₁ : Tracks t.name (fun _ => True) (upcoming b t.name) b₁ :=
        ⟨fun _ _ => trivial, hlast ▸ UInt64.le_refl _⟩
      rw [hrun]
      exact (keptByCalls_tracks.insert trivial record b₁ hb₁).last
    | _ => cases hcounts
  | _ => cases hcounts

/-- The number that a call answers. -/
def Mutation.issued? [CustomKind κ] (s : Store) (t : RecordType κ ρ) (b : Buckets) :
    Mutation κ ρ → Option UInt64
  | .write (.insertNext record) => ((s.insertNext t record).answer b).toOption
  | _ => none

/-- The number that a call answers is the upcoming one, and the sequence has not run over. -/
theorem Mutation.issued?_eq_some [CustomKind κ] {m : Mutation κ ρ} {id : UInt64}
    (h : m.issued? s t b = some id) : m.counts = true ∧ id = upcoming b t.name ∧ id ≠ 0 := by
  cases m with
  | write w =>
    cases w with
    | insertNext record =>
      have h : ((s.insertNext t record).answer b).toOption = some id := h
      cases hanswer : (s.insertNext t record).answer b with
      | error e =>
        rw [hanswer] at h
        cases h
      | ok id' =>
        rw [hanswer] at h
        cases h
        obtain ⟨hid, hne, -⟩ := ends_insertNext ⟨hanswer, rfl⟩
        exact ⟨rfl, hid, hne⟩
    | _ => cases h
  | _ => cases h

/-- What is on record of the calls on a store, by the name of the type: the numbers that were
answered, and the keys that were given to store records under. -/
structure Ledger where
  issued : String → List UInt64
  given : String → Bytes → Prop

namespace Ledger

/-- There were no calls. -/
def empty : Ledger := ⟨fun _ => [], fun _ _ => False⟩

/-- A call is put on record. -/
def after [CustomKind κ] (l : Ledger) (s : Store) (t : RecordType κ ρ) (b : Buckets)
    (m : Mutation κ ρ) : Ledger where
  issued n := if n = t.name then (m.issued? s t b).toList ++ l.issued n else l.issued n
  given n k := l.given n k ∨ n = t.name ∧ m.Gives b k

section After

variable [CustomKind κ] {l : Ledger} {m : Mutation κ ρ}

/-- A call adds the number that it answers to those of its type. -/
theorem issued_after_own : (l.after s t b m).issued t.name =
    (m.issued? s t b).toList ++ l.issued t.name :=
  if_pos rfl

theorem issued_after_other (hne : n ≠ t.name) : (l.after s t b m).issued n = l.issued n :=
  if_neg hne

/-- No number is forgotten. -/
theorem issued_subset_after (n : String) : l.issued n ⊆ (l.after s t b m).issued n := by
  by_cases hn : n = t.name
  · rw [hn, issued_after_own]
    exact List.subset_append_right _ _
  · rw [issued_after_other hn]
    exact List.Subset.refl _

end After

/-- Every record of a type is stored under a key that was given or is that of a number the sequence
has passed, it has passed every number that was answered, and the indexes can be read. -/
structure Covers (l : Ledger) (codec : Codec) (n : String) (b : Buckets) : Prop where
  stored : ∀ k, (b.get? n k).isSome = true →
    l.given n k ∨ ∃ id ≤ lastNumber b n, k = Keycode.ofNumber id
  issued : ∀ id ∈ l.issued n, id ≤ lastNumber b n
  listed : Listed codec n b

theorem covers_empty (codec : Codec) (n : String) : empty.Covers codec n .empty where
  stored _ hk := nomatch hk
  issued _ hid := nomatch hid
  listed _ := ⟨_, Index.lists_nothing fun _ => rfl⟩

variable [CustomKind κ] {l : Ledger}

/-- A call on the type itself. -/
theorem Covers.own (hcodec : s.codec.KeepsKeyLists) (hname : t.name ≠ "")
    (h : l.Covers s.codec t.name b) (m : Mutation κ ρ) :
    (l.after s t b m).Covers s.codec t.name ((m.run s t).after b) := by
  have hlast : lastNumber b t.name ≤ lastNumber ((m.run s t).after b) t.name := by
    have hb : Tracks t.name (fun _ => True) (lastNumber b t.name) b :=
      ⟨fun _ _ => trivial, UInt64.le_refl _⟩
    exact (kept_mutation keptByCalls_tracks m (fun _ _ => trivial) (fun _ _ => trivial)
      (fun _ _ => trivial) hb).last
  -- A key that is stored now was given or came from a number that the sequence has passed by now.
  have hthere : ∀ k, (b.get? t.name k).isSome = true → (l.after s t b m).given t.name k ∨
      ∃ id ≤ lastNumber ((m.run s t).after b) t.name, k = Keycode.ofNumber id := by
    intro k hk
    rcases h.stored k hk with hgiven | ⟨id, hid, rfl⟩
    · exact .inl (.inl hgiven)
    · exact .inr ⟨id, UInt64.le_trans hid hlast, rfl⟩
  constructor
  case stored =>
    have hb : Tracks t.name _ 0 b := ⟨hthere, UInt64.zero_le⟩
    exact (kept_mutation keptByCalls_tracks m hthere (fun k hk => .inl (.inr ⟨rfl, hk⟩))
      (fun hcounts hnext => .inr ⟨_, upcoming_le_lastNumber hname hcounts hnext,
        Keycode.encode_uint _⟩) hb).stored
  case issued =>
    intro id hid
    rw [issued_after_own] at hid
    rcases List.mem_append.mp hid with hid | hid
    · obtain ⟨hcounts, rfl, hnext⟩ := Mutation.issued?_eq_some (Option.mem_toList.mp hid)
      exact upcoming_le_lastNumber hname hcounts hnext
    · exact UInt64.le_trans (h.issued id hid) hlast
  case listed =>
    exact kept_mutation (keptByCalls_listed hcodec) m (fun _ _ => trivial) (fun _ _ => trivial)
      (fun _ _ => trivial) h.listed

/-- A call on another type. -/
theorem Covers.other (hcolon : ':' ∉ n.toList) (hcolon' : ':' ∉ t.name.toList)
    (hne : n ≠ t.name) (h : l.Covers s.codec n b) (m : Mutation κ ρ) :
    (l.after s t b m).Covers s.codec n ((m.run s t).after b) := by
  have hstays := staysIn_mutation (s := s) (t := t) m b
  have hrecords := hstays n (not_owns_name hcolon hne)
  have hlast : lastNumber ((m.run s t).after b) n = lastNumber b n := by
    unfold lastNumber
    rw [hrecords]
  constructor
  case stored =>
    intro k hk
    rw [get?_congr hrecords] at hk
    rw [hlast]
    exact (h.stored k hk).imp_left .inl
  case issued =>
    rw [issued_after_other hne, hlast]
    exact h.issued
  case listed =>
    exact h.listed.congr fun index =>
      get?_congr (hstays _ (not_owns_bucketName hcolon' hcolon hne index))

end Ledger

/-- A store at work: what was committed last and what the calls of the write scope have made of it,
each with the calls that have led there. -/
structure Session where
  database : Database
  working : Buckets
  settled : Ledger
  current : Ledger

namespace Session

/-- A store without buckets, in a scope without calls. -/
def start : Session := ⟨.empty, .empty, .empty, .empty⟩

/-- A call in the scope, which goes on whether the call ends or fails. -/
def call [CustomKind κ] (x : Session) (s : Store) (t : RecordType κ ρ) (m : Mutation κ ρ) : Session :=
  { x with
    working := (m.run s t).after x.working
    current := x.current.after s t x.working m }

/-- The scope has led to where it is and comes to its end, with an answer or with an error, and the next
one begins. -/
def close (x : Session) (ending : Except Error Unit) : Session :=
  let database := (Database.update (fun _ => (.ofExcept ending, x.working))).after x.database
  let ledger := match ending with
    | .ok _ => x.current
    | .error _ => x.settled
  ⟨database, database.committed, ledger, ledger⟩

/-- What a store with some options comes to, in whatever scopes and by whatever calls on types that
were built. -/
inductive Reached (s : Store) : Session → Prop
  | start : Reached s start
  | call {κ ρ : Type} [CustomKind κ] {t : RecordType κ ρ}
    {declarations : List (Schema.Declaration κ ρ)} {x : Session} (hx : Reached s x)
    (hbuild : Schema.build t.name declarations = .ok t.schema)
    (m : Mutation κ ρ) : Reached s (x.call s t m)
  | close {x : Session} (hx : Reached s x) (ending : Except Error Unit) : Reached s (x.close ending)

/-- The records of a type are accounted for, in the scope and in what was committed, and no number
that was answered in a scope that was committed is forgotten. -/
structure Sound (codec : Codec) (n : String) (x : Session) : Prop where
  working : x.current.Covers codec n x.working
  committed : x.settled.Covers codec n x.database.committed
  remembers : x.settled.issued n ⊆ x.current.issued n

/-- In all that a store comes to the records are accounted for: each step keeps that so. -/
theorem Reached.sound (hcodec : s.codec.KeepsKeyLists) (hname : n ≠ "")
    (hcolon : ':' ∉ n.toList) {x : Session} (h : x.Reached s) : x.Sound s.codec n := by
  induction h with
  | start => exact ⟨Ledger.covers_empty _ n, Ledger.covers_empty _ n, List.Subset.refl _⟩
  | @call κ ρ _ t declarations x hx hbuild m ih =>
    have hworking : (x.call s t m).current.Covers s.codec n (x.call s t m).working := by
      by_cases hn : n = t.name
      · subst hn
        exact ih.working.own hcodec hname m
      · exact ih.working.other hcolon (Schema.typeName_of_build hbuild).2 hn m
    exact ⟨hworking, ih.committed, List.Subset.trans ih.remembers (Ledger.issued_subset_after n)⟩
  | close hx ending ih =>
    cases ending with
    | ok _ => exact ⟨ih.working, ih.working, List.Subset.refl _⟩
    | error _ => exact ⟨ih.committed, ih.committed, List.Subset.refl _⟩

/-- To close a scope is to publish what it has led to, as a database does, if it has answered. -/
theorem database_close {scope : Step Buckets Unit} {x : Session}
    (h : x.working = scope.after x.database.committed) :
    (x.close (scope.answer x.database.committed)).database = (Database.update scope x.database).2 := by
  unfold close Database.update
  dsimp only
  rw [h]
  unfold Step.after Step.answer
  rcases scope x.database.committed with ⟨⟨r, events⟩, b⟩
  cases r <;> rfl

section Histories

variable [CustomKind κ] {declarations : List (Schema.Declaration κ ρ)}

/-- Calls are made one after the other, up to the first that fails. -/
theorem reached_forM (hbuild : Schema.build t.name declarations = .ok t.schema) :
    ∀ (writes : List (Write κ ρ)) {x : Session}, x.Reached s → ∃ x' : Session, x'.Reached s ∧
      x'.database = x.database ∧ x'.working = (writes.forM (Write.run s t)).after x.working
  | [], x, hx => ⟨x, hx, rfl, rfl⟩
  | w :: writes, x, hx => by
    have hcall : (x.call s t (.write w)).Reached s := .call hx hbuild (.write w)
    show ∃ x' : Session, x'.Reached s ∧ x'.database = x.database ∧
      x'.working = (w.run s t >>= fun _ => writes.forM (Write.run s t)).after x.working
    rcases ends_or_fails (w.run s t) x.working with ⟨_, h⟩ | ⟨e, h⟩
    · rw [after_bind_of_ends h]
      exact reached_forM hbuild writes hcall
    · rw [after_bind_of_fails h]
      exact ⟨_, hcall, rfl, rfl⟩

/-- A write scope is a step that a store may take. -/
theorem reached_scope (hbuild : Schema.build t.name declarations = .ok t.schema) (scope : Scope κ ρ)
    {x : Session} (hx : x.Reached s) (hopen : x.working = x.database.committed) :
    ∃ x' : Session, x'.Reached s ∧ x'.working = x'.database.committed ∧
      x'.database = scope.run s t x.database := by
  unfold Scope.run
  split
  next =>
    obtain ⟨x₁, hx₁, hdatabase, hworking⟩ := reached_forM hbuild scope.writes hx
    rw [hopen, ← hdatabase] at hworking
    have hclose := database_close hworking
    rw [hdatabase] at hclose
    exact ⟨_, .close hx₁ _, rfl, hclose⟩
  next => exact ⟨x.close (.error (.storage .emptyKey)), .close hx _, rfl, rfl⟩

theorem reached_scopes (hbuild : Schema.build t.name declarations = .ok t.schema) :
    ∀ (scopes : List (Scope κ ρ)) {x : Session}, x.Reached s → x.working = x.database.committed →
      ∃ x' : Session, x'.Reached s ∧ x'.database = scopes.foldl (Scope.run s t) x.database
  | [], x, hx, _ => ⟨x, hx, rfl⟩
  | scope :: scopes, x, hx, hopen => by
    obtain ⟨x₁, hx₁, hopen₁, hscope⟩ := reached_scope hbuild scope hx hopen
    rw [List.foldl_cons, ← hscope]
    exact reached_scopes hbuild scopes hx₁ hopen₁

/-- Every history of write scopes on one type is a session. -/
theorem exists_reached_history (hbuild : Schema.build t.name declarations = .ok t.schema)
    (scopes : List (Scope κ ρ)) :
    ∃ x : Session, x.Reached s ∧ x.database = s.history t scopes :=
  reached_scopes hbuild scopes .start rfl

end Histories

end Session

/-- At any time and of any type, the number that `insertNext` answers is larger than all that were
answered before, in scopes that were committed and in the one that is open, and nothing is stored
under its key. A record that can be written and indexed goes in under the next number, if there is
one, unless something is stored under its key. That key was given to a call then, and the record is
refused. -/
theorem insertNext_reached [CustomKind κ] (hcodec : s.codec.StoresKeyLists)
    {declarations : List (Schema.Declaration κ ρ)}
    (hbuild : Schema.build t.name declarations = .ok t.schema) {x : Session} (hx : x.Reached s)
    (record : ρ) :
    (∀ id b', (s.insertNext t record).Ends x.working id b' →
      x.working.get? t.name (Keycode.ofNumber id) = none ∧
        ∀ earlier, earlier ∈ x.settled.issued t.name ∨ earlier ∈ x.current.issued t.name →
          earlier < id) ∧
    (upcoming x.working t.name ≠ 0 → (∃ bytes, s.codec.write (t.toJson? record) = .ok bytes) →
      s.Indexes t (Keycode.ofNumber (upcoming x.working t.name)) record →
        if x.working.get? t.name (Keycode.ofNumber (upcoming x.working t.name)) = none then
          ∃ b', (s.insertNext t record).Ends x.working (upcoming x.working t.name) b'
        else
          x.current.given t.name (Keycode.ofNumber (upcoming x.working t.name)) ∧
            ∃ b', (s.insertNext t record).Fails x.working (.keyExists t.name) b') := by
  obtain ⟨hname, hcolon⟩ := Schema.typeName_of_build hbuild
  have hsound := hx.sound hcodec.keeps hname hcolon
  constructor
  · intro id b' h
    obtain ⟨rfl, hnext, hfree⟩ := ends_insertNext h
    refine ⟨hfree, fun earlier hearlier => ?_⟩
    -- What was issued in settled scopes is still remembered in the current one.
    have hissued : earlier ∈ x.current.issued t.name := by
      rcases hearlier with hsettled | hcurrent
      · exact hsound.remembers hsettled
      · exact hcurrent
    exact UInt64.lt_of_le_of_lt (hsound.working.issued earlier hissued) (lastNumber_lt_upcoming hnext)
  · intro hnext hwrites hindexes
    have hcases := insertNext_cases hcodec hname hsound.working.listed hnext hwrites hindexes
    split
    next hfree => rwa [if_pos hfree] at hcases
    next htaken =>
      rw [if_neg htaken] at hcases
      refine ⟨?_, hcases⟩
      have hthere := Option.isSome_iff_ne_none.mpr htaken
      rcases hsound.working.stored _ hthere with hgiven | ⟨id, hid, hkey⟩
      · exact hgiven
      · -- The next number is none that the sequence has passed.
        have hlt := lastNumber_lt_upcoming hnext
        rw [Keycode.ofNumber_inj hkey] at hlt
        exact absurd hid (UInt64.not_le.mpr hlt)

section Crates

/-- A parcel under the first number. -/
def firstParcel : Buckets := (standard.insertNext parcels true).after .empty

/-- Before the parcel is copied, the indexes of the crates are dropped. -/
def indexesDropped : Buckets :=
  Step.after (crates.schema.indexNames.forM fun index =>
    dropIfPresent (Index.bucketName crates.name index)) firstParcel

/-- The parcel, copied to the crates. -/
def copiedParcel : Buckets :=
  Step.after (do
    Buckets.put crates.name (Keycode.ofNumber 1) (Text.utf8 "true")
    Index.add standard.codec crates.schema (Keycode.ofNumber 1) true)
      ((Buckets.create crates.name).after indexesDropped)

/-- The parcel is copied to the crates and counted. -/
theorem reindexFrom_parcels :
    (standard.reindexFrom crates "Parcels").Ends firstParcel 1 copiedParcel := by
  have hentries : indexesDropped.entries "Parcels" = [(Keycode.ofNumber 1, Text.utf8 "true")] := by
    decide +kernel
  have hread : standard.codec.read crates.ofJson? (Text.utf8 "true") = .ok true := by cbv
  have hfiled : (standard.fileEntries crates true [(Keycode.ofNumber 1, Text.utf8 "true")]).Ends
      ((Buckets.create crates.name).after indexesDropped) () copiedParcel := by
    unfold fileEntries
    rw [ends_liftExcept_bind]
    refine ⟨true, hread, ?_⟩
    rw [if_pos rfl, ← bind_assoc]
    exact ends_bind.mpr ⟨(), copiedParcel, ⟨by decide +kernel, rfl⟩, rfl, rfl⟩
  unfold reindexFrom rebuild
  rw [ends_bind]
  refine ⟨(), firstParcel, ends_report.mpr rfl, ?_⟩
  rw [ends_bind]
  refine ⟨(), indexesDropped, ⟨by decide +kernel, rfl⟩, ?_⟩
  rw [ends_get_bind, Option.getD_some, hentries]
  dsimp only
  rw [if_pos (by decide +kernel), ends_bind]
  refine ⟨(), _, ⟨by decide +kernel, rfl⟩, ?_⟩
  rw [ends_bind]
  exact ⟨(), copiedParcel, hfiled, rfl, rfl⟩

/-- A parcel comes in, and the scope is committed. -/
def shipping : Session :=
  (Session.start.call standard parcels (.write (.insertNext true))).close (.ok ())

/-- The records of the parcels are copied to the crates. -/
def copying : Session := shipping.call standard crates (.reindexFrom "Parcels")

/-- The calls in the scope have led to the copied parcel. -/
theorem working_copying : copying.working = copiedParcel := by
  have hfirst : shipping.working = firstParcel := after_bind_pure _ _ _
  show (standard.reindexFrom crates "Parcels" >>= fun _ => pure ()).after shipping.working = _
  rw [hfirst, after_bind_pure]
  exact reindexFrom_parcels.2

theorem reached_copying : copying.Reached standard := by
  have hshipping : shipping.Reached standard := .close (.call .start build_parcels _) _
  exact .call hshipping build_crates _

/-- The sequence of the crates has not begun, although a record is stored under the first number. -/
theorem upcoming_copying : upcoming copying.working crates.name = 1 := by
  rw [working_copying]
  decide +kernel

/-- The sequence of the crates starts at the number of the parcel that was copied. -/
theorem insertNext_copying : copying.Reached standard ∧ upcoming copying.working crates.name ≠ 0 ∧
    (∃ bytes, standard.codec.write (crates.toJson? false) = .ok bytes) ∧
    standard.Indexes crates (Keycode.ofNumber (upcoming copying.working crates.name)) false ∧
    ¬∃ id b', (standard.insertNext crates false).Ends copying.working id b' := by
  have htaken : copying.working.get? crates.name (Keycode.ofNumber 1) = some (Text.utf8 "true") := by
    rw [working_copying]
    decide +kernel
  refine ⟨reached_copying, by rw [upcoming_copying]; decide, ⟨_, rfl⟩, ?_, fun h => ?_⟩
  · rw [upcoming_copying]
    exact ⟨.empty, _, by decide +kernel, rfl⟩
  · obtain ⟨id, b', h⟩ := h
    obtain ⟨rfl, -, hfree⟩ := ends_insertNext h
    rw [upcoming_copying, htaken] at hfree
    cases hfree

/-- A crate is refused as the key of the parcel was given to the crates; another parcel gets the next
number. -/
theorem insertNext_reached_copying : copying.Reached standard ∧
    (copying.current.given "Crates" (Keycode.ofNumber 1) ∧
      ∃ b', (standard.insertNext crates false).Fails copying.working (.keyExists "Crates") b') ∧
    copying.settled.issued "Parcels" = [1] ∧
      ∃ id b', (standard.insertNext parcels false).Ends copying.working id b' ∧ 1 < id := by
  have hcrates : copying.working.get? crates.name (Keycode.ofNumber 1) ≠ none ∧
      standard.Indexes crates (Keycode.ofNumber 1) false := by
    rw [working_copying]
    exact ⟨by decide +kernel, .empty, _, by decide +kernel, rfl⟩
  have hparcels : upcoming copying.working parcels.name = 2 ∧
      copying.working.get? parcels.name (Keycode.ofNumber 2) = none ∧
      standard.Indexes parcels (Keycode.ofNumber 2) false := by
    rw [working_copying]
    exact ⟨by decide +kernel, by decide +kernel, .empty, _, by decide +kernel, rfl⟩
  have hissued : copying.settled.issued parcels.name = [1] := by decide +kernel
  obtain ⟨-, hcrate⟩ :=
    insertNext_reached (s := standard) Codec.storesKeyLists_json build_crates reached_copying false
  rw [upcoming_copying, if_neg hcrates.1] at hcrate
  obtain ⟨hlarger, hparcel⟩ :=
    insertNext_reached (s := standard) Codec.storesKeyLists_json build_parcels reached_copying false
  rw [hparcels.1, if_pos hparcels.2.1] at hparcel
  obtain ⟨b', hends⟩ := hparcel (by decide) ⟨_, rfl⟩ hparcels.2.2
  refine ⟨reached_copying, hcrate (by decide) ⟨_, rfl⟩ hcrates.2, hissued, 2, b', hends, ?_⟩
  exact (hlarger 2 b' hends).2 1 (.inl (by rw [hissued]; exact List.mem_singleton_self _))

end Crates

end Store

end RecordStore
