import RecordStore.Proofs.Rebuild

/-!
# What is changed for one key

The changes that are made for a key are written down as a `Course`: the edits of what is held for the
key, in order, and the refusal that ends them, if there is one. `Holds` says what a state holds for the
key and that all else is as in the state before. An edit that is made changes this as it says
(`holds_of_ends`), an edit that fails changes nothing (`holds_of_fails`), and nothing is undone, so a
course that fails leaves behind its first few edits and nothing else (`fails_run`). Writing a record,
taking one out and bringing it into the indexes or out of them are courses (`write_eq`, `take_eq`,
`changeAll_eq`).
-/

namespace RecordStore

/-- What is held for one key: its record, and the values under which each index lists it. -/
structure Held where
  record? : Option Bytes
  values : String → Bytes → Prop

/-- Both hold the same, for the declared indexes. -/
def Held.Same {κ ρ : Type} (t : RecordType κ ρ) (h h' : Held) : Prop :=
  h.record? = h'.record? ∧
    ∀ index, t.schema.hasIndex index = true → ∀ v, h.values index v ↔ h'.values index v

/-- A change of what is held for a key. -/
inductive Edit where
  /-- The record becomes this one. -/
  | store (bytes : Bytes)
  /-- The record goes. -/
  | drop
  /-- The key comes under a value of an index, or goes from there. -/
  | entry (change : Index.Change) (index : String) (value : Bytes)

namespace Edit

/-- What is held after an edit. -/
def apply : Held → Edit → Held
  | h, .store bytes => { h with record? := some bytes }
  | h, .drop => { h with record? := none }
  | h, .entry .add index value =>
    { h with values := fun i v => h.values i v ∨ i = index ∧ v = value }
  | h, .entry .remove index value =>
    { h with values := fun i v => h.values i v ∧ ¬(i = index ∧ v = value) }

/-- What is held after edits one after the other. -/
def applyAll (h : Held) (edits : List Edit) : Held := edits.foldl apply h

variable {κ ρ : Type}

/-- The step that makes an edit. -/
def run (s : Store) (t : RecordType κ ρ) (key : Bytes) : Edit → Step Buckets Unit
  | .store bytes => Buckets.put t.name key bytes
  | .drop => Buckets.delete t.name key
  | .entry change index value =>
    Index.changeEntry s.codec change (Index.bucketName t.name index) key value

/-- An entry is that of a declared index. -/
def Declared (t : RecordType κ ρ) : Edit → Prop
  | .entry _ index _ => t.schema.hasIndex index = true
  | _ => True

end Edit

namespace Store

variable {κ ρ : Type} {s : Store} {t : RecordType κ ρ} {b b₁ b' : Buckets} {key : Bytes} {h : Held}
  {e : Error} {u : Unit}

/-! ## What is held for a key -/

/-- What a state holds for a key. -/
def held (s : Store) (t : RecordType κ ρ) (b : Buckets) (key : Bytes) : Held :=
  ⟨b.get? t.name key, fun index v => s.Filed t b index v key⟩

/-- A state holds this for the key, and for everything else what `b` holds. -/
structure Holds (s : Store) (t : RecordType κ ρ) (b : Buckets) (key : Bytes) (h : Held)
    (b' : Buckets) : Prop where
  record : b'.get? t.name key = h.record?
  records : ∀ k, k ≠ key → b'.get? t.name k = b.get? t.name k
  lists : ∀ index, t.schema.hasIndex index = true →
    Index.Lists s.codec b' (Index.bucketName t.name index) fun v k =>
      if k = key then h.values index v else s.Filed t b index v k
  frame : ∀ n, n ≠ t.name → n ∉ indexBuckets t → ∀ k, b'.get? n k = b.get? n k

theorem holds_held (hb : s.InStep t b) (key : Bytes) : s.Holds t b key (s.held t b key) b := by
  refine ⟨rfl, fun _ _ => rfl, fun index hindex => ?_, fun _ _ _ _ => rfl⟩
  refine (hb index hindex).congr (fun _ => rfl) fun v k => ?_
  split
  next hk =>
    rw [hk]
    exact Iff.rfl
  next => exact Iff.rfl

/-- What a state holds goes by what is read from its buckets. -/
theorem Holds.congr (hb : s.Holds t b key h b₁) (hsame : ∀ n k, b'.get? n k = b₁.get? n k) :
    s.Holds t b key h b' where
  record := (hsame _ _).trans hb.record
  records k hk := (hsame _ _).trans (hb.records k hk)
  lists index hindex := (hb.lists index hindex).congr (fun _ => hsame _ _) fun _ _ => Iff.rfl
  frame n hn hindex k := (hsame _ _).trans (hb.frame n hn hindex k)

/-- A state holds all as `b` does exactly if it does so for the key. -/
theorem Holds.same_iff (hcodec : s.codec.KeepsKeyLists) (hb : s.InStep t b)
    (hh : s.Holds t b key h b') :
    (∀ n k, b'.get? n k = b.get? n k) ↔ h.Same t (s.held t b key) := by
  constructor
  · intro hsame
    refine ⟨hh.record.symm.trans (hsame _ _), fun index hindex v => ?_⟩
    have hlists := (hh.lists index hindex).congr (fun v => (hsame _ v).symm) fun _ _ => Iff.rfl
    have hvalues := hlists.unique hcodec (hb index hindex) v key
    rw [if_pos rfl] at hvalues
    exact hvalues
  · rintro ⟨hrecord, hvalues⟩ n k
    by_cases hn : n = t.name
    · rw [hn]
      by_cases hk : k = key
      · rw [hk, hh.record, hrecord]
        rfl
      · exact hh.records k hk
    · by_cases hindex : n ∈ indexBuckets t
      · obtain ⟨index, hname, rfl⟩ := List.mem_map.mp hindex
        have hindex := mem_indexNames.mp hname
        refine (hb index hindex).get?_eq ((hh.lists index hindex).congr (fun _ => rfl) fun v k => ?_) k
        split
        next hk =>
          rw [hk]
          exact hvalues index hindex v
        next => exact Iff.rfl
      · exact hh.frame n hn hindex k

/-- The indexes are in step exactly if the key is listed under what the record there yields. -/
theorem Holds.inStep_iff (hcodec : s.codec.KeepsKeyLists) (hh : s.Holds t b key h b') :
    s.InStep t b' ↔ ∀ index, t.schema.hasIndex index = true → ∀ v,
      h.values index v ↔ s.Filed t b' index v key := by
  constructor
  · intro hstep index hindex v
    have hvalues := (hh.lists index hindex).unique hcodec (hstep index hindex) v key
    rw [if_pos rfl] at hvalues
    exact hvalues
  · intro hvalues index hindex
    refine (hh.lists index hindex).congr (fun _ => rfl) fun v k => ?_
    split
    next hk =>
      rw [hk]
      exact hvalues index hindex v
    next hk => exact (filed_congr (hh.records k hk)).symm

/-! ## Making an edit -/

/-- Changing what is under the key changes the record only. -/
theorem Holds.record_of_get? {record? : Option Bytes} (hb : s.Holds t b key h b₁)
    (hget : ∀ n k, b'.get? n k = if n = t.name ∧ k = key then record? else b₁.get? n k) :
    s.Holds t b key { h with record? := record? } b' := by
  refine ⟨by rw [hget, if_pos ⟨rfl, rfl⟩], fun k hk => ?_, fun index hindex => ?_,
    fun n hn hindex k => ?_⟩
  · rw [hget, if_neg fun hc => hk hc.2]
    exact hb.records k hk
  · refine (hb.lists index hindex).congr (fun v => ?_) fun _ _ => Iff.rfl
    rw [hget, if_neg fun hc => bucketName_ne _ _ hc.1]
  · rw [hget, if_neg fun hc => hn hc.1]
    exact hb.frame n hn hindex k

/-- Changing an entry changes the values of its index only. -/
theorem Holds.of_changeEntry (hcodec : s.codec.KeepsKeyLists) {change : Index.Change}
    {index : String} {value : Bytes} (hindex : t.schema.hasIndex index = true)
    (hb : s.Holds t b key h b₁)
    (hrun : (Index.changeEntry s.codec change (Index.bucketName t.name index) key value).Ends b₁ u b') :
    s.Holds t b key (Edit.apply h (.entry change index value)) b' := by
  have hother : ∀ n, n ≠ Index.bucketName t.name index → ∀ k, b'.get? n k = b₁.get? n k :=
    fun n hn k => Index.get?_changeEntry hrun fun hc => hn hc.1
  have hrecords := hother t.name (bucketName_ne _ _).symm
  refine ⟨?_, fun k hk => (hrecords k).trans (hb.records k hk), fun i hi => ?_, fun n hn hout k => ?_⟩
  · rw [hrecords, hb.record]
    cases change <;> rfl
  -- The index of the entry lists as much more or less as the edit says; the others are as before.
  · by_cases heq : i = index
    · subst heq
      refine (Index.lists_changeEntry hcodec (hb.lists i hi) hrun).congr (fun _ => rfl) fun v k => ?_
      cases change with
      | add =>
        show (if k = key then _ else _) ∨ k = key ∧ v = value ↔
          if k = key then h.values i v ∨ i = i ∧ v = value else _
        split
        next hk => simp [hk]
        next hk => simp [hk]
      | remove =>
        show (if k = key then _ else _) ∧ ¬(k = key ∧ v = value) ↔
          if k = key then h.values i v ∧ ¬(i = i ∧ v = value) else _
        split
        next hk => simp [hk]
        next hk => simp [hk]
    · refine (hb.lists i hi).congr (hother _ fun hc => heq (bucketName_inj hc)) fun v k => ?_
      cases change with
      | add =>
        show _ ↔ if k = key then h.values i v ∨ i = index ∧ v = value else _
        simp [heq]
      | remove =>
        show _ ↔ if k = key then h.values i v ∧ ¬(i = index ∧ v = value) else _
        simp [heq]
  · refine (hother n (fun hc => hout ?_) k).trans (hb.frame n hn hout k)
    exact hc ▸ mem_indexBuckets hindex

/-- An edit that is made changes what is held for the key as it says. -/
theorem holds_of_ends (hcodec : s.codec.KeepsKeyLists) {edit : Edit} (hdeclared : edit.Declared t)
    (hb : s.Holds t b key h b₁) (hrun : (edit.run s t key).Ends b₁ u b') :
    s.Holds t b key (edit.apply h) b' := by
  cases edit with
  | store bytes => exact hb.record_of_get? (Buckets.get?_put hrun)
  | drop => exact hb.record_of_get? (Buckets.get?_delete hrun)
  | entry change index value => exact hb.of_changeEntry hcodec hdeclared hrun

/-- An edit that fails changes nothing. -/
theorem holds_of_fails {edit : Edit} (hb : s.Holds t b key h b₁)
    (hrun : (edit.run s t key).Fails b₁ e b') : s.Holds t b key h b' := by
  cases edit with
  | store bytes => exact Buckets.put_fails hrun ▸ hb
  | drop => exact Buckets.delete_fails hrun ▸ hb
  | entry change index value => exact hb.congr (Index.get?_changeEntry_of_fails hrun)

/-- Edits one after the other are all made; or they fail, and then those before the first that fails
are made. -/
theorem holds_forM (hcodec : s.codec.KeepsKeyLists) :
    ∀ {edits : List Edit} {h : Held} {b₁ : Buckets}, (∀ edit ∈ edits, edit.Declared t) →
      s.Holds t b key h b₁ →
      (∀ u, (edits.forM (Edit.run s t key)).Ends b₁ u b' →
        s.Holds t b key (Edit.applyAll h edits) b') ∧
      (∀ e, (edits.forM (Edit.run s t key)).Fails b₁ e b' → ∃ made edit rest,
        edits = made ++ edit :: rest ∧ s.Holds t b key (Edit.applyAll h made) b')
  | [], h, b₁, _, hb => by
    constructor
    · intro u hrun
      obtain ⟨-, rfl⟩ := Step.ends_pure.mp hrun
      exact hb
    · intro e hrun
      exact absurd hrun Step.fails_pure
  | edit :: edits, h, b₁, hdeclared, hb => by
    obtain ⟨hhead, htail⟩ := List.forall_mem_cons.mp hdeclared
    constructor
    · intro u hrun
      obtain ⟨_, b₂, hedit, hrun⟩ := Step.ends_bind.mp hrun
      exact (holds_forM hcodec htail (holds_of_ends hcodec hhead hb hedit)).1 u hrun
    · intro e hrun
      -- Either this edit is the one that fails or one of the others is.
      rcases Step.fails_bind.mp hrun with hedit | ⟨_, b₂, hedit, hrun⟩
      · exact ⟨[], edit, edits, rfl, holds_of_fails hb hedit⟩
      · obtain ⟨made, edit', rest, rfl, hmade⟩ :=
          (holds_forM hcodec htail (holds_of_ends hcodec hhead hb hedit)).2 e hrun
        exact ⟨edit :: made, edit', rest, rfl, hmade⟩

end Store

/-! ## Courses -/

/-- The edits of a call in order, and the refusal that ends them, if there is one. -/
structure Course where
  edits : List Edit
  refusal : Option Error

namespace Course

/-- A refusal before anything is changed. -/
def refused (e : Error) : Course := ⟨[], some e⟩

/-- One course and then another, unless the first one is refused. -/
def andThen (c c' : Course) : Course :=
  match c.refusal with
  | some _ => c
  | none => ⟨c.edits ++ c'.edits, c'.refusal⟩

variable {κ ρ : Type}

/-- The steps of a course. -/
def run (s : Store) (t : RecordType κ ρ) (key : Bytes) (c : Course) : Step Buckets Unit := do
  c.edits.forM (Edit.run s t key)
  match c.refusal with
  | some e => .fail e
  | none => pure ()

/-- All entries are those of declared indexes. -/
def Declared (t : RecordType κ ρ) (c : Course) : Prop := ∀ edit ∈ c.edits, edit.Declared t

theorem declared_refused {t : RecordType κ ρ} (e : Error) : (refused e).Declared t := by
  intro edit hedit
  cases hedit

theorem Declared.andThen {t : RecordType κ ρ} {c c' : Course} (h : c.Declared t)
    (h' : c'.Declared t) : (c.andThen c').Declared t := by
  intro edit hedit
  unfold Course.andThen at hedit
  split at hedit
  next => exact h edit hedit
  next => exact (List.mem_append.mp hedit).elim (h edit) (h' edit)

variable {s : Store} {t : RecordType κ ρ} {key : Bytes}

/-- To run two courses in sequence is to run one and then the other. -/
theorem run_andThen (c c' : Course) :
    (c.andThen c').run s t key = c.run s t key >>= fun _ => c'.run s t key := by
  unfold andThen run
  cases hrefusal : c.refusal with
  | some e =>
    dsimp only
    rw [hrefusal, bind_assoc]
    rfl
  | none =>
    dsimp only
    rw [bind_assoc, pure_bind, ← bind_assoc]
    exact congrArg (· >>= _) List.forM_append

/-- A course that fails has made the first few of its edits, and all of them only if it is refused. -/
theorem fails_run (hcodec : s.codec.KeepsKeyLists) {c : Course} (hdeclared : c.Declared t)
    {b b₁ b' : Buckets} {h : Held} {e : Error} (hb : s.Holds t b key h b₁)
    (hrun : (c.run s t key).Fails b₁ e b') : ∃ made, made <+: c.edits ∧
      (made = c.edits → c.refusal = some e) ∧ s.Holds t b key (Edit.applyAll h made) b' := by
  unfold run at hrun
  rw [Step.fails_bind] at hrun
  rcases hrun with hedits | ⟨_, b₂, hedits, hrefusal⟩
  · obtain ⟨made, edit, rest, hsplit, hmade⟩ := (Store.holds_forM hcodec hdeclared hb).2 _ hedits
    refine ⟨made, ⟨edit :: rest, hsplit.symm⟩, fun hall => ?_, hmade⟩
    have hlen := congrArg List.length (hall.trans hsplit)
    rw [List.length_append, List.length_cons] at hlen
    omega
  · cases hend : c.refusal with
    | none =>
      rw [hend] at hrefusal
      exact absurd hrefusal Step.fails_pure
    | some e' =>
      rw [hend] at hrefusal
      obtain ⟨rfl, rfl⟩ := Step.fails_fail.mp hrefusal
      exact ⟨c.edits, List.prefix_rfl, fun _ => rfl,
        (Store.holds_forM hcodec hdeclared hb).1 _ hedits⟩

/-! ## Bringing records in and taking them out -/

/-- What the functions of the indexes answer for a record, in the order in which they are asked. -/
def answers (t : RecordType κ ρ) (record : ρ) : List (String × Except Error (List Bytes)) :=
  t.schema.indexes.toList.map (fun (index, file) => (index, (file record).map Option.toList)) ++
    t.schema.sliceIndexes.toList.map fun (index, file) => (index, file record)

/-- The entries of the values that were answered, up to the first answer that is none. -/
def changing (change : Index.Change) : List (String × Except Error (List Bytes)) → Course
  | [] => ⟨[], none⟩
  | (_, .error e) :: _ => refused e
  | (index, .ok values) :: rest =>
    andThen ⟨values.map (.entry change index), none⟩ (changing change rest)

/-- A record comes into the indexes. -/
def filing (t : RecordType κ ρ) (record : ρ) : Course := changing .add (answers t record)

/-- A record goes out of the indexes. -/
def unfiling (t : RecordType κ ρ) (record : ρ) : Course := changing .remove (answers t record)

/-- A record is stored and comes into the indexes. -/
def writing (s : Store) (t : RecordType κ ρ) (record : ρ) : Course :=
  match s.codec.write (t.toJson? record) with
  | .error e => refused e
  | .ok bytes => andThen ⟨[.store bytes], none⟩ (filing t record)

/-- A record is taken out, and then out of the indexes. -/
def taking (t : RecordType κ ρ) (record : ρ) : Course := andThen ⟨[.drop], none⟩ (unfiling t record)

/-- Only declared indexes are asked. -/
theorem mem_answers {record : ρ} {index : String} {answer : Except Error (List Bytes)}
    (h : (index, answer) ∈ answers t record) : t.schema.hasIndex index = true := by
  refine Store.mem_indexNames.mp (List.mem_append.mpr ?_)
  rcases List.mem_append.mp h with h | h
  · obtain ⟨entry, hentry, heq⟩ := List.mem_map.mp h
    cases heq
    exact .inl (List.mem_map_of_mem hentry)
  · obtain ⟨entry, hentry, heq⟩ := List.mem_map.mp h
    cases heq
    exact .inr (List.mem_map_of_mem hentry)

/-- The entries that are changed are those of the indexes that answered. -/
theorem declared_changing (change : Index.Change) :
    ∀ {answers : List (String × Except Error (List Bytes))},
      (∀ answer ∈ answers, t.schema.hasIndex answer.1 = true) → (changing change answers).Declared t
  | [], _ => by
    intro edit hedit
    cases hedit
  | (_, .error e) :: _, _ => declared_refused e
  | (index, .ok values) :: rest, h => by
    obtain ⟨hindex, hrest⟩ := List.forall_mem_cons.mp h
    refine Declared.andThen (fun edit hedit => ?_) (declared_changing change hrest)
    obtain ⟨value, -, rfl⟩ := List.mem_map.mp hedit
    exact hindex

theorem declared_filing (record : ρ) : (filing t record).Declared t :=
  declared_changing .add fun _ => mem_answers

theorem declared_unfiling (record : ρ) : (unfiling t record).Declared t :=
  declared_changing .remove fun _ => mem_answers

theorem declared_writing (record : ρ) : (writing s t record).Declared t := by
  unfold writing
  split
  next e _ => exact declared_refused e
  next bytes _ =>
    refine Declared.andThen (fun edit hedit => ?_) (declared_filing record)
    rw [List.mem_singleton.mp hedit]
    trivial

theorem declared_taking (record : ρ) : (taking t record).Declared t := by
  refine Declared.andThen (fun edit hedit => ?_) (declared_unfiling record)
  rw [List.mem_singleton.mp hedit]
  trivial

/-- One edit and nothing else. -/
theorem run_single (edit : Edit) : (Course.mk [edit] none).run s t key = edit.run s t key := by
  show (edit.run s t key >>= fun _ => pure ()) >>= (fun _ => pure ()) = _
  rw [bind_pure_unit, bind_pure_unit]

/-- The entries of the values are changed one after the other, index by index. -/
theorem run_changing (change : Index.Change) :
    ∀ answers : List (String × Except Error (List Bytes)),
      (changing change answers).run s t key = answers.forM fun (index, answer) => do
        let values ← answer
        values.forM fun value =>
          Index.changeEntry s.codec change (Index.bucketName t.name index) key value
  | [] => rfl
  | (_, .error e) :: _ => rfl
  | (index, .ok values) :: rest => by
    unfold changing
    rw [run_andThen, run_changing change rest]
    have hvalues : (Course.mk (values.map (.entry change index)) none).run s t key =
        values.forM fun value =>
          Index.changeEntry s.codec change (Index.bucketName t.name index) key value := by
      unfold run
      rw [bind_pure_unit]
      exact List.forM_map
    rw [hvalues]
    rfl

/-- The answers are what a change of all entries of a record goes by. -/
theorem changeAll_eq (change : Index.Change) (record : ρ) :
    Index.changeAll s.codec change t.schema key record =
      (changing change (answers t record)).run s t key := by
  rw [run_changing, answers, List.forM_eq_forM, List.forM_append, List.forM_map, List.forM_map]
  unfold Index.changeAll
  refine congrArg (· >>= _) (congrArg (List.forM _) (funext fun (index, file) => ?_))
  dsimp only
  cases file record with
  | error e => rfl
  | ok value? =>
    cases value? with
    | none => rfl
    | some value => exact (bind_pure_unit).symm

/-- `write` runs the course of a record that is stored and filed. -/
theorem write_eq (record : ρ) : s.write t key record = (writing s t record).run s t key := by
  unfold Store.write writing
  cases s.codec.write (t.toJson? record) with
  | error e => rfl
  | ok bytes =>
    dsimp only
    rw [run_andThen, run_single, filing, ← changeAll_eq]
    rfl

theorem unfile_eq (record : ρ) : s.unfile t key record = (unfiling t record).run s t key :=
  changeAll_eq .remove record

theorem take_eq (record : ρ) : s.take t key record = (taking t record).run s t key := by
  rw [taking, run_andThen, run_single, ← unfile_eq]
  rfl

end Course

end RecordStore
