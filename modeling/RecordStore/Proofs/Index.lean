import RecordStore.Index
import RecordStore.Proofs.Buckets
import RecordStore.Proofs.KeyList
import RecordStore.Proofs.KeyListJson

/-!
# What index buckets list

`Lists codec s bucket F` says that the bucket is an index of the relation `F` between values and
keys: there is an entry under a value exactly if some key has it, and the entry is the list of
exactly those keys in ascending order. Bringing a record in adds the pairs of its values and its key
to the relation, and taking it out removes them (`changes_changeAll`); which bucket a pair goes to is
all that the scalar and the slice indexes differ in, so a change is described by the set of pairs
alone, and sets of pairs are put together by `Changes.trans`.
-/

namespace RecordStore.Index

variable {κ ρ : Type}

/-- The bucket is an index of a relation between values and keys. -/
structure Lists (codec : Codec) (s : Buckets) (bucket : String) (F : Bytes → Bytes → Prop) :
    Prop where
  /-- There is an entry under a value exactly if a key has it. -/
  present : ∀ v, (∃ bytes, s.get? bucket v = some bytes) ↔ ∃ k, F v k
  /-- An entry is the ascending list of exactly the keys that have the value. -/
  content : ∀ v bytes, s.get? bucket v = some bytes → ∃ l : KeyList,
    l.Ascends ∧ codec.write (some l.toJson) = .ok bytes ∧ ∀ k, k ∈ l.keys ↔ F v k

theorem Lists.congr {codec : Codec} {s s' : Buckets} {bucket : String} {F F' : Bytes → Bytes → Prop}
    (h : Lists codec s bucket F) (hs : ∀ v, s'.get? bucket v = s.get? bucket v)
    (hF : ∀ v k, F v k ↔ F' v k) : Lists codec s' bucket F' := by
  have hFF : F = F' := by
    funext v k
    exact propext (hF v k)
  subst hFF
  constructor
  · intro v
    rw [hs]
    exact h.present v
  · intro v bytes hget
    rw [hs] at hget
    exact h.content v bytes hget

/-- A bucket without entries is an index of nothing. -/
theorem lists_nothing {codec : Codec} {s : Buckets} {bucket : String}
    (h : ∀ v, s.get? bucket v = none) : Lists codec s bucket fun _ _ => False := by
  constructor
  · intro v
    rw [h v]
    simp
  · intro v bytes hget
    rw [h v] at hget
    cases hget

/-- Two indexes of one relation have the same entries. -/
theorem Lists.get?_eq {codec : Codec} {s s' : Buckets} {bucket : String}
    {F : Bytes → Bytes → Prop} (h : Lists codec s bucket F) (h' : Lists codec s' bucket F)
    (v : Bytes) : s'.get? bucket v = s.get? bucket v := by
  have hboth := (h.present v).trans (h'.present v).symm
  cases hget : s.get? bucket v with
  | none =>
    cases hget' : s'.get? bucket v with
    | none => rfl
    | some bytes' =>
      obtain ⟨bytes, hbytes⟩ := hboth.mpr ⟨bytes', hget'⟩
      rw [hget] at hbytes
      cases hbytes
  | some bytes =>
    obtain ⟨bytes', hget'⟩ := hboth.mp ⟨bytes, hget⟩
    obtain ⟨l, hl, hwrite, hmem⟩ := h.content v bytes hget
    obtain ⟨l', hl', hwrite', hmem'⟩ := h'.content v bytes' hget'
    have hsame : l = l' := KeyList.ascends_ext hl hl' fun k => (hmem k).trans (hmem' k).symm
    rw [hsame, hwrite'] at hwrite
    cases hwrite
    exact hget'

/-- A bucket is an index of one relation only. -/
theorem Lists.unique {codec : Codec} (hcodec : codec.KeepsKeyLists) {s : Buckets} {bucket : String}
    {F F' : Bytes → Bytes → Prop} (h : Lists codec s bucket F) (h' : Lists codec s bucket F')
    (v k : Bytes) : F v k ↔ F' v k := by
  cases hget : s.get? bucket v with
  | none =>
    have hnot : ∀ {G : Bytes → Bytes → Prop}, Lists codec s bucket G → ¬G v k := by
      intro G hG hk
      obtain ⟨bytes, hbytes⟩ := (hG.present v).mpr ⟨k, hk⟩
      rw [hget] at hbytes
      cases hbytes
    exact iff_of_false (hnot h) (hnot h')
  | some bytes =>
    obtain ⟨l, -, hwrite, hmem⟩ := h.content v bytes hget
    obtain ⟨l', -, hwrite', hmem'⟩ := h'.content v bytes hget
    rw [← hmem, hcodec.eq_of_write hwrite hwrite', hmem']

/-- The keys that are read off an entry are those that have its value. -/
theorem Lists.decodeKeys {codec : Codec} (hcodec : codec.KeepsKeyLists) {s : Buckets}
    {bucket : String} {F : Bytes → Bytes → Prop} (h : Lists codec s bucket F) {v bytes : Bytes}
    (hget : s.get? bucket v = some bytes) :
    ∃ l : KeyList, decodeKeys codec bytes = .ok l ∧ l.Ascends ∧ ∀ k, k ∈ l.keys ↔ F v k := by
  obtain ⟨l, hl, hwrite, hmem⟩ := h.content v bytes hget
  exact ⟨l, hcodec l bytes hwrite, hl, hmem⟩

/-- The keys that are read under a value are those that have it. -/
theorem Lists.keysAt {codec : Codec} (hcodec : codec.KeepsKeyLists) {s : Buckets} {bucket : String}
    {F : Bytes → Bytes → Prop} (h : Lists codec s bucket F) (v : Bytes) :
    ∃ l : KeyList, keysAt codec s bucket v = .ok l ∧ l.Ascends ∧ ∀ k, k ∈ l.keys ↔ F v k := by
  unfold Index.keysAt
  cases hget : s.get? bucket v with
  | none =>
    refine ⟨.empty, rfl, KeyList.ascends_empty, fun k => ?_⟩
    constructor
    · intro hk
      cases hk
    · intro hF
      obtain ⟨bytes, hbytes⟩ := (h.present v).mpr ⟨k, hF⟩
      rw [hget] at hbytes
      cases hbytes
  | some bytes => exact h.decodeKeys hcodec hget

/-! ## One pair -/

/-- A relation with, or without, the pairs of one key and some values. -/
def Change.on (change : Change) (F : Bytes → Bytes → Prop) (key : Bytes) (V : Bytes → Prop)
    (v k : Bytes) : Prop :=
  match change with
  | .add => F v k ∨ k = key ∧ V v
  | .remove => F v k ∧ ¬(k = key ∧ V v)

/-- A pair that a change is not about stays in the relation, or out of it. -/
theorem Change.on_of_not {change : Change} {F : Bytes → Bytes → Prop} {key : Bytes}
    {V : Bytes → Prop} {v k : Bytes} (h : ¬(k = key ∧ V v)) : change.on F key V v k ↔ F v k := by
  cases change with
  | add => exact or_iff_left h
  | remove => exact and_iff_left h

/-- A pair that it is about is in the relation afterwards if it was added. -/
theorem Change.on_self {change : Change} {F : Bytes → Bytes → Prop} {key : Bytes}
    {V : Bytes → Prop} {v : Bytes} (h : V v) : change.on F key V v key ↔ change = .add := by
  cases change with
  | add => exact iff_of_true (.inr ⟨rfl, h⟩) rfl
  | remove => exact iff_of_false (fun hon => hon.2 ⟨rfl, h⟩) nofun

/-- Either change keeps the list ascending. -/
theorem Change.ascends_apply {l : KeyList} (h : l.Ascends) (change : Change) (key : Bytes) :
    (change.apply l key).Ascends := by
  cases change with
  | add => exact KeyList.ascends_add h key
  | remove => exact KeyList.ascends_remove h key

/-- A change of a list decides about its own key and about no other. -/
theorem Change.mem_apply_iff {l : KeyList} (h : l.Ascends) (change : Change) (key k : Bytes) :
    k ∈ (change.apply l key).keys ↔ if key = k then change = .add else k ∈ l.keys := by
  cases change with
  | add =>
    refine (KeyList.mem_add_iff h key).trans ?_
    split
    next hkey => exact ⟨fun _ => rfl, fun _ => .inl hkey.symm⟩
    next hkey => exact or_iff_right fun heq => hkey heq.symm
  | remove =>
    refine (KeyList.mem_remove_iff h key).trans ?_
    split
    next hkey => exact ⟨fun hk => absurd hkey.symm hk.1, nofun⟩
    next hkey => exact and_iff_right fun heq => hkey heq.symm

/-- Storing a list touches no other bucket and no other value. -/
theorem get?_storeKeys {codec : Codec} {s s' : Buckets} {bucket : String} {value : Bytes}
    {l : KeyList} {u : Unit} (hstep : (storeKeys codec bucket value l).Ends s u s') {n : String}
    {v : Bytes} (hne : ¬(n = bucket ∧ v = value)) : s'.get? n v = s.get? n v := by
  unfold storeKeys at hstep
  split at hstep
  next => rw [Buckets.get?_delete hstep, if_neg hne]
  next =>
    rw [Step.ends_liftExcept_bind] at hstep
    obtain ⟨bytes, -, hput⟩ := hstep
    rw [Buckets.get?_put hput, if_neg hne]

/-- What is stored for a list: nothing if it is empty, else what the codec writes. -/
theorem get?_storeKeys_self {codec : Codec} {s s' : Buckets} {bucket : String} {value : Bytes}
    {l : KeyList} {u : Unit} (hstep : (storeKeys codec bucket value l).Ends s u s') :
    l.keys = [] ∧ s'.get? bucket value = none ∨
      l.keys ≠ [] ∧ ∃ bytes, codec.write (some l.toJson) = .ok bytes ∧
        s'.get? bucket value = some bytes := by
  unfold storeKeys at hstep
  split at hstep
  next hempty =>
    refine .inl ⟨List.isEmpty_iff.mp hempty, ?_⟩
    rw [Buckets.get?_delete hstep, if_pos ⟨rfl, rfl⟩]
  next hempty =>
    rw [Step.ends_liftExcept_bind] at hstep
    obtain ⟨bytes, hwrite, hput⟩ := hstep
    refine .inr ⟨fun hnil => hempty (List.isEmpty_iff.mpr hnil), bytes, hwrite, ?_⟩
    rw [Buckets.get?_put hput, if_pos ⟨rfl, rfl⟩]

/-- Storing a list changes the keys of the one value to those of the list. -/
theorem lists_storeKeys {codec : Codec} {s s' : Buckets} {bucket : String} {value : Bytes}
    {l : KeyList} {u : Unit} {F F' : Bytes → Bytes → Prop} (h : Lists codec s bucket F)
    (hl : l.Ascends) (hmem : ∀ k, k ∈ l.keys ↔ F' value k)
    (hother : ∀ v k, v ≠ value → (F' v k ↔ F v k))
    (hstep : (storeKeys codec bucket value l).Ends s u s') : Lists codec s' bucket F' := by
  -- No other value is touched.
  have hstay : ∀ {v}, v ≠ value → s'.get? bucket v = s.get? bucket v := fun hne =>
    get?_storeKeys hstep fun hc => hne hc.2
  constructor
  · intro v
    by_cases hv : v = value
    · subst hv
      -- An empty list is not stored: its entry goes.
      rcases get?_storeKeys_self hstep with ⟨hnil, hnone⟩ | ⟨hne, bytes, -, hsome⟩
      · rw [hnone]
        refine ⟨by simp, fun hk => ?_⟩
        obtain ⟨k, hk⟩ := hk
        rw [← hmem, hnil] at hk
        cases hk
      · refine ⟨fun _ => ?_, fun _ => ⟨bytes, hsome⟩⟩
        obtain ⟨k, hk⟩ := List.exists_mem_of_ne_nil _ hne
        exact ⟨k, (hmem k).mp hk⟩
    · rw [hstay hv, h.present]
      exact exists_congr fun k => (hother v k hv).symm
  · intro v bytes hget
    by_cases hv : v = value
    · subst hv
      rcases get?_storeKeys_self hstep with ⟨-, hnone⟩ | ⟨-, bytes', hwrite, hsome⟩
      · rw [hnone] at hget
        cases hget
      · rw [hsome] at hget
        cases hget
        exact ⟨l, hl, hwrite, hmem⟩
    · rw [hstay hv] at hget
      obtain ⟨l', hl', hwrite, hmem'⟩ := h.content v bytes hget
      exact ⟨l', hl', hwrite, fun k => (hmem' k).trans (hother v k hv).symm⟩

/-- The list under a value, read, changed by the one key and stored again. -/
def changeThere (codec : Codec) (change : Change) (s : Buckets) (bucket : String)
    (key value : Bytes) : Step Buckets Unit := do
  let keys ← keysAt codec s bucket value
  storeKeys codec bucket value (change.apply keys key)

/-- Changing an entry is making the bucket, if a pair is added, and changing the list under the
value if there is a bucket. -/
theorem ends_changeEntry {codec : Codec} {change : Change} {s s' : Buckets} {bucket : String}
    {key value : Bytes} {u : Unit}
    (h : (changeEntry codec change bucket key value).Ends s u s') :
    (∃ s₁, (∀ n k, s₁.get? n k = s.get? n k) ∧
      (changeThere codec change s₁ bucket key value).Ends s₁ u s') ∨
    change = .remove ∧ s.has bucket = false ∧ s' = s := by
  unfold changeEntry at h
  cases change with
  | add =>
    rw [if_pos rfl, Step.ends_bind] at h
    obtain ⟨_, s₁, hcreate, h⟩ := h
    rw [Step.ends_get_bind, if_pos (Buckets.has_create hcreate)] at h
    exact .inl ⟨s₁, Buckets.get?_create hcreate, h⟩
  | remove =>
    rw [if_neg (by decide), Step.ends_get_bind] at h
    split at h
    next => exact .inl ⟨s, fun _ _ => rfl, h⟩
    next hmissing =>
      obtain ⟨-, rfl⟩ := Step.ends_pure.mp h
      exact .inr ⟨rfl, by simpa using hmissing, rfl⟩

/-- Changing an entry touches no other bucket and no other value. -/
theorem get?_changeEntry {codec : Codec} {change : Change} {s s' : Buckets} {bucket : String}
    {key value : Bytes} {u : Unit} (h : (changeEntry codec change bucket key value).Ends s u s')
    {n : String} {v : Bytes} (hne : ¬(n = bucket ∧ v = value)) : s'.get? n v = s.get? n v := by
  rcases ends_changeEntry h with ⟨s₁, hsame, h⟩ | ⟨-, -, rfl⟩
  · unfold changeThere at h
    rw [Step.ends_liftExcept_bind] at h
    obtain ⟨l, -, h⟩ := h
    rw [get?_storeKeys h hne, hsame]
  · rfl

/-- What fails to change an entry changes nothing that is stored. -/
theorem get?_changeEntry_of_fails {codec : Codec} {change : Change} {s s' : Buckets}
    {bucket : String} {key value : Bytes} {e : Error}
    (h : (changeEntry codec change bucket key value).Fails s e s') (n : String) (k : Bytes) :
    s'.get? n k = s.get? n k := by
  -- Once the bucket is there, the list is read and stored in one go.
  have hthere : ∀ {s₁ : Buckets}, (do
      let s ← Step.get
      if s.has bucket then
        let keys ← keysAt codec s bucket value
        storeKeys codec bucket value (change.apply keys key) : Step Buckets Unit).Fails s₁ e s' →
      s' = s₁ := by
    intro s₁ h
    rw [Step.fails_get_bind] at h
    split at h
    next =>
      rw [Step.fails_liftExcept_bind] at h
      rcases h with ⟨-, rfl⟩ | ⟨l, -, h⟩
      · rfl
      · unfold storeKeys at h
        split at h
        next => exact Buckets.delete_fails h
        next =>
          rw [Step.fails_liftExcept_bind] at h
          rcases h with ⟨-, rfl⟩ | ⟨bytes, -, h⟩
          · rfl
          · exact Buckets.put_fails h
    next => exact absurd h Step.fails_pure
  unfold changeEntry at h
  cases change with
  | add =>
    rw [if_pos rfl, Step.fails_bind] at h
    rcases h with h | ⟨_, s₁, hcreate, h⟩
    · obtain ⟨-, -, rfl⟩ := Buckets.create_fails h
      rfl
    · rw [hthere h, Buckets.get?_create hcreate]
  | remove =>
    rw [if_neg (by decide)] at h
    rw [hthere h]

/-- Changing an entry changes the relation by the one pair. -/
theorem lists_changeEntry {codec : Codec} (hcodec : codec.KeepsKeyLists) {change : Change}
    {s s' : Buckets} {bucket : String} {key value : Bytes} {u : Unit} {F : Bytes → Bytes → Prop}
    (h : Lists codec s bucket F) (hstep : (changeEntry codec change bucket key value).Ends s u s') :
    Lists codec s' bucket (change.on F key (· = value)) := by
  rcases ends_changeEntry hstep with ⟨s₁, hsame, hstep⟩ | ⟨rfl, hmissing, rfl⟩
  · have h₁ : Lists codec s₁ bucket F := h.congr (hsame bucket) fun _ _ => Iff.rfl
    unfold changeThere at hstep
    rw [Step.ends_liftExcept_bind] at hstep
    obtain ⟨l, hl, hstep⟩ := hstep
    obtain ⟨l', hl', hascends, hmem⟩ := h₁.keysAt hcodec value
    rw [hl] at hl'
    cases hl'
    refine lists_storeKeys h₁ (change.ascends_apply hascends key) (fun k => ?_)
      (fun v k hne => Change.on_of_not fun hc => hne hc.2) hstep
    rw [Change.mem_apply_iff hascends]
    split
    next hkey =>
      subst hkey
      exact (Change.on_self rfl).symm
    next hkey => exact (hmem k).trans (Change.on_of_not fun hc => hkey hc.1.symm).symm
  · -- Without a bucket there is no pair to take out.
    have hnone : ∀ v k, ¬F v k := by
      intro v k hF
      obtain ⟨bytes, hbytes⟩ := (h.present v).mpr ⟨k, hF⟩
      rw [Buckets.has_of_get? hbytes] at hmissing
      cases hmissing
    refine h.congr (fun _ => rfl) fun v k => ?_
    show F v k ↔ F v k ∧ ¬(k = key ∧ v = value)
    simp [hnone]

/-! ## All pairs of a record -/

/-- A step changes every index by the pairs of one key and the values that `V` tells for its bucket,
and nothing in buckets without such values. -/
structure Changes (codec : Codec) (change : Change) (key : Bytes) (V : String → Bytes → Prop)
    (s s' : Buckets) : Prop where
  lists : ∀ bucket F, Lists codec s bucket F → Lists codec s' bucket (change.on F key (V bucket))
  frame : ∀ n, (∀ v, ¬V n v) → ∀ k, s'.get? n k = s.get? n k

theorem Changes.congr {codec : Codec} {change : Change} {key : Bytes} {V V' : String → Bytes → Prop}
    {s s' : Buckets} (h : Changes codec change key V s s') (hV : ∀ n v, V n v ↔ V' n v) :
    Changes codec change key V' s s' := by
  have hVV : V = V' := by
    funext n v
    exact propext (hV n v)
  exact hVV ▸ h

theorem Changes.refl (codec : Codec) (change : Change) (key : Bytes) (s : Buckets) :
    Changes codec change key (fun _ _ => False) s s := by
  constructor
  · intro bucket F h
    exact h.congr (fun _ => rfl) fun v k => (Change.on_of_not fun hc => hc.2).symm
  · intro n _ k
    rfl

/-- Changes one after the other are the change by all their pairs. -/
theorem Changes.trans {codec : Codec} {change : Change} {key : Bytes} {V V' : String → Bytes → Prop}
    {s s₁ s' : Buckets} (h : Changes codec change key V s s₁)
    (h' : Changes codec change key V' s₁ s') :
    Changes codec change key (fun n v => V n v ∨ V' n v) s s' := by
  constructor
  · intro bucket F hF
    refine (h'.lists bucket _ (h.lists bucket F hF)).congr (fun _ => rfl) fun v k => ?_
    cases change with
    | add =>
      show (F v k ∨ k = key ∧ V bucket v) ∨ k = key ∧ V' bucket v ↔
        F v k ∨ k = key ∧ (V bucket v ∨ V' bucket v)
      rw [or_assoc, and_or_left]
    | remove =>
      show (F v k ∧ ¬(k = key ∧ V bucket v)) ∧ ¬(k = key ∧ V' bucket v) ↔
        F v k ∧ ¬(k = key ∧ (V bucket v ∨ V' bucket v))
      rw [and_assoc, ← not_or, and_or_left]
  · intro n hn k
    exact (h'.frame n (fun v hv => hn v (.inr hv)) k).trans
      (h.frame n (fun v hv => hn v (.inl hv)) k)

/-- Changing one entry changes what is listed under that value of that bucket. -/
theorem changes_changeEntry {codec : Codec} (hcodec : codec.KeepsKeyLists) {change : Change}
    {s s' : Buckets} {bucket : String} {key value : Bytes} {u : Unit}
    (hstep : (changeEntry codec change bucket key value).Ends s u s') :
    Changes codec change key (fun n v => n = bucket ∧ v = value) s s' := by
  constructor
  · intro n F hF
    by_cases hn : n = bucket
    · subst hn
      refine (lists_changeEntry hcodec hF hstep).congr (fun _ => rfl) fun v k => ?_
      simp
    · have hsame : ∀ v, s'.get? n v = s.get? n v := fun v =>
        get?_changeEntry hstep fun hc => hn hc.1
      exact hF.congr hsame fun v k => (Change.on_of_not fun hc => hn hc.2.1).symm
  · intro n hn k
    exact get?_changeEntry hstep fun hc => hn value ⟨hc.1, rfl⟩

/-- A loop makes the changes of all its rounds. -/
theorem changes_forM {α : Type} {codec : Codec} {change : Change} {key : Bytes}
    {f : α → Step Buckets Unit} (V : α → String → Bytes → Prop) :
    ∀ {l : List α} {s s' : Buckets} {u : Unit},
      (∀ a ∈ l, ∀ {s s' : Buckets} {u : Unit}, (f a).Ends s u s' →
        Changes codec change key (V a) s s') →
      (l.forM f).Ends s u s' → Changes codec change key (fun n v => ∃ a ∈ l, V a n v) s s'
  | [], s, s', u, _, h => by
    have h : (pure () : Step Buckets Unit).Ends s u s' := h
    obtain ⟨-, rfl⟩ := Step.ends_pure.mp h
    exact (Changes.refl codec change key s').congr fun n v => by simp
  | a :: l, s, s', u, hf, h => by
    have h : (f a >>= fun _ => l.forM f).Ends s u s' := h
    rw [Step.ends_bind] at h
    obtain ⟨_, s₁, ha, hl⟩ := h
    have hhead := hf a (List.mem_cons_self ..) ha
    have htail := changes_forM V (fun b hb => hf b (List.mem_cons_of_mem a hb)) hl
    exact (hhead.trans htail).congr fun n v => by simp

/-- A record yields a value for an index, be it a scalar or a slice index. -/
def Yields (schema : Schema κ ρ) (index : String) (record : ρ) (v : Bytes) : Prop :=
  (∃ file, schema.indexes.find? index = some file ∧ file record = .ok (some v)) ∨
    ∃ file vs, schema.sliceIndexes.find? index = some file ∧ file record = .ok vs ∧ v ∈ vs

/-- Bringing a record in or taking it out changes the indexes by the pairs of its values. -/
theorem changes_changeAll {codec : Codec} (hcodec : codec.KeepsKeyLists) {change : Change}
    {schema : Schema κ ρ} {key : Bytes} {record : ρ} {s s' : Buckets} {u : Unit}
    (h : (changeAll codec change schema key record).Ends s u s') :
    Changes codec change key (fun n v => ∃ index,
      n = bucketName schema.typeName index ∧ Yields schema index record v) s s' := by
  unfold changeAll at h
  rw [Step.ends_bind] at h
  obtain ⟨_, s₁, hscalar, hslice⟩ := h
  -- The scalar indexes come first, each with the value it files, if any.
  have hfirst : Changes codec change key (fun n v => ∃ e ∈ schema.indexes.toList,
      n = bucketName schema.typeName e.1 ∧ e.2 record = .ok (some v)) s s₁ := by
    refine changes_forM (fun e n v => n = bucketName schema.typeName e.1 ∧
      e.2 record = .ok (some v)) ?_ hscalar
    intro e _ s s' u h
    rw [Step.ends_liftExcept_bind] at h
    obtain ⟨filed, hfiled, h⟩ := h
    cases filed with
    | none =>
      obtain ⟨-, rfl⟩ := Step.ends_pure.mp h
      exact (Changes.refl ..).congr fun n v => by simp [hfiled]
    | some value =>
      refine (changes_changeEntry hcodec h).congr fun n v => ?_
      rw [hfiled, Except.ok.injEq, Option.some.injEq, @eq_comm _ value v]
  -- Then the slice indexes, each with all items of the record.
  have hsecond : Changes codec change key (fun n v => ∃ e ∈ schema.sliceIndexes.toList,
      n = bucketName schema.typeName e.1 ∧ ∃ vs, e.2 record = .ok vs ∧ v ∈ vs) s₁ s' := by
    refine changes_forM (fun e n v => n = bucketName schema.typeName e.1 ∧
      ∃ vs, e.2 record = .ok vs ∧ v ∈ vs) ?_ hslice
    intro e _ s s' u h
    rw [Step.ends_liftExcept_bind] at h
    obtain ⟨vs, hvs, h⟩ := h
    refine (changes_forM (fun value n v => n = bucketName schema.typeName e.1 ∧ v = value)
      (fun value _ s s' u h => changes_changeEntry hcodec h) h).congr fun n v => ?_
    simp [hvs, and_comm]
  refine (hfirst.trans hsecond).congr fun n v => ?_
  constructor
  · intro h
    rcases h with ⟨e, he, hn, hv⟩ | ⟨e, he, hn, vs, hvs, hv⟩
    · exact ⟨e.1, hn, .inl ⟨e.2, schema.indexes.mem_toList_iff.mp he, hv⟩⟩
    · exact ⟨e.1, hn, .inr ⟨e.2, vs, schema.sliceIndexes.mem_toList_iff.mp he, hvs, hv⟩⟩
  · intro h
    obtain ⟨index, hn, ⟨file, hfile, hv⟩ | ⟨file, vs, hfile, hvs, hv⟩⟩ := h
    · exact .inl ⟨(index, file), schema.indexes.mem_toList_iff.mpr hfile, hn, hv⟩
    · exact .inr ⟨(index, file), schema.sliceIndexes.mem_toList_iff.mpr hfile, hn, vs, hvs, hv⟩

/-! ## The buckets that are there -/

section Stays

variable {codec : Codec} {s s' : Buckets} {bucket : String} {key value : Bytes} {u : Unit}

/-- Storing a key list makes no bucket and drops none. -/
theorem has_storeKeys {l : KeyList} (h : (storeKeys codec bucket value l).Ends s u s') (n : String) :
    s'.has n = s.has n := by
  unfold storeKeys at h
  split at h
  next => exact Buckets.has_delete h n
  next =>
    obtain ⟨bytes, -, hput⟩ := Step.ends_liftExcept_bind.mp h
    exact Buckets.has_put hput n

/-- Taking a key out of an entry makes no bucket. -/
theorem has_removeEntry (h : (changeEntry codec .remove bucket key value).Ends s u s') (n : String) :
    s'.has n = s.has n := by
  unfold changeEntry at h
  rw [if_neg (by decide), Step.ends_get_bind] at h
  split at h
  next =>
    obtain ⟨l, -, hstore⟩ := Step.ends_liftExcept_bind.mp h
    exact has_storeKeys hstore n
  next =>
    obtain ⟨-, rfl⟩ := Step.ends_pure.mp h
    rfl

/-- Taking a record out of the indexes leaves the buckets that are there. -/
theorem has_remove {schema : Schema κ ρ} {record : ρ}
    (h : (Index.remove codec schema key record).Ends s u s') (n : String) : s'.has n = s.has n := by
  unfold Index.remove changeAll at h
  rw [Step.ends_bind] at h
  obtain ⟨_, s₁, hscalar, hslice⟩ := h
  have hfirst : s₁.has n = s.has n := by
    refine Step.forM_keeps (P := fun s' => s'.has n = s.has n) (fun e t _ t' h ht => ?_) _ hscalar rfl
    obtain ⟨filed, -, h⟩ := Step.ends_liftExcept_bind.mp h
    cases filed with
    | none =>
      obtain ⟨-, rfl⟩ := Step.ends_pure.mp h
      exact ht
    | some value => exact (has_removeEntry h n).trans ht
  refine Step.forM_keeps (P := fun s' => s'.has n = s.has n) (fun e t _ t' h ht => ?_) _ hslice hfirst
  obtain ⟨values, -, h⟩ := Step.ends_liftExcept_bind.mp h
  exact Step.forM_keeps (P := fun s' => s'.has n = s.has n)
    (fun value _ _ _ h ht => (has_removeEntry h n).trans ht) _ h ht

end Stays

end RecordStore.Index
