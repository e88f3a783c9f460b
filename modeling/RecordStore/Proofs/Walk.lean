import RecordStore.Proofs.Buckets
import RecordStore.Proofs.Candidates

/-!
# What each kind of walk yields

A walk over records yields the entries it accepts, in their order (`stream_records`). A walk over a
scalar index yields the records of the keys of accepted entries, in the order of entries and keys
(`stream_index`). A walk over a slice index yields the same records, each once (`stream_slice`).
-/

namespace RecordStore.Candidates

variable {κ ρ : Type} [CustomKind κ]

/-- Whether an entry is a candidate itself. -/
def accepts (c : Candidates κ ρ) (e : Entry) : Bool :=
  match c.expand e with
  | .ok (.candidate _) => true
  | _ => false

/-- The keys that an entry of an index brings. -/
def entryKeys (c : Candidates κ ρ) (e : Entry) : List Bytes :=
  match c.expand e with
  | .ok (.keys keys) => keys
  | _ => []

omit [CustomKind κ] in
/-- The record of a key as an entry. -/
def entryOf? (c : Candidates κ ρ) (key : Bytes) : Option Entry :=
  (c.buckets.get? c.dataBucket key).map (key, ·)

omit [CustomKind κ] in
theorem entryOf?_eq_some {c : Candidates κ ρ} {key : Bytes} {e : Entry} :
    c.entryOf? key = some e ↔ e.1 = key ∧ c.buckets.get? c.dataBucket e.1 = some e.2 := by
  unfold entryOf?
  rw [Option.map_eq_some_iff]
  constructor
  · rintro ⟨record, hrecord, rfl⟩
    exact ⟨rfl, hrecord⟩
  · rintro ⟨rfl, hrecord⟩
    exact ⟨e.2, hrecord, rfl⟩

/-! ## Records -/

theorem expand_records {c : Candidates κ ρ} (hscan : c.scan = .full ∨ c.scan = .primaryKey)
    {e : Entry} {x : Expansion} (h : c.expand e = .ok x) : x = .candidate e ∨ x = .nothing := by
  unfold expand at h
  rcases hscan with hscan | hscan
  · rw [hscan] at h
    cases h
    exact .inl rfl
  · rw [hscan] at h
    obtain ⟨key, -, h⟩ := bind_eq_ok.mp h
    obtain ⟨met, -, h⟩ := bind_eq_ok.mp h
    cases h
    cases met with
    | true => exact .inl rfl
    | false => exact .inr rfl

/-- A walk in key order accepts a record if the criteria hold of its key. -/
theorem accepts_primaryKey {c : Candidates κ ρ} (hscan : c.scan = .primaryKey) {e : Entry} :
    c.accepts e = true ↔
      ∃ key, Keycode.decode e.1 = .ok key ∧ Criterion.allHoldOf key c.criteria = .ok true := by
  unfold accepts expand
  rw [hscan]
  cases hkey : Keycode.decode (κ := κ) e.1 with
  | error err => simp [bind, Except.bind]
  | ok key =>
    cases hmet : Criterion.allHoldOf key c.criteria with
    | error err => simp [bind, Except.bind, hmet]
    | ok met => cases met <;> simp [bind, Except.bind, pure, Except.pure, hmet]

/-- A walk over records yields those that it accepts. -/
theorem stream_records {c : Candidates κ ρ} (hscan : c.scan = .full ∨ c.scan = .primaryKey)
    (emitted : List Bytes) : ∀ ahead : List Entry,
    c.stream emitted ahead = (ahead.filter c.accepts).map (·, false)
  | [] => rfl
  | e :: rest => by
    have hrest := stream_records hscan emitted rest
    rw [stream]
    cases hx : c.expand e with
    | error err =>
      have hno : c.accepts e = false := by rw [accepts, hx]
      rw [List.filter_cons_of_neg (by simp [hno])]
      exact hrest
    | ok x =>
      rcases expand_records hscan hx with rfl | rfl
      · have hyes : c.accepts e = true := by rw [accepts, hx]
        rw [List.filter_cons_of_pos hyes, List.map_cons, ← hrest]
      · have hno : c.accepts e = false := by rw [accepts, hx]
        rw [List.filter_cons_of_neg (by simp [hno])]
        exact hrest

/-! ## Scalar indexes -/

/-- An entry of an index brings the keys stored in it, if its value is accepted, or nothing. -/
theorem expand_index {c : Candidates κ ρ} (hscan : c.scan = .index ∨ c.scan = .sliceIndex)
    {e : Entry} {x : Expansion} : c.expand e = .ok x ↔
      ∃ value met, Keycode.decode e.1 = .ok value ∧ c.acceptsValue e.1 value = .ok met ∧
        if met then ∃ l, Index.decodeKeys c.codec e.2 = .ok l ∧ x = .keys l.keys
        else x = .nothing := by
  have hexpand : c.expand e = (do
      let value : Value κ ← Keycode.decode e.1
      if ← c.acceptsValue e.1 value then
        return .keys (← Index.decodeKeys c.codec e.2).keys
      else return .nothing) := by
    unfold expand
    rcases hscan with hscan | hscan <;> rw [hscan]
  -- Either kind of index decodes, asks and reads the keys, in this order.
  rw [hexpand, bind_eq_ok]
  refine exists_congr fun value => ?_
  constructor
  · intro h
    obtain ⟨hvalue, h⟩ := h
    obtain ⟨met, hmet, h⟩ := bind_eq_ok.mp h
    refine ⟨met, hvalue, hmet, ?_⟩
    cases met with
    | true =>
      obtain ⟨l, hl, h⟩ := bind_eq_ok.mp h
      cases h
      exact ⟨l, hl, rfl⟩
    | false =>
      cases h
      rfl
  · intro h
    obtain ⟨met, hvalue, hmet, h⟩ := h
    refine ⟨hvalue, bind_eq_ok.mpr ⟨met, hmet, ?_⟩⟩
    cases met with
    | true =>
      obtain ⟨l, hl, rfl⟩ := h
      exact bind_eq_ok.mpr ⟨l, hl, rfl⟩
    | false =>
      cases h
      rfl

theorem expand_index_ne {c : Candidates κ ρ} (hscan : c.scan = .index ∨ c.scan = .sliceIndex)
    (e e' : Entry) : c.expand e ≠ .ok (.candidate e') := by
  intro h
  obtain ⟨value, met, -, -, h⟩ := (expand_index hscan).mp h
  cases met with
  | true =>
    obtain ⟨l, -, h⟩ := h
    cases h
  | false => cases h

/-- The keys that an entry brings are those stored in it. -/
theorem mem_entryKeys {c : Candidates κ ρ} (hscan : c.scan = .index ∨ c.scan = .sliceIndex)
    {e : Entry} {key : Bytes} : key ∈ c.entryKeys e ↔
      ∃ value l, Keycode.decode e.1 = .ok value ∧ c.acceptsValue e.1 value = .ok true ∧
        Index.decodeKeys c.codec e.2 = .ok l ∧ key ∈ l.keys := by
  unfold entryKeys
  constructor
  · intro h
    split at h
    next keys hx =>
      obtain ⟨value, met, hvalue, hmet, hif⟩ := (expand_index hscan).mp hx
      cases met with
      | true =>
        obtain ⟨l, hl, hkeys⟩ := hif
        cases hkeys
        exact ⟨value, l, hvalue, hmet, hl, h⟩
      | false => cases hif
    next => cases h
  · intro h
    obtain ⟨value, l, hvalue, hmet, hl, hkey⟩ := h
    have hx : c.expand e = .ok (.keys l.keys) :=
      (expand_index hscan).mpr ⟨value, true, hvalue, hmet, l, hl, rfl⟩
    rw [hx]
    exact hkey

/-- The keys that an entry brings are one list, if there are any. -/
theorem entryKeys_eq {c : Candidates κ ρ} (hscan : c.scan = .index ∨ c.scan = .sliceIndex)
    (e : Entry) : c.entryKeys e = [] ∨
      ∃ l, Index.decodeKeys c.codec e.2 = .ok l ∧ c.entryKeys e = l.keys := by
  unfold entryKeys
  split
  next keys hx =>
    obtain ⟨value, met, -, -, hif⟩ := (expand_index hscan).mp hx
    cases met with
    | true =>
      obtain ⟨l, hl, hkeys⟩ := hif
      cases hkeys
      exact .inr ⟨l, hl, rfl⟩
    | false => cases hif
  next => exact .inl rfl

omit [CustomKind κ] in
/-- Outside slice indexes every key with a record is picked. -/
theorem picks_of_ne {c : Candidates κ ρ} (hscan : c.scan ≠ .sliceIndex) (emitted : List Bytes) :
    ∀ keys : List Bytes, c.picks emitted keys = (keys.filterMap c.entryOf?, emitted)
  | [] => rfl
  | key :: keys => by
    unfold picks
    rw [decide_eq_false hscan, Bool.false_and, if_neg Bool.false_ne_true]
    simp only [hscan, if_false, picks_of_ne hscan emitted keys]
    rw [List.filterMap_cons]
    unfold entryOf?
    cases c.buckets.get? c.dataBucket key <;> rfl

omit [CustomKind κ] in
/-- The keys of what keys bring are those that have a record. -/
theorem keys_filterMap_sublist (c : Candidates κ ρ) (mark : Bool) : ∀ keys : List Bytes,
    (((keys.filterMap c.entryOf?).map (·, mark)).map (·.1.1)).Sublist keys
  | [] => List.Sublist.refl _
  | key :: keys => by
    have hrest := keys_filterMap_sublist c mark keys
    rw [List.filterMap_cons]
    cases he : c.entryOf? key with
    | none => exact hrest.cons key
    | some e =>
      have hkey : e.1 = key := (entryOf?_eq_some.mp he).1
      subst hkey
      exact hrest.cons_cons e.1

/-- A walk over a scalar index yields the records of the keys of each entry in turn. -/
theorem stream_index {c : Candidates κ ρ} (hscan : c.scan = .index) (emitted : List Bytes) :
    ∀ ahead : List Entry, c.stream emitted ahead = ahead.flatMap fun e =>
      ((c.entryKeys e).filterMap c.entryOf?).map (·, c.leavesUnchecked e.1)
  | [] => rfl
  | e :: rest => by
    have hne : c.scan ≠ .sliceIndex := by
      rw [hscan]
      decide
    have hrest := stream_index hscan emitted rest
    rw [stream, List.flatMap_cons, entryKeys]
    cases hx : c.expand e with
    | error err => exact hrest
    | ok x =>
      cases x with
      | candidate e' => exact absurd hx (expand_index_ne (.inl hscan) e e')
      | nothing => exact hrest
      | keys keys =>
        dsimp only
        rw [picks_of_ne hne, hrest]

/-! ## Slice indexes -/

omit [CustomKind κ] in
/-- A slice index picks the records of the keys that were not yielded before, each once. -/
theorem picks_slice {c : Candidates κ ρ} (hscan : c.scan = .sliceIndex) :
    ∀ (keys emitted : List Bytes),
      (∀ k, k ∈ (c.picks emitted keys).2 ↔ k ∈ emitted ∨ k ∈ keys) ∧
      (∀ e, e ∈ (c.picks emitted keys).1 ↔
        e.1 ∉ emitted ∧ e.1 ∈ keys ∧ c.buckets.get? c.dataBucket e.1 = some e.2) ∧
      ((c.picks emitted keys).1.map (·.1)).Nodup
  | [], emitted => by simp [picks]
  | key :: keys, emitted => by
    unfold picks
    by_cases hkey : key ∈ emitted
    · -- Yielded before: the key is passed over.
      obtain ⟨h₁, h₂, h₃⟩ := picks_slice hscan keys emitted
      rw [if_pos (by simp [hscan, hkey])]
      refine ⟨fun k => ?_, fun e => ?_, h₃⟩
      · rw [h₁, List.mem_cons]
        constructor
        · exact Or.imp_right .inr
        · rintro (hk | rfl | hk)
          · exact .inl hk
          · exact .inl hkey
          · exact .inr hk
      · rw [h₂, List.mem_cons]
        constructor
        · rintro ⟨hnot, hk, hget⟩
          exact ⟨hnot, .inr hk, hget⟩
        · rintro ⟨hnot, rfl | hk, hget⟩
          · exact absurd hkey hnot
          · exact ⟨hnot, hk, hget⟩
    · -- From now on the key counts as yielded, whether it has a record or not.
      obtain ⟨h₁, h₂, h₃⟩ := picks_slice hscan keys (key :: emitted)
      rw [if_neg (by simp [hkey]), if_pos hscan]
      dsimp only
      have hemitted : ∀ k, k ∈ (c.picks (key :: emitted) keys).2 ↔ k ∈ emitted ∨ k ∈ key :: keys := by
        intro k
        rw [h₁, List.mem_cons, List.mem_cons, or_assoc, or_left_comm]
      cases hget : c.buckets.get? c.dataBucket key with
      | none =>
        -- Without a record nothing is picked for it.
        refine ⟨hemitted, fun e => ?_, h₃⟩
        dsimp only
        rw [h₂, List.mem_cons, List.mem_cons, not_or]
        constructor
        · rintro ⟨⟨-, hnot⟩, hk, hrecord⟩
          exact ⟨hnot, .inr hk, hrecord⟩
        · rintro ⟨hnot, hk, hrecord⟩
          have hne : e.1 ≠ key := by
            intro heq
            rw [heq, hget] at hrecord
            cases hrecord
          exact ⟨⟨hne, hnot⟩, hk.resolve_left hne, hrecord⟩
      | some record =>
        -- Its record is picked now and, since the key is yielded, not again.
        refine ⟨hemitted, fun e => ?_, ?_⟩
        · dsimp only
          rw [List.mem_cons, h₂, List.mem_cons, List.mem_cons, not_or]
          constructor
          · rintro (rfl | ⟨⟨-, hnot⟩, hk, hrecord⟩)
            · exact ⟨hkey, .inl rfl, hget⟩
            · exact ⟨hnot, .inr hk, hrecord⟩
          · rintro ⟨hnot, hk, hrecord⟩
            by_cases heq : e.1 = key
            · rw [heq, hget] at hrecord
              cases hrecord
              exact .inl (Prod.ext heq rfl)
            · exact .inr ⟨⟨heq, hnot⟩, hk.resolve_left heq, hrecord⟩
        · rw [List.map_cons, List.nodup_cons]
          refine ⟨fun hmem => ?_, h₃⟩
          obtain ⟨e, he, heq⟩ := List.mem_map.mp hmem
          exact ((h₂ e).mp he).1 (heq ▸ List.mem_cons_self ..)

/-- A walk over a slice index yields the records of the keys of its entries that were not yielded
before, each once, and leaves none unchecked. -/
theorem stream_slice {c : Candidates κ ρ} (hscan : c.scan = .sliceIndex) :
    ∀ (ahead : List Entry) (emitted : List Bytes),
      (∀ x, x ∈ c.stream emitted ahead ↔ x.2 = false ∧ x.1.1 ∉ emitted ∧
        (∃ e ∈ ahead, x.1.1 ∈ c.entryKeys e) ∧
          c.buckets.get? c.dataBucket x.1.1 = some x.1.2) ∧
      ((c.stream emitted ahead).map (·.1.1)).Nodup
  | [], emitted => by simp [stream]
  | e :: rest, emitted => by
    have hmarks : ∀ code, c.leavesUnchecked code = false := by
      intro code
      unfold leavesUnchecked
      rw [hscan]
      simp
    -- An entry that brings no keys changes nothing.
    have hskip : c.entryKeys e = [] → c.stream emitted (e :: rest) = c.stream emitted rest →
        (∀ x, x ∈ c.stream emitted (e :: rest) ↔ x.2 = false ∧ x.1.1 ∉ emitted ∧
          (∃ e' ∈ e :: rest, x.1.1 ∈ c.entryKeys e') ∧
            c.buckets.get? c.dataBucket x.1.1 = some x.1.2) ∧
        ((c.stream emitted (e :: rest)).map (·.1.1)).Nodup := by
      intro hnone hsame
      obtain ⟨hmem, hnodup⟩ := stream_slice hscan rest emitted
      rw [hsame]
      refine ⟨fun x => ?_, hnodup⟩
      rw [hmem]
      simp only [List.mem_cons, exists_eq_or_imp, hnone, List.not_mem_nil, false_or]
    cases hx : c.expand e with
    | error err => exact hskip (by rw [entryKeys, hx]) (by rw [stream, hx])
    | ok x =>
      cases x with
      | candidate e' => exact absurd hx (expand_index_ne (.inr hscan) e e')
      | nothing => exact hskip (by rw [entryKeys, hx]) (by rw [stream, hx])
      | keys keys =>
        have hkeys : c.entryKeys e = keys := by rw [entryKeys, hx]
        have hstream : c.stream emitted (e :: rest) =
            (c.picks emitted keys).1.map (·, false) ++ c.stream (c.picks emitted keys).2 rest := by
          rw [stream, hx]
          dsimp only
          rw [hmarks]
        obtain ⟨hyielded, hpicked, hpicksNodup⟩ := picks_slice hscan keys emitted
        obtain ⟨hmem, hnodup⟩ := stream_slice hscan rest (c.picks emitted keys).2
        rw [hstream]
        constructor
        · intro x
          rw [List.mem_append, hmem, hyielded, List.mem_map]
          simp only [List.mem_cons, exists_eq_or_imp, hkeys]
          constructor
          · intro h
            rcases h with ⟨e', he', rfl⟩ | ⟨hmark, hnot, hrest, hget⟩
            · obtain ⟨hnot, hkey, hget⟩ := (hpicked e').mp he'
              exact ⟨rfl, hnot, .inl hkey, hget⟩
            · exact ⟨hmark, fun h => hnot (.inl h), .inr hrest, hget⟩
          · intro h
            obtain ⟨hmark, hnot, hkey, hget⟩ := h
            by_cases hhere : x.1.1 ∈ keys
            · exact .inl ⟨x.1, (hpicked x.1).mpr ⟨hnot, hhere, hget⟩, Prod.ext rfl hmark.symm⟩
            · refine .inr ⟨hmark, ?_, hkey.resolve_left hhere, hget⟩
              exact fun h => h.elim hnot hhere
        · rw [List.map_append, List.map_map, List.nodup_append]
          refine ⟨hpicksNodup, hnodup, fun a ha b hb hab => ?_⟩
          -- What this entry brings counts as yielded for the entries behind it.
          obtain ⟨e', he', rfl⟩ := List.mem_map.mp ha
          obtain ⟨x, hx', rfl⟩ := List.mem_map.mp hb
          obtain ⟨-, hkey, -⟩ := (hpicked e').mp he'
          have hnot := ((hmem x).mp hx').2.1
          refine hnot ((hyielded x.1.1).mpr (.inr ?_))
          rw [← hab]
          exact hkey

end RecordStore.Candidates
