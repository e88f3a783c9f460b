import RecordStore.View
import RecordStore.Proofs.Step
import Mathlib

/-!
# The candidates of a walk as a list

A walk yields its candidates in batches, and its state says which were fetched and which entries are
still ahead. `pending` is the list of all that it still has to yield, each with whether the caller
has to check it: yielding takes off the first of the list (`next_some`), whatever the batch size. So
going through the candidates comes down to a recursion on that list (`drain_sift`). If it ends well
and has asked for more to the end, every entry could be told; and if every entry can be told it ends
as the recursion does (`drain_of_sift`).
-/

namespace RecordStore.Candidates

variable {κ ρ : Type} [CustomKind κ]

/-! ## The list of what is to come -/

omit [CustomKind κ] in
/-- The records of keys, and the keys that a slice index has yielded by then. -/
def picks (c : Candidates κ ρ) (emitted : List Bytes) : List Bytes → List Entry × List Bytes
  | [] => ([], emitted)
  | key :: keys =>
    if c.scan = .sliceIndex && emitted.contains key then c.picks emitted keys
    else
      let emitted := if c.scan = .sliceIndex then key :: emitted else emitted
      let (items, emitted) := c.picks emitted keys
      match c.buckets.get? c.dataBucket key with
      | some record => ((key, record) :: items, emitted)
      | none => (items, emitted)

/-- The candidates that entries stand for, with whether they are left unchecked. An entry that
cannot be told stands for none. -/
def stream (c : Candidates κ ρ) (emitted : List Bytes) : List Entry → List (Entry × Bool)
  | [] => []
  | e :: rest =>
    match c.expand e with
    | .error _ => c.stream emitted rest
    | .ok (.candidate e) => (e, false) :: c.stream emitted rest
    | .ok .nothing => c.stream emitted rest
    | .ok (.keys keys) =>
      (c.picks emitted keys).1.map (·, c.leavesUnchecked e.1) ++
        c.stream (c.picks emitted keys).2 rest

/-- All that a walk has still to yield. -/
def pending (c : Candidates κ ρ) : List (Entry × Bool) :=
  c.cache.map (fun e => (e, c.unchecked.contains e.1)) ++ c.stream c.emitted c.ahead

/-- An entry can be told. -/
def Tells (c : Candidates κ ρ) (e : Entry) : Prop := ∃ x, c.expand e = .ok x

/-- Two states of one walk: all that does not change on the way is the same. -/
structure SameWalk (c c' : Candidates κ ρ) : Prop where
  buckets : c'.buckets = c.buckets
  dataBucket : c'.dataBucket = c.dataBucket
  scan : c'.scan = c.scan
  criteria : c'.criteria = c.criteria
  codec : c'.codec = c.codec
  batchSize : c'.batchSize = c.batchSize

omit [CustomKind κ] in
theorem SameWalk.refl (c : Candidates κ ρ) : SameWalk c c := ⟨rfl, rfl, rfl, rfl, rfl, rfl⟩

omit [CustomKind κ] in
theorem SameWalk.trans {c c' c'' : Candidates κ ρ} (h : SameWalk c c') (h' : SameWalk c' c'') :
    SameWalk c c'' :=
  ⟨h'.1.trans h.1, h'.2.trans h.2, h'.3.trans h.3, h'.4.trans h.4, h'.5.trans h.5, h'.6.trans h.6⟩

/-- What an entry stands for is the same in all states of a walk. -/
theorem SameWalk.expand {c c' : Candidates κ ρ} (h : SameWalk c c') (e : Entry) :
    c'.expand e = c.expand e := by
  have haccepts : ∀ (code : Bytes) (value : Value κ),
      c'.acceptsValue code value = c.acceptsValue code value := by
    intro code value
    unfold acceptsValue
    rw [h.scan, h.criteria]
  unfold Candidates.expand
  simp only [h.scan, h.criteria, h.codec, haccepts]

theorem SameWalk.tells {c c' : Candidates κ ρ} (h : SameWalk c c') {e : Entry} :
    c'.Tells e ↔ c.Tells e := by
  unfold Tells
  rw [h.expand]

omit [CustomKind κ] in
theorem SameWalk.leavesUnchecked {c c' : Candidates κ ρ} (h : SameWalk c c') (code : Bytes) :
    c'.leavesUnchecked code = c.leavesUnchecked code := by
  unfold Candidates.leavesUnchecked
  rw [h.scan, h.criteria]

omit [CustomKind κ] in
theorem SameWalk.picks {c c' : Candidates κ ρ} (h : SameWalk c c') :
    ∀ (emitted keys : List Bytes), c'.picks emitted keys = c.picks emitted keys
  | emitted, [] => rfl
  | emitted, key :: keys => by
    unfold Candidates.picks
    simp only [h.scan, h.buckets, h.dataBucket, SameWalk.picks h _ keys]

theorem SameWalk.stream {c c' : Candidates κ ρ} (h : SameWalk c c') :
    ∀ (emitted : List Bytes) (ahead : List Entry),
      c'.stream emitted ahead = c.stream emitted ahead
  | emitted, [] => rfl
  | emitted, e :: rest => by
    unfold Candidates.stream
    simp only [h.expand, h.picks, h.leavesUnchecked, SameWalk.stream h _ rest]

/-! ## Fetching -/

omit [CustomKind κ] in
/-- Fetching the records of keys appends what they stand for, and marks it if it is to be
checked. -/
theorem fetch_spec (unchecked : Bool) :
    ∀ (c : Candidates κ ρ) (keys : List Bytes),
      SameWalk c (c.fetch unchecked keys).1 ∧
      (c.fetch unchecked keys).1.error = c.error ∧
      (c.fetch unchecked keys).1.cache = c.cache ++ (c.picks c.emitted keys).1 ∧
      (c.fetch unchecked keys).1.emitted = (c.picks c.emitted keys).2 ∧
      ∀ k, k ∈ (c.fetch unchecked keys).1.unchecked ↔
        k ∈ c.unchecked ∨ unchecked = true ∧ ∃ e ∈ (c.picks c.emitted keys).1, e.1 = k
  | c, [] => by
    refine ⟨SameWalk.refl c, rfl, by simp [fetch, picks], rfl, fun k => ?_⟩
    simp [fetch, picks]
  | c, key :: keys => by
    unfold fetch picks
    split
    -- A slice index that has yielded the key before passes it over.
    next hskip => exact fetch_spec unchecked c keys
    next =>
      -- The state after the key is counted as yielded, if it is.
      generalize hc₁ : (if c.scan = .sliceIndex then { c with emitted := key :: c.emitted } else c)
        = c₁
      have hsame : SameWalk c c₁ := by
        subst hc₁
        split <;> exact ⟨rfl, rfl, rfl, rfl, rfl, rfl⟩
      have hemitted : c₁.emitted =
          if c.scan = .sliceIndex then key :: c.emitted else c.emitted := by
        subst hc₁
        split <;> rfl
      have hrest : c₁.error = c.error ∧ c₁.cache = c.cache ∧ c₁.unchecked = c.unchecked := by
        subst hc₁
        split <;> exact ⟨rfl, rfl, rfl⟩
      obtain ⟨herror, hcache, hmarks⟩ := hrest
      have hget : c₁.buckets.get? c₁.dataBucket key = c.buckets.get? c.dataBucket key := by
        rw [hsame.buckets, hsame.dataBucket]
      dsimp only
      rw [hget, ← hemitted]
      cases c.buckets.get? c.dataBucket key with
      | none =>
        -- A key without a record brings nothing, but counts as yielded.
        obtain ⟨h₁, h₂, h₃, h₄, h₅⟩ := fetch_spec unchecked c₁ keys
        rw [hsame.picks] at h₃ h₄ h₅
        rw [hcache] at h₃
        rw [hmarks] at h₅
        exact ⟨hsame.trans h₁, h₂.trans herror, h₃, h₄, h₅⟩
      | some record =>
        dsimp only
        obtain ⟨h₁, h₂, h₃, h₄, h₅⟩ := fetch_spec unchecked
          { c₁ with cache := c₁.cache ++ [(key, record)],
                    unchecked := if unchecked then key :: c₁.unchecked else c₁.unchecked } keys
        have hsame' : SameWalk c
            { c₁ with cache := c₁.cache ++ [(key, record)],
                      unchecked := if unchecked then key :: c₁.unchecked else c₁.unchecked } :=
          ⟨hsame.1, hsame.2, hsame.3, hsame.4, hsame.5, hsame.6⟩
        rw [hsame'.picks] at h₃ h₄ h₅
        refine ⟨hsame'.trans h₁, h₂.trans herror, ?_, h₄, fun k => ?_⟩
        · rw [h₃, hcache, List.append_assoc]
          rfl
        · rw [h₅ k]
          cases unchecked with
          | true =>
            simp only [if_true, hmarks, List.mem_cons, true_and, exists_eq_or_imp]
            rw [or_assoc, or_left_comm, @eq_comm _ k key]
          | false => simp only [if_false, hmarks, Bool.false_eq_true, false_and]

/-- What a batch leaves: it has used up the first of the entries, all of which can be told, and has
moved what they stand for into the cache, with its marks, whatever comes behind them. -/
structure Filled (c c' : Candidates κ ρ) (passed : List Entry) (items : List (Entry × Bool)) :
    Prop where
  same : SameWalk c c'
  cache : c'.cache = c.cache ++ items.map (·.1)
  stream : ∀ rest, c.stream c.emitted (passed ++ rest) = items ++ c'.stream c'.emitted rest
  marks : ∀ k, k ∈ c'.unchecked ↔ k ∈ c.unchecked ∨ ∃ e, (e, true) ∈ items ∧ e.1 = k
  told : ∀ e ∈ passed, c.Tells e
  ended : c'.ahead = [] ∨ c.batchSize ≤ c'.cache.length

/-- Without room or without entries a batch leaves all as it was. -/
theorem filled_nothing {c : Candidates κ ρ} {ahead : List Entry}
    (hended : ahead = [] ∨ c.batchSize ≤ c.cache.length) : Filled c { c with ahead } [] [] := by
  have hsame : SameWalk c { c with ahead } := ⟨rfl, rfl, rfl, rfl, rfl, rfl⟩
  refine ⟨hsame, (List.append_nil _).symm, fun rest => (hsame.stream c.emitted rest).symm,
    fun k => ?_, by simp, hended⟩
  simp

/-- What one entry leaves that can be told: what it stands for is in the cache, with its marks. -/
structure Takes (c c₁ : Candidates κ ρ) (e : Entry) (items : List (Entry × Bool)) : Prop where
  told : c.Tells e
  same : SameWalk c c₁
  cache : c₁.cache = c.cache ++ items.map (·.1)
  stream : ∀ rest, c.stream c.emitted (e :: rest) = items ++ c.stream c₁.emitted rest
  marks : ∀ k, k ∈ c₁.unchecked ↔ k ∈ c.unchecked ∨ ∃ e, (e, true) ∈ items ∧ e.1 = k

/-- An entry that is a candidate itself is cached as it is, without a mark. -/
theorem takes_candidate {c : Candidates κ ρ} {e e' : Entry} (h : c.expand e = .ok (.candidate e')) :
    c.Takes { c with cache := c.cache ++ [e'] } e [(e', false)] := by
  refine ⟨⟨_, h⟩, ⟨rfl, rfl, rfl, rfl, rfl, rfl⟩, rfl, fun rest => ?_, fun k => by simp⟩
  rw [stream, h]
  rfl

/-- An entry that stands for no candidate changes nothing. -/
theorem takes_nothing {c : Candidates κ ρ} {e : Entry} (h : c.expand e = .ok .nothing) :
    c.Takes c e [] := by
  refine ⟨⟨_, h⟩, .refl c, (List.append_nil _).symm, fun rest => ?_, fun k => by simp⟩
  rw [stream, h]
  rfl

/-- An entry that stands for keys has their records fetched, which are all to be checked or none. -/
theorem takes_keys {c : Candidates κ ρ} {e : Entry} {keys : List Bytes}
    (h : c.expand e = .ok (.keys keys)) :
    c.Takes (c.fetch (c.leavesUnchecked e.1) keys).1 e
      ((c.picks c.emitted keys).1.map (·, c.leavesUnchecked e.1)) := by
  obtain ⟨hsame, -, hcache, hemitted, hmarks⟩ := fetch_spec (c.leavesUnchecked e.1) c keys
  refine ⟨⟨_, h⟩, hsame, ?_, fun rest => ?_, fun k => ?_⟩
  · rw [hcache, List.map_map]
    simp [Function.comp_def]
  · rw [stream, h, hemitted]
  · rw [hmarks]
    refine or_congr_right ?_
    simp only [List.mem_map, Prod.mk.injEq]
    constructor
    · rintro ⟨hu, e', he', rfl⟩
      exact ⟨e', ⟨e', he', rfl, hu⟩, rfl⟩
    · rintro ⟨e', ⟨e'', he'', rfl, hu⟩, rfl⟩
      exact ⟨hu, e'', he'', rfl⟩

/-- A batch after an entry is a batch with the entry. -/
theorem Takes.filled {c c₁ c' : Candidates κ ρ} {e : Entry} {passed : List Entry}
    {items items' : List (Entry × Bool)} (ht : c.Takes c₁ e items) (h : Filled c₁ c' passed items') :
    Filled c c' (e :: passed) (items ++ items') where
  same := ht.same.trans h.same
  cache := by rw [h.cache, ht.cache, List.map_append, List.append_assoc]
  stream rest := by rw [List.cons_append, ht.stream, ← ht.same.stream, h.stream, List.append_assoc]
  marks k := by
    rw [h.marks, ht.marks, or_assoc]
    simp only [List.mem_append, or_and_right, exists_or]
  told := List.forall_mem_cons.mpr ⟨ht.told, fun e' he' => ht.same.tells.mp (h.told e' he')⟩
  ended := ht.same.batchSize ▸ h.ended

/-- A batch that meets no error has used up the first entries ahead, one after the other. -/
theorem filled_fill : ∀ (c : Candidates κ ρ) (ahead : List Entry),
    (c.fill ahead).1.error = none →
      ∃ passed items, ahead = passed ++ (c.fill ahead).1.ahead ∧ Filled c (c.fill ahead).1 passed items
  | c, [], _ => ⟨[], [], rfl, filled_nothing (.inl rfl)⟩
  | c, e :: rest, herror => by
    unfold fill at herror ⊢
    by_cases hroom : c.cache.length < c.batchSize
    · rw [if_pos hroom] at herror ⊢
      -- The batch after the entry goes on from what the entry leaves.
      have hgoes : ∀ {c₁ : Candidates κ ρ} {items : List (Entry × Bool)}, c.Takes c₁ e items →
          (∃ passed items', rest = passed ++ (c₁.fill rest).1.ahead ∧
            Filled c₁ (c₁.fill rest).1 passed items') →
          ∃ passed items', e :: rest = passed ++ (c₁.fill rest).1.ahead ∧
            Filled c (c₁.fill rest).1 passed items' := by
        rintro c₁ items htakes ⟨passed, items', hsplit, h⟩
        exact ⟨e :: passed, items ++ items', congrArg (e :: ·) hsplit, htakes.filled h⟩
      cases hx : c.expand e with
      | error err =>
        -- An entry that cannot be told ends the batch with its error.
        rw [hx] at herror
        cases herror
      | ok x =>
        rw [hx] at herror
        cases x with
        | candidate e' => exact hgoes (takes_candidate hx) (filled_fill _ rest herror)
        | nothing => exact hgoes (takes_nothing hx) (filled_fill c rest herror)
        | keys keys => exact hgoes (takes_keys hx) (filled_fill _ rest herror)
    · rw [if_neg hroom]
      exact ⟨[], [], rfl, filled_nothing (.inr (Nat.le_of_not_lt hroom))⟩

/-! ## Yielding -/

/-- The keys of what a walk has still to yield. -/
def pendingKeys (c : Candidates κ ρ) : List Bytes := c.pending.map (·.1.1)

/-- Two candidates are of different keys, unless neither has to be checked. -/
def Apart (x y : Entry × Bool) : Prop := x.1.1 = y.1.1 → x.2 = false ∧ y.2 = false

instance : Std.Symm Apart where
  symm _ _ h := fun hkey => (h hkey.symm).symm

/-- A walk in good order: no error was met, a batch has room, a key that has to be checked comes once,
and no mark is on a key that was not fetched yet. -/
structure Orderly (c : Candidates κ ρ) : Prop where
  error : c.error = none
  room : 1 ≤ c.batchSize
  apart : c.pending.Pairwise Apart
  unmarked : ∀ k ∈ c.unchecked, k ∉ (c.stream c.emitted c.ahead).map (·.1.1)

/-- A walk in good order in which no key comes twice at all. -/
structure Sound (c : Candidates κ ρ) : Prop where
  error : c.error = none
  room : 1 ≤ c.batchSize
  nodup : c.pendingKeys.Nodup
  unmarked : ∀ k ∈ c.unchecked, k ∉ (c.stream c.emitted c.ahead).map (·.1.1)

theorem apart_of_nodup {items : List (Entry × Bool)} (h : (items.map (·.1.1)).Nodup) :
    items.Pairwise Apart :=
  (List.pairwise_map.mp h).imp fun hne hkey => absurd hkey hne

theorem Sound.orderly {c : Candidates κ ρ} (hc : c.Sound) : c.Orderly :=
  ⟨hc.error, hc.room, apart_of_nodup hc.nodup, hc.unmarked⟩

/-- If what is yielded first has to be checked then its key does not come again. -/
theorem Orderly.rest {c c' : Candidates κ ρ} {x : Entry × Bool} (hc : c.Orderly)
    (h : c.pending = x :: c'.pending) :
    (x.2 = true → x.1.1 ∉ c'.pendingKeys) ∧ c'.pending.Pairwise Apart := by
  have hapart := hc.apart
  rw [h, List.pairwise_cons] at hapart
  refine ⟨fun hcheck hmem => ?_, hapart.2⟩
  obtain ⟨y, hy, hkey⟩ := List.mem_map.mp hmem
  have hnone := (hapart.1 y hy hkey.symm).1
  rw [hcheck] at hnone
  cases hnone

/-- A batch changes nothing about what is to come. -/
theorem orderly_fill {c c' : Candidates κ ρ} {events : List Event} (hc : c.Orderly)
    (hempty : c.cache = []) (hfill : c.fill c.ahead = (c', events)) (herror : c'.error = none) :
    c'.Orderly ∧ c'.pending = c.pending ∧ SameWalk c c' ∧ (∀ e ∈ c.ahead, e ∈ c'.ahead ∨ c.Tells e) ∧
      (c'.cache = [] → c'.ahead = []) := by
  obtain ⟨passed, items, hsplit, h⟩ := filled_fill c c.ahead (by rw [hfill]; exact herror)
  rw [hfill] at hsplit h
  have hstream : c.stream c.emitted c.ahead = items ++ c'.stream c'.emitted c'.ahead := by
    rw [hsplit]
    exact h.stream c'.ahead
  have hapart := hc.apart
  unfold pending at hapart
  rw [hempty, List.map_nil, List.nil_append, hstream] at hapart
  obtain ⟨hitems, -, hdisjoint⟩ := List.pairwise_append.mp hapart
  -- The mark of a fetched key is the one it was fetched with.
  have hmark : ∀ e u, (e, u) ∈ items → c'.unchecked.contains e.1 = u := by
    intro e u he
    have hold : e.1 ∉ c.unchecked := by
      intro hk
      refine hc.unmarked e.1 hk ?_
      rw [hstream, List.map_append]
      exact List.mem_append_left _ (List.mem_map_of_mem (f := fun x => x.1.1) he)
    cases u with
    | true => exact List.contains_iff_mem.mpr ((h.marks e.1).mpr (.inr ⟨e, he, rfl⟩))
    | false =>
      rw [← Bool.not_eq_true, List.contains_iff_mem, h.marks]
      rintro (hk | ⟨e', he', hkey⟩)
      · exact hold hk
      · have hne : ((e, false) : Entry × Bool) ≠ (e', true) := by simp
        have hsome := (hitems.forall he he' hne hkey.symm).2
        cases hsome
  have hpending : c'.pending = c.pending := by
    have hcache : c'.cache.map (fun e => (e, c'.unchecked.contains e.1)) = items := by
      rw [h.cache, hempty, List.nil_append, List.map_map]
      refine (List.map_congr_left (g := id) fun (e, u) he => ?_).trans (List.map_id items)
      show (e, c'.unchecked.contains e.1) = (e, u)
      rw [hmark e u he]
    unfold pending
    rw [hcache, hempty, hstream]
    rfl
  refine ⟨⟨herror, h.same.batchSize ▸ hc.room, hpending ▸ hc.apart, fun k hk hmem => ?_⟩,
    hpending, h.same, fun e he => ?_, fun hnone => ?_⟩
  · rcases (h.marks k).mp hk with hk | ⟨e, he, rfl⟩
    · refine hc.unmarked k hk ?_
      rw [hstream, List.map_append]
      exact List.mem_append_right _ hmem
    · obtain ⟨x, hx, hkey⟩ := List.mem_map.mp hmem
      cases (hdisjoint _ he x hx hkey.symm).1
  · rw [hsplit, List.mem_append] at he
    exact he.symm.imp_right (h.told e)
  · rcases h.ended with hended | hfull
    · exact hended
    · have hroom := hc.room
      rw [hnone, List.length_nil] at hfull
      omega

/-- Nothing is yielded of a batch that meets an error. -/
theorem cache_fill_of_error : ∀ (c : Candidates κ ρ) (ahead : List Entry), c.error = none →
    (c.fill ahead).1.error = none ∨ (c.fill ahead).1.cache = []
  | c, [], hc => .inl hc
  | c, e :: rest, hc => by
    unfold fill
    split
    next =>
      split
      next => exact .inr rfl
      next => exact cache_fill_of_error _ rest hc
      next => exact cache_fill_of_error _ rest hc
      next keys _ =>
        refine cache_fill_of_error _ rest ?_
        rw [(fetch_spec _ c keys).2.1]
        exact hc
    next => exact .inl hc

/-- At its end, without an error, a walk has nothing more to yield. -/
theorem next_none {c c' : Candidates κ ρ} {events : List Event} (hc : c.Orderly)
    (h : c.next = (none, c', events)) (herror : c'.error = none) :
    c.pending = [] ∧ ∀ e ∈ c.ahead, c.Tells e := by
  unfold next at h
  rw [hc.error] at h
  by_cases hempty : c.cache = []
  · rw [hempty] at h
    rcases hfill : c.fill c.ahead with ⟨c₁, events₁⟩
    simp only [hfill, Option.isSome_none, Bool.false_eq_true, if_false, List.isEmpty_nil,
      if_true] at h
    split at h
    next hnone =>
      -- A batch that brings nothing has come to the end of the entries.
      cases h
      obtain ⟨-, hpending, -, htold, hended⟩ := orderly_fill hc hempty hfill herror
      have hahead := hended hnone
      refine ⟨?_, fun e he => ?_⟩
      · rw [← hpending, pending, hnone, hahead]
        rfl
      · rcases htold e he with he | he
        · rw [hahead] at he
          cases he
        · exact he
    next => cases h
  · obtain ⟨e, rest, hcache⟩ := List.exists_cons_of_ne_nil hempty
    simp [hcache] at h

/-- Yielding takes off the first of what is to come, and the mark tells whether it has to be
checked. -/
theorem next_some {c c' : Candidates κ ρ} {e : Entry} {events : List Event} (hc : c.Orderly)
    (h : c.next = (some e, c', events)) :
    c'.Orderly ∧ c.pending = (e, c'.unchecked.contains e.1) :: c'.pending ∧ SameWalk c c' ∧
      ∀ e ∈ c.ahead, e ∈ c'.ahead ∨ c.Tells e := by
  -- From a state that has fetched something, its first is yielded.
  have hyield : ∀ (c₁ : Candidates κ ρ) (rest : List Entry), c₁.Orderly → c₁.cache = e :: rest →
      c' = { c₁ with cache := rest } →
      c'.Orderly ∧ c₁.pending = (e, c'.unchecked.contains e.1) :: c'.pending ∧ SameWalk c₁ c' := by
    intro c₁ rest hc₁ hcache hc'
    have hsame : SameWalk c₁ c' := hc' ▸ ⟨rfl, rfl, rfl, rfl, rfl, rfl⟩
    have hpending : c₁.pending = (e, c'.unchecked.contains e.1) :: c'.pending := by
      subst hc'
      unfold pending
      rw [hcache, hsame.stream]
      rfl
    refine ⟨⟨?_, ?_, (hc₁.rest hpending).2, fun k hk => ?_⟩, hpending, hsame⟩
    · rw [hc']
      exact hc₁.error
    · rw [hsame.batchSize]
      exact hc₁.room
    · rw [hsame.stream]
      subst hc'
      exact hc₁.unmarked k hk
  unfold next at h
  rw [hc.error] at h
  by_cases hempty : c.cache = []
  · rw [hempty] at h
    rcases hfill : c.fill c.ahead with ⟨c₁, events₁⟩
    simp only [hfill, Option.isSome_none, Bool.false_eq_true, if_false, List.isEmpty_nil,
      if_true] at h
    split at h
    next => cases h
    next e' rest hcache =>
      cases h
      have herror : c₁.error = none := by
        have hor := cache_fill_of_error c c.ahead hc.error
        rw [hfill] at hor
        refine hor.resolve_right ?_
        rw [hcache]
        exact List.cons_ne_nil _ _
      obtain ⟨hc₁, hpending, hsame, htold, -⟩ := orderly_fill hc hempty hfill herror
      obtain ⟨hc', hpending', hsame'⟩ := hyield c₁ rest hc₁ hcache rfl
      exact ⟨hc', hpending ▸ hpending', hsame.trans hsame', htold⟩
  · obtain ⟨e', rest, hcache⟩ := List.exists_cons_of_ne_nil hempty
    simp only [hcache, Option.isSome_none, Bool.false_eq_true, if_false, List.isEmpty_cons,
      Prod.mk.injEq, Option.some.injEq] at h
    obtain ⟨rfl, hnext, -⟩ := h
    obtain ⟨hc', hpending, hsame⟩ := hyield c rest hc hcache hnext.symm
    exact ⟨hc', hpending, hsame, fun e he => .inl (hnext ▸ he)⟩

/-- A batch meets no error among entries that can be told. -/
theorem fill_of_tells : ∀ (c : Candidates κ ρ) (ahead : List Entry), c.error = none →
    (∀ e ∈ ahead, c.Tells e) →
      (c.fill ahead).1.error = none ∧ ∀ e ∈ (c.fill ahead).1.ahead, e ∈ ahead
  | c, [], hc, _ => ⟨hc, fun e he => he⟩
  | c, e :: rest, hc, htells => by
    obtain ⟨x, hx⟩ := htells e (List.mem_cons_self ..)
    have hgo : ∀ c₁ : Candidates κ ρ, SameWalk c c₁ → c₁.error = none →
        (c₁.fill rest).1.error = none ∧ ∀ e' ∈ (c₁.fill rest).1.ahead, e' ∈ e :: rest := by
      intro c₁ hsame hc₁
      obtain ⟨herror, hahead⟩ := fill_of_tells c₁ rest hc₁ fun e' he' =>
        hsame.tells.mpr (htells e' (List.mem_cons_of_mem _ he'))
      exact ⟨herror, fun e' he' => List.mem_cons_of_mem _ (hahead e' he')⟩
    unfold fill
    rw [hx]
    split
    next =>
      cases x with
      | candidate e' => exact hgo _ ⟨rfl, rfl, rfl, rfl, rfl, rfl⟩ hc
      | nothing => exact hgo c (.refl c) hc
      | keys keys =>
        obtain ⟨hsame, herror, -⟩ := fetch_spec (c.leavesUnchecked e.1) c keys
        exact hgo _ hsame (herror.trans hc)
    next => exact ⟨hc, fun e' he' => he'⟩

/-- As long as every entry can be told, no error is met and none is added to what is ahead. -/
theorem next_of_tells {c c' : Candidates κ ρ} {e? : Option Entry} {events : List Event}
    (hc : c.error = none) (htells : ∀ e ∈ c.ahead, c.Tells e) (h : c.next = (e?, c', events)) :
    c'.error = none ∧ ∀ e ∈ c'.ahead, e ∈ c.ahead := by
  have hfill := fill_of_tells c c.ahead hc htells
  have hnext : c'.error = c.next.2.1.error ∧ c'.ahead = c.next.2.1.ahead := by
    rw [h]
    exact ⟨rfl, rfl⟩
  rw [hnext.1, hnext.2]
  unfold next
  rw [hc]
  by_cases hempty : c.cache = []
  · simp only [hempty, Option.isSome_none, Bool.false_eq_true, if_false, List.isEmpty_nil, if_true]
    split
    next => exact hfill
    next => exact hfill
  · obtain ⟨e, rest, hcache⟩ := List.exists_cons_of_ne_nil hempty
    simp only [hcache, Option.isSome_none, Bool.false_eq_true, if_false, List.isEmpty_cons]
    exact ⟨hc, fun e' he' => he'⟩

/-- Taking the mark off a key that does not come again changes nothing about what is to come. -/
theorem orderly_takeUnchecked {c : Candidates κ ρ} {key : Bytes} (hc : c.Orderly)
    (hkey : c.unchecked.contains key = true → key ∉ c.pendingKeys) :
    (c.takeUnchecked key).2.Orderly ∧ (c.takeUnchecked key).2.pending = c.pending ∧
      SameWalk c (c.takeUnchecked key).2 := by
  have hsame : SameWalk c (c.takeUnchecked key).2 := ⟨rfl, rfl, rfl, rfl, rfl, rfl⟩
  have hpending : (c.takeUnchecked key).2.pending = c.pending := by
    unfold pending
    rw [hsame.stream]
    refine congrArg (· ++ _) (List.map_congr_left fun e he => Prod.ext rfl ?_)
    show (c.unchecked.filter (· != key)).contains e.1 = c.unchecked.contains e.1
    rw [Bool.eq_iff_iff, List.contains_iff_mem, List.contains_iff_mem, List.mem_filter]
    refine and_iff_left_of_imp fun hmark => bne_iff_ne.mpr ?_
    rintro rfl
    refine hkey (List.contains_iff_mem.mpr hmark) ?_
    unfold pendingKeys pending
    rw [List.map_append, List.map_map]
    exact List.mem_append_left _ (List.mem_map_of_mem he)
  refine ⟨⟨hc.error, hc.room, hpending ▸ hc.apart, fun k hk => ?_⟩, hpending, hsame⟩
  rw [hsame.stream]
  exact hc.unmarked k (List.mem_filter.mp hk).1

end RecordStore.Candidates

namespace RecordStore.View

variable {σ κ ρ : Type} [CustomKind κ]

/-! ## Going through the list -/

/-- Takes one candidate: offers it if it meets the criteria and was not selected before. -/
def consider (v : View κ ρ) (t : Term κ ρ) (plan : Plan) (sink : Sink σ κ ρ) (e : Entry)
    (recheck : Bool) : Step (Delivery σ) Demand := do
  if (← Step.get).hasSeen e.1 then pure .more
  else
    let key : Value κ ← Keycode.decode e.1
    let record ← v.decode e.2
    if ← v.meets plan key record recheck t.criteria.toList then
      Delivery.offer sink ⟨key, record, e.1⟩
    else pure .more

/-- Takes listed candidates one after the other until no more rows are wanted. -/
def sift (v : View κ ρ) (t : Term κ ρ) (plan : Plan) (sink : Sink σ κ ρ) :
    List (Entry × Bool) → Step (Delivery σ) Demand
  | [] => pure .more
  | (e, recheck) :: rest => do
    match ← v.consider t plan sink e recheck with
    | .enough => pure .enough
    | .more => v.sift t plan sink rest

/-- Sifting takes the first candidate and goes on, unless that was enough. -/
theorem ends_sift_cons {v : View κ ρ} {t : Term κ ρ} {plan : Plan} {sink : Sink σ κ ρ} {e : Entry}
    {recheck : Bool} {rest : List (Entry × Bool)} {d d' : Delivery σ} {demand : Demand} :
    (v.sift t plan sink ((e, recheck) :: rest)).Ends d demand d' ↔
      (v.consider t plan sink e recheck).Ends d .enough d' ∧ demand = .enough ∨
        ∃ d₁, (v.consider t plan sink e recheck).Ends d .more d₁ ∧
          (v.sift t plan sink rest).Ends d₁ demand d' := by
  rw [sift, Step.ends_bind]
  constructor
  · rintro ⟨_ | _, d₁, hconsider, h⟩
    · exact .inr ⟨d₁, hconsider, h⟩
    · obtain ⟨rfl, rfl⟩ := Step.ends_pure.mp h
      exact .inl ⟨hconsider, rfl⟩
  · rintro (⟨hconsider, rfl⟩ | ⟨d₁, hconsider, h⟩)
    · exact ⟨.enough, d', hconsider, Step.ends_pure.mpr ⟨rfl, rfl⟩⟩
    · exact ⟨.more, d₁, hconsider, h⟩

/-- A candidate that was selected before is passed over; another is decoded, tested, and offered if it
meets the criteria. -/
theorem ends_consider {v : View κ ρ} {t : Term κ ρ} {plan : Plan} {sink : Sink σ κ ρ} {e : Entry}
    {recheck : Bool} {d d' : Delivery σ} {demand : Demand} :
    (v.consider t plan sink e recheck).Ends d demand d' ↔
      if d.hasSeen e.1 then demand = .more ∧ d' = d
      else ∃ key record met, Keycode.decode e.1 = .ok key ∧ v.decode e.2 = .ok record ∧
        (v.meets plan key record recheck t.criteria.toList).result = .ok met ∧
        if met then (Delivery.offer sink ⟨key, record, e.1⟩).Ends d demand d'
        else demand = .more ∧ d' = d := by
  unfold consider
  rw [Step.ends_get_bind]
  split
  next => exact Step.ends_pure
  next =>
    simp only [Step.ends_liftExcept_bind, Step.ends_liftTraced_bind]
    constructor
    · rintro ⟨key, hkey, record, hrecord, met, hmet, h⟩
      refine ⟨key, record, met, hkey, hrecord, hmet, ?_⟩
      cases met with
      | true => exact h
      | false => exact Step.ends_pure.mp h
    · rintro ⟨key, record, met, hkey, hrecord, hmet, h⟩
      refine ⟨key, hkey, record, hrecord, met, hmet, ?_⟩
      cases met with
      | true => exact h
      | false => exact Step.ends_pure.mpr h

/-- At the end of a walk there is nothing more to take. -/
theorem ends_drain_none {v : View κ ρ} {t : Term κ ρ} {plan : Plan} {sink : Sink σ κ ρ}
    {c c' : Candidates κ ρ} {events : List Event} {d d' : Delivery σ} {demand : Demand}
    (hnext : c.next = (none, c', events)) :
    (v.drain t plan sink c).Ends d demand d' ↔ c'.error = none ∧ demand = .more ∧ d' = d := by
  unfold drain
  split
  next c₁ events₁ hnext₁ =>
    rw [hnext] at hnext₁
    cases hnext₁
    rw [Step.ends_liftTraced_bind]
    constructor
    · rintro ⟨_, -, h⟩
      split at h
      next => exact absurd h Step.ends_fail
      next herror => exact ⟨herror, Step.ends_pure.mp h⟩
    · rintro ⟨herror, h⟩
      refine ⟨(), rfl, ?_⟩
      rw [herror]
      exact Step.ends_pure.mpr h
  next rawKey bytes c₁ events₁ hnext₁ =>
    rw [hnext] at hnext₁
    cases hnext₁

/-- Otherwise its first candidate is considered, with its mark, unless its key was selected before. -/
theorem ends_drain_some {v : View κ ρ} {t : Term κ ρ} {plan : Plan} {sink : Sink σ κ ρ}
    {c c' : Candidates κ ρ} {e : Entry} {events : List Event} {d d' : Delivery σ} {demand : Demand}
    (hnext : c.next = (some e, c', events)) :
    (v.drain t plan sink c).Ends d demand d' ↔
      if d.hasSeen e.1 then (v.drain t plan sink c').Ends d demand d'
      else
        (v.consider t plan sink e (c'.takeUnchecked e.1).1).Ends d .enough d' ∧ demand = .enough ∨
        ∃ d₁, (v.consider t plan sink e (c'.takeUnchecked e.1).1).Ends d .more d₁ ∧
          (v.drain t plan sink (c'.takeUnchecked e.1).2).Ends d₁ demand d' := by
  rw [drain]
  split
  next c₁ events₁ hnext₁ =>
    rw [hnext] at hnext₁
    cases hnext₁
  next rawKey bytes c₁ events₁ hnext₁ =>
    rw [hnext] at hnext₁
    cases hnext₁
    rw [Step.ends_liftTraced_bind]
    -- What is reported on the way decides nothing.
    have hreport : ∀ {P : Prop}, (∃ a, (Traced.reportAll events).result = .ok a ∧ P) ↔ P :=
      ⟨fun h => h.elim fun _ h => h.2, fun h => ⟨(), rfl, h⟩⟩
    rw [hreport, Step.ends_get_bind]
    by_cases hseen : d.hasSeen rawKey = true
    · rw [if_pos hseen, if_pos hseen]
    · rw [if_neg hseen, if_neg hseen]
      -- From here on both sides do the same; only the way in which the steps are nested differs.
      have hconsider : ∀ {demand₁ : Demand} {d₁ : Delivery σ},
          (v.consider t plan sink (rawKey, bytes) (c'.takeUnchecked rawKey).1).Ends d demand₁ d₁ ↔
            ∃ key record met, Keycode.decode rawKey = .ok key ∧ v.decode bytes = .ok record ∧
              (v.meets plan key record (c'.takeUnchecked rawKey).1 t.criteria.toList).result
                = .ok met ∧
              if met then (Delivery.offer sink ⟨key, record, rawKey⟩).Ends d demand₁ d₁
              else demand₁ = .more ∧ d₁ = d := by
        intro demand₁ d₁
        rw [ends_consider, if_neg hseen]
      simp only [Step.ends_liftExcept_bind, Step.ends_liftTraced_bind]
      constructor
      · rintro ⟨key, hkey, record, hrecord, met, hmet, h⟩
        cases met with
        | false =>
          exact .inr ⟨d, hconsider.mpr ⟨key, record, false, hkey, hrecord, hmet, rfl, rfl⟩, h⟩
        | true =>
          rw [if_pos rfl, Step.ends_bind] at h
          obtain ⟨demand₁, d₁, hoffer, h⟩ := h
          have h₁ := hconsider.mpr ⟨key, record, true, hkey, hrecord, hmet, hoffer⟩
          cases demand₁ with
          | more => exact .inr ⟨d₁, h₁, h⟩
          | enough =>
            obtain ⟨rfl, rfl⟩ := Step.ends_pure.mp h
            exact .inl ⟨h₁, rfl⟩
      · rintro (⟨h₁, rfl⟩ | ⟨d₁, h₁, h⟩)
        · obtain ⟨key, record, met, hkey, hrecord, hmet, h₁⟩ := hconsider.mp h₁
          refine ⟨key, hkey, record, hrecord, met, hmet, ?_⟩
          cases met with
          | false => cases h₁.1
          | true =>
            rw [if_pos rfl, Step.ends_bind]
            exact ⟨.enough, d', h₁, Step.ends_pure.mpr ⟨rfl, rfl⟩⟩
        · obtain ⟨key, record, met, hkey, hrecord, hmet, h₁⟩ := hconsider.mp h₁
          refine ⟨key, hkey, record, hrecord, met, hmet, ?_⟩
          cases met with
          | false =>
            obtain ⟨-, rfl⟩ := h₁
            exact h
          | true =>
            rw [if_pos rfl, Step.ends_bind]
            exact ⟨.more, d₁, h₁, h⟩

/-- Going through the candidates of a walk is going through the list of them. If more is wanted at
the end then there was no entry that could not be told. -/
theorem drain_sift {v : View κ ρ} {t : Term κ ρ} {plan : Plan} {sink : Sink σ κ ρ} :
    ∀ {c : Candidates κ ρ} {d d' : Delivery σ} {demand : Demand}, c.Orderly →
      (v.drain t plan sink c).Ends d demand d' →
      (v.sift t plan sink c.pending).Ends d demand d' ∧
        (demand = .more → ∀ e ∈ c.ahead, c.Tells e)
  | c, d, d', demand, hc, h => by
    match hnext : c.next with
    | (none, c', events) =>
      obtain ⟨herror, hmore⟩ := (ends_drain_none hnext).mp h
      obtain ⟨hnone, htold⟩ := Candidates.next_none hc hnext herror
      rw [hnone]
      exact ⟨Step.ends_pure.mpr hmore, fun _ => htold⟩
    | (some e, c', events) =>
      have hdecreases := Candidates.next_decreases hnext
      obtain ⟨hc', hpending, hsame, htold⟩ := Candidates.next_some hc hnext
      obtain ⟨horderly, hsamePending, hsame'⟩ :=
        Candidates.orderly_takeUnchecked hc' (hc.rest hpending).1
      -- What is told of the walk after this candidate is told of the walk.
      have htell : (demand = .more → ∀ e ∈ c'.ahead, c'.Tells e) →
          demand = .more → ∀ e ∈ c.ahead, c.Tells e := by
        intro hrest hmore e he
        rcases htold e he with he | he
        · exact hsame.tells.mp (hrest hmore e he)
        · exact he
      rw [ends_drain_some hnext] at h
      rw [hpending, ends_sift_cons]
      split at h
      next hseen =>
        -- A record that was selected before is passed over, and its mark stays.
        have hconsider : (v.consider t plan sink e (c'.unchecked.contains e.1)).Ends d .more d :=
          ends_consider.mpr (by rw [if_pos hseen]; exact ⟨rfl, rfl⟩)
        obtain ⟨hsift, hrest⟩ := drain_sift hc' h
        exact ⟨.inr ⟨d, hconsider, hsift⟩, htell hrest⟩
      next =>
        obtain ⟨hlast, rfl⟩ | ⟨d₁, h₁, h⟩ := h
        · -- Nothing is known of the entries behind the last row that was wanted.
          exact ⟨.inl ⟨hlast, rfl⟩, by rintro ⟨⟩⟩
        · obtain ⟨hsift, hrest⟩ := drain_sift horderly h
          rw [hsamePending] at hsift
          exact ⟨.inr ⟨d₁, h₁, hsift⟩, htell fun hmore e he => hsame'.tells.mp (hrest hmore e he)⟩
  termination_by c => (c.ahead.length, c.cache.length)
  decreasing_by
    all_goals exact hdecreases

/-- The other way round, if all entries ahead can be told. -/
theorem drain_of_sift {v : View κ ρ} {t : Term κ ρ} {plan : Plan} {sink : Sink σ κ ρ} :
    ∀ {c : Candidates κ ρ} {d d' : Delivery σ} {demand : Demand}, c.Orderly →
      (∀ e ∈ c.ahead, c.Tells e) → (v.sift t plan sink c.pending).Ends d demand d' →
      (v.drain t plan sink c).Ends d demand d'
  | c, d, d', demand, hc, htells, h => by
    match hnext : c.next with
    | (none, c', events) =>
      obtain ⟨herror, -⟩ := Candidates.next_of_tells hc.error htells hnext
      rw [(Candidates.next_none hc hnext herror).1] at h
      exact (ends_drain_none hnext).mpr ⟨herror, Step.ends_pure.mp h⟩
    | (some e, c', events) =>
      have hdecreases := Candidates.next_decreases hnext
      obtain ⟨hc', hpending, hsame, -⟩ := Candidates.next_some hc hnext
      obtain ⟨-, hahead⟩ := Candidates.next_of_tells hc.error htells hnext
      have htells' : ∀ e ∈ c'.ahead, c'.Tells e := fun e he =>
        hsame.tells.mpr (htells e (hahead e he))
      obtain ⟨horderly, hsamePending, hsame'⟩ :=
        Candidates.orderly_takeUnchecked hc' (hc.rest hpending).1
      rw [hpending, ends_sift_cons] at h
      rw [ends_drain_some hnext]
      split
      next hseen =>
        -- Seen before: to consider the candidate again offers nothing.
        rcases h with ⟨hlast, -⟩ | ⟨d₁, h₁, h⟩
        · rw [ends_consider, if_pos hseen] at hlast
          cases hlast.1
        · rw [ends_consider, if_pos hseen] at h₁
          rw [h₁.2] at h
          exact drain_of_sift hc' htells' h
      next =>
        rcases h with hlast | ⟨d₁, h₁, h⟩
        · exact .inl hlast
        -- Taking the mark of the key off changes nothing that is pending.
        · rw [← hsamePending] at h
          exact .inr ⟨d₁, h₁, drain_of_sift horderly (fun e he => hsame'.tells.mpr (htells' e he)) h⟩
  termination_by c => (c.ahead.length, c.cache.length)
  decreasing_by
    all_goals exact hdecreases

end RecordStore.View
