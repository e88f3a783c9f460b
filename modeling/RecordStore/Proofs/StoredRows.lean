import RecordStore.Proofs.Find

/-!
# Rows of damaged indexes

Whatever the indexes hold, and in whatever they have come apart from the records, a query delivers
stored records only (`rows_stored`): a walk looks up every key that an index yields, and passes over
those under which nothing is stored. That each record comes once takes more (`View.rows_kept`).
-/

namespace RecordStore

namespace Candidates

variable {κ ρ : Type} [CustomKind κ] {b : Buckets} {n : String}

/-- A walk to the records of a bucket that has fetched stored records; one over the records themselves
has stored records ahead. -/
structure Stocked (b : Buckets) (n : String) (c : Candidates κ ρ) : Prop where
  buckets : c.buckets = b
  dataBucket : c.dataBucket = n
  fetched : ∀ e ∈ c.cache, b.get? n e.1 = some e.2
  ahead : c.scan = .full ∨ c.scan = .primaryKey → ∀ e ∈ c.ahead, b.get? n e.1 = some e.2

omit [CustomKind κ] in
theorem stored_picks {c : Candidates κ ρ} : ∀ {emitted keys : List Bytes},
    ∀ e ∈ (c.picks emitted keys).1, c.buckets.get? c.dataBucket e.1 = some e.2
  | emitted, [], e, he => nomatch he
  | emitted, key :: keys, e, he => by
    unfold picks at he
    split at he
    next => exact stored_picks e he
    next =>
      dsimp only at he
      split at he
      next record hrecord =>
        rcases List.mem_cons.mp he with rfl | he
        · exact hrecord
        · exact stored_picks e he
      next => exact stored_picks e he

/-- Only a walk over the records takes an entry itself for a candidate. -/
theorem scan_of_candidate {c : Candidates κ ρ} {e e' : Entry} (h : c.expand e = .ok (.candidate e')) :
    (c.scan = .full ∨ c.scan = .primaryKey) ∧ e' = e := by
  by_cases hscan : c.scan = .full ∨ c.scan = .primaryKey
  · rcases expand_records hscan h with hx | hx
    · cases hx
      exact ⟨hscan, rfl⟩
    · cases hx
  · have hscan : c.scan = .index ∨ c.scan = .sliceIndex := by
      cases hc : c.scan <;> simp [hc] at hscan ⊢
    obtain ⟨value, met, -, -, h⟩ := (expand_index hscan).mp h
    cases met with
    | true =>
      obtain ⟨l, -, h⟩ := h
      cases h
    | false => cases h

/-- A batch fills the cache with stored records. -/
theorem stocked_fill : ∀ {c : Candidates κ ρ} {ahead : List Entry}, c.buckets = b →
    c.dataBucket = n → (∀ e ∈ c.cache, b.get? n e.1 = some e.2) →
    (c.scan = .full ∨ c.scan = .primaryKey → ∀ e ∈ ahead, b.get? n e.1 = some e.2) →
      (c.fill ahead).1.Stocked b n
  | c, [], hb, hn, hfetched, hahead => ⟨hb, hn, hfetched, hahead⟩
  | c, e :: rest, hb, hn, hfetched, hahead => by
    have hrest : c.scan = .full ∨ c.scan = .primaryKey → ∀ e ∈ rest, b.get? n e.1 = some e.2 :=
      fun hscan e he => hahead hscan e (List.mem_cons_of_mem _ he)
    unfold fill
    split
    next =>
      split
      next => exact ⟨hb, hn, by simp, hrest⟩
      next e' hx =>
        -- The entry is a record, as the walk is over the records.
        obtain ⟨hscan, rfl⟩ := scan_of_candidate hx
        refine stocked_fill hb hn (fun e he => ?_) hrest
        rcases List.mem_append.mp he with he | he
        · exact hfetched e he
        · rw [List.mem_singleton.mp he]
          exact hahead hscan e' (List.mem_cons_self ..)
      next => exact stocked_fill hb hn hfetched hrest
      next keys _ =>
        -- What is fetched was looked up.
        obtain ⟨hsame, -, hcache, -⟩ := fetch_spec (c.leavesUnchecked e.1) c keys
        refine stocked_fill (hsame.buckets.trans hb) (hsame.dataBucket.trans hn) (fun e he => ?_) ?_
        · rw [hcache] at he
          rcases List.mem_append.mp he with he | he
          · exact hfetched e he
          · rw [← hb, ← hn]
            exact stored_picks e he
        · rw [hsame.scan]
          exact hrest
    next => exact ⟨hb, hn, hfetched, hahead⟩

/-- What is yielded is stored. -/
theorem stocked_next {c c' : Candidates κ ρ} {e? : Option Entry} {events : List Event}
    (hc : c.Stocked b n) (h : c.next = (e?, c', events)) :
    c'.Stocked b n ∧ ∀ e, e? = some e → b.get? n e.1 = some e.2 := by
  have hyield : ∀ {c₁ : Candidates κ ρ} {e : Entry} {rest : List Entry}, c₁.Stocked b n →
      c₁.cache = e :: rest → { c₁ with cache := rest }.Stocked b n ∧ b.get? n e.1 = some e.2 := by
    intro c₁ e rest hc₁ hcache
    have hfetched := hc₁.fetched
    rw [hcache] at hfetched
    exact ⟨⟨hc₁.buckets, hc₁.dataBucket, fun e he => hfetched e (List.mem_cons_of_mem _ he), hc₁.ahead⟩,
      hfetched e (List.mem_cons_self ..)⟩
  have hfill := stocked_fill hc.buckets hc.dataBucket hc.fetched hc.ahead
  unfold next at h
  split at h
  next =>
    cases h
    exact ⟨hc, nofun⟩
  next =>
    generalize hfilled : (if c.cache.isEmpty then c.fill c.ahead else (c, [])) = filled at h
    -- The cache holds stored records whether a batch is fetched for it or not.
    have hstocked : filled.1.Stocked b n := by
      rw [← hfilled]
      split
      next => exact hfill
      next => exact hc
    obtain ⟨c₁, events₁⟩ := filled
    dsimp only at h hstocked
    split at h
    next =>
      cases h
      exact ⟨hstocked, nofun⟩
    next e rest hcache =>
      cases h
      obtain ⟨hrest, he⟩ := hyield hstocked hcache
      refine ⟨hrest, fun e' heq => ?_⟩
      cases heq
      exact he

end Candidates

namespace View

variable {κ ρ : Type} [CustomKind κ] {v : View κ ρ} {t : Term κ ρ} {plan : Plan}
  {d d' : Delivery (List (Row κ ρ))} {demand : Demand}

/-- The candidates of a plan are stored records. -/
theorem stocked_candidates (hplan : v.plan t = .ok plan) :
    (v.candidates plan t).Stocked v.buckets v.typeName := by
  refine ⟨rfl, rfl, nofun, fun hscan e he => ?_⟩
  have hbucket : plan.bucket = v.typeName := by
    rcases Plan.ofTerm_cases hplan with ⟨rfl, -⟩ | ⟨index, -, -, -, hcases⟩
    · rfl
    · rcases hcases with rfl | ⟨-, -, ⟨-, -, rfl⟩ | ⟨-, rfl⟩⟩
      · rfl
      · exact absurd hscan (by simp [candidates, Candidates.ofPlan])
      · exact absurd hscan (by simp [candidates, Candidates.ofPlan])
  have hentry := (ahead_candidates_suffix v plan t).subset he
  rw [hbucket] at hentry
  exact Buckets.mem_entries_iff.mp hentry

/-- A stored candidate adds at most a stored row. -/
theorem stores_consider {e : Entry} {recheck : Bool} (he : v.buckets.get? v.typeName e.1 = some e.2)
    (hd : ∀ row ∈ d.inner, v.Stores row)
    (h : (v.consider t plan keepRow e recheck).Ends d demand d') : ∀ row ∈ d'.inner, v.Stores row := by
  rw [ends_consider] at h
  split at h
  next =>
    obtain ⟨-, rfl⟩ := h
    exact hd
  next =>
    obtain ⟨key, record, met, hkey, hrecord, -, h⟩ := h
    cases met with
    | false =>
      obtain ⟨-, rfl⟩ := h
      exact hd
    | true =>
      rw [if_pos rfl, ends_offer_keepRow] at h
      split at h
      next =>
        obtain ⟨-, rfl⟩ := h
        exact hd
      next =>
        obtain ⟨-, rfl⟩ := h
        intro row hrow
        rcases List.mem_cons.mp hrow with rfl | hrow
        · exact ⟨e.2, he, hkey, hrecord⟩
        · exact hd row hrow

/-- A drain keeps stored rows. -/
theorem stores_drain : ∀ {c : Candidates κ ρ} {d d' : Delivery (List (Row κ ρ))} {demand : Demand},
    c.Stocked v.buckets v.typeName → (∀ row ∈ d.inner, v.Stores row) →
      (v.drain t plan keepRow c).Ends d demand d' → ∀ row ∈ d'.inner, v.Stores row
  | c, d, d', demand, hc, hd, h => by
    match hnext : c.next with
    | (none, c', events) =>
      obtain ⟨-, -, rfl⟩ := (ends_drain_none hnext).mp h
      exact hd
    | (some e, c', events) =>
      have hdecreases := Candidates.next_decreases hnext
      obtain ⟨hc', he⟩ := Candidates.stocked_next hc hnext
      rw [ends_drain_some hnext] at h
      split at h
      next => exact stores_drain hc' hd h
      next =>
        rcases h with ⟨h, -⟩ | ⟨d₁, h₁, h⟩
        · exact stores_consider (he e rfl) hd h
        · have hmarked : (c'.takeUnchecked e.1).2.Stocked v.buckets v.typeName :=
            ⟨hc'.buckets, hc'.dataBucket, hc'.fetched, hc'.ahead⟩
          exact stores_drain hmarked (stores_consider (he e rfl) hd h₁) h
  termination_by c => (c.ahead.length, c.cache.length)
  decreasing_by
    all_goals exact hdecreases

theorem stores_answerTerm (hd : ∀ row ∈ d.inner, v.Stores row)
    (h : (v.answerTerm keepRow t).Ends d demand d') : ∀ row ∈ d'.inner, v.Stores row := by
  obtain ⟨-, plan, hplan, h⟩ := ends_answerTerm.mp h
  split at h
  next => exact stores_drain (stocked_candidates hplan) hd h
  next =>
    obtain ⟨-, rfl⟩ := h
    exact hd

theorem stores_answerTerms : ∀ {terms : List (Term κ ρ)} {d d' : Delivery (List (Row κ ρ))}
    {demand : Demand}, (∀ row ∈ d.inner, v.Stores row) →
      (v.answerTerms keepRow terms).Ends d demand d' → ∀ row ∈ d'.inner, v.Stores row
  | [], d, d', demand, hd, h => by
    obtain ⟨-, rfl⟩ := Step.ends_pure.mp h
    exact hd
  | t :: terms, d, d', demand, hd, h => by
    unfold answerTerms at h
    obtain ⟨demand₁, d₁, h₁, h⟩ := Step.ends_bind.mp h
    have hd₁ := stores_answerTerm hd h₁
    cases demand₁ with
    | enough =>
      obtain ⟨-, rfl⟩ := Step.ends_pure.mp h
      exact hd₁
    | more => exact stores_answerTerms hd₁ h

/-- Whatever the indexes hold, the rows of a query are stored records. -/
theorem rows_stored {q : Query κ ρ} {rows : List (Row κ ρ)} (h : (v.rows q).result = .ok rows) :
    ∀ row ∈ rows, v.Stores row := by
  intro row hrow
  rcases rows_of_select h with rfl | ⟨skip, limit, n, kept, hselect, all, hperm, hsub⟩
  · cases hrow
  · obtain ⟨demand, d, hterms, -, rfl⟩ := ends_select.mp hselect
    exact stores_answerTerms (by simp) hterms row (hperm.mem_iff.mp (hsub.subset hrow))

end View

end RecordStore
