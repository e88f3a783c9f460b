import RecordStore.Proofs.BulkUpdate
import RecordStore.Proofs.KeyLookup
import RecordStore.Proofs.Rebuild
import RecordStore.Proofs.Thinning

/-!
# Taking out what a query selects

The rows of `deleteMatching` are selected before the first of them is taken out. They have different
keys, so each is still as it was found when its turn comes, and can be taken out if it can be indexed at
all (`exists_takeRow`). Nothing else is stored or lost outside the indexes, and no bucket goes
(`exists_takeRows`). What is left is therefore a thinned state with its indexes in step: the query finds
nothing there that it did not find before, and everything that it found before is gone
(`deleteMatching_selected`).
-/

namespace RecordStore

namespace Store

variable {κ ρ : Type} {s : Store} {t : RecordType κ ρ} {b b' : Buckets} {key : Bytes} {record : ρ}
  {rows : List (Row κ ρ)}

/-! ## One row -/

/-- Taking a record out changes, outside the indexes, what is stored under its key, and leaves the
buckets that are there. -/
theorem get?_take {u : Unit} (hcodec : s.codec.KeepsKeyLists) (h : (s.take t key record).Ends b u b') :
    (∀ n k, n ∉ indexBuckets t → b'.get? n k = if n = t.name ∧ k = key then none else b.get? n k) ∧
      ∀ n, b'.has n = b.has n := by
  obtain ⟨_, b₁, hdelete, hunfile⟩ := Step.ends_bind.mp h
  refine ⟨fun n k hn => ?_, fun n => (Index.has_remove hunfile n).trans (Buckets.has_delete hdelete n)⟩
  rw [(Index.changes_changeAll hcodec hunfile).frame n ?_ k, Buckets.get?_delete hdelete]
  rintro v ⟨index, hname, hyields⟩
  rw [hname] at hn
  exact hn (mem_indexBuckets (hasIndex_of_yields hyields))

/-- A stored record that can be indexed can be taken out. -/
theorem exists_takeRow (hcodec : s.codec.StoresKeyLists) (hb : s.InStep t b)
    (hread : s.read? t b key = .ok (some record)) (hold : s.Indexes t key record) :
    ∃ b', (s.take t key record).Ends b () b' ∧ s.InStep t b' := by
  obtain ⟨stored, hstored, -⟩ := read?_eq_some.mp hread
  obtain ⟨b₁, hdelete⟩ := Buckets.exists_delete (Buckets.has_of_get? hstored) key
  have hget := Buckets.get?_delete hdelete
  have hb₁ : s.Readable t b₁ :=
    hb.for.readable.congr fun n hn k => by rw [hget, if_neg fun hc => hn hc.1]
  obtain ⟨b', hunfile⟩ := exists_change hcodec hb₁ hold .remove
  have htake : (s.take t key record).Ends b () b' := Step.ends_bind.mpr ⟨(), b₁, hdelete, hunfile⟩
  exact ⟨b', htake, (inStepFor_take hcodec.keeps hb.for hread htake).1.inStep fun _ _ _ _ => trivial⟩

/-! ## All rows -/

/-- The records of some rows are gone, and nothing else is changed outside the indexes. -/
structure Without (t : RecordType κ ρ) (b b' : Buckets) (rows : List (Row κ ρ)) : Prop where
  gone : ∀ row ∈ rows, b'.get? t.name row.rawKey = none
  other : ∀ n k, n ∉ indexBuckets t → (n = t.name → ∀ row ∈ rows, row.rawKey ≠ k) →
    b'.get? n k = b.get? n k

/-- What is left without some records was there before. -/
theorem Without.stored (h : Without t b b' rows) {k bytes : Bytes}
    (hget : b'.get? t.name k = some bytes) : b.get? t.name k = some bytes := by
  by_cases hk : ∃ row ∈ rows, row.rawKey = k
  · obtain ⟨row, hrow, rfl⟩ := hk
    rw [h.gone row hrow] at hget
    cases hget
  · rw [← hget, h.other t.name k name_not_mem_indexBuckets fun _ row hrow heq => hk ⟨row, hrow, heq⟩]

/-- Rows with different keys are taken out one after the other. -/
theorem exists_takeRows (hcodec : s.codec.StoresKeyLists) :
    ∀ {rows : List (Row κ ρ)} {b : Buckets}, s.InStep t b → (rows.map (·.rawKey)).Nodup →
      (∀ row ∈ rows, s.read? t b row.rawKey = .ok (some row.record)) →
      (∀ row ∈ rows, s.Indexes t row.rawKey row.record) →
      ∃ b', (rows.forM fun row => s.take t row.rawKey row.record).Ends b () b' ∧ s.InStep t b' ∧
        Without t b b' rows ∧ ∀ n, b'.has n = b.has n
  | [], b, hb, _, _, _ =>
    ⟨b, Step.ends_pure.mpr ⟨rfl, rfl⟩, hb, ⟨by simp, fun _ _ _ _ => rfl⟩, fun _ => rfl⟩
  | row :: rows, b, hb, hnodup, hread, hold => by
    rw [List.forall_mem_cons] at hread hold
    obtain ⟨b₁, htake, hb₁⟩ := exists_takeRow hcodec hb hread.1 hold.1
    obtain ⟨hget, hhas⟩ := get?_take hcodec.keeps htake
    -- The rows behind it are under other keys, and their records are as they were.
    have hne := rawKey_ne hnodup
    have hread₁ : ∀ row' ∈ rows, s.read? t b₁ row'.rawKey = .ok (some row'.record) := by
      intro row' hrow'
      have hsame : b₁.get? t.name row'.rawKey = b.get? t.name row'.rawKey := by
        rw [hget _ _ name_not_mem_indexBuckets, if_neg fun hc => hne row' hrow' hc.2]
      rw [read?_congr hsame]
      exact hread.2 row' hrow'
    obtain ⟨-, htail⟩ := List.nodup_cons.mp hnodup
    obtain ⟨b', hends, hb', hwithout, hhas'⟩ := exists_takeRows hcodec hb₁ htail hread₁ hold.2
    refine ⟨b', Step.ends_bind.mpr ⟨(), b₁, htake, hends⟩, hb',
      ⟨List.forall_mem_cons.mpr ⟨?_, hwithout.gone⟩, fun n k hn hk => ?_⟩,
      fun n => (hhas' n).trans (hhas n)⟩
    · rw [hwithout.other _ _ name_not_mem_indexBuckets fun _ => hne,
        hget _ _ name_not_mem_indexBuckets, if_pos ⟨rfl, rfl⟩]
    · have hk' := fun hname => List.forall_mem_cons.mp (hk hname)
      rw [hwithout.other n k hn fun hname => (hk' hname).2, hget n k hn,
        if_neg fun hc => (hk' hc.1).1 hc.2.symm]

/-- A row that was taken out had a record that no index refuses. -/
theorem refusal_of_takeRows {u : Unit}
    (h : (rows.forM fun row => s.take t row.rawKey row.record).Ends b u b') :
    ∀ row ∈ rows, (Course.filing t row.record).refusal = none := by
  intro row hrow
  obtain ⟨b₁, _, b₂, htake⟩ := Step.exists_of_forM h hrow
  obtain ⟨_, b₃, -, hunfile⟩ := Step.ends_bind.mp htake
  rw [Course.unfile_eq, Course.ends_run] at hunfile
  exact (Course.refusal_changing .add .remove _).trans hunfile.1

/-- Let a query have rows whose records can be indexed. Then `deleteMatching` counts them, and ends
with their records gone, nothing else changed outside the indexes, and the indexes in step. If the query
has no paging, its predicates go by the record alone, and none of its walks has passed over anything that
it accepts, then it finds no rows afterwards. No walk passes over anything if what is walked in order is
under key codes. -/
theorem deleteMatching_selected [CustomKind κ] (hcodec : s.codec.StoresKeyLists) (hb : s.InStep t b)
    {q : Query κ ρ} (hfind : (s.find t b q).result = .ok rows)
    (hold : ∀ row ∈ rows, s.Indexes t row.rawKey row.record) :
    (∃ b', (s.deleteMatching t q).Ends b rows.length b' ∧ Without t b b' rows ∧ s.InStep t b' ∧
      (q.skip = 0 → q.limit = none →
        (∀ term ∈ q.terms, term.IgnoresState ∧ (s.view t b).ReachesAccepted term) →
        ∀ rows', (s.find t b' q).result = .ok rows' → rows' = [])) ∧
    (s.WalksCodes t b → ∀ term, (s.view t b).ReachesAccepted term) := by
  obtain ⟨hnodup, hread⟩ := find_stored hcodec.keeps hb.for hfind
  obtain ⟨b', hends, hb', hwithout, hhas⟩ := exists_takeRows hcodec hb hnodup hread hold
  refine ⟨⟨b', ?_, hwithout, hb', fun hskip hlimit hterms rows' hfind' => ?_⟩, reaches_of_codes hb⟩
  · unfold deleteMatching
    rw [Step.ends_get_bind, Step.ends_liftTraced_bind]
    exact ⟨rows, hfind, Step.ends_bind.mpr ⟨(), b', hends, Step.ends_pure.mpr ⟨rfl, rfl⟩⟩⟩
  · refine List.eq_nil_iff_forall_not_mem.mpr fun row hrow => ?_
    -- A row that is found afterwards is stored, and was found before, so that its record is gone.
    have hbefore := mem_find_of_thinned hcodec.keeps hb hb' ⟨hhas, fun _ _ => hwithout.stored⟩
      hskip hlimit hterms hfind hfind' hrow
    obtain ⟨bytes, hget, -⟩ := read?_eq_some.mp ((find_stored hcodec.keeps hb'.for hfind').2 row hrow)
    rw [hwithout.gone row hbefore] at hget
    cases hget

section Parcels

theorem walksCodes_twoParcels : standard.WalksCodes parcels twoParcels := by
  refine ⟨keysAreCodes_twoParcels, fun index code k hslice hfiled => ?_⟩
  obtain ⟨heavy, -, ⟨file, hfile, hyield⟩ | ⟨file, _, hfile, -⟩⟩ := hfiled
  · have hfile := (SortedMap.find?_insert _ _ _ _).symm.trans hfile
    split at hfile
    next =>
      cases hfile
      cases hyield
      exact ⟨_, rfl⟩
    next => cases hfile
  · have hslice : (parcels.schema.sliceIndexes.find? index).isSome = false := hslice
    rw [hfile] at hslice
    cases hslice

/-- Where there are no parcels a query for all of them by their weight has an answer all the same. -/
theorem exists_byWeight_none {b : Buckets} (hstep : standard.InStep parcels b)
    (hnone : ∀ k, b.get? parcels.name k = none) : ∃ rows,
    (standard.find parcels b (.ofSelection (.mk allByWeight []))).result = .ok rows := by
  have hrecords : b.entries parcels.name = [] := by
    refine List.eq_nil_iff_forall_not_mem.mpr fun e he => ?_
    rw [Buckets.mem_entries_iff, hnone] at he
    cases he
  have hweights : b.entries "_index:Parcels:weight" = [] := by
    refine List.eq_nil_iff_forall_not_mem.mpr fun e he => ?_
    obtain ⟨k, hfiled⟩ := ((hstep "weight" rfl).present e.1).mp ⟨e.2, Buckets.mem_entries_iff.mp he⟩
    exact not_filed (hnone k) hfiled
  have hanswers : ∀ plan, ∀ e ∈ b.entries parcels.name, ∀ recheck,
      ∃ row?, (standard.view parcels b).answer allByWeight plan (e, recheck) = .ok row? := by
    rw [hrecords]
    simp
  cases hhas : b.has "_index:Parcels:weight" with
  | true =>
    have hone := hstep.for.oneValueEach (s := standard) Codec.keepsKeyLists_json
    refine View.exists_rows (v := standard.view parcels b) (by cbv) (plan_allByWeight hhas)
      (View.sound_index rfl (hone "weight" rfl rfl)) ?_ (hanswers _)
    show ∀ e ∈ b.entries "_index:Parcels:weight", _
    rw [hweights]
    simp
  | false =>
    have hplan : (standard.view parcels b).plan allByWeight = .ok (.fallback "Parcels" "weight") := by
      show Except.ok (if !b.has "_index:Parcels:weight" then _ else _) = _
      rw [hhas]
      rfl
    refine View.exists_rows (v := standard.view parcels b) (by cbv) hplan
      (View.sound_records (.inl rfl) rfl) ?_ (hanswers _)
    show ∀ e ∈ b.entries parcels.name, _
    rw [hrecords]
    simp

/-- Both parcels can be read. -/
theorem exists_parcel {b : Buckets} {k bytes : Bytes}
    (hrecords : b.entries parcels.name = twoParcels.entries parcels.name)
    (hget : b.get? parcels.name k = some bytes) :
    ∃ row, (standard.view parcels b).Stores row ∧ row.rawKey = k := by
  have hmem := Buckets.mem_entries_iff.mpr hget
  rw [hrecords, entries_twoParcels, List.mem_cons, List.mem_singleton, Prod.mk.injEq,
    Prod.mk.injEq] at hmem
  rcases hmem with ⟨rfl, rfl⟩ | ⟨rfl, rfl⟩
  · exact ⟨⟨.int 3, true, _⟩, ⟨_, hget, by cbv, by cbv⟩, rfl⟩
  · exact ⟨⟨.float ⟨0x4004000000000000⟩, false, _⟩, ⟨_, hget, by cbv, by cbv⟩, rfl⟩

/-- Both parcels are taken out, and the index that they were found by leads to nothing. -/
theorem deleteMatching_selected_parcels :
    Codec.json.StoresKeyLists ∧ standard.InStep parcels twoParcels ∧
      standard.WalksCodes parcels twoParcels ∧ allByWeight.IgnoresState ∧ ∃ rows,
      (standard.find parcels twoParcels (.ofSelection (.mk allByWeight []))).result = .ok rows ∧
      (∀ row ∈ rows, standard.Indexes parcels row.rawKey row.record) ∧ heavyRow ∈ rows ∧ ∃ b',
        (standard.deleteMatching parcels (.ofSelection (.mk allByWeight []))).Ends twoParcels
          rows.length b' ∧
        (∀ k, b'.get? parcels.name k = none) ∧ standard.InStep parcels b' ∧
        (standard.find parcels b' (.ofSelection (.mk allByWeight []))).result = .ok [] := by
  obtain ⟨rows, hrows, hall⟩ := exists_byWeight_twoParcels
  have hindexes : ∀ row ∈ rows, standard.Indexes parcels row.rawKey row.record :=
    fun row _ => indexes_parcels _ _
  have hignores : allByWeight.IgnoresState := by
    intro field criteria hfind
    cases hfind
  obtain ⟨⟨b', hends, hwithout, hb', hagain⟩, hreaches⟩ := deleteMatching_selected (s := standard)
    (t := parcels) Codec.storesKeyLists_json inStep_twoParcels hrows hindexes
  have hnone : ∀ k, b'.get? parcels.name k = none := by
    intro k
    refine Option.eq_none_iff_forall_ne_some.mpr fun bytes hget => ?_
    obtain ⟨row, hrow, rfl⟩ := exists_parcel rfl (hwithout.stored hget)
    rw [hwithout.gone row (hall row hrow)] at hget
    cases hget
  obtain ⟨rows', hrows'⟩ := exists_byWeight_none hb' hnone
  have hterms : ∀ term ∈ [allByWeight],
      term.IgnoresState ∧ (standard.view parcels twoParcels).ReachesAccepted term :=
    List.forall_mem_singleton.mpr ⟨hignores, hreaches walksCodes_twoParcels _⟩
  rw [hagain rfl rfl hterms rows' hrows'] at hrows'
  exact ⟨Codec.storesKeyLists_json, inStep_twoParcels, walksCodes_twoParcels, hignores, rows, hrows,
    hindexes, hall _ (matches_heavyRow rfl).stores, b', hends, hnone, hb', hrows'⟩

end Parcels

section Drawers

/-- The old drawer is found, but it cannot be taken out of an index that refuses it. -/
theorem deleteMatching_refused {n : Nat} {b' : Buckets} :
    ¬(standard.deleteMatching drawers (.ofSelection (.mk Term.all []))).Ends oldDrawer n b' := by
  intro hends
  obtain ⟨rows, hrows, hold⟩ := exists_drawers
  unfold deleteMatching at hends
  rw [Step.ends_get_bind, Step.ends_liftTraced_bind] at hends
  obtain ⟨rows', hrows', hends⟩ := hends
  cases hrows.symm.trans hrows'
  obtain ⟨_, b₁, htake, -⟩ := Step.ends_bind.mp hends
  cases refusal_of_takeRows htake _ hold

end Drawers

section Envelopes

/-- A key that is no key code. It is read as seven, but its tag is that of negative integers. -/
def strayKey : Bytes := 0x03 :: Bytes.ofNat 8 0x8000000000000007

/-- Envelopes under a stray key, under six and under a double. -/
def strayEnvelopes : Buckets := Step.after (do
  Buckets.create envelopes.name
  Buckets.put envelopes.name strayKey (Text.utf8 "true")
  Buckets.put envelopes.name (Keycode.encode (.int 6 : Value Value.Sealed)) (Text.utf8 "true")
  Buckets.put envelopes.name (Keycode.encode (.float ⟨0x3ff0000000000000⟩ : Value Value.Sealed))
    (Text.utf8 "true")) .empty

/-- The row under six. -/
def sixRow : Row Value.Sealed Bool := ⟨.int 6, true, Keycode.encode (.int 6 : Value Value.Sealed)⟩

/-- The row under the stray key. -/
def strayRow : Row Value.Sealed Bool := ⟨.int 7, true, strayKey⟩

/-- The envelopes without the one under six. -/
def fewerEnvelopes : Buckets := Step.after (standard.take envelopes sixRow.rawKey true) strayEnvelopes

theorem entries_strayEnvelopes : strayEnvelopes.entries envelopes.name =
    [(strayKey, Text.utf8 "true"), (sixRow.rawKey, Text.utf8 "true"),
      (Keycode.encode (.float ⟨0x3ff0000000000000⟩ : Value Value.Sealed), Text.utf8 "true")] := by
  decide +kernel

theorem entries_fewerEnvelopes : fewerEnvelopes.entries envelopes.name =
    [(strayKey, Text.utf8 "true"),
      (Keycode.encode (.float ⟨0x3ff0000000000000⟩ : Value Value.Sealed), Text.utf8 "true")] := by
  decide +kernel

/-- Envelopes under keys of five and more. -/
def fromFive : Term Value.Sealed Bool :=
  Term.all.addCriterion keyField ⟨.compares .ge (.int 5), false⟩

/-- What is found of some of them under keys of five and more, by the entries that there are. -/
theorem find_fromFive {b : Buckets} {entries : List Entry} {rows : List (Row Value.Sealed Bool)}
    (hentries : b.entries envelopes.name = entries)
    (hsome : entries ⊆ strayEnvelopes.entries envelopes.name)
    (hrows : (((Candidates.walkFrom entries (fromFive.criteriaOn keyField)).filter
      ((standard.view envelopes b).candidates (.primaryKey "Envelopes") fromFive).accepts).map
        (·, false)).filterMap ((standard.view envelopes b).rowOf? fromFive (.primaryKey "Envelopes")) =
      rows) : (standard.find envelopes b (.ofSelection (.mk fromFive []))).result = .ok rows := by
  have hall : ∀ e ∈ b.entries envelopes.name,
      ((standard.view envelopes b).candidates (.primaryKey "Envelopes") fromFive).Tells e ∧
        ∀ recheck, ∃ row?, (standard.view envelopes b).answer fromFive (.primaryKey "Envelopes")
          (e, recheck) = .ok row? := by
    intro e he
    rw [hentries] at he
    have he := hsome he
    rw [entries_strayEnvelopes] at he
    simp only [List.mem_cons, List.not_mem_nil, or_false] at he
    rcases he with rfl | rfl | rfl
    all_goals exact ⟨⟨_, by cbv⟩, fun recheck => by cases recheck <;> exact ⟨_, by cbv⟩⟩
  have hplan : (standard.view envelopes b).plan fromFive = .ok (.primaryKey "Envelopes") := by cbv
  obtain ⟨rows', hrows'⟩ : ∃ rows', (standard.find envelopes b
      (.ofSelection (.mk fromFive []))).result = .ok rows' :=
    View.exists_rows (by cbv) hplan (View.sound_records (.inr rfl) rfl) (fun e he => (hall e he).1)
      fun e he => (hall e he).2
  obtain ⟨-, hfound⟩ := rows_of_plain rfl hrows'
  have hahead : ((standard.view envelopes b).candidates (.primaryKey "Envelopes") fromFive).ahead =
      Candidates.walkFrom (b.entries envelopes.name) (fromFive.criteriaOn keyField) := rfl
  rw [View.pending_candidates, Candidates.stream_records (.inr rfl)] at hfound
  rw [hrows', hfound, ← hrows, ← hentries, ← hahead]
  rfl

/-- The search from five finds the envelope of weight six. -/
theorem find_strayEnvelopes : (standard.find envelopes strayEnvelopes
    (.ofSelection (.mk fromFive []))).result = .ok [sixRow] := by
  refine find_fromFive entries_strayEnvelopes (by rw [entries_strayEnvelopes]; simp) ?_
  generalize strayEnvelopes = b
  cbv

theorem find_fewerEnvelopes : (standard.find envelopes fewerEnvelopes
    (.ofSelection (.mk fromFive []))).result = .ok [strayRow] := by
  refine find_fromFive entries_fewerEnvelopes (by rw [entries_strayEnvelopes]; simp) ?_
  generalize fewerEnvelopes = b
  cbv

/-- The deletion takes out the one envelope that was found. -/
theorem deleteMatching_sixRow : (standard.deleteMatching envelopes
    (.ofSelection (.mk fromFive []))).Ends strayEnvelopes 1 fewerEnvelopes := by
  have htake : (standard.take envelopes sixRow.rawKey true).Ends strayEnvelopes () fewerEnvelopes :=
    ⟨by decide +kernel, rfl⟩
  unfold deleteMatching
  rw [Step.ends_get_bind, Step.ends_liftTraced_bind]
  exact ⟨[sixRow], find_strayEnvelopes, Step.ends_bind.mpr ⟨(), fewerEnvelopes,
    Step.ends_bind.mpr ⟨(), fewerEnvelopes, htake, Step.ends_pure.mpr ⟨rfl, rfl⟩⟩,
    Step.ends_pure.mpr ⟨rfl, rfl⟩⟩⟩

/-- Without indexes they are in step. -/
theorem inStep_envelopes (b : Buckets) : standard.InStep envelopes b := by
  intro index hindex
  cases hindex

theorem ignoresState_fromFive : fromFive.IgnoresState := by
  intro field criteria hfind c hc p hp
  have hfind := (SortedMap.find?_insert _ _ _ _).symm.trans hfind
  split at hfind
  next =>
    obtain rfl := Option.some.inj hfind
    rw [List.mem_singleton.mp hc] at hp
    cases hp
  next => cases hfind

/-- An old drawer is found and cannot be taken out. An envelope under a stray key is found once the one
that was found is taken out, as the walk then starts at the first entry of all. -/
theorem deleteMatching_drawers_envelopes :
    (Schema.build drawers.name [.sliceIndex "labels" labelsOf] = .ok drawers.schema ∧
      standard.InStep drawers oldDrawer ∧ ∃ rows,
      (standard.find drawers oldDrawer (.ofSelection (.mk Term.all []))).result = .ok rows ∧
      ∀ n b', ¬(standard.deleteMatching drawers (.ofSelection (.mk Term.all []))).Ends oldDrawer n b') ∧
    Schema.build envelopes.name [] = .ok envelopes.schema ∧
      standard.InStep envelopes strayEnvelopes ∧ fromFive.IgnoresState ∧
      (standard.find envelopes strayEnvelopes (.ofSelection (.mk fromFive []))).result = .ok [sixRow] ∧
      (standard.deleteMatching envelopes (.ofSelection (.mk fromFive []))).Ends strayEnvelopes 1
        fewerEnvelopes ∧
      (standard.find envelopes fewerEnvelopes (.ofSelection (.mk fromFive []))).result =
        .ok [strayRow] := by
  obtain ⟨rows, hrows, -⟩ := exists_drawers
  exact ⟨⟨rfl, inStep_oldDrawer, rows, hrows, fun _ _ => deleteMatching_refused⟩, rfl,
    inStep_envelopes _, ignoresState_fromFive, find_strayEnvelopes, deleteMatching_sixRow,
    find_fewerEnvelopes⟩

end Envelopes

end Store

end RecordStore
