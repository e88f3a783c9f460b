import RecordStore.Proofs.Paging
import RecordStore.Proofs.RowSort

/-!
# Grouping

The groups of a query are what the rows of its selection make of no groups when they are added one
after the other (`Store.findGroups_iff`). A row finds its group by halving. Where comparing is consistent
on the tuples that occur the halving is right (`search_places`): it ends at the group whose tuple ties
with that of the row, or between the groups before and after it. So each row that is added keeps the
groups a partition in ascending order (`Partitions.add`). Values of the user's own kind have to do their
part: they must equal themselves and swap, or one tuple can have two groups (`Store.findGroups_dials`).
-/

namespace RecordStore

open FallibleOrder Value

variable {κ ρ : Type} [CustomKind κ] {schema : Schema κ ρ} {fields : List String}

/-- The tuple of values by which a row is grouped. -/
def Row.groupKey (schema : Schema κ ρ) (fields : List String) (row : Row κ ρ) :
    Except Error (List (Value κ)) :=
  fields.mapM (schema.valueOf row.key row.record)

/-- The tuples that occur among some rows. -/
def Row.GroupTuples (schema : Schema κ ρ) (fields : List String) (rows : List (Row κ ρ))
    (tuple : List (Value κ)) : Prop :=
  ∃ row ∈ rows, row.groupKey schema fields = .ok tuple

/-- The values that a field has in some rows, the key included. -/
def Row.GroupValues (schema : Schema κ ρ) (rows : List (Row κ ρ)) (field : String) (v : Value κ) :
    Prop :=
  ∃ row ∈ rows, schema.valueOf row.key row.record field = .ok v

namespace Grouping

/-- Adds rows one after the other. -/
def addAll (g : Grouping κ ρ) (rows : List (Row κ ρ)) : Except Error (Grouping κ ρ) :=
  rows.foldlM (fun g row => g.add row.key row.record) g

omit [CustomKind κ] in
/-- Grouping starts exactly if the schema has the fields, and without groups. -/
theorem start_eq_ok {g : Grouping κ ρ} : start schema fields = .ok g ↔
    schema.requireFields fields = .ok () ∧ g = ⟨schema, fields, []⟩ := by
  unfold start
  cases schema.requireFields fields with
  | error e => simp [Except.map]
  | ok _ => simp [Except.map, eq_comm]

/-! ## Rows that are handed to the sink -/

section Delivery

open Delivery

variable {d d' : Delivery (Grouping κ ρ)} {demand : Demand}

/-- Without paging each row is added. -/
theorem ends_offer_sink {row : Row κ ρ} (hskip : d.skip = 0) (hremaining : d.remaining = none) :
    (offer sink row).Ends d demand d' ↔ demand = .more ∧ ∃ g,
      d.inner.add row.key row.record = .ok g ∧
      d' = { d.mark row.rawKey with delivered := d.delivered + 1, inner := g } := by
  obtain ⟨seen, skip, remaining, delivered, inner⟩ := d
  cases hskip
  cases hremaining
  unfold Step.Ends offer sink
  dsimp only [mark]
  cases inner.add row.key row.record with
  | error e =>
    constructor
    · rintro ⟨⟨⟩, -⟩
    · rintro ⟨-, g, ⟨⟩, -⟩
  | ok g =>
    constructor
    · rintro ⟨⟨⟩, rfl⟩
      exact ⟨rfl, g, rfl, rfl⟩
    · rintro ⟨rfl, g, ⟨⟩, rfl⟩
      exact ⟨rfl, rfl⟩

/-- Without paging, offering rows to the grouping sink is adding them one after the other. -/
theorem ends_offerAll_sink {g : Grouping κ ρ} : ∀ {rows : List (Row κ ρ)}
    {d : Delivery (Grouping κ ρ)}, d.skip = 0 → d.remaining = none →
    ((∃ d', (offerAll sink rows).Ends d demand d' ∧ d'.inner = g) ↔
      demand = .more ∧ d.inner.addAll rows = .ok g)
  | [], d, _, _ => by
    constructor
    · rintro ⟨d', h, rfl⟩
      obtain ⟨rfl, rfl⟩ := Step.ends_pure.mp h
      exact ⟨rfl, rfl⟩
    · rintro ⟨rfl, ⟨⟩⟩
      exact ⟨d, Step.ends_pure.mpr ⟨rfl, rfl⟩, rfl⟩
  | row :: rows, d, hskip, hremaining => by
    have hall : d.inner.addAll (row :: rows) =
        d.inner.add row.key row.record >>= fun g => g.addAll rows := List.foldlM_cons
    rw [hall, bind_eq_ok]
    have hrest : ∀ g₁ : Grouping κ ρ, (∃ d', (offerAll sink rows).Ends
        { d.mark row.rawKey with delivered := d.delivered + 1, inner := g₁ } demand d' ∧ d'.inner = g) ↔
          demand = .more ∧ g₁.addAll rows = .ok g := fun _ => ends_offerAll_sink hskip hremaining
    constructor
    · rintro ⟨d', h, hg⟩
      rw [offerAll, Step.ends_bind] at h
      obtain ⟨demand₁, d₁, hoffer, h⟩ := h
      obtain ⟨rfl, g₁, hadd, rfl⟩ := (ends_offer_sink hskip hremaining).mp hoffer
      obtain ⟨hdemand, hall⟩ := (hrest g₁).mp ⟨d', h, hg⟩
      exact ⟨hdemand, g₁, hadd, hall⟩
    · rintro ⟨hdemand, g₁, hadd, hall⟩
      have hoffer := (ends_offer_sink hskip hremaining).mpr ⟨rfl, g₁, hadd, rfl⟩
      obtain ⟨d', h, hg⟩ := (hrest g₁).mpr ⟨hdemand, hall⟩
      exact ⟨d', by rw [offerAll, Step.ends_bind]; exact ⟨.more, _, hoffer, h⟩, hg⟩

end Delivery

end Grouping

/-- The rows of a query without ordering and paging are those that its terms hand to any sink. -/
theorem View.rows_withoutOrder_iff {v : View κ ρ} {q : Query κ ρ} {rows : List (Row κ ρ)} :
    (v.rows q.withoutOrder).result = .ok rows ↔
      Delivery.Offers (fun _ sink => v.answerTerms sink q.terms)
        (if q.hasBranches then some [] else none) .more rows := by
  have hopening : View.opening q.withoutOrder = View.start q 0 none := rfl
  rw [View.rows_iff, if_neg (by rintro ⟨⟩), hopening]
  constructor
  · rintro ⟨demand, d, hterms, hrows⟩
    obtain ⟨offered, hoffered, hoffers⟩ := View.offers_answerTerms hterms
    obtain ⟨demand', d', hends, hkept, hmore⟩ :=
      Delivery.exists_offerAll_window offered (View.start q 0 none) (by rintro ⟨⟩)
    obtain ⟨rfl, rfl⟩ := hoffered.unique hends
    obtain rfl : offered = rows := hkept.symm.trans (Except.ok.inj hrows)
    obtain rfl := hmore rfl
    exact hoffers
  · intro h
    obtain ⟨demand, d, hends, hkept, hmore⟩ :=
      Delivery.exists_offerAll_window rows (View.start q 0 none) (by rintro ⟨⟩)
    exact ⟨demand, d, (h _ View.keepRow _ rfl (.inl rfl)).ends_iff.mpr hends, congrArg _ hkept⟩

/-- The groups of a query are what the rows of its selection make of no groups when they are added one
after the other. -/
theorem Store.findGroups_iff {s : Store} {t : RecordType κ ρ} {b : Buckets} {q : Query κ ρ}
    {groups : List (Group κ ρ)} :
    (s.findGroups t b q fields).result = .ok groups ↔ t.schema.requireFields fields = .ok () ∧
      ∃ rows g, (s.find t b q.withoutOrder).result = .ok rows ∧
        (Grouping.mk t.schema fields []).addAll rows = .ok g ∧ g.groups = groups := by
  have hselect : (s.findGroups t b q fields).result = .ok groups ↔
      t.schema.requireFields fields = .ok () ∧ ∃ n g, ((s.view t b).select q.withoutOrder 0 none
        Grouping.sink).Ends ⟨t.schema, fields, []⟩ n g ∧ g.groups = groups := by
    unfold Store.findGroups
    rw [Traced.result_bind_eq_ok]
    constructor
    · rintro ⟨start, hstart, h⟩
      obtain ⟨hfields, rfl⟩ := Grouping.start_eq_ok.mp hstart
      obtain ⟨n, hrun, hgroups⟩ := Traced.result_bind_eq_ok.mp h
      exact ⟨hfields, n, _, ⟨hrun, rfl⟩, Except.ok.inj hgroups⟩
    · rintro ⟨hfields, n, g, ⟨hrun, rfl⟩, rfl⟩
      exact ⟨_, Grouping.start_eq_ok.mpr ⟨hfields, rfl⟩, Traced.result_bind_eq_ok.mpr ⟨n, hrun, rfl⟩⟩
  -- A selection into the grouping sink is one of rows that are added afterwards.
  rw [hselect]
  refine and_congr_right fun _ => ?_
  simp only [View.ends_select]
  constructor
  · rintro ⟨n, g, ⟨demand, d, hterms, -, rfl⟩, hgroups⟩
    obtain ⟨rows, hrows, hoffers⟩ := View.offers_answerTerms hterms
    obtain ⟨rfl, hall⟩ := (Grouping.ends_offerAll_sink rfl rfl).mp ⟨d, hrows, rfl⟩
    exact ⟨rows, d.inner, View.rows_withoutOrder_iff.mpr hoffers, hall, hgroups⟩
  · rintro ⟨rows, g, hrows, hall, hgroups⟩
    have hoffers := View.rows_withoutOrder_iff.mp hrows
    obtain ⟨d, hends, rfl⟩ :=
      (Grouping.ends_offerAll_sink (d := ⟨_, 0, none, 0, _⟩) rfl rfl).mpr ⟨rfl, hall⟩
    exact ⟨d.delivered, d.inner,
      ⟨.more, d, (hoffers _ Grouping.sink _ rfl (.inl rfl)).ends_iff.mpr hends, rfl, rfl⟩, hgroups⟩

namespace Grouping

/-! ## Halving -/

/-- Comparing is consistent on the tuples that occur among some rows: it is transitive there, and the
values of the user's own kind among the components swap. -/
structure Consistent (schema : Schema κ ρ) (fields : List String) (rows : List (Row κ ρ)) : Prop where
  climbs : Climbs cmpTuple (Row.GroupTuples schema fields rows)
  customs : ∀ field ∈ fields, CustomsSwap (Row.GroupValues schema rows field)

variable {rows : List (Row κ ρ)}

omit [CustomKind κ] in
/-- The components of a tuple are values of the fields. -/
theorem values_groupKey {tuple : List (Value κ)} (h : Row.GroupTuples schema fields rows tuple) :
    List.Forall₂ (fun D v => D v) (fields.map (Row.GroupValues schema rows)) tuple := by
  obtain ⟨row, hrow, htuple⟩ := h
  exact List.forall₂_map_left_iff.mpr ((forall₂_of_mapM htuple).imp fun _ _ hv => ⟨row, hrow, hv⟩)

/-- The order of the tuples of some rows. -/
def Consistent.order (h : Consistent schema fields rows) : FallibleOrder (List (Value κ)) :=
  have hswaps : ∀ D ∈ fields.map (Row.GroupValues schema rows), Swaps D :=
    List.forall_mem_map.mpr fun field hfield => (h.customs field hfield).swaps
  have hswap : ∀ {a b o}, Row.GroupTuples schema fields rows a → Row.GroupTuples schema fields rows b →
      cmpTuple a b = .ok o → cmpTuple b a = .ok o.swap :=
    fun ha hb => cmpTuple_swap hswaps (values_groupKey ha) (values_groupKey hb)
  { cmp := cmpTuple
    On := Row.GroupTuples schema fields rows
    self := fun ha => cmpTuple_self hswaps (values_groupKey ha)
    swap := hswap
    climbs := h.climbs.then_eq hswap }

/-- Values of the built-in kinds are enough if comparing is transitive on those of each field. -/
theorem Consistent.of_transits
    (hcustom : ∀ field ∈ fields, ∀ v, Row.GroupValues schema rows field v → ∀ c, v ≠ .custom c)
    (htransits : ∀ field ∈ fields, ∀ a b c, Row.GroupValues schema rows field a →
      Row.GroupValues schema rows field b → Row.GroupValues schema rows field c → a.Transits b c) :
    Consistent schema fields rows := by
  have hcustoms := fun field hfield => customsSwap_of_none (hcustom field hfield)
  have hordered : ∀ D ∈ fields.map (Row.GroupValues schema rows), Ordered D :=
    List.forall_mem_map.mpr fun field hfield => ordered_of_climbs
      (climbs_of_transits (htransits field hfield) (hcustom field hfield)) (hcustoms field hfield)
  refine ⟨fun a b c o o' ha hb hc hab hbc hne hne' => ?_, hcustoms⟩
  refine ⟨o.then o', (tupleOrder hordered).climbs (values_groupKey ha) (values_groupKey hb)
    (values_groupKey hc) hab hbc hne hne', ?_⟩
  cases o <;> cases o' <;> simp at hne hne' ⊢

section Search

variable {h : Consistent schema fields rows} {groups : List (Group κ ρ)} {tuple : List (Value κ)}

/-- Where a tuple has its place among groups in ascending order: at the group that ties with it, or
between those before it and those after it. -/
def Places (h : Consistent schema fields rows) (groups : List (Group κ ρ)) (tuple : List (Value κ)) :
    Place → Prop
  | .at i => ∃ front g behind, groups = front ++ g :: behind ∧ front.length = i ∧
      cmpTuple g.key tuple = .ok .eq
  | .before i => (∀ g ∈ groups.take i, h.order.Lt g.key tuple) ∧
      ∀ g ∈ groups.drop i, h.order.Lt tuple g.key

/-- Halving finds the place. What is below `low` is before the tuple and what is from `high` on is after
it, and each comparison with a group in the middle moves one of the two past it. -/
theorem search_places
    (hascends : groups.Pairwise fun g g' => h.order.Lt g.key g'.key)
    (hgroups : ∀ g ∈ groups, h.order.On g.key)
    (htuple : h.order.On tuple) : ∀ {low high : Nat} {place : Place},
    high ≤ groups.length → (∀ g ∈ groups.take low, h.order.Lt g.key tuple) →
    (∀ g ∈ groups.drop high, h.order.Lt tuple g.key) → low ≤ high →
    search groups tuple low high = .ok place → Places h groups tuple place
  | low, high, place, hhigh, hbelow, habove, hle, hsearch => by
    unfold search at hsearch
    split at hsearch
    next hlt =>
      -- The binary search: the group in the middle divides those before it from those behind it.
      obtain ⟨mid, hmid⟩ : ∃ mid, mid = low + (high - low) / 2 := ⟨_, rfl⟩
      have hlow : low ≤ mid := by omega
      have hmidHigh : mid < high := by omega
      have hlength : mid < groups.length := by omega
      dsimp only at hsearch
      rw [← hmid, List.getElem?_eq_getElem hlength, Option.map_some] at hsearch
      dsimp only at hsearch
      have hsplit : groups.take mid ++ groups[mid] :: groups.drop (mid + 1) = groups := by
        rw [List.getElem_cons_drop, List.take_append_drop]
      have hparts := hascends
      rw [← hsplit, List.pairwise_append] at hparts
      obtain ⟨-, hbehind, hfront⟩ := hparts
      have hfront := fun g hg => hfront g hg groups[mid] (List.mem_cons_self ..)
      have hbehind := (List.pairwise_cons.mp hbehind).1
      have hon : h.order.On groups[mid].key := hgroups _ (List.getElem_mem hlength)
      split at hsearch
      next => cases hsearch
      next hcmp =>
        -- The middle group is before the tuple, and all groups before it are too.
        have hbefore : h.order.Lt groups[mid].key tuple := ⟨hon, htuple, hcmp⟩
        refine search_places hascends hgroups htuple hhigh ?_ habove (by omega) hsearch
        rw [List.take_succ_eq_append_getElem hlength]
        refine List.forall_mem_append.mpr ⟨fun g hg => (hfront g hg).trans_le hbefore.le, ?_⟩
        intro g hg
        rwa [List.mem_singleton.mp hg]
      next hcmp =>
        -- The middle group is behind the tuple, and all groups behind it are too.
        have hafter : h.order.Lt tuple groups[mid].key :=
          ⟨htuple, hon, h.order.swap hon htuple hcmp⟩
        refine search_places hascends hgroups htuple hlength.le hbelow ?_ hlow hsearch
        rw [← List.getElem_cons_drop hlength]
        exact List.forall_mem_cons.mpr ⟨hafter, fun g hg => hafter.trans_le (hbehind g hg).le⟩
      next hcmp =>
        cases hsearch
        exact ⟨_, _, _, hsplit.symm, List.length_take_of_le hlength.le, hcmp⟩
    next hge =>
      cases hsearch
      obtain rfl : low = high := by omega
      exact ⟨hbelow, habove⟩
  termination_by low high => high - low

end Search

/-! ## The partition -/

/-- Whether the tuple of a row compares equal to another one. -/
def groupTies (schema : Schema κ ρ) (fields : List String) : List (Value κ) → Row κ ρ → Bool :=
  tiesBy (Row.groupKey schema fields) cmpTuple

/-- A row ties with a tuple as its own tuple does. -/
theorem groupTies_of_groupKey {row : Row κ ρ} {tuple k : List (Value κ)}
    (h : row.groupKey schema fields = .ok tuple) :
    groupTies schema fields k row = ties cmpTuple k tuple := by
  unfold groupTies tiesBy
  rw [h]

/-- The groups split the rows: they go strictly up, each has the tuple of one of the rows and the records
of all rows whose tuples equal that in the order of the rows, and each row is in one of them. -/
structure Partitions (schema : Schema κ ρ) (fields : List String) (rows : List (Row κ ρ))
    (groups : List (Group κ ρ)) : Prop where
  ascends : (groups.map (·.key)).Pairwise fun a b => cmpTuple a b = .ok .lt
  keys : ∀ g ∈ groups, Row.GroupTuples schema fields rows g.key
  members : ∀ g ∈ groups, g.members = (rows.filter (groupTies schema fields g.key)).map (·.record)
  nonempty : ∀ g ∈ groups, g.members ≠ []
  covers : ∀ row ∈ rows, ∃ g ∈ groups, groupTies schema fields g.key row = true
  counted : (groups.map (·.count)).sum = rows.length

namespace Partitions

variable {h : Consistent schema fields rows} {added : List (Row κ ρ)} {groups : List (Group κ ρ)}
  {row : Row κ ρ} {tuple : List (Value κ)}

theorem nil : Partitions schema fields ([] : List (Row κ ρ)) [] where
  ascends := .nil
  keys _ hg := absurd hg List.not_mem_nil
  members _ hg := absurd hg List.not_mem_nil
  nonempty _ hg := absurd hg List.not_mem_nil
  covers _ hrow := absurd hrow List.not_mem_nil
  counted := rfl

omit [CustomKind κ] in
theorem exists_of_keys {gs gs' : List (Group κ ρ)} (h : gs.map (·.key) = gs'.map (·.key))
    {g : Group κ ρ} (hg : g ∈ gs) : ∃ g' ∈ gs', g'.key = g.key :=
  List.mem_map.mp (h ▸ List.mem_map_of_mem hg)

/-- A group whose tuple does not tie with that of a further row does not get its record. -/
theorem members_append {g : Group κ ρ} (hp : Partitions schema fields added groups) (hg : g ∈ groups)
    (hnot : groupTies schema fields g.key row = false) :
    g.members = ((added ++ [row]).filter (groupTies schema fields g.key)).map (·.record) := by
  rw [List.filter_append, List.filter_singleton, hnot, cond_false, List.append_nil]
  exact hp.members g hg

/-- A row joins the group whose tuple its own ties with. It ties with no other group, since those are
strictly before or after that one. -/
theorem join {front behind : List (Group κ ρ)} {g : Group κ ρ} (h : Consistent schema fields rows)
    (hadded : ∀ r ∈ added, r ∈ rows) (hp : Partitions schema fields added (front ++ g :: behind))
    (hrow : row ∈ rows) (hkey : row.groupKey schema fields = .ok tuple)
    (htie : cmpTuple g.key tuple = .ok .eq) :
    Partitions schema fields (added ++ [row]) (front ++ g.push row.record :: behind) := by
  have hkeys : (front ++ g.push row.record :: behind).map (·.key) =
      (front ++ g :: behind).map (·.key) := by
    rw [List.map_append, List.map_cons, List.map_append, List.map_cons]
    rfl
  have hon : ∀ g' ∈ front ++ g :: behind, h.order.On g'.key := fun g' hg' => by
    obtain ⟨r, hr, hk⟩ := hp.keys g' hg'
    exact ⟨r, hadded r hr, hk⟩
  have htuple : h.order.On tuple := ⟨row, hrow, hkey⟩
  have hmem : ∀ {g' : Group κ ρ}, g' ∈ front → g' ∈ front ++ g :: behind := List.mem_append_left _
  have hmem' : ∀ {g' : Group κ ρ}, g' ∈ g :: behind → g' ∈ front ++ g :: behind :=
    List.mem_append_right _
  have hg := hon g (hmem' (List.mem_cons_self ..))
  obtain ⟨-, hbehind, hfront⟩ := List.pairwise_append.mp (List.pairwise_map.mp hp.ascends)
  -- The groups in front and behind stay apart from a tuple that ties with `g`.
  have hbefore : ∀ g' ∈ front, groupTies schema fields g'.key row = false := fun g' hg' => by
    have hlt : h.order.Lt g'.key g.key :=
      ⟨hon g' (hmem hg'), hg, hfront g' hg' g (List.mem_cons_self ..)⟩
    rw [groupTies_of_groupKey hkey]
    exact (hlt.trans_le ⟨hg, htuple, .eq, htie, by decide⟩).ties_eq_false.1
  have hafter : ∀ g' ∈ behind, groupTies schema fields g'.key row = false := fun g' hg' => by
    have hlt : h.order.Lt g.key g'.key :=
      ⟨hg, hon g' (hmem' (List.mem_cons_of_mem g hg')), (List.pairwise_cons.mp hbehind).1 g' hg'⟩
    have hle : h.order.Le tuple g.key := ⟨htuple, hg, .eq, h.order.swap hg htuple htie, by decide⟩
    rw [groupTies_of_groupKey hkey]
    exact (hle.trans_lt hlt).ties_eq_false.2
  have hties : groupTies schema fields g.key row = true := by
    rw [groupTies_of_groupKey hkey]
    exact ties_iff.mpr htie
  -- Only the members of `g` change, by the record at their end; the keys stay.
  refine ⟨hkeys ▸ hp.ascends, fun g' hg' => ?_, ?_, ?_, fun r hr => ?_, ?_⟩
  · obtain ⟨g'', hg'', hsame⟩ := exists_of_keys hkeys hg'
    obtain ⟨r, hr, hk⟩ := hp.keys g'' hg''
    exact ⟨r, List.mem_append_left _ hr, hsame ▸ hk⟩
  · refine List.forall_mem_append.mpr ⟨fun g' hg' => hp.members_append (hmem hg') (hbefore g' hg'),
      List.forall_mem_cons.mpr ⟨?_, fun g' hg' =>
        hp.members_append (hmem' (List.mem_cons_of_mem g hg')) (hafter g' hg')⟩⟩
    show g.members ++ [row.record] =
      ((added ++ [row]).filter (groupTies schema fields g.key)).map (·.record)
    rw [List.filter_append, List.filter_singleton, hties, cond_true, List.map_append,
      ← hp.members g (hmem' (List.mem_cons_self ..))]
    rfl
  · refine List.forall_mem_append.mpr ⟨fun g' hg' => hp.nonempty g' (hmem hg'),
      List.forall_mem_cons.mpr ⟨List.append_ne_nil_of_right_ne_nil _ (List.cons_ne_nil _ _),
        fun g' hg' => hp.nonempty g' (hmem' (List.mem_cons_of_mem g hg'))⟩⟩
  · rcases List.mem_append.mp hr with hr | hr
    · obtain ⟨g', hg', htie'⟩ := hp.covers r hr
      obtain ⟨g'', hg'', hsame⟩ := exists_of_keys hkeys.symm hg'
      exact ⟨g'', hg'', hsame ▸ htie'⟩
    · rw [List.mem_singleton.mp hr]
      exact ⟨_, List.mem_append_right _ (List.mem_cons_self ..), hties⟩
  · have hcounted := hp.counted
    have hpush : (g.push row.record).count = g.count + 1 := List.length_append
    simp only [List.map_append, List.map_cons, List.sum_append, List.sum_cons, hpush,
      List.length_append, List.length_singleton] at hcounted ⊢
    omega

/-- A row that ties with no group begins one between those before and those after it. No earlier row
ties with it either, since each ties with one of the groups. -/
theorem insert {front behind : List (Group κ ρ)} (h : Consistent schema fields rows)
    (hadded : ∀ r ∈ added, r ∈ rows) (hp : Partitions schema fields added (front ++ behind))
    (hrow : row ∈ rows) (hkey : row.groupKey schema fields = .ok tuple)
    (hfront : ∀ g ∈ front, h.order.Lt g.key tuple) (hbehind : ∀ g ∈ behind, h.order.Lt tuple g.key) :
    Partitions schema fields (added ++ [row])
      (front ++ ⟨tuple, [row.record], none⟩ :: behind) := by
  have htuple : h.order.On tuple := ⟨row, hrow, hkey⟩
  -- The row belongs to no group that there is already.
  have hnot : ∀ g ∈ front ++ behind, groupTies schema fields g.key row = false := by
    refine List.forall_mem_append.mpr ⟨fun g hg => ?_, fun g hg => ?_⟩
    · rw [groupTies_of_groupKey hkey]
      exact (hfront g hg).ties_eq_false.1
    · rw [groupTies_of_groupKey hkey]
      exact (hbehind g hg).ties_eq_false.2
  -- No earlier row ties with the new tuple: its group would, and that is strictly before or after.
  have hearlier : ∀ r ∈ added, groupTies schema fields tuple r = false := fun r hr => by
    obtain ⟨g, hg, htie⟩ := hp.covers r hr
    cases hk : r.groupKey schema fields with
    | error e =>
      unfold groupTies tiesBy
      rw [hk]
    | ok k =>
      have hon : h.order.On k := ⟨r, hadded r hr, hk⟩
      rw [groupTies_of_groupKey hk] at htie ⊢
      have hcmp : h.order.cmp g.key k = .ok .eq := ties_iff.mp htie
      rcases List.mem_append.mp hg with hg | hg
      · have hg := hfront g hg
        have hle : h.order.Le k g.key := ⟨hon, hg.1, .eq, h.order.swap hg.1 hon hcmp, by decide⟩
        exact (hle.trans_lt hg).ties_eq_false.2
      · have hg := hbehind g hg
        exact (hg.trans_le ⟨hg.2.1, hon, .eq, hcmp, by decide⟩).ties_eq_false.1
  have hties : groupTies schema fields tuple row = true := by
    rw [groupTies_of_groupKey hkey]
    exact ties_iff.mpr (h.order.self htuple)
  -- What holds of the new group and of all others holds of the groups together.
  have hold : ∀ {P : Group κ ρ → Prop}, P ⟨tuple, [row.record], none⟩ →
      (∀ g ∈ front ++ behind, P g) → ∀ g ∈ front ++ ⟨tuple, [row.record], none⟩ :: behind, P g :=
    fun hnew hall => List.forall_mem_append.mpr ⟨(List.forall_mem_append.mp hall).1,
      List.forall_mem_cons.mpr ⟨hnew, (List.forall_mem_append.mp hall).2⟩⟩
  refine ⟨?_, hold ?_ fun g hg => ?_, hold ?_ fun g hg => ?_, hold ?_ hp.nonempty, fun r hr => ?_, ?_⟩
  · obtain ⟨hf, hb, hcross⟩ := List.pairwise_append.mp (List.pairwise_map.mp hp.ascends)
    refine List.pairwise_map.mpr (List.pairwise_append.mpr ⟨hf, List.pairwise_cons.mpr ⟨?_, hb⟩, ?_⟩)
    · exact fun g hg => (hbehind g hg).2.2
    · exact fun g hg => List.forall_mem_cons.mpr ⟨(hfront g hg).2.2, hcross g hg⟩
  · exact ⟨row, List.mem_append_right _ (List.mem_singleton_self row), hkey⟩
  · obtain ⟨r, hr, hk⟩ := hp.keys g hg
    exact ⟨r, List.mem_append_left _ hr, hk⟩
  · show [row.record] = ((added ++ [row]).filter (groupTies schema fields tuple)).map (·.record)
    rw [List.filter_append, List.filter_eq_nil_iff.mpr fun r hr => Bool.not_eq_true _ ▸ hearlier r hr,
      List.filter_singleton, hties]
    rfl
  · exact hp.members_append hg (hnot g hg)
  · exact List.cons_ne_nil _ _
  · rcases List.mem_append.mp hr with hr | hr
    · obtain ⟨g, hg, htie⟩ := hp.covers r hr
      refine ⟨g, ?_, htie⟩
      rcases List.mem_append.mp hg with hg | hg
      · exact List.mem_append_left _ hg
      · exact List.mem_append_right _ (List.mem_cons_of_mem _ hg)
    · rw [List.mem_singleton.mp hr]
      exact ⟨_, List.mem_append_right _ (List.mem_cons_self ..), hties⟩
  · have hcounted := hp.counted
    have hnew : (⟨tuple, [row.record], none⟩ : Group κ ρ).count = 1 := rfl
    simp only [List.map_append, List.map_cons, List.sum_append, List.sum_cons, hnew,
      List.length_append, List.length_singleton] at hcounted ⊢
    omega

/-- Adding a row keeps the groups a partition. -/
theorem add {g : Grouping κ ρ} (h : Consistent schema fields rows) (hadded : ∀ r ∈ added, r ∈ rows)
    (hp : Partitions schema fields added groups) (hrow : row ∈ rows)
    (hadd : (Grouping.mk schema fields groups).add row.key row.record = .ok g) :
    ∃ groups', g = ⟨schema, fields, groups'⟩ ∧ Partitions schema fields (added ++ [row]) groups' := by
  obtain ⟨tuple, hkey, hadd⟩ := bind_eq_ok.mp hadd
  obtain ⟨place, hsearch, hadd⟩ := bind_eq_ok.mp hadd
  have hon : ∀ g ∈ groups, h.order.On g.key := fun g hg => by
    obtain ⟨r, hr, hk⟩ := hp.keys g hg
    exact ⟨r, hadded r hr, hk⟩
  have hascends : groups.Pairwise fun g g' => h.order.Lt g.key g'.key :=
    (List.pairwise_map.mp hp.ascends).imp_of_mem fun hg hg' hlt => ⟨hon _ hg, hon _ hg', hlt⟩
  have hplaces := search_places hascends hon ⟨row, hrow, hkey⟩ le_rfl
    (fun g hg => absurd hg List.not_mem_nil)
    (fun g hg => absurd (List.drop_length ▸ hg) List.not_mem_nil) (Nat.zero_le _) hsearch
  cases place with
  | «at» i =>
    obtain ⟨front, g, behind, rfl, rfl, htie⟩ := hplaces
    cases hadd
    refine ⟨_, rfl, ?_⟩
    rw [List.modify_eq_take_drop, List.take_left, List.drop_left]
    exact hp.join h hadded hrow hkey htie
  | before i =>
    obtain ⟨hfront, hbehind⟩ := hplaces
    cases hadd
    exact ⟨_, rfl, insert h hadded ((List.take_append_drop i groups).symm ▸ hp) hrow hkey hfront hbehind⟩

/-- So does adding rows one after the other. -/
theorem addAll (h : Consistent schema fields rows) {g : Grouping κ ρ} :
    ∀ {further added : List (Row κ ρ)} {groups : List (Group κ ρ)},
      (∀ r ∈ added ++ further, r ∈ rows) → Partitions schema fields added groups →
      (Grouping.mk schema fields groups).addAll further = .ok g →
      Partitions schema fields (added ++ further) g.groups
  | [], added, groups, _, hp, hall => by
    cases hall
    rwa [List.append_nil]
  | row :: further, added, groups, hmem, hp, hall => by
    unfold Grouping.addAll at hall
    rw [List.foldlM_cons] at hall
    obtain ⟨g₁, hadd, hall⟩ := bind_eq_ok.mp hall
    obtain ⟨groups', rfl, hp'⟩ := hp.add h (fun r hr => hmem r (List.mem_append_left _ hr))
      (hmem row (List.mem_append_right _ (List.mem_cons_self ..))) hadd
    rw [List.append_cons] at hmem ⊢
    exact addAll h hmem hp' hall

end Partitions

end Grouping

namespace Store

/-- Grouping splits the rows of the selection of a query by their tuples, if comparing is consistent on
these. The order and the paging of the query do not count. -/
theorem findGroups_partitions {s : Store} {t : RecordType κ ρ} {b : Buckets} {q : Query κ ρ}
    {groups : List (Group κ ρ)} (h : (s.findGroups t b q fields).result = .ok groups) :
    (∃ rows, (s.find t b q.withoutOrder).result = .ok rows ∧
      (Grouping.Consistent t.schema fields rows →
        Grouping.Partitions t.schema fields rows groups)) ∧
    ∀ sort reverse skip limit, s.findGroups t b ⟨q.selection, sort, reverse, skip, limit⟩ fields =
      s.findGroups t b q fields := by
  refine ⟨?_, fun _ _ _ _ => rfl⟩
  obtain ⟨-, rows, g, hrows, hall, rfl⟩ := findGroups_iff.mp h
  exact ⟨rows, hrows, fun hconsistent =>
    Grouping.Partitions.addAll hconsistent (fun _ hr => hr) .nil hall⟩

section Parcels

/-- The parcels of `twoParcels` in key order. -/
def parcelRows : List (Row Empty Bool) :=
  [⟨.int 3, true, Keycode.encode (.uint 3 : Value Empty)⟩,
    ⟨.float ⟨0x4004000000000000⟩, false, Keycode.encode (.float ⟨0x4004000000000000⟩ : Value Empty)⟩]

theorem find_twoParcels : (standard.find parcels twoParcels .all).result = .ok parcelRows := by
  refine find_all ?_
  rw [entries_twoParcels]
  generalize twoParcels = b
  exact .cons ⟨rfl, by cbv, by cbv⟩ (.cons ⟨rfl, by cbv, by cbv⟩ .nil)

/-- The light parcel comes first when they are grouped by weight. -/
theorem findGroups_weights : (standard.findGroups parcels twoParcels .all ["weight"]).result =
    .ok [⟨[.int 1], [false], none⟩, ⟨[.int 30], [true], none⟩] :=
  findGroups_iff.mpr ⟨rfl, parcelRows, ⟨parcels.schema, ["weight"], _⟩, find_twoParcels, by cbv, rfl⟩

theorem consistent_weights : Grouping.Consistent parcels.schema ["weight"] parcelRows := by
  refine .of_transits (fun _ _ _ _ c => c.elim) fun field hfield => transits_of_ints ?_
  rintro v ⟨row, -, hv⟩
  cases List.mem_singleton.mp hfield
  cases hv
  exact ⟨_, rfl⟩

/-- The parcels are split by their weights. -/
theorem findGroups_partitions_parcels : ∃ groups,
    (standard.findGroups parcels twoParcels .all ["weight"]).result = .ok groups ∧
    Grouping.Consistent parcels.schema ["weight"] parcelRows ∧
    Grouping.Partitions parcels.schema ["weight"] parcelRows groups := by
  obtain ⟨⟨rows, hrows, hpartitions⟩, -⟩ := findGroups_partitions findGroups_weights
  cases find_twoParcels.symm.trans hrows
  exact ⟨_, findGroups_weights, consistent_weights, hpartitions consistent_weights⟩

end Parcels

section Dials

/-- Values that are ordered by their bytes, upwards or downwards. -/
inductive Turn where
  | up (bytes : Bytes)
  | down (bytes : Bytes)

/-- The bytes of a value. -/
def Turn.bytes : Turn → Bytes
  | .up b => b
  | .down b => b

/-- Each value compares by its own direction. -/
instance : CustomKind Turn where
  compareTo
    | .up b, .custom c => .ok (compare b c.bytes)
    | .down b, .custom c => .ok (compare c.bytes b)
    | _, v => .error (.typeMismatch "turn" v.kind.name)
  toBytes := Turn.bytes
  text _ := "turn"

/-- The position of a dial: turned up by two or one, or turned down. -/
def positionOf : Option Bool → Value Turn
  | some true => .custom (.up [0x02])
  | some false => .custom (.up [0x01])
  | none => .custom (.down [0x00])

/-- Dials. -/
def dials : RecordType Turn (Option Bool) where
  schema :=
    { typeName := "Dials"
      fields := SortedMap.empty.insert "position" positionOf
      indexes := .empty
      sliceIndexes := .empty }
  toJson?
    | some far => some (.bool far)
    | none => some .null
  ofJson?
    | .bool far => some (some far)
    | .null => some none
    | _ => none

/-- Four dials, the first and the last one in the same position. -/
def fourDials : Buckets :=
  [some true, none, some false, some true].zipIdx.foldl
    (fun b dial => (standard.insert dials (.uint (UInt64.ofNat dial.2)) dial.1 b).2) .empty

/-- These dials in key order. -/
def dialRows : List (Row Turn (Option Bool)) :=
  [⟨.int 0, some true, Keycode.encode (.uint 0 : Value Turn)⟩,
    ⟨.int 1, none, Keycode.encode (.uint 1 : Value Turn)⟩,
    ⟨.int 2, some false, Keycode.encode (.uint 2 : Value Turn)⟩,
    ⟨.int 3, some true, Keycode.encode (.uint 3 : Value Turn)⟩]

theorem entries_fourDials : fourDials.entries dials.name =
    [(Keycode.encode (.uint 0 : Value Turn), Text.utf8 "true"),
      (Keycode.encode (.uint 1 : Value Turn), Text.utf8 "null"),
      (Keycode.encode (.uint 2 : Value Turn), Text.utf8 "false"),
      (Keycode.encode (.uint 3 : Value Turn), Text.utf8 "true")] := by
  decide +kernel

theorem find_fourDials : (standard.find dials fourDials .all).result = .ok dialRows := by
  refine find_all ?_
  rw [entries_fourDials]
  generalize fourDials = b
  exact .cons ⟨rfl, by cbv, by cbv⟩ (.cons ⟨rfl, by cbv, by cbv⟩
    (.cons ⟨rfl, by cbv, by cbv⟩ (.cons ⟨rfl, by cbv, by cbv⟩ .nil)))

/-- The last dial does not find the group of the first one. -/
theorem findGroups_positions : (standard.findGroups dials fourDials .all ["position"]).result =
    .ok [⟨[positionOf (some false)], [some false], none⟩, ⟨[positionOf (some true)], [some true], none⟩,
      ⟨[positionOf none], [none], none⟩, ⟨[positionOf (some true)], [some true], none⟩] :=
  findGroups_iff.mpr ⟨rfl, dialRows, ⟨dials.schema, ["position"], _⟩, find_fourDials, by cbv, rfl⟩

/-- The positions that occur. -/
theorem mem_positions {a : List (Value Turn)}
    (h : Row.GroupTuples dials.schema ["position"] dialRows a) :
    a ∈ [[positionOf none], [positionOf (some false)], [positionOf (some true)]] := by
  obtain ⟨row, -, hrow⟩ := h
  cases hrow
  obtain ⟨-, record, -⟩ := row
  rcases record with _ | _ | _ <;> simp [positionOf]

/-- Positions compare transitively, though the comparison does not swap them. -/
theorem climbs_positions :
    Climbs cmpTuple (Row.GroupTuples dials.schema ["position"] dialRows) := by
  intro a b c o o' ha hb hc hab hbc hne hne'
  have ha := mem_positions ha
  have hb := mem_positions hb
  have hc := mem_positions hc
  simp only [List.mem_cons, List.not_mem_nil, or_false] at ha hb hc
  -- A position that is turned up and one that is turned down are each greater than the other.
  rcases ha with rfl | rfl | rfl <;> rcases hb with rfl | rfl | rfl <;> cases hab <;>
    first
    | exact absurd rfl hne
    | rcases hc with rfl | rfl | rfl <;> cases hbc <;>
        first
        | exact absurd rfl hne'
        | exact ⟨_, rfl, by decide, by decide⟩

/-- Comparing the positions is transitive, and two groups have the same one all the same. -/
theorem findGroups_dials : ∃ groups,
    (standard.find dials fourDials .all).result = .ok dialRows ∧
    (standard.findGroups dials fourDials .all ["position"]).result = .ok groups ∧
    Climbs cmpTuple (Row.GroupTuples dials.schema ["position"] dialRows) ∧
    ¬Grouping.Partitions dials.schema ["position"] dialRows groups := by
  refine ⟨_, find_fourDials, findGroups_positions, climbs_positions, fun h => ?_⟩
  have hmembers := h.members _ (List.mem_cons_of_mem _ (List.mem_cons_self ..))
  have hboth : (dialRows.filter (Grouping.groupTies dials.schema ["position"]
      [positionOf (some true)])).map (·.record) = [some true, some true] := by cbv
  cases hmembers.trans hboth

end Dials

end Store

end RecordStore
