import RecordStore.Proofs.Grouping

/-!
# Sorting the members of a group

A group remembers the field that its members are sorted by, and sorting by that field again does
nothing. Whatever was asked of a group before, its members are sorted by the field that it remembers
(`Remembers`), if the values of that field are consistently ordered. They stay the same members as long
as only fields are asked about that the type has, whether or not the values compare, and no sort stops
the program. A field that the type does not have leaves the group without members, and so does a sort
that is stopped (`members_after_eq_nil`).
-/

namespace RecordStore

open FallibleOrder Value

namespace Group

variable {κ ρ : Type}

/-- The values that a field has among the members. -/
def MemberValues (schema : Schema κ ρ) (g : Group κ ρ) (field : String) (v : Value κ) : Prop :=
  ∃ record ∈ g.members, schema.readField record field = .ok v

/-- A question that sorts the members. -/
inductive Call where
  | sort (field : String)
  | min (field : String)
  | max (field : String)

/-- The field that a question is about. -/
def Call.field : Call → String
  | .sort field => field
  | .min field => field
  | .max field => field

variable [CustomKind κ] {schema : Schema κ ρ} {field : String} {g start : Group κ ρ}

/-- What a question leaves of a group, whether it is answered or not. -/
def Call.run (schema : Schema κ ρ) (g : Group κ ρ) : Call → Group κ ρ
  | .sort field => (Group.sort schema field g).2
  | .min field => (Group.min schema field g).2
  | .max field => (Group.max schema field g).2

/-- What questions leave of a group. -/
def after (schema : Schema κ ρ) (g : Group κ ρ) (calls : List Call) : Group κ ρ :=
  calls.foldl (Call.run schema) g

/-! ## What one sort does -/

omit [CustomKind κ] in
/-- The values of a field can be read exactly if the type has the field. -/
theorem readField_eq_ok_iff {record : ρ} :
    (∃ v, schema.readField record field = .ok v) ↔ schema.fields.contains field = true := by
  show _ ↔ (schema.fields.find? field).isSome = true
  unfold Schema.readField
  cases schema.fields.find? field with
  | none => exact ⟨by rintro ⟨_, ⟨⟩⟩, by rintro ⟨⟩⟩
  | some get => exact ⟨fun _ => rfl, fun _ => ⟨_, rfl⟩⟩

/-- A sort by a field stops the program: it has to sort the members, and the library's sort gives up on
them. -/
def Stops (schema : Schema κ ρ) (field : String) (g : Group κ ρ) : Prop :=
  g.sortedBy ≠ some field ∧ ∃ keyed,
    (g.members.mapM fun record => (schema.readField record field).map (·, record)) = .ok keyed ∧
      stableSort (fun a b => a.1.cmp b.1) keyed = none

/-- A sort does nothing, or it takes out the members and does not put them back, or it puts them back in
the order that a stable sort leaves them in. -/
theorem sort_cases (schema : Schema κ ρ) (field : String) (g : Group κ ρ) :
    (g.sortedBy = some field ∧ sort schema field g = (pure (), g)) ∨
    (∃ e, schema.fields.contains field = false ∧
      sort schema field g = (.fail e, { g with members := [] })) ∨
    (g.Stops schema field ∧ sort schema field g = (.fail .orderViolation, { g with members := [] })) ∨
    ∃ keyed sorted, (g.members.mapM fun record =>
        (schema.readField record field).map (·, record)) = .ok keyed ∧
      ((∃ e, stableSort (fun a b => a.1.cmp b.1) keyed = some (sorted, some e) ∧
        sort schema field g = (.fail e, ⟨g.key, sorted.map (·.2), none⟩)) ∨
      (stableSort (fun a b => a.1.cmp b.1) keyed = some (sorted, none) ∧
        sort schema field g = (pure (), ⟨g.key, sorted.map (·.2), some field⟩))) := by
  unfold sort
  by_cases hcached : g.sortedBy = some field
  · rw [if_pos hcached]
    exact .inl ⟨hcached, rfl⟩
  rw [if_neg hcached]
  cases hkeyed : g.members.mapM fun record => (schema.readField record field).map (·, record) with
  | error e =>
    refine .inr (.inl ⟨e, ?_, rfl⟩)
    -- Reading a declared field does not fail.
    by_contra hdeclared
    obtain ⟨keyed, hok⟩ := exists_keyed g.members fun record _ =>
      readField_eq_ok_iff.mpr (Bool.not_eq_false _ ▸ hdeclared)
    cases hkeyed.symm.trans hok
  | ok keyed =>
    refine .inr (.inr ?_)
    cases hstable : stableSort (fun a b => a.1.cmp b.1) keyed with
    | none => exact .inl ⟨⟨hcached, keyed, hkeyed, hstable⟩, by simp only [hstable]⟩
    | some ended =>
      obtain ⟨sorted, failure⟩ := ended
      refine .inr ⟨keyed, sorted, rfl, ?_⟩
      cases failure with
      | some e => exact .inl ⟨e, hstable, by simp only [hstable]⟩
      | none => exact .inr ⟨hstable, by simp only [hstable]⟩

/-- A sort that stops the program has taken the members out. -/
theorem sort_of_stops (h : g.Stops schema field) :
    sort schema field g = (.fail .orderViolation, { g with members := [] }) := by
  obtain ⟨hcached, keyed, hkeyed, hstable⟩ := h
  unfold sort
  rw [if_neg hcached, hkeyed]
  dsimp only
  rw [hstable]

/-- The members that are put back are those that were taken out. -/
theorem perm_of_stableSort {keyed sorted : List (Value κ × ρ)} {failure : Option Error}
    (hkeyed : (g.members.mapM fun record =>
      (schema.readField record field).map (·, record)) = .ok keyed)
    (hstable : stableSort (fun a b => a.1.cmp b.1) keyed = some (sorted, failure)) :
    (sorted.map (·.2)).Perm g.members := by
  rw [← View.map_snd_of_mapM hkeyed]
  exact (perm_stableSort hstable).map _

/-- A sort keeps the members or loses all of them. It loses them if the type does not have the field, or
if it stops the program. -/
theorem members_sort (schema : Schema κ ρ) (field : String) (g : Group κ ρ) :
    (sort schema field g).2.members.Perm g.members ∨
      (sort schema field g).2.members = [] ∧
        (schema.fields.contains field = false ∨ g.Stops schema field) := by
  rcases sort_cases schema field g with ⟨-, h⟩ | ⟨e, hfield, h⟩ | ⟨hstops, h⟩ |
    ⟨keyed, sorted, hkeyed, ⟨e, hstable, h⟩ | ⟨hstable, h⟩⟩ <;> rw [h]
  · exact .inl (.refl _)
  · exact .inr ⟨rfl, .inl hfield⟩
  · exact .inr ⟨rfl, .inr hstops⟩
  · exact .inl (perm_of_stableSort hkeyed hstable)
  · exact .inl (perm_of_stableSort hkeyed hstable)

/-- A sort brings no members in. -/
theorem mem_of_mem_sort {record : ρ} (h : record ∈ (sort schema field g).2.members) :
    record ∈ g.members := by
  rcases members_sort schema field g with hperm | ⟨hnil, -⟩
  · exact hperm.mem_iff.mp h
  · rw [hnil] at h
    exact absurd h List.not_mem_nil

/-- Sorting by a field that the type has keeps the members, if the program is not stopped. -/
theorem perm_members_sort (hfield : schema.fields.contains field = true)
    (hgoes : ¬g.Stops schema field) : (sort schema field g).2.members.Perm g.members := by
  refine (members_sort schema field g).resolve_right ?_
  rintro ⟨-, hnot | hstops⟩
  · rw [hfield] at hnot
    cases hnot
  · exact hgoes hstops

/-- A group of a few members does not stop the program. -/
theorem not_stops_of_few (h : g.members.length ≤ StableSort.insertionLimit) :
    ¬g.Stops schema field := by
  rintro ⟨-, keyed, hkeyed, hstable⟩
  exact absurd h (Nat.not_le.mpr (insertionLimit_lt_of_stableSort_none hkeyed hstable))

/-- Sorting by a field that the type does not have leaves no members, if the field that is remembered is
one that the type has. -/
theorem members_sort_eq_nil (hfield : schema.fields.contains field = false)
    (hdeclared : ∀ f, g.sortedBy = some f → schema.fields.contains f = true ∨ g.members = []) :
    (sort schema field g).2.members = [] := by
  rcases sort_cases schema field g with ⟨hcached, h⟩ | ⟨e, -, h⟩ | ⟨-, h⟩ |
    ⟨keyed, sorted, hkeyed, hsorted⟩
  · rw [h]
    refine (hdeclared field hcached).resolve_left ?_
    rw [hfield]
    exact Bool.false_ne_true
  · rw [h]
  · rw [h]
  · -- No member has a value.
    have hnone : g.members = [] := by
      refine List.eq_nil_iff_forall_not_mem.mpr fun record hrecord => ?_
      rw [← View.map_snd_of_mapM hkeyed] at hrecord
      obtain ⟨p, hp, rfl⟩ := List.mem_map.mp hrecord
      have hread := readField_eq_ok_iff.mp ⟨p.1, key_of_mem hkeyed p hp⟩
      rw [hfield] at hread
      cases hread
    rcases hsorted with ⟨e, hstable, h⟩ | ⟨hstable, h⟩
    all_goals
      rw [h]
      exact (hnone ▸ perm_of_stableSort hkeyed hstable).eq_nil

theorem sortedBy_of_ends_sort {g' : Group κ ρ} (h : (sort schema field).Ends g () g') :
    g'.sortedBy = some field := by
  obtain ⟨hresult, rfl⟩ := h
  rcases sort_cases schema field g with ⟨hcached, h⟩ | ⟨e, -, h⟩ | ⟨-, h⟩ |
    ⟨_, _, -, ⟨e, -, h⟩ | ⟨-, h⟩⟩ <;> rw [h] at hresult ⊢
  · exact hcached
  all_goals cases hresult

/-! ## Questions one after the other -/

/-- What a group that was made of another one by questions knows: it has members of that one only, and
they are sorted by the field that it remembers, which is one that the type has. -/
structure Remembers (schema : Schema κ ρ) (start g : Group κ ρ) : Prop where
  members : ∀ record ∈ g.members, record ∈ start.members
  declared : ∀ field, g.sortedBy = some field →
    schema.fields.contains field = true ∨ g.members = []
  ascends : ∀ field, g.sortedBy = some field → Ordered (start.MemberValues schema field) →
    g.members.Pairwise (AtMost (schema.readField · field) cmp)

/-- A group that remembers no field has nothing to know. -/
theorem remembers_of_none (h : start.sortedBy = none) : Remembers schema start start where
  members _ hrecord := hrecord
  declared field hfield := by
    rw [h] at hfield
    cases hfield
  ascends field hfield := by
    rw [h] at hfield
    cases hfield

namespace Remembers

/-- A sort that is answered sorts the members, also one that does nothing. -/
theorem sorts {g' : Group κ ρ} (hg : Remembers schema start g)
    (hordered : Ordered (start.MemberValues schema field)) (h : (sort schema field).Ends g () g') :
    SortedBy (schema.readField · field) cmp g.members g'.members := by
  obtain ⟨hresult, rfl⟩ := h
  rcases sort_cases schema field g with ⟨hcached, h⟩ | ⟨e, -, h⟩ | ⟨-, h⟩ |
    ⟨keyed, sorted, hkeyed, ⟨e, -, h⟩ | ⟨hstable, h⟩⟩ <;> rw [h] at hresult ⊢
  · exact ⟨.refl _, hg.ascends field hcached hordered, fun _ _ _ _ => rfl⟩
  · cases hresult
  · cases hresult
  · cases hresult
  · refine sortedBy_of_stableSort (o := hordered.order) hkeyed (fun record hrecord v hv => ?_) hstable
    exact ⟨record, hg.members record hrecord, hv⟩

/-- A sort by a field whose values are consistently ordered and all compare does not stop the program. -/
theorem not_stops (hg : Remembers schema start g)
    (hordered : Ordered (start.MemberValues schema field))
    (hnone : ∀ e, ¬Clash (schema.readField · field) cmp start.members e) :
    ¬g.Stops schema field := by
  rintro ⟨-, keyed, hkeyed, hstable⟩
  rcases stableSort_keyed_cases (o := hordered.order) hkeyed
    (fun record hrecord v hv => ⟨record, hg.members record hrecord, hv⟩) with
    ⟨-, e, x, hx, y, hy, hclash⟩ | ⟨_, _, hrun, -⟩ | ⟨_, hrun, -⟩
  · exact hnone e ⟨x, hg.members x hx, y, hg.members y hy, hclash⟩
  all_goals cases hstable.symm.trans hrun

/-- A sort keeps what is known of a group. -/
theorem sort (hg : Remembers schema start g) (field : String) :
    Remembers schema start (Group.sort schema field g).2 := by
  refine ⟨fun record hrecord => hg.members record (mem_of_mem_sort hrecord), ?_, ?_⟩
  all_goals
    -- The five cases of the sort, first for what is declared and then for what ascends.
    rcases sort_cases schema field g with ⟨-, h⟩ | ⟨e, -, h⟩ | ⟨-, h⟩ | ⟨_, _, -, ⟨e, -, h⟩ | ⟨-, h⟩⟩
  · rw [h]
    exact hg.declared
  · rw [h]
    exact fun _ _ => .inr rfl
  · rw [h]
    exact fun _ _ => .inr rfl
  · rw [h]
    rintro f ⟨⟩
  · have hnil : schema.fields.contains field = false → (Group.sort schema field g).2.members = [] :=
      fun hfield => members_sort_eq_nil hfield hg.declared
    rw [h] at hnil ⊢
    rintro f ⟨⟩
    exact (Bool.eq_false_or_eq_true _).imp id hnil
  · rw [h]
    exact hg.ascends
  · rw [h]
    exact fun _ _ _ => .nil
  · rw [h]
    exact fun _ _ _ => .nil
  · rw [h]
    rintro f ⟨⟩
  · have hends : (Group.sort schema field).Ends g () (Group.sort schema field g).2 :=
      ⟨by rw [h]; rfl, rfl⟩
    have hsorts := fun hordered => hg.sorts hordered hends
    rw [h] at hsorts ⊢
    rintro f ⟨⟩ hordered
    exact (hsorts hordered).ascends

end Remembers

/-! ## The smallest and the largest member -/

/-- A sort and the choice of a member. -/
def choose (schema : Schema κ ρ) (field : String) (pick : List ρ → Option ρ) :
    Step (Group κ ρ) ρ := do
  sort schema field
  match pick (← Step.get).members with
  | some record => pure record
  | none => .fail emptyGroup

/-- A choice leaves what the sort leaves. -/
theorem choose_snd (schema : Schema κ ρ) (field : String) (pick : List ρ → Option ρ)
    (g : Group κ ρ) : (choose schema field pick g).2 = (sort schema field g).2 := by
  show (Step.andThen _ _ g).2 = _
  unfold Step.andThen
  rcases sort schema field g with ⟨⟨r, events⟩, g'⟩
  cases r with
  | error e => rfl
  | ok _ =>
    show ((match pick g'.members with
      | some record => pure record
      | none => .fail emptyGroup : Step (Group κ ρ) ρ) g').2 = g'
    cases pick g'.members <;> rfl

theorem ends_choose (pick : List ρ → Option ρ) {record : ρ} {g' : Group κ ρ} :
    (choose schema field pick).Ends g record g' ↔
      (sort schema field).Ends g () g' ∧ pick g'.members = some record := by
  unfold choose
  rw [Step.ends_bind]
  simp only [Step.ends_get_bind]
  constructor
  · rintro ⟨_, t, hsort, h⟩
    cases hpick : pick t.members with
    | none =>
      rw [hpick] at h
      exact absurd h Step.ends_fail
    | some r =>
      rw [hpick] at h
      obtain ⟨rfl, rfl⟩ := Step.ends_pure.mp h
      exact ⟨hsort, hpick⟩
  · rintro ⟨hsort, hpick⟩
    refine ⟨(), g', hsort, ?_⟩
    rw [hpick]
    exact Step.ends_pure.mpr ⟨rfl, rfl⟩

/-- Each question leaves what a sort by its field leaves. -/
theorem Call.run_eq_sort (schema : Schema κ ρ) (g : Group κ ρ) :
    ∀ call : Call, call.run schema g = (Group.sort schema call.field g).2
  | .sort _ => rfl
  | .min field => choose_snd schema field List.head? g
  | .max field => choose_snd schema field List.getLast? g

section Choice

variable {record : ρ} {g' : Group κ ρ} (hg : Remembers schema start g)
  (hordered : Ordered (start.MemberValues schema field))

include hg hordered

/-- After a sort a member is not after itself: it has a value, which equals itself. -/
theorem Remembers.atMost_self (h : (Group.sort schema field).Ends g () g')
    (hrecord : record ∈ g'.members) : AtMost (schema.readField · field) cmp record record := by
  have hg' : Remembers schema start g' := h.2 ▸ hg.sort field
  have hfield := (hg'.declared field (sortedBy_of_ends_sort h)).resolve_right
    (List.ne_nil_of_mem hrecord)
  obtain ⟨v, hv⟩ := readField_eq_ok_iff.mpr hfield
  exact ⟨v, v, .eq, hv, hv, hordered.self ⟨record, hg'.members record hrecord, hv⟩, by decide⟩

/-- No member is before the smallest one. -/
theorem Remembers.least (h : (Group.min schema field).Ends g record g') :
    record ∈ g.members ∧ ∀ other ∈ g.members, AtMost (schema.readField · field) cmp record other := by
  obtain ⟨hsort, hpick⟩ := (ends_choose List.head?).mp h
  obtain ⟨rest, hmembers⟩ := List.head?_eq_some_iff.mp hpick
  have hsorted := hg.sorts hordered hsort
  have hself := hg.atMost_self hordered hsort (hmembers ▸ List.mem_cons_self ..)
  have hall := hsorted.ascends
  rw [hmembers, List.pairwise_cons] at hall
  refine ⟨hsorted.perm.mem_iff.mp (hmembers ▸ List.mem_cons_self ..), fun other hother => ?_⟩
  have hmem := hsorted.perm.mem_iff.mpr hother
  rw [hmembers] at hmem
  exact List.forall_mem_cons.mpr ⟨hself, hall.1⟩ other hmem

/-- No member is after the largest one. -/
theorem Remembers.greatest (h : (Group.max schema field).Ends g record g') :
    record ∈ g.members ∧ ∀ other ∈ g.members, AtMost (schema.readField · field) cmp other record := by
  obtain ⟨hsort, hpick⟩ := (ends_choose List.getLast?).mp h
  obtain ⟨front, hmembers⟩ := List.getLast?_eq_some_iff.mp hpick
  have hlast : record ∈ front ++ [record] := List.mem_append_right _ (List.mem_singleton_self record)
  have hsorted := hg.sorts hordered hsort
  have hself := hg.atMost_self hordered hsort (hmembers ▸ hlast)
  have hall := hsorted.ascends
  rw [hmembers, List.pairwise_append] at hall
  refine ⟨hsorted.perm.mem_iff.mp (hmembers ▸ hlast), fun other hother => ?_⟩
  have hmem := hsorted.perm.mem_iff.mpr hother
  rw [hmembers] at hmem
  rcases List.mem_append.mp hmem with hmem | hmem
  · exact hall.2.2 other hmem record (List.mem_singleton_self record)
  · rw [List.mem_singleton.mp hmem]
    exact hself

end Choice

/-! ## Many questions -/

theorem Remembers.after {g : Group κ ρ} (hg : Remembers schema start g) :
    ∀ calls : List Call, Remembers schema start (g.after schema calls)
  | [] => hg
  | call :: calls => by
    have hrun : Remembers schema start (call.run schema g) := by
      rw [Call.run_eq_sort]
      exact hg.sort call.field
    exact hrun.after calls

/-- One of the questions stops the program. -/
def Stopped (schema : Schema κ ρ) : Group κ ρ → List Call → Prop
  | _, [] => False
  | g, call :: calls => g.Stops schema call.field ∨ Stopped schema (call.run schema g) calls

/-- The members stay the same ones as long as the type has the fields that are asked about and the
program is not stopped. -/
theorem perm_members_after (g : Group κ ρ) : ∀ calls : List Call,
    (∀ call ∈ calls, schema.fields.contains call.field = true) → ¬g.Stopped schema calls →
    (g.after schema calls).members.Perm g.members
  | [], _, _ => .refl _
  | call :: calls, h, hgoes => by
    obtain ⟨hcall, hcalls⟩ := List.forall_mem_cons.mp h
    obtain ⟨hgoes, hrest⟩ := not_or.mp hgoes
    refine (perm_members_after (call.run schema g) calls hcalls hrest).trans ?_
    rw [Call.run_eq_sort]
    exact perm_members_sort hcall hgoes

/-- A group without members does not get any. -/
theorem members_after_of_nil {g : Group κ ρ} (h : g.members = []) : ∀ calls : List Call,
    (g.after schema calls).members = []
  | [] => h
  | call :: calls => by
    refine members_after_of_nil (g := call.run schema g) ?_ calls
    rw [Call.run_eq_sort]
    refine List.eq_nil_iff_forall_not_mem.mpr fun record hrecord => ?_
    have hmem := mem_of_mem_sort hrecord
    rw [h] at hmem
    exact absurd hmem List.not_mem_nil

/-- No members are left once a field was asked about that the type does not have, or the program was
stopped. -/
theorem members_after_eq_nil {g : Group κ ρ} (hg : Remembers schema start g) :
    ∀ calls : List Call, (∃ call ∈ calls, schema.fields.contains call.field = false) ∨
      g.Stopped schema calls → (g.after schema calls).members = []
  | [], h => by
    rcases h with ⟨_, hmem, -⟩ | hstopped
    · exact absurd hmem List.not_mem_nil
    · exact hstopped.elim
  | call :: calls, h => by
    -- It is this question that loses the members, or one of those that follow.
    have hnow : (call.run schema g).members = [] → (g.after schema (call :: calls)).members = [] :=
      fun hnil => members_after_of_nil hnil calls
    have hlater := members_after_eq_nil (hg.after [call]) calls
    rcases h with ⟨call', hcall', hfield⟩ | hstops | hstopped
    · rcases List.mem_cons.mp hcall' with rfl | hcall'
      · refine hnow ?_
        rw [Call.run_eq_sort]
        exact members_sort_eq_nil hfield hg.declared
      · exact hlater (.inl ⟨call', hcall', hfield⟩)
    · refine hnow ?_
      rw [Call.run_eq_sort, sort_of_stops hstops]
    · exact hlater (.inr hstopped)

/-- Crossed marks stop the program, and none of them are left. -/
example : (Group.after Row.marks ⟨[], Row.crossedMarks, none⟩ [.sort "mark"]).members = [] := by cbv

/-- A group of a few members keeps to a few, and so no question stops the program. -/
theorem not_stopped_of_few {g : Group κ ρ} (hfew : g.members.length ≤ StableSort.insertionLimit) :
    ∀ calls : List Call, ¬g.Stopped schema calls
  | [] => id
  | call :: calls => by
    refine not_or.mpr ⟨not_stops_of_few hfew, not_stopped_of_few ?_ calls⟩
    rw [Call.run_eq_sort]
    rcases members_sort schema call.field g with hperm | ⟨hnil, -⟩
    · rwa [hperm.length_eq]
    · rw [hnil]
      exact Nat.zero_le _

/-- No question stops the program if the values of the fields that are asked about are consistently
ordered and all compare. -/
theorem Remembers.not_stopped {g : Group κ ρ} (hg : Remembers schema start g) :
    ∀ calls : List Call, (∀ call ∈ calls, Ordered (start.MemberValues schema call.field) ∧
      ∀ e, ¬Clash (schema.readField · call.field) cmp start.members e) → ¬g.Stopped schema calls
  | [], _ => id
  | call :: calls, h => by
    obtain ⟨⟨hordered, hnone⟩, hcalls⟩ := List.forall_mem_cons.mp h
    exact not_or.mpr ⟨hg.not_stops hordered hnone, (hg.after [call]).not_stopped calls hcalls⟩

end Group

namespace Grouping

variable {κ ρ : Type} [CustomKind κ]

/-- New groups remember no field, and neither do groups that get another member. -/
theorem sortedBy_add {g g' : Grouping κ ρ} {row : Row κ ρ}
    (hg : ∀ group ∈ g.groups, group.sortedBy = none)
    (h : g.add row.key row.record = .ok g') : ∀ group ∈ g'.groups, group.sortedBy = none := by
  obtain ⟨tuple, -, h⟩ := bind_eq_ok.mp h
  obtain ⟨place, -, h⟩ := bind_eq_ok.mp h
  cases place with
  | «at» i =>
    cases h
    intro group hgroup
    obtain ⟨j, hj, rfl⟩ := List.mem_iff_getElem.mp hgroup
    rw [List.getElem_modify]
    split
    · rfl
    · exact hg _ (List.getElem_mem _)
  | before i =>
    cases h
    refine List.forall_mem_append.mpr ⟨fun group hgroup => hg group (List.mem_of_mem_take hgroup),
      List.forall_mem_cons.mpr ⟨rfl, fun group hgroup => hg group (List.mem_of_mem_drop hgroup)⟩⟩

theorem sortedBy_addAll : ∀ {rows : List (Row κ ρ)} {g g' : Grouping κ ρ},
    (∀ group ∈ g.groups, group.sortedBy = none) → g.addAll rows = .ok g' →
    ∀ group ∈ g'.groups, group.sortedBy = none
  | [], g, g', hg, h => by
    cases h
    exact hg
  | row :: rows, g, g', hg, h => by
    unfold addAll at h
    rw [List.foldlM_cons] at h
    obtain ⟨g₁, hadd, h⟩ := bind_eq_ok.mp h
    exact sortedBy_addAll (sortedBy_add hg hadd) h

end Grouping

namespace Store

variable {κ ρ : Type} [CustomKind κ] {fields : List String}

/-- Whatever is asked of a group that a query has made, its members stay the same ones if all fields that
are asked about are ones that the type has and no sort stops the program, and none are left otherwise. A
sort stops the program neither in a group of a few members nor where the values of the fields are
consistently ordered and all compare. A sort that is answered then sorts the members there are, those
whose values tie in the order they were in, and a smallest or largest member is one that no member is
before or after, if the values of the field are consistently ordered. -/
theorem findGroups_calls {s : Store} {t : RecordType κ ρ} {b : Buckets} {q : Query κ ρ}
    {groups : List (Group κ ρ)} {g : Group κ ρ} (h : (s.findGroups t b q fields).result = .ok groups)
    (hg : g ∈ groups) (calls : List Group.Call) :
    ((∀ call ∈ calls, t.schema.fields.contains call.field = true) → ¬g.Stopped t.schema calls →
      (g.after t.schema calls).members.Perm g.members) ∧
    ((∃ call ∈ calls, t.schema.fields.contains call.field = false) ∨ g.Stopped t.schema calls →
      (g.after t.schema calls).members = []) ∧
    (g.members.length ≤ StableSort.insertionLimit ∨
      (∀ call ∈ calls, Climbs cmp (g.MemberValues t.schema call.field) ∧
        CustomsSwap (g.MemberValues t.schema call.field) ∧
        ∀ e, ¬Clash (t.schema.readField · call.field) cmp g.members e) →
      ¬g.Stopped t.schema calls) ∧
    ∀ field, Climbs cmp (g.MemberValues t.schema field) → CustomsSwap (g.MemberValues t.schema field) →
      (∀ g', (Group.sort t.schema field).Ends (g.after t.schema calls) () g' →
        SortedBy (t.schema.readField · field) cmp (g.after t.schema calls).members g'.members) ∧
      (∀ record g', (Group.min t.schema field).Ends (g.after t.schema calls) record g' →
        record ∈ (g.after t.schema calls).members ∧ ∀ other ∈ (g.after t.schema calls).members,
          AtMost (t.schema.readField · field) cmp record other) ∧
      ∀ record g', (Group.max t.schema field).Ends (g.after t.schema calls) record g' →
        record ∈ (g.after t.schema calls).members ∧ ∀ other ∈ (g.after t.schema calls).members,
          AtMost (t.schema.readField · field) cmp other record := by
  obtain ⟨-, rows, made, -, hall, rfl⟩ := findGroups_iff.mp h
  have hnone : g.sortedBy = none := Grouping.sortedBy_addAll (fun _ h => absurd h List.not_mem_nil)
    hall g hg
  -- Groups are made without a remembered field; from there on each call keeps what is remembered.
  have hstart : Group.Remembers t.schema g g := Group.remembers_of_none hnone
  have hafter := hstart.after calls
  refine ⟨Group.perm_members_after g calls, Group.members_after_eq_nil hstart calls, ?_,
    fun field hclimbs hcustoms => ?_⟩
  · rintro (hfew | hcalls)
    · exact Group.not_stopped_of_few hfew calls
    · exact hstart.not_stopped calls fun call hcall =>
        ⟨ordered_of_climbs (hcalls call hcall).1 (hcalls call hcall).2.1, (hcalls call hcall).2.2⟩
  have hordered := ordered_of_climbs hclimbs hcustoms
  exact ⟨fun _ => hafter.sorts hordered, fun _ _ => hafter.least hordered,
    fun _ _ => hafter.greatest hordered⟩

section Parcels

/-- The group of all parcels. -/
def everyParcel : Group Empty Bool := ⟨[], [true, false], none⟩

theorem findGroups_everyParcel :
    (standard.findGroups parcels twoParcels .all []).result = .ok [everyParcel] :=
  findGroups_iff.mpr ⟨rfl, parcelRows, ⟨parcels.schema, [], _⟩, find_twoParcels, by cbv, rfl⟩

/-- Sorted by their weights parcels stay, and asked for their price, which they do not have, they are
gone. -/
theorem findGroups_calls_everyParcel :
    (standard.findGroups parcels twoParcels .all []).result = .ok [everyParcel] ∧
    (everyParcel.after parcels.schema [.sort "weight"]).members.Perm everyParcel.members ∧
    (everyParcel.after parcels.schema [.sort "weight", .max "price"]).members = [] ∧
    ∃ g', (Group.min parcels.schema "weight").Ends everyParcel false g' ∧
      ∀ other ∈ everyParcel.members, AtMost (parcels.schema.readField · "weight") cmp false other := by
  have hmem : everyParcel ∈ [everyParcel] := List.mem_singleton_self _
  have hcustom : ∀ v, everyParcel.MemberValues parcels.schema "weight" v → ∀ c, v ≠ .custom c :=
    fun _ _ c => c.elim
  have hclimbs : Climbs cmp (everyParcel.MemberValues parcels.schema "weight") := by
    refine climbs_of_transits (transits_of_ints ?_) hcustom
    rintro v ⟨record, -, hv⟩
    cases hv
    exact ⟨_, rfl⟩
  have hmin : (Group.min parcels.schema "weight").Ends everyParcel false _ := ⟨by cbv, rfl⟩
  refine ⟨findGroups_everyParcel, ?_, ?_, _, hmin, ?_⟩
  · have hcalls := findGroups_calls findGroups_everyParcel hmem [.sort "weight"]
    exact hcalls.1 (by decide) (hcalls.2.2.1 (.inl (by decide)))
  · exact (findGroups_calls findGroups_everyParcel hmem [.sort "weight", .max "price"]).2.1
      (.inl ⟨.max "price", by simp, rfl⟩)
  · exact (((findGroups_calls findGroups_everyParcel hmem []).2.2.2 "weight" hclimbs
      (customsSwap_of_none hcustom)).2.1 false _ hmin).2

end Parcels

end Store

end RecordStore
