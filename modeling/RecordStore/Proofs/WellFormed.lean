import RecordStore.Proofs.Rejection
import RecordStore.Query.Clause

/-!
# Which queries can be built

A query can be built exactly if its clauses are well-formed (`build_wellFormed`). That is said of the
tree of clauses alone: what every node must keep to (`Proper`), what an alternative must not have
(`Bare`), and that the sort fields of the outermost node are declared. The node that clauses amount to
collects them in order, and has no fault as long as they are proper (`Node.Collects`); what is kept to by
the alternatives is then an induction on the tree. A query that is built holds, node by node, what the
clauses say (`Holds`).
-/

namespace RecordStore

variable {κ ρ : Type}

/-! ## What clauses say -/

namespace Clause

/-- The number of rows to pass over. -/
def skip? : Clause κ ρ → Option Nat
  | .skip amount => some amount
  | _ => none

/-- The number of rows to deliver at most. -/
def limit? : Clause κ ρ → Option Nat
  | .limit amount => some amount
  | _ => none

/-- The index to walk. -/
def index? : Clause κ ρ → Option String
  | .index name => some name
  | _ => none

/-- The fields to sort by. -/
def sortFields : Clause κ ρ → List String
  | .sortBy fields => fields
  | _ => []

/-- Whether the order is turned around. -/
def reverses : Clause κ ρ → Bool
  | .reverse => true
  | _ => false

/-- The criterion on a field; an odd number of negations negates it. -/
def criterion? (field : String) : Clause κ ρ → Option (Criterion κ ρ)
  | .wherever field' negations condition =>
    if field' = field then some ⟨condition, decide (Odd negations)⟩ else none
  | _ => none

/-- Whether a predicate is attached to the key. -/
def isKeyPredicate : Clause κ ρ → Bool
  | .wherever field _ condition => field = keyField && condition.isPredicate
  | _ => false

/-- The clauses of an alternative. -/
def branch? : Clause κ ρ → Option (List (Clause κ ρ))
  | .or branch => some branch
  | _ => none

mutual

/-- The clauses of each alternative, at any depth. -/
def nested : List (Clause κ ρ) → List (List (Clause κ ρ))
  | [] => []
  | c :: clauses => nestedIn c ++ nested clauses

/-- The clauses of an alternative, and of those in it. -/
def nestedIn : Clause κ ρ → List (List (Clause κ ρ))
  | .or branch => branch :: nested branch
  | .wherever _ _ _ | .index _ | .skip _ | .limit _ | .sortBy _ | .reverse => []

end

end Clause

open Clause

namespace Query

/-- What every node keeps to: skip and limit are set once at most, and the key is neither a sort field
nor has a predicate. -/
@[mk_iff]
structure Proper (clauses : List (Clause κ ρ)) : Prop where
  skip : (clauses.filterMap skip?).length ≤ 1
  limit : (clauses.filterMap limit?).length ≤ 1
  sort : keyField ∉ clauses.flatMap sortFields
  key : clauses.any isKeyPredicate = false

/-- What an alternative keeps to: it has neither paging nor an order. -/
@[mk_iff]
structure Bare (clauses : List (Clause κ ρ)) : Prop where
  skip : clauses.filterMap skip? = []
  limit : clauses.filterMap limit? = []
  sort : clauses.flatMap sortFields = []
  reverse : clauses.any reverses = false

/-- Every node is proper, every alternative bare, and the query is sorted by declared fields. -/
@[mk_iff]
structure WellFormed (schema : Schema κ ρ) (clauses : List (Clause κ ρ)) : Prop where
  proper : ∀ node ∈ clauses :: nested clauses, Proper node
  bare : ∀ node ∈ nested clauses, Bare node
  declared : ∀ field ∈ clauses.flatMap sortFields, schema.fields.contains field = true

instance (clauses : List (Clause κ ρ)) : Decidable (Proper clauses) :=
  decidable_of_iff' _ (proper_iff clauses)

instance (clauses : List (Clause κ ρ)) : Decidable (Bare clauses) :=
  decidable_of_iff' _ (bare_iff clauses)

instance (schema : Schema κ ρ) (clauses : List (Clause κ ρ)) : Decidable (WellFormed schema clauses) :=
  decidable_of_iff' _ (wellFormed_iff schema clauses)

end Query

/-- A term has the criteria of clauses under their fields, in order, and walks the last index that they
name. -/
structure Term.Holds (clauses : List (Clause κ ρ)) (t : Term κ ρ) : Prop where
  criteria : ∀ field, t.criteriaOn field = clauses.filterMap (Clause.criterion? field)
  fields : ∀ field, t.criteria.find? field ≠ some []
  index : t.index = (clauses.filterMap Clause.index?).getLast?

/-- A criterion added to the term answers to a field clause added to the list. -/
theorem Term.Holds.addCriterion {clauses : List (Clause κ ρ)} {t : Term κ ρ} (h : t.Holds clauses)
    (field : String) (negations : Nat) (condition : Condition κ ρ) :
    (t.addCriterion field ⟨condition, negations % 2 = 1⟩).Holds
      (clauses ++ [.wherever field negations condition]) := by
  have hfind : ∀ f, (t.addCriterion field ⟨condition, negations % 2 = 1⟩).criteria.find? f =
      if f = field then some (t.criteriaOn field ++ [⟨condition, negations % 2 = 1⟩])
      else t.criteria.find? f :=
    fun f => SortedMap.find?_insert _ _ _ _
  refine ⟨fun f => ?_, fun f => ?_, ?_⟩
  · rw [List.filterMap_append, ← h.criteria, criteriaOn, hfind]
    by_cases hf : f = field
    · rw [if_pos hf]
      simp [Clause.criterion?, hf, Nat.odd_iff]
    · rw [if_neg hf]
      simp [Clause.criterion?, Ne.symm hf, criteriaOn]
  · rw [hfind]
    split
    next => simp
    next => exact h.fields f
  · rw [List.filterMap_append]
    simp [Clause.index?, ← h.index, Term.addCriterion]

theorem Term.Holds.reindex {clauses : List (Clause κ ρ)} {t : Term κ ρ} (h : t.Holds clauses)
    (name : String) : ({ t with index := some name } : Term κ ρ).Holds (clauses ++ [.index name]) := by
  refine ⟨fun field => ?_, h.fields, ?_⟩
  · rw [List.filterMap_append, ← h.criteria]
    simp [Clause.criterion?, criteriaOn]
  · rw [List.filterMap_append]
    simp [Clause.index?]

/-- A clause that says nothing of the term leaves it as it is. -/
theorem Term.Holds.concat {clauses : List (Clause κ ρ)} {t : Term κ ρ} (h : t.Holds clauses)
    {c : Clause κ ρ} (hcriterion : ∀ field, c.criterion? field = none) (hindex : c.index? = none) :
    t.Holds (clauses ++ [c]) := by
  refine ⟨fun field => ?_, h.fields, ?_⟩
  · rw [List.filterMap_append, h.criteria]
    simp [hcriterion]
  · rw [List.filterMap_append, h.index]
    simp [hindex]

/-- A selection holds what clauses say, node by node and with the alternatives in order. -/
inductive Selection.Holds : List (Clause κ ρ) → Selection κ ρ → Prop
  | mk {clauses : List (Clause κ ρ)} {term : Term κ ρ} {branches : List (Selection κ ρ)}
    (hterm : term.Holds clauses)
    (hbranches : List.Forall₂ Holds (clauses.filterMap Clause.branch?) branches) :
    Holds clauses (.mk term branches)

namespace Query

/-- A query holds what clauses say; each field to sort by stands where it was first mentioned. -/
structure Holds (clauses : List (Clause κ ρ)) (q : Query κ ρ) : Prop where
  selection : q.selection.Holds clauses
  sort : q.sort = (clauses.flatMap sortFields).eraseDups
  reverse : q.reverse = clauses.any reverses
  skip : q.skip = (clauses.filterMap skip?).head?.getD 0
  limit : q.limit = (clauses.filterMap limit?).head?

/-! ## What a node collects -/

/-- Fields in the order of their first mention, without the key. -/
def firstMentions (fields : List String) : List String := (fields.filter (· ≠ keyField)).eraseDups

/-- A further field is kept unless it is the key field or has been mentioned. -/
theorem firstMentions_concat (fields : List String) (field : String) :
    firstMentions (fields ++ [field]) =
      if field = keyField ∨ field ∈ firstMentions fields then firstMentions fields
      else firstMentions fields ++ [field] := by
  unfold firstMentions
  simp only [List.mem_eraseDups, List.filter_append]
  by_cases hkey : field = keyField
  · simp [hkey]
  by_cases hmem : field ∈ fields
  · simp [hkey, hmem, List.eraseDups_append, List.removeAll]
  · simp [hkey, hmem, List.eraseDups_append, List.removeAll, List.eraseDups_cons]

/-- Without the key among them the fields are only thinned. -/
theorem firstMentions_eq {fields : List String} (h : keyField ∉ fields) :
    firstMentions fields = fields.eraseDups := by
  unfold firstMentions
  rw [List.filter_eq_self.mpr]
  intro field hfield
  exact decide_eq_true fun heq => h (heq ▸ hfield)

/-- A node has collected clauses, and has no fault as long as they are proper. -/
structure Node.Collects (clauses : List (Clause κ ρ)) (n : Node κ ρ) : Prop where
  term : n.term.Holds clauses
  sort : n.sort = firstMentions (clauses.flatMap sortFields)
  reverse : n.reverse = clauses.any reverses
  skip : n.skip = (clauses.filterMap skip?).getLast?
  limit : n.limit = (clauses.filterMap limit?).getLast?
  fault : n.fault = none ↔ Proper clauses

variable {clauses : List (Clause κ ρ)} {n : Node κ ρ}

theorem collects_blank : (.blank : Node κ ρ).Collects [] where
  term := ⟨fun _ => rfl, fun _ h => (nomatch h), rfl⟩
  sort := rfl
  reverse := rfl
  skip := rfl
  limit := rfl
  fault := iff_of_true rfl ⟨Nat.zero_le 1, Nat.zero_le 1, List.not_mem_nil, rfl⟩

/-- A fault changes nothing else about a node. -/
theorem exists_blame (n : Node κ ρ) (isFault : Bool) (f : Fault) :
    ∃ fault, n.blame isFault f = { n with fault } ∧
      (fault = none ↔ n.fault = none ∧ isFault = false) := by
  unfold Node.blame
  cases isFault with
  | true => exact ⟨_, rfl, by cases n.fault <;> simp⟩
  | false => exact ⟨n.fault, rfl, by simp⟩

/-- A sort field is appended as a first mention; only the fault may change besides. -/
theorem exists_addSort (field : String) {mentioned : List String}
    (hn : n.sort = firstMentions mentioned) :
    ∃ fault, n.addSort field = { n with sort := firstMentions (mentioned ++ [field]), fault } ∧
      (fault = none ↔ n.fault = none ∧ keyField ≠ field) := by
  unfold Node.addSort
  rw [firstMentions_concat, ← hn]
  by_cases hkey : field = keyField
  · obtain ⟨fault, hblame, hfault⟩ := exists_blame n true .sortByKey
    rw [if_pos hkey, if_pos (.inl hkey)]
    exact ⟨fault, hblame, by simp [hfault, hkey]⟩
  rw [if_neg hkey]
  refine ⟨n.fault, ?_, by simp [Ne.symm hkey]⟩
  by_cases hthere : field ∈ n.sort
  · rw [if_pos (List.contains_iff_mem.mpr hthere), if_pos (.inr hthere)]
  · rw [if_neg (by simpa using hthere), if_neg (by simp [hkey, hthere])]

theorem exists_foldl_addSort : ∀ (fields : List String) {n : Node κ ρ} {mentioned : List String},
    n.sort = firstMentions mentioned →
    ∃ fault, fields.foldl Node.addSort n =
        { n with sort := firstMentions (mentioned ++ fields), fault } ∧
      (fault = none ↔ n.fault = none ∧ keyField ∉ fields)
  | [], n, mentioned, hn => by
    refine ⟨n.fault, ?_, by simp⟩
    rw [List.append_nil, ← hn]
    rfl
  | field :: fields, n, mentioned, hn => by
    obtain ⟨fault₁, hadd, hfault₁⟩ := exists_addSort field hn
    have hadded : { n with sort := firstMentions (mentioned ++ [field]), fault := fault₁ }.sort =
        firstMentions (mentioned ++ [field]) := rfl
    obtain ⟨fault, hrest, hfault⟩ := exists_foldl_addSort fields hadded
    refine ⟨fault, ?_, ?_⟩
    · rw [List.foldl_cons, hadd, hrest, List.append_assoc, List.singleton_append]
    · rw [hfault, hfault₁, and_assoc, List.mem_cons, not_or]

/-- A list stays with at most one hit when its new last element is none, or is the first one. -/
theorem length_filterMap_concat_le {α β : Type} (f : α → Option β) (l : List α) (a : α) :
    ((l ++ [a]).filterMap f).length ≤ 1 ↔
      (l.filterMap f).length ≤ 1 ∧ ((f a).isSome = true → l.filterMap f = []) := by
  rw [List.filterMap_append, List.length_append, ← List.length_eq_zero_iff]
  cases hf : f a with
  | none => simp [hf]
  | some b =>
    simp only [List.filterMap_cons, hf, List.filterMap_nil, List.length_singleton, Option.isSome_some,
      forall_const]
    omega

/-- A clause that may come after others: it sets nothing that they have set, and has no fault itself. -/
def Fits (clauses : List (Clause κ ρ)) (c : Clause κ ρ) : Prop :=
  (c.skip?.isSome = true → clauses.filterMap skip? = []) ∧
  (c.limit?.isSome = true → clauses.filterMap limit? = []) ∧
  keyField ∉ c.sortFields ∧ c.isKeyPredicate = false

/-- A list of clauses is proper when its front is and the last clause fits behind it. -/
theorem proper_concat (c : Clause κ ρ) : Proper (clauses ++ [c]) ↔ Proper clauses ∧ Fits clauses c := by
  simp only [proper_iff, Fits, length_filterMap_concat_le, List.flatMap_append, List.mem_append, not_or,
    List.flatMap_singleton, List.any_append, Bool.or_eq_false_iff, List.any_cons, List.any_nil,
    Bool.or_false]
  tauto

/-- What a node has to become with one more clause. -/
theorem Node.Collects.concat (h : n.Collects clauses) {c : Clause κ ρ} {n' : Node κ ρ}
    (hterm : n'.term.Holds (clauses ++ [c]))
    (hsort : n'.sort = firstMentions (clauses.flatMap sortFields ++ c.sortFields))
    (hreverse : n'.reverse = (n.reverse || c.reverses)) (hskip : n'.skip = c.skip?.or n.skip)
    (hlimit : n'.limit = c.limit?.or n.limit)
    (hfault : n'.fault = none ↔ n.fault = none ∧ Fits clauses c) : n'.Collects (clauses ++ [c]) where
  term := hterm
  sort := by rw [hsort, List.flatMap_append, List.flatMap_singleton]
  reverse := by rw [hreverse, h.reverse, List.any_append, List.any_cons, List.any_nil, Bool.or_false]
  skip := by
    rw [hskip, h.skip, List.filterMap_append, List.getLast?_append]
    cases hc : c.skip? <;> simp [hc]
  limit := by
    rw [hlimit, h.limit, List.filterMap_append, List.getLast?_append]
    cases hc : c.limit? <;> simp [hc]
  fault := by rw [hfault, h.fault, proper_concat]

/-- A node collects one clause after the other. -/
theorem Node.Collects.apply (h : n.Collects clauses) (c : Clause κ ρ) :
    (n.apply c).Collects (clauses ++ [c]) := by
  have hsort : n.sort = firstMentions (clauses.flatMap sortFields ++ []) := by
    rw [List.append_nil]
    exact h.sort
  -- Each clause sets its own part of the node, and what it adds to the faults is that it does not fit.
  cases c with
  | wherever field negations condition =>
    obtain ⟨fault, hblame, hfault⟩ :=
      exists_blame n (field = keyField && condition.isPredicate) .predicateOnKey
    rw [Node.apply, hblame]
    refine h.concat (h.term.addCriterion field negations condition) hsort (Bool.or_false _).symm rfl rfl ?_
    rw [hfault]
    simp [Fits, skip?, limit?, sortFields, isKeyPredicate]
  | skip amount =>
    obtain ⟨fault, hblame, hfault⟩ := exists_blame n n.skip.isSome .skipTwice
    rw [Node.apply, hblame]
    refine h.concat (h.term.concat (fun _ => rfl) rfl) hsort (Bool.or_false _).symm rfl rfl ?_
    rw [hfault, h.skip]
    simp [Fits, skip?, limit?, sortFields, isKeyPredicate]
  | limit amount =>
    obtain ⟨fault, hblame, hfault⟩ := exists_blame n n.limit.isSome .limitTwice
    rw [Node.apply, hblame]
    refine h.concat (h.term.concat (fun _ => rfl) rfl) hsort (Bool.or_false _).symm rfl rfl ?_
    rw [hfault, h.limit]
    simp [Fits, skip?, limit?, sortFields, isKeyPredicate]
  | sortBy fields =>
    obtain ⟨fault, hadd, hfault⟩ := exists_foldl_addSort fields h.sort
    rw [Node.apply, hadd]
    refine h.concat (h.term.concat (fun _ => rfl) rfl) rfl (Bool.or_false _).symm rfl rfl ?_
    rw [hfault]
    simp [Fits, skip?, limit?, sortFields, isKeyPredicate]
  | index name =>
    refine h.concat (h.term.reindex name) hsort (Bool.or_false _).symm rfl rfl ?_
    simp [Node.apply, Fits, skip?, limit?, sortFields, isKeyPredicate]
  | reverse =>
    refine h.concat (h.term.concat (fun _ => rfl) rfl) hsort (Bool.or_true _).symm rfl rfl ?_
    simp [Node.apply, Fits, skip?, limit?, sortFields, isKeyPredicate]
  | or branch =>
    refine h.concat (h.term.concat (fun _ => rfl) rfl) hsort (Bool.or_false _).symm rfl rfl ?_
    simp [Node.apply, Fits, skip?, limit?, sortFields, isKeyPredicate]

/-- One clause changes the node and adds at most one branch. -/
theorem step_eq (n : Node κ ρ) (branches : List (Draft κ ρ)) (c : Clause κ ρ) :
    Draft.step (.mk n branches) c =
      .mk (n.apply c) (branches ++ (c.branch?.map Draft.ofClauses).toList) := by
  cases c with
  | or branch => rw [Draft.step]; rfl
  | _ => simp [Draft.step, Draft.apply, branch?]

/-- The drafts of alternatives. -/
def drafts (clauses : List (Clause κ ρ)) : List (Draft κ ρ) :=
  (clauses.filterMap branch?).map Draft.ofClauses

theorem drafts_concat (c : Clause κ ρ) :
    drafts (clauses ++ [c]) = drafts clauses ++ (c.branch?.map Draft.ofClauses).toList := by
  unfold drafts
  rw [List.filterMap_append, List.map_append]
  cases hc : c.branch? <;> simp [hc]

/-- Taking all the clauses leaves a node that has collected them, with one draft for each branch. -/
theorem exists_extend : ∀ (clauses done : List (Clause κ ρ)) {n : Node κ ρ}, n.Collects done →
    ∃ node : Node κ ρ, node.Collects (done ++ clauses) ∧
      Draft.extend (.mk n (drafts done)) clauses = .mk node (drafts (done ++ clauses))
  | [], done, n, hn => by
    rw [List.append_nil, Draft.extend]
    exact ⟨n, hn, rfl⟩
  | c :: clauses, done, n, hn => by
    rw [Draft.extend, step_eq, ← drafts_concat, List.append_cons]
    exact exists_extend clauses (done ++ [c]) (hn.apply c)

/-- A draft is the node that has collected the clauses, and the drafts of the alternatives. -/
theorem exists_ofClauses (clauses : List (Clause κ ρ)) : ∃ node : Node κ ρ, node.Collects clauses ∧
    Draft.ofClauses clauses = .mk node (drafts clauses) :=
  exists_extend clauses [] collects_blank

/-! ## What is checked -/

theorem eraseDups_eq_nil {l : List String} : l.eraseDups = [] ↔ l = [] := by
  cases l with
  | nil => simp
  | cons a l => simp [List.eraseDups_cons]

/-- The field check passes exactly when the schema has every field. -/
theorem requireFields_eq_ok {schema : Schema κ ρ} {fields : List String} :
    schema.requireFields fields = .ok () ↔ ∀ field ∈ fields, schema.hasField field = true := by
  rw [Schema.requireFields_eq]
  cases hfind : fields.find? fun field => !schema.hasField field with
  | none => simpa using hfind
  | some field =>
    have hmem := List.mem_of_find?_eq_some hfind
    have hnot := List.find?_some hfind
    simp only [reduceCtorEq, false_iff, not_forall]
    exact ⟨field, hmem, by simpa using hnot⟩

/-- What is checked of a node without a fault. -/
theorem check_eq_ok {schema : Schema κ ρ} {isBranch : Bool} (h : n.Collects clauses) :
    n.check schema isBranch = .ok () ↔ Proper clauses ∧
      (isBranch = true → n.skip = none ∧ n.limit = none ∧ n.sort = [] ∧ n.reverse = false) ∧
      schema.requireFields n.sort = .ok () := by
  unfold Node.check
  rw [← h.fault]
  cases n.fault with
  | some f => simp
  | none =>
    cases isBranch with
    | false => simp
    | true => cases n.skip <;> cases n.limit <;> cases n.sort <;> cases n.reverse <;> simp

/-- A node that is not an alternative passes if it is proper and its sort fields are declared. -/
theorem check_query {schema : Schema κ ρ} (h : n.Collects clauses) :
    n.check schema false = .ok () ↔
      Proper clauses ∧ ∀ field ∈ clauses.flatMap sortFields, schema.fields.contains field = true := by
  rw [check_eq_ok h, requireFields_eq_ok, h.sort]
  refine and_congr_right fun hproper => ?_
  rw [firstMentions_eq hproper.sort]
  simp only [Bool.false_eq_true, false_implies, true_and, List.mem_eraseDups]
  refine forall₂_congr fun field hfield => ?_
  have hkey : field ≠ keyField := fun heq => hproper.sort (heq ▸ hfield)
  simp [Schema.hasField, hkey]

/-- An alternative passes if it is proper and bare. -/
theorem check_branch {schema : Schema κ ρ} (h : n.Collects clauses) :
    n.check schema true = .ok () ↔ Proper clauses ∧ Bare clauses := by
  rw [check_eq_ok h]
  refine and_congr_right fun hproper => ?_
  rw [h.skip, h.limit, h.sort, h.reverse, firstMentions_eq hproper.sort, bare_iff,
    List.getLast?_eq_none_iff, List.getLast?_eq_none_iff, eraseDups_eq_nil]
  constructor
  · intro hbare
    exact hbare.1 rfl
  · intro hbare
    refine ⟨fun _ => hbare, ?_⟩
    rw [hbare.2.2.1]
    rfl

/-! ## The tree -/

/-- The branches of a list are its own and, behind each one, those inside of it. -/
theorem nested_eq (clauses : List (Clause κ ρ)) :
    nested clauses = (clauses.filterMap branch?).flatMap fun branch => branch :: nested branch := by
  induction clauses with
  | nil => rfl
  | cons c clauses ih =>
    rw [nested, ih]
    cases c with
    | or branch => rw [nestedIn]; rfl
    | _ => rw [nestedIn]; rfl

/-- An alternative is among the nested ones, and so are those in it. -/
theorem forall_nested {P : List (Clause κ ρ) → Prop} : (∀ node ∈ nested clauses, P node) ↔
    ∀ branch ∈ clauses.filterMap branch?, ∀ node ∈ branch :: nested branch, P node := by
  rw [nested_eq]
  simp only [List.mem_flatMap]
  constructor
  · intro h branch hbranch node hnode
    exact h node ⟨branch, hbranch, hnode⟩
  · rintro h node ⟨branch, hbranch, hnode⟩
    exact h branch hbranch node hnode

theorem sizeOf_branch_lt {branch : List (Clause κ ρ)} (h : branch ∈ clauses.filterMap branch?) :
    sizeOf branch < sizeOf clauses := by
  obtain ⟨c, hc, hbranch⟩ := List.mem_filterMap.mp h
  have hlt := List.sizeOf_lt_of_mem hc
  cases c with
  | or b =>
    cases hbranch
    rw [Clause.or.sizeOf_spec] at hlt
    omega
  | _ => cases hbranch

variable {schema : Schema κ ρ}

/-- The selections of alternatives are those of each of them. -/
theorem finishBranches_eq_ok : ∀ {ds : List (Draft κ ρ)} {selections : List (Selection κ ρ)},
    finishBranches schema ds = .ok selections ↔
      List.Forall₂ (fun d selection => finishDraft schema true d = .ok selection) ds selections
  | [], selections => by
    rw [finishBranches]
    simp [eq_comm]
  | d :: ds, selections => by
    rw [finishBranches, List.forall₂_cons_left_iff]
    cases hd : finishDraft schema true d with
    | error e => simp
    | ok selection =>
      dsimp only
      constructor
      · intro h
        cases hds : finishBranches schema ds with
        | error e =>
          rw [hds] at h
          cases h
        | ok rest =>
          rw [hds] at h
          cases h
          exact ⟨selection, rest, rfl, finishBranches_eq_ok.mp hds, rfl⟩
      · rintro ⟨_, rest, heq, hrest, rfl⟩
        cases heq
        rw [finishBranches_eq_ok.mpr hrest]
        rfl

/-- Each of some alternatives has a selection exactly if all have together. -/
theorem exists_forall₂ {α β : Type} {R : α → β → Prop} : ∀ {l : List α},
    (∃ bs, List.Forall₂ R l bs) ↔ ∀ a ∈ l, ∃ b, R a b
  | [] => by simp
  | a :: l => by
    rw [List.forall_mem_cons, ← exists_forall₂]
    constructor
    · rintro ⟨_, hall⟩
      obtain ⟨b, bs, hb, hbs, -⟩ := List.forall₂_cons_left_iff.mp hall
      exact ⟨⟨b, hb⟩, bs, hbs⟩
    · rintro ⟨⟨b, hb⟩, bs, hbs⟩
      exact ⟨b :: bs, .cons hb hbs⟩

variable (schema) in
/-- Clauses have a selection if their node passes and each alternative has one. -/
theorem exists_finish_iff (clauses : List (Clause κ ρ)) : ∃ node : Node κ ρ, node.Collects clauses ∧
    Draft.ofClauses clauses = .mk node (drafts clauses) ∧
    ∀ isBranch selection, finishDraft schema isBranch (Draft.ofClauses clauses) = .ok selection ↔
      node.check schema isBranch = .ok () ∧ ∃ branches, selection = .mk node.term branches ∧
        List.Forall₂ (fun branch s => finishDraft schema true (Draft.ofClauses branch) = .ok s)
          (clauses.filterMap branch?) branches := by
  obtain ⟨node, hnode, hdraft⟩ := exists_ofClauses clauses
  refine ⟨node, hnode, hdraft, fun isBranch selection => ?_⟩
  rw [hdraft, finishDraft]
  cases node.check schema isBranch with
  | error e => simp
  | ok u =>
    have hbranches : ∀ branches, finishBranches schema (drafts clauses) = .ok branches ↔
        List.Forall₂ (fun branch s => finishDraft schema true (Draft.ofClauses branch) = .ok s)
          (clauses.filterMap branch?) branches :=
      fun branches => finishBranches_eq_ok.trans List.forall₂_map_left_iff
    simp only [← hbranches]
    cases finishBranches schema (drafts clauses) with
    | error e => simp [Except.map]
    | ok branches => simp [Except.map, eq_comm]

variable (schema) in
/-- Alternatives have selections if they and all that is in them are proper and bare. -/
theorem exists_branches_iff (clauses : List (Clause κ ρ)) :
    (∃ branches, List.Forall₂ (fun branch s =>
      finishDraft schema true (Draft.ofClauses branch) = .ok s) (clauses.filterMap branch?) branches) ↔
        ∀ node ∈ nested clauses, Proper node ∧ Bare node := by
  rw [exists_forall₂, forall_nested]
  refine forall₂_congr fun branch hbranch => ?_
  -- An alternative is smaller than the clauses it stands among, which is what the induction is on.
  have hsmaller := sizeOf_branch_lt hbranch
  obtain ⟨node, hnode, -, hfinish⟩ := exists_finish_iff schema branch
  rw [List.forall_mem_cons, ← check_branch hnode, ← exists_branches_iff branch]
  simp only [hfinish]
  constructor
  · rintro ⟨selection, hcheck, branches, -, hbranches⟩
    exact ⟨hcheck, branches, hbranches⟩
  · rintro ⟨hcheck, branches, hbranches⟩
    exact ⟨_, hcheck, branches, rfl, hbranches⟩
  termination_by sizeOf clauses

/-- What clauses are finished to holds what they say. -/
theorem holds_of_finish {isBranch : Bool} {clauses : List (Clause κ ρ)} {selection : Selection κ ρ}
    (h : finishDraft schema isBranch (Draft.ofClauses clauses) = .ok selection) :
    selection.Holds clauses := by
  obtain ⟨node, hnode, -, hfinish⟩ := exists_finish_iff schema clauses
  obtain ⟨-, branches, rfl, hbranches⟩ := (hfinish isBranch selection).mp h
  have hamong := (List.forall₂_and_left _ _).mpr
    ⟨fun branch (hbranch : branch ∈ clauses.filterMap branch?) => hbranch, hbranches⟩
  refine .mk hnode.term (hamong.imp fun branch s hs => ?_)
  have hsmaller := sizeOf_branch_lt hs.1
  exact holds_of_finish hs.2
  termination_by sizeOf clauses

theorem getLast?_eq_head? {α : Type} : ∀ {l : List α}, l.length ≤ 1 → l.getLast? = l.head?
  | [], _ => rfl
  | [_], _ => rfl

/-- A query can be built exactly if its clauses are well-formed, and then it holds what they say. -/
theorem build_wellFormed (schema : Schema κ ρ) (clauses : List (Clause κ ρ)) :
    ((∃ q, build schema clauses = .ok q) ↔ WellFormed schema clauses) ∧
      ∀ q, build schema clauses = .ok q → q.Holds clauses := by
  obtain ⟨node, hnode, hdraft, hfinish⟩ := exists_finish_iff schema clauses
  have hbuild : ∀ q, build schema clauses = .ok q ↔ ∃ selection,
      finishDraft schema false (Draft.ofClauses clauses) = .ok selection ∧
        q = ⟨selection, node.sort, node.reverse, node.skip.getD 0, node.limit⟩ := by
    intro q
    unfold build
    rw [hdraft]
    dsimp only
    cases finishDraft schema false (.mk node (drafts clauses)) with
    | error e => simp [Except.map]
    | ok selection => simp [Except.map, eq_comm]
  -- The outermost node and the nested ones are checked apart from each other.
  have hwell : WellFormed schema clauses ↔ node.check schema false = .ok () ∧
      ∀ n ∈ nested clauses, Proper n ∧ Bare n := by
    rw [check_query hnode]
    constructor
    · intro h
      obtain ⟨hproper, hnested⟩ := List.forall_mem_cons.mp h.proper
      exact ⟨⟨hproper, h.declared⟩, fun n hn => ⟨hnested n hn, h.bare n hn⟩⟩
    · rintro ⟨⟨hproper, hdeclared⟩, hnested⟩
      exact ⟨List.forall_mem_cons.mpr ⟨hproper, fun n hn => (hnested n hn).1⟩,
        fun n hn => (hnested n hn).2, hdeclared⟩
  refine ⟨?_, fun q hq => ?_⟩
  · rw [hwell, ← exists_branches_iff schema]
    simp only [hbuild, hfinish]
    constructor
    · rintro ⟨q, selection, ⟨hcheck, branches, -, hbranches⟩, -⟩
      exact ⟨hcheck, branches, hbranches⟩
    · rintro ⟨hcheck, branches, hbranches⟩
      exact ⟨_, _, ⟨hcheck, branches, rfl, hbranches⟩, rfl⟩
  · obtain ⟨selection, hselection, rfl⟩ := (hbuild q).mp hq
    obtain ⟨hproper, -⟩ := (check_query hnode).mp ((hfinish _ _).mp hselection).1
    exact {
      selection := holds_of_finish hselection
      sort := hnode.sort.trans (firstMentions_eq hproper.sort)
      reverse := hnode.reverse
      skip := by rw [hnode.skip, getLast?_eq_head? hproper.skip]
      limit := by rw [hnode.limit, getLast?_eq_head? hproper.limit] }

section Parcels

/-- Parcels that are not heavy, sorted, from the second one on; or those by their weight, or the one with
the key 3. -/
def parcelClauses : List (Clause Empty Bool) :=
  [.wherever "weight" 1 (.compares .ge (.int 30)), .sortBy ["weight", "sizes"], .skip 1,
    .or [.index "weight", .or [.wherever keyField 2 (.compares .eq (.int 3))]], .sortBy ["weight"]]

/-- A builder with sort, paging and two branches is well formed, and its query holds what was said. -/
theorem build_wellFormed_parcels : WellFormed Store.parcels.schema parcelClauses ∧
    ∃ q, build Store.parcels.schema parcelClauses = .ok q ∧ q.Holds parcelClauses ∧
      q.sort = ["weight", "sizes"] := by
  have hwell : WellFormed Store.parcels.schema parcelClauses := by decide
  obtain ⟨hbuild, hholds⟩ := build_wellFormed Store.parcels.schema parcelClauses
  obtain ⟨q, hq⟩ := hbuild.mpr hwell
  exact ⟨hwell, q, hq, hholds q hq, (hholds q hq).sort.trans (by decide)⟩

/-- An alternative of an alternative must not have a limit. -/
example : ¬WellFormed Store.parcels.schema [.or [.or [.limit 1]]] := by decide

end Parcels

end Query

end RecordStore
