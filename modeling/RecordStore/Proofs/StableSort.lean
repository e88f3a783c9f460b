import RecordStore.StableSort
import Mathlib

/-!
# Sorting rearranges

Whatever the comparisons answer, and from wherever they fail, `stableSort` gives back the items it
was given in some order, if it does not give up. `Always c P` says that the answer of a comparing
computation has the property `P` whatever its comparisons answer; each part of the sort is a
rearrangement in that sense, and the parts are put together by `always_bind`.

Only the merge from both ends gives up, and a few items are sorted without it: up to twenty items are
given back in any case (`exists_stableSort`).
-/

namespace RecordStore.StableSort

variable {α β γ : Type}

/-- A sequence has an answer if its first part has one and the second part has one after it. -/
theorem bind_eq_some {c : Comparing β} {f : β → Comparing γ} {failure : Option Error}
    {r : γ × Option Error} :
    (c >>= f) failure = some r ↔ ∃ b failure', c failure = some (b, failure') ∧ f b failure' = some r := by
  show (c failure).bind _ = some r ↔ _
  rw [Option.bind_eq_some_iff]
  exact ⟨fun ⟨⟨b, failure'⟩, hc, hf⟩ => ⟨b, failure', hc, hf⟩,
    fun ⟨b, failure', hc, hf⟩ => ⟨(b, failure'), hc, hf⟩⟩

/-- An answer has the property, whether or not a comparison has failed before. There need not be an
answer. -/
def Always (c : Comparing β) (P : β → Prop) : Prop :=
  ∀ failure b failure', c failure = some (b, failure') → P b

theorem always_any (c : Comparing β) : Always c fun _ => True := fun _ _ _ _ => trivial

theorem always_pure {b : β} {P : β → Prop} (h : P b) : Always (pure b) P := by
  intro failure b' failure' hrun
  cases (hrun : some (b, failure) = some (b', failure'))
  exact h

/-- What gives up has no answer to be wrong about. -/
theorem always_giveUp {P : β → Prop} : Always Comparing.giveUp P := by
  rintro failure b failure' ⟨⟩

/-- A sequence has the property if its second part has it after every answer that the first part may
give. -/
theorem always_bind {c : Comparing β} {f : β → Comparing γ} {P : β → Prop} {Q : γ → Prop}
    (hc : Always c P) (hf : ∀ b, P b → Always (f b) Q) : Always (c >>= f) Q := by
  intro failure b failure' hrun
  obtain ⟨b₁, failure₁, hfirst, hsecond⟩ := bind_eq_some.mp hrun
  exact hf b₁ (hc failure b₁ failure₁ hfirst) failure₁ b failure' hsecond

theorem Always.mono {c : Comparing β} {P Q : β → Prop} (hc : Always c P) (h : ∀ b, P b → Q b) :
    Always c Q :=
  fun failure b failure' hrun => h b (hc failure b failure' hrun)

theorem Always.and {c : Comparing β} {P Q : β → Prop} (hp : Always c P) (hq : Always c Q) :
    Always c fun b => P b ∧ Q b :=
  fun failure b failure' hrun => ⟨hp failure b failure' hrun, hq failure b failure' hrun⟩

/-- The computation does not give up, whether or not a comparison has failed before. -/
def Answers (c : Comparing β) : Prop := ∀ failure, ∃ r, c failure = some r

theorem answers_pure (b : β) : Answers (pure b) := fun failure => ⟨(b, failure), rfl⟩

/-- A sequence does not give up if none of its parts does. -/
theorem answers_bind {c : Comparing β} {f : β → Comparing γ} (hc : Answers c)
    (hf : ∀ b, Answers (f b)) : Answers (c >>= f) := by
  intro failure
  obtain ⟨⟨b, failure₁⟩, hfirst⟩ := hc failure
  obtain ⟨r, hsecond⟩ := hf b failure₁
  exact ⟨r, bind_eq_some.mpr ⟨b, failure₁, hfirst, hsecond⟩⟩

/-- A question is answered even if the comparison fails. -/
theorem answers_less (cmp : α → α → Except Error Ordering) (a b : α) :
    Answers (Comparing.less cmp a b) := by
  intro failure
  unfold Comparing.less
  cases failure with
  | some e => exact ⟨_, rfl⟩
  | none =>
    dsimp only
    cases cmp a b with
    | ok _ => exact ⟨_, rfl⟩
    | error _ => exact ⟨_, rfl⟩

/-! ## Insertion -/

section Parts

variable (less : α → α → Comparing Bool)

/-- Inserting an item adds it to the others. -/
theorem perm_insertFromBehind (x : α) :
    ∀ ys, Always (insertFromBehind less x ys) fun r => r.Perm (x :: ys)
  | [] => always_pure (List.Perm.refl _)
  | y :: ys => by
    unfold insertFromBehind
    refine always_bind (always_any _) fun b _ => ?_
    cases b with
    | true =>
      refine always_bind (perm_insertFromBehind x ys) fun r hr => always_pure ?_
      exact (hr.cons y).trans (List.Perm.swap x y ys)
    | false => exact always_pure (List.Perm.refl _)

theorem perm_insertEach :
    ∀ sorted items, Always (insertEach less sorted items) fun r => r.Perm (sorted ++ items)
  | sorted, [] => always_pure (by rw [List.append_nil])
  | sorted, x :: xs => by
    unfold insertEach
    refine always_bind (perm_insertFromBehind less x sorted) fun r hr => ?_
    refine (perm_insertEach r xs).mono fun s hs => ?_
    exact hs.trans ((hr.append_right xs).trans List.perm_middle.symm)

theorem perm_insertionSort (items : List α) :
    Always (insertionSort less items) fun r => r.Perm items := by
  refine always_bind (perm_insertEach less [] items) fun r hr => always_pure ?_
  exact (List.reverse_perm r).trans hr

section Answers

variable {less} (hless : ∀ a b, Answers (less a b))

include hless

theorem answers_insertFromBehind (x : α) : ∀ ys, Answers (insertFromBehind less x ys)
  | [] => answers_pure _
  | y :: ys => by
    unfold insertFromBehind
    refine answers_bind (hless x y) fun isLess => ?_
    cases isLess with
    | true => exact answers_bind (answers_insertFromBehind x ys) fun _ => answers_pure _
    | false => exact answers_pure _

theorem answers_insertEach : ∀ sorted items, Answers (insertEach less sorted items)
  | _, [] => answers_pure _
  | sorted, x :: xs =>
    answers_bind (answers_insertFromBehind hless x sorted) fun r => answers_insertEach r xs

/-- Sorting by insertion does not give up. -/
theorem answers_insertionSort (items : List α) : Answers (insertionSort less items) :=
  answers_bind (answers_insertEach hless [] items) fun _ => answers_pure _

end Answers

/-- The four answers that place the items leave every item in one place. -/
theorem perm_sortFour (a b c d : α) :
    Always (sortFour less a b c d) fun r => r.Perm [a, b, c, d] := by
  classical
  unfold sortFour
  refine always_bind (always_any _) fun swapLeft _ => ?_
  refine always_bind (always_any _) fun swapRight _ => ?_
  cases swapLeft <;> cases swapRight <;> simp only [if_true, if_false, Bool.false_eq_true]
  all_goals
    refine always_bind (always_any _) fun minRight _ => ?_
    refine always_bind (always_any _) fun maxLeft _ => ?_
    refine always_bind (always_any _) fun swapInner _ => ?_
    cases minRight <;> cases maxLeft <;> cases swapInner <;>
      refine always_pure (List.perm_iff_count.mpr fun x => ?_) <;>
      simp only [if_true, if_false, Bool.false_eq_true, List.count_cons, List.count_nil] <;> omega

theorem perm_opening (four : Bool) (items : List α) :
    Always (opening less four items) fun r => (r.1 ++ r.2).Perm items := by
  unfold opening
  split
  next a b c d rest =>
    cases four with
    | true =>
      refine always_bind (perm_sortFour less a b c d) fun r hr => always_pure ?_
      exact ((List.reverse_perm r).trans hr).append_right rest
    | false => exact always_pure (List.Perm.refl _)
  next => exact always_pure (List.Perm.refl _)
  next => exact always_pure (List.Perm.refl _)

/-! ## Merging -/

theorem perm_mergeFront :
    ∀ left right, Always (mergeFront less left right) fun r => r.Perm (left ++ right)
  | [], right => by
    unfold mergeFront
    exact always_pure (List.Perm.refl _)
  | x :: left, [] => by
    unfold mergeFront
    exact always_pure (by rw [List.append_nil])
  | x :: left, y :: right => by
    unfold mergeFront
    refine always_bind (always_any _) fun b _ => ?_
    cases b with
    | true =>
      refine always_bind (perm_mergeFront (x :: left) right) fun r hr => always_pure ?_
      exact (hr.cons y).trans List.perm_middle.symm
    | false =>
      refine always_bind (perm_mergeFront left (y :: right)) fun r hr => always_pure ?_
      exact hr.cons x
  termination_by left right => left.length + right.length

theorem perm_mergeBack :
    ∀ left right, Always (mergeBack less left right) fun r => r.Perm (left ++ right)
  | [], right => by
    unfold mergeBack
    exact always_pure (List.Perm.refl _)
  | x :: left, [] => by
    unfold mergeBack
    exact always_pure (by rw [List.append_nil])
  | x :: left, y :: right => by
    unfold mergeBack
    refine always_bind (always_any _) fun b _ => ?_
    cases b with
    | true =>
      refine always_bind (perm_mergeBack left (y :: right)) fun r hr => always_pure ?_
      exact hr.cons x
    | false =>
      refine always_bind (perm_mergeBack (x :: left) right) fun r hr => always_pure ?_
      exact (hr.cons y).trans List.perm_middle.symm
  termination_by left right => left.length + right.length

/-- Merging loses nothing and adds nothing, whichever way it goes. -/
theorem perm_merge (left right : List α) :
    Always (merge less left right) fun r => r.Perm (left ++ right) := by
  unfold merge
  split
  next => exact perm_mergeFront less left right
  next =>
    refine always_bind (perm_mergeBack less left.reverse right.reverse) fun r hr => always_pure ?_
    refine (List.reverse_perm r).trans (hr.trans ?_)
    exact (List.reverse_perm left).append (List.reverse_perm right)

/-- What placing at both ends has taken: in front the first `i` and `j` items of the two lists, at
the back the first `p` and `q` as seen from there, as many in front as at the back. -/
structure Placed (rounds : Nat) (left right leftBack rightBack : List α) (m : Meeting α)
    (i j p q : Nat) : Prop where
  front : m.front.Perm (left.take i ++ right.take j)
  back : m.back.Perm (leftBack.take p ++ rightBack.take q)
  leftRest : m.left = left.drop i
  rightRest : m.right = right.drop j
  backLeft : m.backLeft = p
  backRight : m.backRight = q
  leftFits : i ≤ left.length
  rightFits : j ≤ right.length
  even : i + j = p + q
  rounds : i + j ≤ rounds

theorem placed_nothing (rounds : Nat) (left right leftBack rightBack : List α) :
    Placed rounds left right leftBack rightBack ⟨[], left, right, [], 0, 0⟩ 0 0 0 0 where
  front := List.Perm.refl _
  back := List.Perm.refl _
  leftRest := rfl
  rightRest := rfl
  backLeft := rfl
  backRight := rfl
  leftFits := Nat.zero_le _
  rightFits := Nat.zero_le _
  even := rfl
  rounds := Nat.zero_le _

/-- Whatever the comparisons answer, each round takes one item for the front and one for the back, each
time the next one of one of the two lists. By how many came from where, what is left of the lists is
known. -/
theorem placed_placeEnds : ∀ (rounds : Nat) (left right leftBack rightBack : List α),
    Always (placeEnds less rounds left right leftBack rightBack) fun m =>
      ∃ i j p q, Placed rounds left right leftBack rightBack m i j p q
  | rounds + 1, x :: left, y :: right, u :: leftBack, v :: rightBack => by
    unfold placeEnds
    refine always_bind (always_any _) fun takeRight _ => ?_
    refine always_bind (always_any _) fun keepRight _ => ?_
    -- One more item of the list that gave it, in front and at the back.
    have hcons : ∀ {a : α} {l s t : List α}, l.Perm (s ++ t) →
        (a :: l).Perm (s ++ a :: t) := fun h => (h.cons _).trans List.perm_middle.symm
    have hsnoc : ∀ {a : α} {l s : List α}, l.Perm s → (l ++ [a]).Perm (a :: s) := fun h =>
      (List.perm_append_singleton _ _).trans (h.cons _)
    -- The front takes from the right list if `takeRight` says so, the back from the left one if
    -- `keepRight` does.
    cases takeRight <;> cases keepRight
    case false.false =>
      refine always_bind (placed_placeEnds rounds left (y :: right) (u :: leftBack) rightBack)
        fun m ⟨i, j, p, q, h⟩ => always_pure ⟨i + 1, j, p, q + 1, ?_⟩
      exact ⟨h.front.cons x, (hsnoc h.back).trans List.perm_middle.symm, h.leftRest, h.rightRest,
        h.backLeft, congrArg (· + 1) h.backRight, Nat.succ_le_succ h.leftFits, h.rightFits,
        by have := h.even; omega, by have := h.rounds; omega⟩
    case false.true =>
      refine always_bind (placed_placeEnds rounds left (y :: right) leftBack (v :: rightBack))
        fun m ⟨i, j, p, q, h⟩ => always_pure ⟨i + 1, j, p + 1, q, ?_⟩
      exact ⟨h.front.cons x, hsnoc h.back, h.leftRest, h.rightRest,
        congrArg (· + 1) h.backLeft, h.backRight, Nat.succ_le_succ h.leftFits, h.rightFits,
        by have := h.even; omega, by have := h.rounds; omega⟩
    case true.false =>
      refine always_bind (placed_placeEnds rounds (x :: left) right (u :: leftBack) rightBack)
        fun m ⟨i, j, p, q, h⟩ => always_pure ⟨i, j + 1, p, q + 1, ?_⟩
      exact ⟨hcons h.front, (hsnoc h.back).trans List.perm_middle.symm, h.leftRest, h.rightRest,
        h.backLeft, congrArg (· + 1) h.backRight, h.leftFits, Nat.succ_le_succ h.rightFits,
        by have := h.even; omega, by have := h.rounds; omega⟩
    case true.true =>
      refine always_bind (placed_placeEnds rounds (x :: left) right leftBack (v :: rightBack))
        fun m ⟨i, j, p, q, h⟩ => always_pure ⟨i, j + 1, p + 1, q, ?_⟩
      exact ⟨hcons h.front, hsnoc h.back, h.leftRest, h.rightRest,
        congrArg (· + 1) h.backLeft, h.backRight, h.leftFits, Nat.succ_le_succ h.rightFits,
        by have := h.even; omega, by have := h.rounds; omega⟩
  -- No round is left, or a list has run out.
  | 0, left, right, leftBack, rightBack => by
    unfold placeEnds
    exact always_pure ⟨0, 0, 0, 0, placed_nothing ..⟩
  | rounds + 1, [], right, leftBack, rightBack => by
    unfold placeEnds
    exact always_pure ⟨0, 0, 0, 0, placed_nothing ..⟩
  | rounds + 1, x :: left, [], leftBack, rightBack => by
    unfold placeEnds
    exact always_pure ⟨0, 0, 0, 0, placed_nothing ..⟩
  | rounds + 1, x :: left, y :: right, [], rightBack => by
    unfold placeEnds
    exact always_pure ⟨0, 0, 0, 0, placed_nothing ..⟩
  | rounds + 1, x :: left, y :: right, u :: leftBack, [] => by
    unfold placeEnds
    exact always_pure ⟨0, 0, 0, 0, placed_nothing ..⟩

/-- A list is its first items, a middle and its last items. -/
theorem take_middle_drop (l : List α) {i p : Nat} (h : i + p ≤ l.length) :
    l.take i ++ ((l.drop i).take (l.length - i - p) ++ l.drop (l.length - p)) = l := by
  have hlast : l.drop (l.length - p) = (l.drop i).drop (l.length - i - p) := by
    rw [List.drop_drop]
    congr 1
    omega
  rw [hlast, List.take_append_drop, List.take_append_drop]

/-- If what is in the middle has the right length then the two ends have not passed each other, and
each of the two lists is what it gave to the front, the middle and the back. Otherwise there is no
answer. -/
theorem perm_mergeEnds (left right : List α) :
    Always (mergeEnds less left right) fun r => r.Perm (left ++ right) := by
  unfold mergeEnds
  refine always_bind (placed_placeEnds less _ left right left.reverse right.reverse)
    fun m ⟨i, j, p, q, h⟩ => ?_
  dsimp only
  split
  next hlen =>
    refine always_pure ?_
    -- An item is in the four parts that the rounds took or in the middle that is left; where the ends
    -- meet, nothing is taken twice.
    have heven := h.even
    have hrounds := h.rounds
    have hi := h.leftFits
    have hj := h.rightFits
    simp only [h.leftRest, h.rightRest, h.backLeft, h.backRight, List.length_append, List.length_take,
      List.length_drop] at hlen ⊢
    have hp : i + p ≤ left.length := by omega
    have hq : j + q ≤ right.length := by omega
    have hback : ∀ (l : List α) (n : Nat), (l.reverse.take n).Perm (l.drop (l.length - n)) := by
      intro l n
      rw [List.take_reverse]
      exact List.reverse_perm _
    have hall := (h.front.append (List.Perm.refl
      ((left.drop i).take (left.length - i - p) ++ (right.drop j).take (right.length - j - q)))
      ).append (h.back.trans ((hback left p).append (hback right q)))
    refine hall.trans ?_
    classical
    refine List.perm_iff_count.mpr fun x => ?_
    have hl := congrArg (List.count x) (take_middle_drop left hp)
    have hr := congrArg (List.count x) (take_middle_drop right hq)
    simp only [List.count_append] at hl hr ⊢
    omega
  next => exact always_giveUp

/-- Sorting a few items rearranges them, if the merge of their halves has an answer. -/
theorem perm_sortSmall (items : List α) :
    Always (sortSmall less items) fun r => r.Perm items := by
  unfold sortSmall
  dsimp only
  refine always_bind (perm_opening less _ _) fun left hleft => ?_
  refine always_bind (perm_opening less _ _) fun right hright => ?_
  refine always_bind (perm_insertEach less left.1 left.2) fun left' hleft' => ?_
  refine always_bind (perm_insertEach less right.1 right.2) fun right' hright' => ?_
  refine (perm_mergeEnds less left'.reverse right'.reverse).mono fun r hr => ?_
  refine hr.trans (((List.reverse_perm left').append (List.reverse_perm right')).trans ?_)
  refine ((hleft'.trans hleft).append (hright'.trans hright)).trans ?_
  rw [List.take_append_drop]

/-! ## Runs -/

/-- A run that is cut off the front is the first of the items in some order, one of them at
least. -/
theorem cutRun_front (eager : Bool) {least : Nat} (items : List α)
    (hleast : items ≠ [] → 1 ≤ least) :
    Always (cutRun less eager least items) fun run =>
      run.items.Perm (items.take run.items.length) ∧ (items ≠ [] → run.items ≠ []) := by
  -- The first `n` items in some order, for an `n` that is positive if there are any.
  have hfront : ∀ {n : Nat} {l : List α}, (items ≠ [] → 1 ≤ n) → l.Perm (items.take n) →
      l.Perm (items.take l.length) ∧ (items ≠ [] → l ≠ []) := by
    intro n l hn hl
    have hlen : l.length = min n items.length := by rw [hl.length_eq, List.length_take]
    refine ⟨?_, fun hne hnil => ?_⟩
    · rw [hlen, ← List.take_take, List.take_length]
      exact hl
    · have hpos := List.length_pos_iff.mpr hne
      have hone := hn hne
      rw [hnil, List.length_nil] at hlen
      omega
  have hcut : ∀ (length : Nat) (falls : Bool),
      Always (if least ≤ length then
          pure ⟨if falls then (items.take length).reverse else items.take length, true⟩
        else if eager then do return ⟨← sortSmall less (items.take smallLimit), true⟩
        else pure ⟨items.take least, false⟩) fun run : Run α =>
      run.items.Perm (items.take run.items.length) ∧ (items ≠ [] → run.items ≠ []) := by
    intro length falls
    split
    next hlong =>
      refine always_pure (hfront (fun hne => Nat.le_trans (hleast hne) hlong) ?_)
      cases falls with
      | true => exact List.reverse_perm _
      | false => exact List.Perm.refl _
    next =>
      split
      next =>
        refine always_bind (perm_sortSmall less (items.take smallLimit)) fun r hr => always_pure ?_
        exact hfront (fun _ => by decide) hr
      next => exact always_pure (hfront hleast (List.Perm.refl _))
  unfold cutRun
  dsimp only
  split
  next => exact always_bind (always_any _) fun stretch _ => hcut stretch.1 stretch.2
  next => exact hcut 0 false

/-- A run has an item at least, however many items there are. -/
theorem one_le_leastStretch {count : Nat} (h : 1 ≤ count) : 1 ≤ leastStretch count := by
  unfold leastStretch
  split
  next => omega
  next hlarge =>
    unfold roughSqrt
    have hlog : 1 ≤ count.log2 := (Nat.le_log2 (by omega)).mpr (by omega)
    have hshift : 2 ≤ 1 <<< ((1 + count.log2) / 2) := by
      rw [Nat.one_shiftLeft]
      calc 2 = 2 ^ 1 := rfl
        _ ≤ 2 ^ ((1 + count.log2) / 2) := Nat.pow_le_pow_right (by decide) (by omega)
    exact (Nat.le_div_iff_mul_le (by decide)).mpr (Nat.le_trans hshift (Nat.le_add_right ..))

end Parts

section Merging

variable (less : α → α → Comparing Bool) {later : Option (List α → Comparing (List α))}

/-- A sort for later, if there is one, rearranges. -/
def LaterPermutes (later : Option (List α → Comparing (List α))) : Prop :=
  ∀ sort, later = some sort → ∀ items, Always (sort items) fun r => r.Perm items

theorem perm_ordered (hlater : LaterPermutes later) (run : Run α) :
    Always (run.ordered later) fun r => r.Perm run.items := by
  unfold Run.ordered
  split
  next sort _ => exact hlater sort rfl run.items
  next => exact always_pure (List.Perm.refl _)

theorem perm_join (hlater : LaterPermutes later) (left right : Run α) :
    Always (left.join less later right) fun r => r.items.Perm (left.items ++ right.items) := by
  unfold Run.join
  split
  next =>
    refine always_bind (perm_ordered hlater left) fun l hl => ?_
    refine always_bind (perm_ordered hlater right) fun r hr => ?_
    refine always_bind (perm_merge less l r) fun m hm => always_pure ?_
    exact hm.trans (hl.append hr)
  next => exact always_pure (List.Perm.refl _)

/-- All the items of runs that wait to be merged. -/
def waiting (before : List (Run α × Nat)) : List α := before.flatMap (·.1.items)

/-- Joining a run with those before it keeps the items of all of them. -/
theorem perm_collapse (hlater : LaterPermutes later) (depth : Nat) :
    ∀ (before : List (Run α × Nat)) (run : Run α),
      Always (collapse less later depth before run) fun r =>
        (waiting r.1 ++ r.2.items).Perm (waiting before ++ run.items)
  | [], run => always_pure (List.Perm.refl _)
  | (left, leftDepth) :: before, run => by
    unfold collapse
    split
    next =>
      refine always_bind (perm_join less hlater left run) fun joined hjoined => ?_
      refine (perm_collapse hlater depth before joined).mono fun r hr => ?_
      refine hr.trans ((hjoined.append_left _).trans ?_)
      show (waiting before ++ (left.items ++ run.items)).Perm
        (left.items ++ waiting before ++ run.items)
      rw [← List.append_assoc]
      exact List.perm_append_comm.append_right _
    next => exact always_pure (List.Perm.refl _)

/-- To be merged at depth zero is to be merged with everything before. -/
theorem collapse_zero :
    ∀ (before : List (Run α × Nat)) (run : Run α),
      Always (collapse less later 0 before run) fun r => r.1 = []
  | [], run => always_pure rfl
  | (left, leftDepth) :: before, run => by
    unfold collapse
    rw [if_pos (Nat.zero_le _)]
    exact always_bind (always_any _) fun joined _ => collapse_zero before joined

/-- Going on behind the last run keeps what waits, the last run and all that is still to be cut. -/
theorem perm_mergeRuns (hlater : LaterPermutes later) {count : Nat} :
    ∀ (before : List (Run α × Nat)) (last : Run α) (rest : List α), (rest ≠ [] → 1 ≤ count) →
      Always (mergeRuns less later count before last rest) fun run =>
        run.items.Perm (waiting before ++ last.items ++ rest)
  | before, last, [], _ => by
    unfold mergeRuns
    refine always_bind ((perm_collapse less hlater 0 before last).and (collapse_zero less before last))
      fun r ⟨hr, hnone⟩ => always_pure ?_
    rw [hnone] at hr
    rw [List.append_nil]
    exact hr
  | before, last, x :: xs, hcount => by
    unfold mergeRuns
    have hcount : 1 ≤ count := hcount (List.cons_ne_nil x xs)
    refine always_bind (cutRun_front less _ (x :: xs) fun _ => one_le_leastStretch hcount)
      fun next ⟨hnext, hsome⟩ => ?_
    refine always_bind (perm_collapse less hlater _ before last) fun r hr => ?_
    have hpos : 1 ≤ next.items.length := List.length_pos_iff.mpr (hsome (by simp))
    refine (perm_mergeRuns hlater _ next (xs.drop (next.items.length - 1)) fun _ => hcount).mono
      fun run hrun => hrun.trans ?_
    have hrest : xs.drop (next.items.length - 1) = (x :: xs).drop next.items.length := by
      rw [← Nat.sub_add_cancel hpos]
      rfl
    rw [hrest]
    -- The next run rearranges the front of what is left.
    have hcut : (next.items ++ (x :: xs).drop next.items.length).Perm (x :: xs) := by
      refine (hnext.append_right _).trans ?_
      rw [List.take_append_drop]
    calc waiting ((r.2, _) :: r.1) ++ next.items ++ (x :: xs).drop next.items.length
      _ = r.2.items ++ waiting r.1 ++ (next.items ++ (x :: xs).drop next.items.length) := by
        rw [List.append_assoc]
        rfl
      List.Perm _ (waiting r.1 ++ r.2.items ++ (x :: xs)) := List.perm_append_comm.append hcut
      List.Perm _ (waiting before ++ last.items ++ (x :: xs)) := hr.append_right _
  termination_by _ _ rest _ => rest.length
  decreasing_by simp only [List.length_drop, List.length_cons]; omega

/-- Sorting by runs rearranges, if the sort for later does. -/
theorem perm_sortByRuns (hlater : LaterPermutes later) (items : List α) :
    Always (sortByRuns less later items) fun r => r.Perm items := by
  have hcount : items ≠ [] → 1 ≤ items.length := List.length_pos_iff.mpr
  unfold sortByRuns
  refine always_bind (cutRun_front less _ items fun hne => one_le_leastStretch (hcount hne))
    fun first ⟨hfirst, _⟩ => ?_
  refine always_bind (perm_mergeRuns less hlater [] first _ fun hne => hcount fun hnil => ?_)
    fun run hrun => ?_
  · rw [hnil, List.drop_nil] at hne
    exact hne rfl
  · refine (perm_ordered hlater run).mono fun r hr => hr.trans (hrun.trans ?_)
    refine (hfirst.append_right _).trans ?_
    rw [List.take_append_drop]

end Merging

/-! ## Partition -/

section Partition

theorem middleOfThree_mem (less : α → α → Comparing Bool) (a b c : α) :
    Always (middleOfThree less a b c) fun m => m = a ∨ m = b ∨ m = c := by
  unfold middleOfThree
  refine always_bind (always_any _) fun below _ => ?_
  refine always_bind (always_any _) fun below' _ => ?_
  split
  next => exact always_pure (.inl rfl)
  next =>
    refine always_bind (always_any _) fun between _ => ?_
    split
    next => exact always_pure (.inr (.inr rfl))
    next => exact always_pure (.inr (.inl rfl))

/-- A sample is one of the items, or the one that stands for none. -/
theorem sample_mem (less : α → α → Comparing Bool) (first : α) :
    ∀ (count : Nat) (items : List α),
      Always (sample less first count items) fun a => a = first ∨ a ∈ items
  | count, items => by
    unfold sample
    split
    next =>
      refine always_pure ?_
      cases items with
      | nil => exact .inl rfl
      | cons x xs => exact .inr (List.mem_cons_self ..)
    next hmany =>
      have hdrop : ∀ {n : Nat} {a : α}, a = first ∨ a ∈ items.drop n → a = first ∨ a ∈ items :=
        fun h => h.imp_right List.mem_of_mem_drop
      dsimp only
      refine always_bind (sample_mem less first (count / 8) items) fun a ha => ?_
      refine always_bind (sample_mem less first (count / 8) _) fun b hb => ?_
      refine always_bind (sample_mem less first (count / 8) _) fun c hc => ?_
      refine (middleOfThree_mem less a b c).mono fun m hm => ?_
      rcases hm with rfl | rfl | rfl
      · exact ha
      · exact hdrop hb
      · exact hdrop hc
  termination_by count => count
  decreasing_by all_goals omega

theorem perm_split (test : α → Comparing Bool) :
    ∀ items, Always (split test items) fun r => (r.1 ++ r.2).Perm items
  | [] => always_pure (List.Perm.refl _)
  | x :: xs => by
    unfold split
    refine always_bind (always_any _) fun isLeft _ => ?_
    refine always_bind (perm_split test xs) fun r hr => always_pure ?_
    cases isLeft with
    | true => exact hr.cons x
    | false => exact List.perm_middle.trans (hr.cons x)

/-- The item that is split around is put back on the one side or the other. -/
theorem perm_splitAround (test : α → Comparing Bool) (pivotLeft : Bool) {position : Nat}
    {pivot : α} {items : List α} (hat : items[position]? = some pivot) :
    Always (splitAround test pivotLeft position pivot items) fun r =>
      (r.1 ++ r.2).Perm items := by
  obtain ⟨hlt, rfl⟩ := List.getElem?_eq_some_iff.mp hat
  have hitems : items.take position ++ items[position] :: items.drop (position + 1) = items := by
    rw [List.getElem_cons_drop, List.take_append_drop]
  unfold splitAround
  refine always_bind (perm_split test _) fun front hfront => ?_
  refine always_bind (perm_split test _) fun behind hbehind => always_pure ?_
  refine List.Perm.trans ?_ (List.Perm.of_eq hitems)
  classical
  refine List.perm_iff_count.mpr fun x => ?_
  have hf := hfront.count_eq x
  have hb := hbehind.count_eq x
  cases pivotLeft <;>
    simp only [if_true, if_false, Bool.false_eq_true, List.count_append, List.count_cons]
      at hf hb ⊢ <;> omega

/-! A partition splits the items before its pivot off, and then sorts what is on each side. -/

variable (less : α → α → Comparing Bool) {pivot : α} {position : Nat} {items : List α}

/-- Splits off the items before a pivot. Before one that is a bound there are none. -/
def splitBefore (isBound : Bool) (position : Nat) (pivot : α) (items : List α) :
    Comparing (List α × List α) :=
  if isBound then pure ([], items) else splitAround (less · pivot) false position pivot items

/-- Sorts the items on each side of a pivot. If there are none before it then those that are not after it
are put aside, and only the others are sorted. -/
def sortSides (sort : Option α → List α → Comparing (List α)) (bound : Option α) (position : Nat)
    (pivot : α) (items : List α) (sides : List α × List α) : Comparing (List α) :=
  if sides.1.isEmpty then do
    let sides ← splitAround (notLess less pivot) true position pivot items
    return sides.1 ++ (← sort none sides.2)
  else do
    let right ← sort (some pivot) sides.2
    let left ← sort bound sides.1
    return left ++ right

/-- One split of a long list, with what it consists of in the order in which it is done. -/
theorem partitionSort_succ {splits : Nat} {bound : Option α} {first : α} {rest : List α}
    (hlong : ¬(first :: rest).length ≤ smallLimit) :
    partitionSort less (splits + 1) bound (first :: rest) =
      sample (fun a b => less a.1 b.1) (first, 0) (first :: rest).length (first :: rest).zipIdx >>=
        fun sampled => bound.elim (pure false) (notLess less · sampled.1) >>= fun isBound =>
          splitBefore less isBound sampled.2 sampled.1 (first :: rest) >>=
            sortSides less (partitionSort less splits) bound sampled.2 sampled.1 (first :: rest) := by
  rw [partitionSort]
  dsimp only
  rw [if_neg hlong]
  refine congrArg (sample _ _ _ _ >>= ·) (funext fun sampled => ?_)
  cases bound with
  | none => rfl
  | some b =>
    refine congrArg (notLess less b sampled.1 >>= ·) (funext fun isBound => ?_)
    cases isBound <;> rfl

/-- The sample of a partition is one of the items, with its position. -/
theorem sample_at (first : α) (rest : List α) :
    Always (sample (fun a b => less a.1 b.1) (first, 0) (first :: rest).length (first :: rest).zipIdx)
      fun sampled => (first :: rest)[sampled.2]? = some sampled.1 := by
  refine (sample_mem _ (first, 0) _ _).mono fun sampled hsampled => ?_
  rcases hsampled with rfl | hmem
  · rfl
  · exact List.mem_zipIdx_iff_getElem?.mp hmem

theorem perm_splitBefore (isBound : Bool) (hat : items[position]? = some pivot) :
    Always (splitBefore less isBound position pivot items) fun sides =>
      (sides.1 ++ sides.2).Perm items := by
  cases isBound with
  | true => exact always_pure (List.Perm.refl _)
  | false => exact perm_splitAround _ false hat

/-- Sorting the two sides rearranges the whole, if the sort rearranges. -/
theorem perm_sortSides {sort : Option α → List α → Comparing (List α)}
    (hsort : ∀ bound items, Always (sort bound items) fun r => r.Perm items) (bound : Option α)
    (hat : items[position]? = some pivot) {sides : List α × List α}
    (hsides : (sides.1 ++ sides.2).Perm items) :
    Always (sortSides less sort bound position pivot items sides) fun r => r.Perm items := by
  unfold sortSides
  split
  next =>
    refine always_bind (perm_splitAround (notLess less pivot) true hat) fun sides hsides => ?_
    refine always_bind (hsort none sides.2) fun larger hlarger => always_pure ?_
    exact (hlarger.append_left _).trans hsides
  next =>
    refine always_bind (hsort (some pivot) sides.2) fun right hright => ?_
    refine always_bind (hsort bound sides.1) fun left hleft => always_pure ?_
    exact (hleft.append hright).trans hsides

/-- Sorting by partition rearranges, however many splits are left. -/
theorem perm_partitionSort (splits : Nat) (bound : Option α) (items : List α) :
    Always (partitionSort less splits bound items) fun r => r.Perm items := by
  have hnone : LaterPermutes (none : Option (List α → Comparing (List α))) := by
    rintro sort ⟨⟩
  -- By the number of splits that are left; a side that is split off has one less.
  induction splits generalizing bound items with
  | zero =>
    unfold partitionSort
    split
    next => exact always_pure (List.Perm.refl _)
    next =>
      dsimp only
      split
      next => exact perm_sortSmall less _
      next => exact perm_sortByRuns less hnone _
  | succ splits ih =>
    match items with
    | [] =>
      unfold partitionSort
      exact always_pure (List.Perm.refl _)
    | first :: rest =>
      by_cases hlong : (first :: rest).length ≤ smallLimit
      · unfold partitionSort
        dsimp only
        rw [if_pos hlong]
        exact perm_sortSmall less _
      · rw [partitionSort_succ less hlong]
        refine always_bind (sample_at less first rest) fun sampled hat => ?_
        refine always_bind (always_any _) fun isBound _ => ?_
        exact always_bind (perm_splitBefore less isBound hat) fun sides =>
          perm_sortSides less ih bound hat

end Partition

/-- The sort rearranges, whichever way it takes. -/
theorem perm_sort (less : α → α → Comparing Bool) (items : List α) :
    Always (sort less items) fun r => r.Perm items := by
  unfold sort
  split
  next => exact perm_insertionSort less items
  next =>
    split
    next =>
      refine perm_sortByRuns less ?_ items
      rintro sort ⟨⟩
    next =>
      refine perm_sortByRuns less ?_ items
      rintro sort ⟨⟩ part
      exact perm_partitionSort less _ none part

end RecordStore.StableSort

namespace RecordStore

variable {α : Type} {cmp : α → α → Except Error Ordering} {items : List α}

/-- A sort that does not give up gives back all the items it was given, each as often, even if a
comparison failed. -/
theorem perm_stableSort {sorted : List α} {failure : Option Error}
    (h : stableSort cmp items = some (sorted, failure)) : sorted.Perm items :=
  StableSort.perm_sort (Comparing.less cmp) items none sorted failure h

/-- A sort of a few items does not give up, even if a comparison failed or the order contradicts
itself. -/
theorem exists_stableSort (cmp : α → α → Except Error Ordering)
    (hfew : items.length ≤ StableSort.insertionLimit) :
    ∃ sorted failure, stableSort cmp items = some (sorted, failure) := by
  obtain ⟨⟨sorted, failure⟩, hrun⟩ :=
    StableSort.answers_insertionSort (StableSort.answers_less cmp) items none
  refine ⟨sorted, failure, ?_⟩
  unfold stableSort StableSort.sort
  rw [if_pos hfew]
  exact hrun

end RecordStore
