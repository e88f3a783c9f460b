import RecordStore.Proofs.FallibleOrder
import RecordStore.Proofs.StableSort

/-!
# Merging in order

`Does pre c P` is a triple for comparing computations: from `pre` the answer has the property `P`
unless a comparison failed, a failure is that of two items of the domain, and it is kept once it is
there. It gives up only after a failure. The parts of a sort that put short lists in order have such
triples here.

They all merge. The merge from behind is the merge from the front in the order the other way round, and
an insertion is such a merge. In a merge from both ends the back is a front in the order the other way
round, and while the order is consistent the ends do not pass each other.
-/

namespace RecordStore.FallibleOrder

open StableSort

variable {α β γ : Type} (o : FallibleOrder α)

/-- Asks whether one item is before another. -/
abbrev less : α → α → Comparing Bool := Comparing.less o.cmp

/-- From `pre`, the answer has the property unless a comparison failed, and a failure is that of two
items of the domain; if there is no answer then such a failure came before. Once there is a failure it
is kept, with or without `pre`. -/
structure Does (pre : Prop) (c : Comparing β) (P : β → Prop) : Prop where
  answers : pre → ∀ b, c none = some (b, none) → P b
  fails : pre → ∀ b e, c none = some (b, some e) → ∃ x y, o.On x ∧ o.On y ∧ o.cmp x y = .error e
  givesUp : pre → c none = none → ∃ x y e, o.On x ∧ o.On y ∧ o.cmp x y = .error e
  stays : ∀ e b failure, c (some e) = some (b, failure) → failure = some e

section Rules

variable {o} {pre pre' : Prop} {c : Comparing β} {P P' : β → Prop} {Q : γ → Prop} {a b : α}

/-- A constant answer has the property if the constant does. -/
theorem does_pure {b : β} (h : pre → P b) : o.Does pre (pure b) P where
  answers hpre b' hrun := by
    cases (hrun : some (b, none) = some (b', none))
    exact h hpre
  fails _ b' e hrun := by cases (hrun : some (b, none) = some (b', some e))
  givesUp _ hrun := by cases (hrun : some (b, none) = none)
  stays e b' failure hrun := by
    cases (hrun : some (b, some e) = some (b', failure))
    rfl

/-- What must not be reached may give up. -/
theorem does_giveUp (h : pre → False) : o.Does pre Comparing.giveUp P where
  answers hpre := (h hpre).elim
  fails hpre := (h hpre).elim
  givesUp hpre := (h hpre).elim
  stays := by rintro e b failure ⟨⟩

/-- The second part starts from the answer of the first one, unless a comparison failed there. Then it
keeps the failure if it has an answer. -/
theorem does_bind {f : β → Comparing γ} (hc : o.Does pre c P)
    (hf : ∀ b, o.Does (pre ∧ P b) (f b) Q) : o.Does pre (c >>= f) Q where
  answers hpre b' hrun := by
    obtain ⟨b, failure, hfirst, hsecond⟩ := bind_eq_some.mp hrun
    cases failure with
    | none => exact (hf b).answers ⟨hpre, hc.answers hpre b hfirst⟩ b' hsecond
    -- A failure of the first part would have stayed.
    | some e => cases (hf b).stays e b' none hsecond
  fails hpre b' e hrun := by
    obtain ⟨b, failure, hfirst, hsecond⟩ := bind_eq_some.mp hrun
    cases failure with
    | none => exact (hf b).fails ⟨hpre, hc.answers hpre b hfirst⟩ b' e hsecond
    | some e' =>
      cases (hf b).stays e' b' (some e) hsecond
      exact hc.fails hpre b e hfirst
  givesUp hpre hrun := by
    cases hfirst : c none with
    | none => exact hc.givesUp hpre hfirst
    | some r =>
      obtain ⟨b, failure⟩ := r
      cases failure with
      | some e =>
        obtain ⟨x, y, hx, hy, he⟩ := hc.fails hpre b e hfirst
        exact ⟨x, y, e, hx, hy, he⟩
      | none =>
        -- The first part answered, so that it is the second one that gives up.
        refine (hf b).givesUp ⟨hpre, hc.answers hpre b hfirst⟩ (Option.eq_none_iff_forall_ne_some.mpr
          fun r hsecond => ?_)
        cases hrun.symm.trans (bind_eq_some.mpr ⟨b, none, hfirst, hsecond⟩)
  stays e b' failure hrun := by
    obtain ⟨b, failure', hfirst, hsecond⟩ := bind_eq_some.mp hrun
    cases hc.stays e b failure' hfirst
    exact (hf b).stays e b' failure hsecond

/-- A triple holds from more and for less. -/
theorem Does.mono (hc : o.Does pre c P) (hpre : pre' → pre) (hP : ∀ b, pre' → P b → P' b) :
    o.Does pre' c P' where
  answers h b hrun := hP b h (hc.answers (hpre h) b hrun)
  fails h := hc.fails (hpre h)
  givesUp h := hc.givesUp (hpre h)
  stays := hc.stays

theorem Does.from (hc : o.Does pre c P) (hpre : pre' → pre) : o.Does pre' c P :=
  hc.mono hpre fun _ _ h => h

/-- What an answer has whatever was compared it has besides. -/
theorem Does.and_always (hc : o.Does pre c P) (halways : Always c P') :
    o.Does pre c fun b => P b ∧ P' b where
  answers h b hrun := ⟨hc.answers h b hrun, halways none b none hrun⟩
  fails := hc.fails
  givesUp := hc.givesUp
  stays := hc.stays

/-- Asking leaves two cases. -/
theorem does_less (hon : pre → o.On a ∧ o.On b) :
    o.Does pre (o.less a b) fun isLess => if isLess then o.Lt a b else o.Le b a where
  answers hpre isLess hrun := by
    obtain ⟨ha, hb⟩ := hon hpre
    unfold less Comparing.less at hrun
    dsimp only at hrun
    cases h : o.cmp a b with
    | error e =>
      rw [h] at hrun
      cases hrun
    | ok r =>
      rw [h] at hrun
      cases hrun
      cases r with
      | lt => exact ⟨ha, hb, h⟩
      | eq | gt => exact le_of_cmp ha hb h (by decide)
  fails hpre isLess e hrun := by
    obtain ⟨ha, hb⟩ := hon hpre
    unfold less Comparing.less at hrun
    dsimp only at hrun
    cases h : o.cmp a b with
    | error e' =>
      rw [h] at hrun
      cases hrun
      exact ⟨a, b, ha, hb, h⟩
    | ok r =>
      rw [h] at hrun
      cases hrun
  givesUp _ hrun := by
    -- A comparison alone never gives up.
    obtain ⟨r, hanswers⟩ := answers_less o.cmp a b none
    cases hrun.symm.trans hanswers
  stays e b failure hrun := by
    cases (hrun : some (false, some e) = some (b, failure))
    rfl

/-- Asking a question and going on from the answer: one case for each. -/
theorem does_ask {f : Bool → Comparing γ} (hon : pre → o.On a ∧ o.On b)
    (hlt : o.Does (pre ∧ o.Lt a b) (f true) Q) (hle : o.Does (pre ∧ o.Le b a) (f false) Q) :
    o.Does pre (o.less a b >>= f) Q := by
  refine does_bind (does_less hon) fun isLess => ?_
  cases isLess with
  | true => exact hlt
  | false => exact hle

/-- A triple in the order the other way round is one in the order itself. -/
theorem Does.of_flip (hc : o.flip.Does pre c P) : o.Does pre c P where
  answers := hc.answers
  fails h b e hrun := by
    obtain ⟨x, y, hx, hy, he⟩ := hc.fails h b e hrun
    exact ⟨y, x, hy, hx, he⟩
  givesUp h hrun := by
    obtain ⟨x, y, e, hx, hy, he⟩ := hc.givesUp h hrun
    exact ⟨y, x, e, hy, hx, he⟩
  stays := hc.stays

end Rules

/-! ## Merging -/

section Merging

variable {o} {x y : α} {l r left right : List α}

/-- The smaller one of two heads is not after anything behind them. -/
theorem head_le_all (hl : o.Ascends (x :: left)) (hr : o.Ascends (y :: right)) (hxy : o.Le x y) :
    ∀ z ∈ x :: left ++ y :: right, o.Le x z :=
  List.forall_mem_append.mpr ⟨hl.head_le, fun z hz => hxy.trans (hr.head_le z hz)⟩

theorem head_lt_all (hl : o.Ascends (x :: left)) (hyx : o.Lt y x) : ∀ z ∈ x :: left, o.Lt y z :=
  fun z hz => hyx.trans_le (hl.head_le z hz)

/-- Merging two ascending lists from the front sorts them, ties of the left list first. -/
theorem sorts_mergeFront : ∀ left right : List α,
    o.Does (o.Ascends left ∧ o.Ascends right) (mergeFront o.less left right)
      (o.Sorts (left ++ right))
  | [], right => by
    unfold mergeFront
    exact does_pure fun h => Sorts.refl h.2
  | x :: left, [] => by
    unfold mergeFront
    refine does_pure fun h => ?_
    rw [List.append_nil]
    exact Sorts.refl h.1
  | x :: left, y :: right => by
    unfold mergeFront
    refine does_ask (fun h => ⟨h.2.head_on, h.1.head_on⟩) ?_ ?_
    · refine does_bind ((sorts_mergeFront (x :: left) right).from fun h => ⟨h.1.1, h.1.2.tail⟩)
        fun r => does_pure fun ⟨⟨⟨hl, hr⟩, hyx⟩, hs⟩ => ?_
      have hlt := head_lt_all hl hyx
      refine (keepsTies_cons_comm _ hlt right).sorts (hs.cons hr.head_on ?_)
      exact List.forall_mem_append.mpr ⟨fun z hz => (hlt z hz).le, fun z hz =>
        hr.head_le z (List.mem_cons_of_mem y hz)⟩
    · refine does_bind ((sorts_mergeFront left (y :: right)).from fun h => ⟨h.1.1.tail, h.1.2⟩)
        fun r => does_pure fun ⟨⟨⟨hl, hr⟩, hxy⟩, hs⟩ => ?_
      exact hs.cons hl.head_on fun z hz => head_le_all hl hr hxy z (List.mem_cons_of_mem x hz)
  termination_by left right => left.length + right.length

/-- To merge from behind is to merge from the front with the order and the lists exchanged. -/
theorem mergeBack_eq (less : α → α → Comparing Bool) : ∀ left right : List α,
    mergeBack less left right = mergeFront (fun a b => less b a) right left
  | [], [] => by
    unfold mergeBack mergeFront
    rfl
  | [], y :: right => by
    unfold mergeBack mergeFront
    rfl
  | x :: left, [] => by
    unfold mergeBack mergeFront
    rfl
  | x :: left, y :: right => by
    unfold mergeBack mergeFront
    rw [mergeBack_eq less left (y :: right), mergeBack_eq less (x :: left) right]
  termination_by left right => left.length + right.length

/-- Merging two ascending lists from behind sorts them, ties of the left list first. -/
theorem sorts_mergeBack (left right : List α) :
    o.Does (o.Ascends left.reverse ∧ o.Ascends right.reverse) (mergeBack o.less left right)
      fun r => o.Sorts (left.reverse ++ right.reverse) r.reverse := by
  rw [mergeBack_eq]
  refine (Does.of_flip (sorts_mergeFront right left)).mono
    (fun h => ⟨ascends_flip.mpr h.2, ascends_flip.mpr h.1⟩) fun r _ h => ?_
  rw [← List.reverse_append]
  exact h.of_flip

/-- Merging two ascending lists sorts them, whichever way it goes. -/
theorem sorts_merge (left right : List α) :
    o.Does (o.Ascends left ∧ o.Ascends right) (merge o.less left right)
      (o.Sorts (left ++ right)) := by
  unfold merge
  split
  next => exact sorts_mergeFront left right
  next =>
    refine does_bind ((sorts_mergeBack left.reverse right.reverse).from fun h => ?_)
      fun r => does_pure fun h => ?_
    · rwa [List.reverse_reverse, List.reverse_reverse]
    · have hs := h.2
      rwa [List.reverse_reverse, List.reverse_reverse] at hs

end Merging

/-! ## Insertion -/

section Insertion

variable {o}

/-- To insert an item is to merge it from behind. -/
theorem insertFromBehind_eq (less : α → α → Comparing Bool) (x : α) : ∀ ys : List α,
    insertFromBehind less x ys = mergeBack less ys [x]
  | [] => by
    unfold insertFromBehind mergeBack
    rfl
  | y :: ys => by
    unfold insertFromBehind mergeBack
    rw [insertFromBehind_eq less x ys]
    refine congrArg (less x y >>= ·) (funext fun isLess => ?_)
    unfold mergeBack
    rfl

/-- Inserting an item from behind puts it after all that ties with it. -/
theorem sorts_insertFromBehind (x : α) (ys : List α) :
    o.Does (o.Ascends ys.reverse ∧ o.On x) (insertFromBehind o.less x ys)
      fun r => o.Sorts (ys.reverse ++ [x]) r.reverse := by
  rw [insertFromBehind_eq]
  exact (sorts_mergeBack ys [x]).from fun h => ⟨h.1, Ascends.singleton h.2⟩

theorem sorts_insertEach : ∀ sorted items : List α,
    o.Does (o.Ascends sorted.reverse ∧ ∀ x ∈ items, o.On x) (insertEach o.less sorted items)
      fun r => o.Sorts (sorted.reverse ++ items) r.reverse
  | sorted, [] => does_pure fun h => by
    rw [List.append_nil]
    exact Sorts.refl h.1
  | sorted, x :: xs => by
    unfold insertEach
    refine does_bind ((sorts_insertFromBehind x sorted).from fun h =>
      ⟨h.1, h.2 x (List.mem_cons_self ..)⟩) fun r => ?_
    refine (sorts_insertEach r xs).mono (fun h => ⟨h.2.ascends, fun z hz =>
      h.1.2 z (List.mem_cons_of_mem x hz)⟩) fun s h hs => ?_
    have hkeep := (h.2.keeps.append (KeepsTies.refl xs)).sorts hs
    rwa [List.append_assoc] at hkeep

theorem sorts_insertionSort (items : List α) :
    o.Does (∀ x ∈ items, o.On x) (insertionSort o.less items) (o.Sorts items) := by
  unfold insertionSort
  exact does_bind ((sorts_insertEach [] items).from fun h => ⟨Ascends.nil, h⟩)
    fun r => does_pure fun h => h.2

end Insertion

/-! ## Merging from both ends -/

section Ends

variable {o} {x y : α} {n : Nat} {left right left' right' front as bs : List α}

/-- What an end has placed: the first items `as` and `bs` of the two lists, in order. None of them is
after an item that is left, and those of the right list are before all that is left of the left
one. -/
structure Places (o : FallibleOrder α) (n : Nat) (left right left' right' front as bs : List α) :
    Prop where
  leftEq : left = as ++ left'
  rightEq : right = bs ++ right'
  count : as.length + bs.length = n
  sorts : o.Sorts (as ++ bs) front
  below : ∀ z ∈ as ++ bs, ∀ z' ∈ left' ++ right', o.Le z z'
  past : ∀ b ∈ bs, ∀ a ∈ left', o.Lt b a

namespace Places

theorem start (left right : List α) : o.Places 0 left right left right [] [] [] where
  leftEq := rfl
  rightEq := rfl
  count := rfl
  sorts := Sorts.refl Ascends.nil
  below _ h := absurd h (List.not_mem_nil)
  past _ h := absurd h (List.not_mem_nil)

/-- One more item from the left list in front, which is not after the other head. -/
theorem takeLeft (h : o.Places n left (y :: right) left' right' front as bs)
    (hl : o.Ascends (x :: left)) (hr : o.Ascends (y :: right)) (hxy : o.Le x y) :
    o.Places (n + 1) (x :: left) (y :: right) left' right' (x :: front) (x :: as) bs := by
  have hle : ∀ z, z ∈ left ∨ z ∈ y :: right → o.Le x z := fun z hz =>
    head_le_all hl hr hxy z (List.mem_append.mpr (hz.imp_left (List.mem_cons_of_mem x)))
  have hcount := h.count
  rw [h.leftEq, h.rightEq] at hle
  refine ⟨congrArg (x :: ·) h.leftEq, h.rightEq, ?_, h.sorts.cons hl.head_on ?_, ?_, h.past⟩
  · rw [List.length_cons]
    omega
  · intro z hz
    exact hle z ((List.mem_append.mp hz).imp (List.mem_append_left _) (List.mem_append_left _))
  · refine List.forall_mem_cons.mpr ⟨fun z hz => ?_, h.below⟩
    exact hle z ((List.mem_append.mp hz).imp (List.mem_append_right _) (List.mem_append_right _))

/-- One more item from the right list in front, which is before the other head. -/
theorem takeRight (h : o.Places n (x :: left) right left' right' front as bs)
    (hl : o.Ascends (x :: left)) (hr : o.Ascends (y :: right)) (hyx : o.Lt y x) :
    o.Places (n + 1) (x :: left) (y :: right) left' right' (y :: front) as (y :: bs) := by
  have hlt := head_lt_all hl hyx
  have hle : ∀ z ∈ right, o.Le y z := fun z hz => hr.head_le z (List.mem_cons_of_mem y hz)
  have hcount := h.count
  rw [h.leftEq] at hlt
  rw [h.rightEq] at hle
  refine ⟨h.leftEq, congrArg (y :: ·) h.rightEq, ?_, ?_, ?_, ?_⟩
  · rw [List.length_cons]
    omega
  · refine (keepsTies_cons_comm _ (fun z hz => hlt z (List.mem_append_left _ hz)) bs).sorts ?_
    refine h.sorts.cons hr.head_on (List.forall_mem_append.mpr ⟨fun z hz => ?_, fun z hz => ?_⟩)
    · exact (hlt z (List.mem_append_left _ hz)).le
    · exact hle z (List.mem_append_left _ hz)
  · intro z hz z' hz'
    rcases List.mem_append.mp hz with hz | hz
    · exact h.below z (List.mem_append_left _ hz) z' hz'
    · rcases List.mem_cons.mp hz with rfl | hz
      · rcases List.mem_append.mp hz' with hz' | hz'
        · exact (hlt z' (List.mem_append_right _ hz')).le
        · exact hle z' (List.mem_append_right _ hz')
      · exact h.below z (List.mem_append_right _ hz) z' hz'
  · exact List.forall_mem_cons.mpr ⟨fun z hz => hlt z (List.mem_append_right _ hz), h.past⟩

end Places

/-- Two lists in order, with items for so many rounds. -/
structure Facing (o : FallibleOrder α) (rounds : Nat) (left right : List α) : Prop where
  ascendsLeft : o.Ascends left
  ascendsRight : o.Ascends right
  longLeft : rounds ≤ left.length
  longRight : rounds ≤ right.length

namespace Facing

variable {rounds : Nat}

theorem takeLeft (h : o.Facing (rounds + 1) (x :: left) right) : o.Facing rounds left right :=
  ⟨h.ascendsLeft.tail, h.ascendsRight, Nat.le_of_succ_le_succ h.longLeft,
    (Nat.le_succ _).trans h.longRight⟩

theorem takeRight (h : o.Facing (rounds + 1) left (y :: right)) : o.Facing rounds left right :=
  ⟨h.ascendsLeft, h.ascendsRight.tail, (Nat.le_succ _).trans h.longLeft,
    Nat.le_of_succ_le_succ h.longRight⟩

end Facing

/-- What both ends have placed. The back is a front in the order the other way round, where the right
list comes first. -/
structure Meets (o : FallibleOrder α) (n : Nat) (left right leftBack rightBack : List α)
    (m : Meeting α) : Prop where
  front : ∃ as bs, o.Places n left right m.left m.right m.front as bs
  back : ∃ us vs leftBack' rightBack',
    o.flip.Places n rightBack leftBack rightBack' leftBack' m.back.reverse vs us ∧
      m.backLeft = us.length ∧ m.backRight = vs.length

section Rounds

variable {rounds : Nat} {u v : α} {leftBack rightBack back : List α} {backLeft backRight : Nat}

/-- One more item from the left list at the back, which is after the other head. -/
theorem back_takeLeft (h : o.flip.Facing (rounds + 1) (v :: rightBack) (u :: leftBack))
    (hvu : o.Lt v u) (hback : ∃ us vs leftBack' rightBack',
      o.flip.Places n (v :: rightBack) leftBack rightBack' leftBack' back.reverse vs us ∧
        backLeft = us.length ∧ backRight = vs.length) :
    ∃ us vs leftBack' rightBack', o.flip.Places (n + 1) (v :: rightBack) (u :: leftBack) rightBack'
      leftBack' (back ++ [u]).reverse vs us ∧ backLeft + 1 = us.length ∧ backRight = vs.length := by
  obtain ⟨us, vs, leftBack', rightBack', hplaces, hus, hvs⟩ := hback
  refine ⟨u :: us, vs, leftBack', rightBack', ?_, congrArg (· + 1) hus, hvs⟩
  rw [List.reverse_append]
  exact hplaces.takeRight h.ascendsLeft h.ascendsRight (lt_flip.mpr hvu)

/-- One more item from the right list at the back, which is not before the other head. -/
theorem back_takeRight (h : o.flip.Facing (rounds + 1) (v :: rightBack) (u :: leftBack))
    (huv : o.Le u v) (hback : ∃ us vs leftBack' rightBack',
      o.flip.Places n rightBack (u :: leftBack) rightBack' leftBack' back.reverse vs us ∧
        backLeft = us.length ∧ backRight = vs.length) :
    ∃ us vs leftBack' rightBack', o.flip.Places (n + 1) (v :: rightBack) (u :: leftBack) rightBack'
      leftBack' (back ++ [v]).reverse vs us ∧ backLeft = us.length ∧ backRight + 1 = vs.length := by
  obtain ⟨us, vs, leftBack', rightBack', hplaces, hus, hvs⟩ := hback
  refine ⟨us, v :: vs, leftBack', rightBack', ?_, hus, congrArg (· + 1) hvs⟩
  rw [List.reverse_append]
  exact hplaces.takeLeft h.ascendsLeft h.ascendsRight (le_flip.mpr huv)

end Rounds

/-- Both ends place one item a round. -/
theorem meets_placeEnds : ∀ (rounds : Nat) (left right leftBack rightBack : List α),
    o.Does (o.Facing rounds left right ∧ o.flip.Facing rounds rightBack leftBack)
      (placeEnds o.less rounds left right leftBack rightBack)
      (o.Meets rounds left right leftBack rightBack)
  | rounds + 1, x :: left, y :: right, u :: leftBack, v :: rightBack => by
    unfold placeEnds
    -- A round asks the front once and the back once, which makes four cases: each end takes an item of
    -- the left or of the right list.
    refine does_ask (fun h => ⟨h.1.ascendsRight.head_on, h.1.ascendsLeft.head_on⟩) ?_ ?_ <;>
      refine does_ask (fun h => ⟨h.1.2.ascendsLeft.head_on, h.1.2.ascendsRight.head_on⟩) ?_ ?_
    · refine does_bind ((meets_placeEnds rounds (x :: left) right leftBack (v :: rightBack)).from
        fun h => ⟨h.1.1.1.takeRight, h.1.1.2.takeRight⟩) fun m => does_pure fun h => ?_
      obtain ⟨⟨⟨⟨hf, hb⟩, hyx⟩, hvu⟩, ⟨as, bs, hfront⟩, hback⟩ := h
      exact ⟨⟨as, y :: bs, hfront.takeRight hf.ascendsLeft hf.ascendsRight hyx⟩,
        back_takeLeft hb hvu hback⟩
    · refine does_bind ((meets_placeEnds rounds (x :: left) right (u :: leftBack) rightBack).from
        fun h => ⟨h.1.1.1.takeRight, h.1.1.2.takeLeft⟩) fun m => does_pure fun h => ?_
      obtain ⟨⟨⟨⟨hf, hb⟩, hyx⟩, huv⟩, ⟨as, bs, hfront⟩, hback⟩ := h
      exact ⟨⟨as, y :: bs, hfront.takeRight hf.ascendsLeft hf.ascendsRight hyx⟩,
        back_takeRight hb huv hback⟩
    · refine does_bind ((meets_placeEnds rounds left (y :: right) leftBack (v :: rightBack)).from
        fun h => ⟨h.1.1.1.takeLeft, h.1.1.2.takeRight⟩) fun m => does_pure fun h => ?_
      obtain ⟨⟨⟨⟨hf, hb⟩, hxy⟩, hvu⟩, ⟨as, bs, hfront⟩, hback⟩ := h
      exact ⟨⟨x :: as, bs, hfront.takeLeft hf.ascendsLeft hf.ascendsRight hxy⟩,
        back_takeLeft hb hvu hback⟩
    · refine does_bind ((meets_placeEnds rounds left (y :: right) (u :: leftBack) rightBack).from
        fun h => ⟨h.1.1.1.takeLeft, h.1.1.2.takeLeft⟩) fun m => does_pure fun h => ?_
      obtain ⟨⟨⟨⟨hf, hb⟩, hxy⟩, huv⟩, ⟨as, bs, hfront⟩, hback⟩ := h
      exact ⟨⟨x :: as, bs, hfront.takeLeft hf.ascendsLeft hf.ascendsRight hxy⟩,
        back_takeRight hb huv hback⟩
  | 0, left, right, leftBack, rightBack => by
    unfold placeEnds
    exact does_pure fun _ => ⟨⟨[], [], Places.start left right⟩, [], [], leftBack, rightBack,
      Places.start rightBack leftBack, rfl, rfl⟩
  | rounds + 1, [], right, leftBack, rightBack => by
    unfold placeEnds
    -- In what is left a list runs out before the rounds do, which both facing lists are too long for.
    exact does_pure fun h => absurd h.1.longLeft (Nat.not_succ_le_zero rounds)
  | rounds + 1, x :: left, [], leftBack, rightBack => by
    unfold placeEnds
    exact does_pure fun h => absurd h.1.longRight (Nat.not_succ_le_zero rounds)
  | rounds + 1, x :: left, y :: right, [], rightBack => by
    unfold placeEnds
    exact does_pure fun h => absurd h.2.longRight (Nat.not_succ_le_zero rounds)
  | rounds + 1, x :: left, y :: right, u :: leftBack, [] => by
    unfold placeEnds
    exact does_pure fun h => absurd h.2.longLeft (Nat.not_succ_le_zero rounds)

/-- What is taken from both ends of a list leaves a middle, unless an item is taken from both. -/
theorem middle_or_overlap {l as rest us rest' : List α} (h : l = as ++ rest)
    (h' : l.reverse = us ++ rest') :
    (∃ middle, rest = middle ++ us.reverse ∧ rest'.reverse = as ++ middle) ∨
      (∃ x ∈ as, x ∈ us) ∧ l.length < as.length + us.length := by
  have hboth : as ++ rest = rest'.reverse ++ us.reverse := by
    rw [← h, ← List.reverse_append, ← h', List.reverse_reverse]
  rcases List.append_eq_append_iff.mp hboth with ⟨middle, hrest', hrest⟩ | ⟨shared, has, hus⟩
  · exact .inl ⟨middle, hrest, hrest'⟩
  · cases shared with
    | nil =>
      refine .inl ⟨[], hus.symm, ?_⟩
      rw [has, List.append_nil, List.append_nil]
    | cons x shared =>
      have hmem : x ∈ us.reverse := by
        rw [hus]
        exact List.mem_append_left _ (List.mem_cons_self ..)
      refine .inr ⟨⟨x, ?_, List.mem_reverse.mp hmem⟩, ?_⟩
      · rw [has]
        exact List.mem_append_right _ (List.mem_cons_self ..)
      · have hlen := congrArg List.length hus
        rw [List.length_reverse, List.length_append, List.length_cons] at hlen
        rw [h, List.length_append]
        omega

/-- The ends of a consistent order do not pass each other: an item of one list that both ends had taken
would be on both sides of an item of the other list that neither has. -/
theorem exists_middles {back us vs leftBack' rightBack' : List α}
    (hfront : o.Places n left right left' right' front as bs)
    (hback : o.flip.Places n right.reverse left.reverse rightBack' leftBack' back vs us)
    (hcount : 2 * n ≤ left.length + right.length) :
    (∃ middle, left' = middle ++ us.reverse ∧ leftBack'.reverse = as ++ middle) ∧
      ∃ middle, right' = middle ++ vs.reverse ∧ rightBack'.reverse = bs ++ middle := by
  have hf := hfront.count
  have hb := hback.count
  -- A list from which less is taken than it has leaves an item that neither end has taken.
  have hleft : ∀ {l as us rest rest' middle : List α}, l = as ++ rest →
      rest = middle ++ us.reverse → rest'.reverse = as ++ middle → as.length + us.length < l.length →
      ∃ y ∈ rest, y ∈ rest' := by
    intro l as us rest rest' middle hl hrest hrest' hlen
    cases middle with
    | nil =>
      rw [hl, hrest, List.nil_append, List.length_append, List.length_reverse] at hlen
      omega
    | cons y middle =>
      refine ⟨y, ?_, List.mem_reverse.mp ?_⟩
      · rw [hrest]
        exact List.mem_append_left _ (List.mem_cons_self ..)
      · rw [hrest']
        exact List.mem_append_right _ (List.mem_cons_self ..)
  rcases middle_or_overlap hfront.leftEq hback.rightEq with hmiddle | ⟨⟨x, hxa, hxu⟩, hlong⟩
  · rcases middle_or_overlap hfront.rightEq hback.leftEq with hmiddle' | ⟨⟨x, hxb, hxv⟩, hlong⟩
    · exact ⟨hmiddle, hmiddle'⟩
    · obtain ⟨middle, hrest, hrest'⟩ := hmiddle
      obtain ⟨y, hy, hy'⟩ := hleft hfront.leftEq hrest hrest' (by omega)
      exact absurd (le_flip.mp (hback.below x (List.mem_append_left _ hxv) y
        (List.mem_append_right _ hy'))) (hfront.past x hxb y hy).not_le
  · rcases middle_or_overlap hfront.rightEq hback.leftEq with hmiddle' | ⟨-, hlong'⟩
    · obtain ⟨middle, hrest, hrest'⟩ := hmiddle'
      obtain ⟨y, hy, hy'⟩ := hleft hfront.rightEq hrest hrest' (by omega)
      exact absurd (hfront.below x (List.mem_append_left _ hxa) y (List.mem_append_right _ hy))
        (lt_flip.mp (hback.past x hxu y hy')).not_le
    · omega

/-- What the ends have placed around a middle of at most one item is in order. -/
theorem sorts_of_places {back us vs leftBack' rightBack' : List α} (hl : o.Ascends left)
    (hr : o.Ascends right) (hn : n = (left.length + right.length) / 2)
    (hfront : o.Places n left right left' right' front as bs)
    (hback : o.flip.Places n right.reverse left.reverse rightBack' leftBack' back.reverse vs us) :
    ∃ lm rm, left' = lm ++ us.reverse ∧ right' = rm ++ vs.reverse ∧
      (lm ++ rm).length = (left.length + right.length) % 2 ∧
      o.Sorts (left ++ right) (front ++ (lm ++ rm) ++ back) := by
  obtain ⟨⟨lm, hlm, hlm'⟩, rm, hrm, hrm'⟩ := exists_middles hfront hback (by omega)
  have hleft := hfront.leftEq
  have hright := hfront.rightEq
  rw [hlm] at hleft
  rw [hrm] at hright
  have hlmem : ∀ z ∈ lm, z ∈ leftBack' := fun z hz => List.mem_reverse.mp (by
    rw [hlm']
    exact List.mem_append_right _ hz)
  have hrmem : ∀ z ∈ rm, z ∈ rightBack' := fun z hz => List.mem_reverse.mp (by
    rw [hrm']
    exact List.mem_append_right _ hz)
  have hcount : (lm ++ rm).length = (left.length + right.length) % 2 := by
    have hf := hfront.count
    have hb := hback.count
    have hll := congrArg List.length hleft
    have hlr := congrArg List.length hright
    simp only [List.length_append, List.length_reverse] at hll hlr ⊢
    omega
  refine ⟨lm, rm, hlm, hrm, hcount, ?_⟩
  -- The right items in front move before all that is left of the left list, those in the middle
  -- before the last left items.
  have hmoved : o.KeepsTies (left ++ right)
      ((as ++ bs) ++ ((lm ++ rm) ++ (us.reverse ++ vs.reverse))) := by
    have hfirst : o.KeepsTies (as ++ (left' ++ bs) ++ right') (as ++ (bs ++ left') ++ right') :=
      ((KeepsTies.refl as).append (keepsTies_append_comm _ _ hfront.past)).append (KeepsTies.refl right')
    have hlast : o.KeepsTies (as ++ bs ++ lm ++ (us.reverse ++ rm) ++ vs.reverse)
        (as ++ bs ++ lm ++ (rm ++ us.reverse) ++ vs.reverse) := by
      refine ((KeepsTies.refl _).append (keepsTies_append_comm _ _ fun b hb a ha => ?_)).append
        (KeepsTies.refl _)
      exact lt_flip.mp (hback.past a (List.mem_reverse.mp ha) b (hrmem b hb))
    rw [hfront.leftEq, hfront.rightEq]
    rw [hlm, hrm] at hfirst ⊢
    simp only [List.append_assoc] at hfirst hlast ⊢
    exact hfirst.trans hlast
  have hmiddle : o.Ascends (lm ++ rm) := by
    have hon : ∀ z ∈ lm ++ rm, o.On z := by
      refine List.forall_mem_append.mpr ⟨fun z hz => hl.on z ?_, fun z hz => hr.on z ?_⟩
      · rw [hleft]
        exact List.mem_append_right _ (List.mem_append_left _ hz)
      · rw [hright]
        exact List.mem_append_right _ (List.mem_append_left _ hz)
    cases hm : lm ++ rm with
    | nil => exact Ascends.nil
    | cons z rest =>
      rw [hm] at hcount hon
      have hrest : rest = [] := by
        rw [List.length_cons] at hcount
        exact List.length_eq_zero_iff.mp (by omega)
      rw [hrest]
      exact Ascends.singleton (hon z (List.mem_cons_self ..))
  have hbackSorts : o.Sorts (us.reverse ++ vs.reverse) back := by
    have hsorts := hback.sorts.of_flip
    rwa [List.reverse_reverse, List.reverse_append] at hsorts
  rw [List.append_assoc]
  refine hmoved.sorts (hfront.sorts.append ((Sorts.refl hmiddle).append hbackSorts ?_) ?_)
  · intro z hz z' hz'
    refine le_flip.mp (hback.below z' ?_ z ?_)
    · rw [← List.reverse_append] at hz'
      exact List.mem_reverse.mp hz'
    · exact List.mem_append.mpr ((List.mem_append.mp hz).symm.imp (hrmem z) (hlmem z))
  · intro z hz z' hz'
    refine hfront.below z hz z' ?_
    rw [hlm, hrm]
    simp only [List.mem_append] at hz' ⊢
    tauto

/-- Where the ends meet there is a middle of one item or none, and everything is in order. -/
theorem Meets.sorts {m : Meeting α} (hl : o.Ascends left) (hr : o.Ascends right)
    (h : o.Meets ((left.length + right.length) / 2) left right left.reverse right.reverse m) :
    let middle := m.left.take (m.left.length - m.backLeft) ++
      m.right.take (m.right.length - m.backRight)
    middle.length = (left.length + right.length) % 2 ∧
      o.Sorts (left ++ right) (m.front ++ middle ++ m.back) := by
  obtain ⟨⟨as, bs, hfront⟩, us, vs, leftBack', rightBack', hback, hus, hvs⟩ := h
  have htake : ∀ {l m r : List α}, l = m ++ r.reverse → l.take (l.length - r.length) = m := by
    intro l m r h
    rw [h, List.length_append, List.length_reverse, Nat.add_sub_cancel, List.take_left]
  obtain ⟨lm, rm, hlm, hrm, hcount, hsorts⟩ := sorts_of_places hl hr rfl hfront hback
  dsimp only
  rw [hus, hvs, htake hlm, htake hrm]
  exact ⟨hcount, hsorts⟩

/-- Merging two ascending lists of almost the same length from both ends sorts them. The ends do not
pass each other. -/
theorem sorts_mergeEnds (left right : List α) :
    o.Does ((o.Ascends left ∧ o.Ascends right) ∧ left.length ≤ right.length ∧
        right.length ≤ left.length + 1) (mergeEnds o.less left right)
      (o.Sorts (left ++ right)) := by
  unfold mergeEnds
  refine does_bind ((meets_placeEnds _ left right left.reverse right.reverse).from
    fun ⟨⟨hl, hr⟩, hle, hge⟩ => ?_) fun m => ?_
  · refine ⟨⟨hl, hr, by omega, by omega⟩, ascends_flip.mpr ?_, ascends_flip.mpr ?_, ?_, ?_⟩
    · rwa [List.reverse_reverse]
    · rwa [List.reverse_reverse]
    all_goals
      rw [List.length_reverse]
      omega
  · dsimp only
    split
    next => exact does_pure fun ⟨⟨⟨hl, hr⟩, _⟩, hm⟩ => (hm.sorts hl hr).2
    next hpassed => exact does_giveUp fun ⟨⟨⟨hl, hr⟩, _⟩, hm⟩ => hpassed (hm.sorts hl hr).1

end Ends

/-! ## A few items -/

section Few

variable {o} {a b c d : α} {l : List α}

theorem ascends_four (hab : o.Le a b) (hbc : o.Le b c) (hcd : o.Le c d) :
    o.Ascends [a, b, c, d] := by
  have hbd := hbc.trans hcd
  refine Ascends.cons hab.1 ?_ (Ascends.cons hbc.1 ?_ (Ascends.cons hcd.1 ?_
    (Ascends.singleton hcd.2.1)))
  · simp only [List.forall_mem_cons, List.not_mem_nil, false_imp_iff, implies_true, and_true]
    exact ⟨hab, hab.trans hbc, hab.trans hbd⟩
  · simp only [List.forall_mem_cons, List.not_mem_nil, false_imp_iff, implies_true, and_true]
    exact ⟨hbc, hbd⟩
  · simp only [List.forall_mem_cons, List.not_mem_nil, false_imp_iff, implies_true, and_true]
    exact hcd

/-- Two pairs in order are merged with three comparisons. If one pair gives both the smallest and the
largest item, the last comparison is of the other pair and finds it in order. -/
theorem sorts_twoPairs {pre : Prop} (h : pre → o.Le a b ∧ o.Le c d ∧ o.KeepsTies l [a, b, c, d]) :
    o.Does pre (do
      let minRight ← o.less c a
      let maxLeft ← o.less d b
      let min := if minRight then c else a
      let max := if maxLeft then b else d
      let left := if minRight then a else if maxLeft then c else b
      let right := if maxLeft then d else if minRight then b else c
      if ← o.less right left then return [min, right, left, max]
      else return [min, left, right, max]) (o.Sorts l) := by
  have hcons : ∀ {x y : α} {ys : List α}, o.Lt x y → (∀ z ∈ ys, o.Le y z) →
      ∀ z ∈ y :: ys, o.Lt x z := fun hxy hys =>
    List.forall_mem_cons.mpr ⟨hxy, fun z hz => hxy.trans_le (hys z hz)⟩
  have hone : ∀ {x y : α}, o.Le x y → ∀ z ∈ [y], o.Le x z := fun hxy z hz => by
    rwa [List.mem_singleton.mp hz]
  -- The first two answers tell the smallest and the largest item; the third one orders the two in the
  -- middle.
  refine does_ask (fun hpre => ⟨(h hpre).2.1.1, (h hpre).1.1⟩) ?_ ?_ <;>
    refine does_ask (fun hpre => ⟨(h hpre.1).2.1.2.1, (h hpre.1).1.2.1⟩) ?_ ?_ <;>
    dsimp only [Bool.false_eq_true, if_true, if_false]
  · refine does_ask (fun hpre => ⟨hpre.2.1, hpre.1.2.2.1⟩) (does_pure fun hpre => ?_)
      (does_pure fun hpre => ?_)
    · obtain ⟨⟨⟨hpre, hca⟩, hdb⟩, hda⟩ := hpre
      obtain ⟨hab, hcd, hl⟩ := h hpre
      refine hl.sorts ⟨keepsTies_append_comm [a, b] [c, d] ?_,
        ascends_four hcd hda.le hab⟩
      exact List.forall_mem_cons.mpr ⟨hcons hca (hone hab), fun z hz => by
        rw [List.mem_singleton.mp hz]
        exact hcons hda (hone hab)⟩
    · obtain ⟨⟨⟨hpre, hca⟩, hdb⟩, had⟩ := hpre
      obtain ⟨hab, hcd, hl⟩ := h hpre
      refine (hl.trans (keepsTies_cons_comm [a, b] (hcons hca (hone hab)) [d])).sorts ⟨?_,
        ascends_four hca.le had hdb.le⟩
      refine ((keepsTies_cons_comm [b] (fun z hz => ?_) []).cons a).cons c
      rwa [List.mem_singleton.mp hz]
  · refine does_ask (fun hpre => ⟨hpre.2.1, hpre.1.2.2.1⟩) (does_pure fun hpre => ?_)
      (does_pure fun hpre => ?_)
    -- Here the middle items are `a` and `b`, which are in order already.
    · exact absurd (h hpre.1.1.1).1 hpre.2.not_le
    · obtain ⟨⟨⟨hpre, hca⟩, hbd⟩, -⟩ := hpre
      obtain ⟨hab, hcd, hl⟩ := h hpre
      exact (hl.trans (keepsTies_cons_comm [a, b] (hcons hca (hone hab)) [d])).sorts
        (Sorts.refl (ascends_four hca.le hab hbd))
  · refine does_ask (fun hpre => ⟨hpre.2.1, hpre.1.2.2.1⟩) (does_pure fun hpre => ?_)
      (does_pure fun hpre => ?_)
    -- Here the middle items are `c` and `d`, which are in order already.
    · exact absurd (h hpre.1.1.1).2.1 hpre.2.not_le
    · obtain ⟨⟨⟨hpre, hac⟩, hdb⟩, -⟩ := hpre
      obtain ⟨hab, hcd, hl⟩ := h hpre
      refine hl.sorts ⟨(keepsTies_append_comm [b] [c, d] fun z hz w hw => ?_).cons a,
        ascends_four hac hcd hdb.le⟩
      rw [List.mem_singleton.mp hw]
      rcases List.mem_cons.mp hz with rfl | hz
      · exact hcd.trans_lt hdb
      · rwa [List.mem_singleton.mp hz]
  · refine does_ask (fun hpre => ⟨hpre.1.2.2.1, hpre.2.1⟩) (does_pure fun hpre => ?_)
      (does_pure fun hpre => ?_)
    · obtain ⟨⟨⟨hpre, hac⟩, hbd⟩, hcb⟩ := hpre
      obtain ⟨hab, hcd, hl⟩ := h hpre
      refine hl.sorts ⟨(keepsTies_cons_comm [b] (fun z hz => ?_) [d]).cons a,
        ascends_four hac hcb.le hbd⟩
      rwa [List.mem_singleton.mp hz]
    · obtain ⟨⟨⟨hpre, hac⟩, hbd⟩, hbc⟩ := hpre
      obtain ⟨hab, hcd, hl⟩ := h hpre
      exact hl.sorts (Sorts.refl (ascends_four hab hbc hcd))

/-- Four items are sorted, whatever the comparisons answer. -/
theorem sorts_sortFour (a b c d : α) :
    o.Does (∀ x ∈ [a, b, c, d], o.On x) (sortFour o.less a b c d) (o.Sorts [a, b, c, d]) := by
  have hon : (∀ x ∈ [a, b, c, d], o.On x) → o.On a ∧ o.On b ∧ o.On c ∧ o.On d := by
    intro h
    simpa only [List.forall_mem_cons, List.not_mem_nil, false_imp_iff, implies_true, and_true]
      using h
  have hpair : ∀ {x y : α} (xs ys : List α), o.Lt y x →
      o.KeepsTies (xs ++ x :: y :: ys) (xs ++ y :: x :: ys) := by
    intro x y xs ys hyx
    refine (KeepsTies.refl xs).append (keepsTies_cons_comm [x] (fun z hz => ?_) ys)
    rwa [List.mem_singleton.mp hz]
  unfold sortFour
  refine does_ask (fun h => ⟨(hon h).2.1, (hon h).1⟩) ?_ ?_ <;>
    refine does_ask (fun h => ⟨(hon h.1).2.2.2, (hon h.1).2.2.1⟩) ?_ ?_ <;>
    dsimp only [Bool.false_eq_true, if_true, if_false]
  · exact sorts_twoPairs fun ⟨⟨_, hba⟩, hdc⟩ =>
      ⟨hba.le, hdc.le, (hpair [] [c, d] hba).trans (hpair [b, a] [] hdc)⟩
  · exact sorts_twoPairs fun ⟨⟨_, hba⟩, hcd⟩ => ⟨hba.le, hcd, hpair [] [c, d] hba⟩
  · exact sorts_twoPairs fun ⟨⟨_, hab⟩, hdc⟩ => ⟨hab, hdc.le, hpair [a, b] [] hdc⟩
  · exact sorts_twoPairs fun ⟨⟨_, hab⟩, hcd⟩ => ⟨hab, hcd, KeepsTies.refl _⟩

/-- The first items of a half are opened in order, and the rest is left behind them. -/
theorem ascends_opening (four : Bool) (items : List α) :
    o.Does (∀ x ∈ items, o.On x) (opening o.less four items) fun r =>
      o.Ascends r.1.reverse ∧ o.KeepsTies items (r.1.reverse ++ r.2) := by
  have hfirst : ∀ (x : α) (xs : List α), (∀ z ∈ x :: xs, o.On z) →
      o.Ascends [x].reverse ∧ o.KeepsTies (x :: xs) ([x].reverse ++ xs) := fun x xs h =>
    ⟨Ascends.singleton (h x (List.mem_cons_self ..)), KeepsTies.refl _⟩
  unfold opening
  split
  next a b c d rest =>
    cases four with
    | true =>
      refine does_bind ((sorts_sortFour a b c d).from fun h x hx => h x ?_)
        fun r => does_pure fun h => ?_
      · exact List.mem_append_left rest hx
      · rw [List.reverse_reverse]
        exact ⟨h.2.ascends, h.2.keeps.append (KeepsTies.refl rest)⟩
    | false => exact does_pure fun h => hfirst a _ h
  next x xs _ => exact does_pure fun h => hfirst x xs h
  next => exact does_pure fun _ => ⟨Ascends.nil, KeepsTies.refl _⟩

/-- Sorting a few items sorts: the halves are put in order and merged. -/
theorem sorts_sortSmall (items : List α) :
    o.Does (∀ x ∈ items, o.On x) (sortSmall o.less items) (o.Sorts items) := by
  unfold sortSmall
  dsimp only
  have hrest : ∀ {half : List α} {r : List α × List α}, (∀ x ∈ half, o.On x) →
      o.KeepsTies half (r.1.reverse ++ r.2) → ∀ x ∈ r.2, o.On x := fun hon h x hx =>
    h.all hon x (List.mem_append_right _ hx)
  refine does_bind ((ascends_opening _ (items.take (items.length / 2))).from fun h x hx =>
    h x (List.mem_of_mem_take hx)) fun left => ?_
  refine does_bind ((ascends_opening _ (items.drop (items.length / 2))).from fun h x hx =>
    h.1 x (List.mem_of_mem_drop hx)) fun right => ?_
  refine does_bind ((sorts_insertEach left.1 left.2).from fun ⟨⟨h, hleft⟩, _⟩ =>
    ⟨hleft.1, hrest (fun x hx => h x (List.mem_of_mem_take hx)) hleft.2⟩) fun left' => ?_
  refine does_bind ((sorts_insertEach right.1 right.2).from fun ⟨⟨⟨h, _⟩, hright⟩, _⟩ =>
    ⟨hright.1, hrest (fun x hx => h x (List.mem_of_mem_drop hx)) hright.2⟩) fun right' => ?_
  refine (sorts_mergeEnds left'.reverse right'.reverse).mono
    (fun ⟨⟨⟨⟨_, hleft⟩, hright⟩, hleft'⟩, hright'⟩ => ?_)
    fun r ⟨⟨⟨⟨_, hleft⟩, hright⟩, hleft'⟩, hright'⟩ hs => ?_
  · have hll := (hleft.2.sorts hleft').keeps.perm.length_eq
    have hlr := (hright.2.sorts hright').keeps.perm.length_eq
    rw [List.length_take] at hll
    rw [List.length_drop] at hlr
    exact ⟨⟨hleft'.ascends, hright'.ascends⟩, by omega, by omega⟩
  · have hkeep := ((hleft.2.sorts hleft').keeps.append (hright.2.sorts hright').keeps).sorts hs
    rwa [List.take_append_drop] at hkeep

end Few

end RecordStore.FallibleOrder
