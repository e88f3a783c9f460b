import RecordStore.Proofs.Merging

/-!
# Sorting sorts

By an order that is consistent on the items, `stableSort` either meets two items that do not compare,
and then says so or gives up, or puts the items in ascending order, those that tie in the order they
were in (`sorts_stableSort`). In the second case all items compare with each other, although the sort
did not compare all of them: in an ascending list they do. So it sorts exactly if all items compare
(`stableSort_sorts_iff`).

Runs are cut from the front, wait and are joined without leaving their places, so what waits is always
what was read so far with ties kept. The items of a part to be split are not before its bound, if it has
one, so a pivot that is not after the bound has nothing before it. What is split off around a pivot
(`Splits`) and then sorted on both sides is sorted as a whole.
-/

namespace RecordStore.FallibleOrder

open StableSort

variable {α : Type} {o : FallibleOrder α}

/-! ## Cutting runs -/

section Cutting

/-- The items that are counted as rising come in order behind the one before them. -/
theorem rises_countRising : ∀ (previous : α) (items : List α),
    o.Does (o.On previous ∧ ∀ x ∈ items, o.On x) (countRising o.less previous items) fun n =>
      (previous :: items.take n).Pairwise o.Le
  | previous, [] => does_pure fun _ => List.pairwise_singleton ..
  | previous, x :: xs => by
    unfold countRising
    refine does_ask (fun h => ⟨h.2 x (List.mem_cons_self ..), h.1⟩)
      (does_pure fun _ => List.pairwise_singleton ..) ?_
    refine does_bind ((rises_countRising x xs).from fun ⟨h, hle⟩ => ⟨hle.2.1, fun z hz =>
      h.2 z (List.mem_cons_of_mem x hz)⟩) fun n => does_pure fun ⟨⟨_, hle⟩, hrest⟩ => ?_
    refine List.pairwise_cons.mpr ⟨List.forall_mem_cons.mpr ⟨hle, fun z hz => ?_⟩, hrest⟩
    exact hle.trans ((List.pairwise_cons.mp hrest).1 z hz)

/-- The items that are counted as falling come strictly downwards behind the one before them. -/
theorem falls_countFalling : ∀ (previous : α) (items : List α),
    o.Does (o.On previous ∧ ∀ x ∈ items, o.On x) (countFalling o.less previous items) fun n =>
      (previous :: items.take n).Pairwise fun a b => o.Lt b a
  | previous, [] => does_pure fun _ => List.pairwise_singleton ..
  | previous, x :: xs => by
    unfold countFalling
    refine does_ask (fun h => ⟨h.2 x (List.mem_cons_self ..), h.1⟩) ?_
      (does_pure fun _ => List.pairwise_singleton ..)
    refine does_bind ((falls_countFalling x xs).from fun ⟨h, hlt⟩ => ⟨hlt.1, fun z hz =>
      h.2 z (List.mem_cons_of_mem x hz)⟩) fun n => does_pure fun ⟨⟨_, hlt⟩, hrest⟩ => ?_
    refine List.pairwise_cons.mpr ⟨List.forall_mem_cons.mpr ⟨hlt, fun z hz => ?_⟩, hrest⟩
    exact ((List.pairwise_cons.mp hrest).1 z hz).trans_le hlt.le

/-- The stretch at the front falls strictly if it is said to fall, and is in order otherwise. -/
theorem runs_leadingStretch (items : List α) :
    o.Does (∀ x ∈ items, o.On x) (leadingStretch o.less items) fun r =>
      if r.2 then (items.take r.1).Pairwise fun a b => o.Lt b a
      else (items.take r.1).Pairwise o.Le := by
  match items with
  | [] => exact does_pure fun _ => List.Pairwise.nil
  | [x] => exact does_pure fun _ => List.pairwise_singleton ..
  | x :: y :: rest =>
    have htail : ∀ {P : α → Prop}, (∀ z ∈ x :: y :: rest, P z) →
        P y ∧ ∀ z ∈ rest, P z := fun h => List.forall_mem_cons.mp (List.forall_mem_cons.mp h).2
    unfold leadingStretch
    refine does_ask (fun h => ⟨(htail h).1, h x (List.mem_cons_self ..)⟩) ?_ ?_
    · refine does_bind ((falls_countFalling y rest).from fun h => htail h.1)
        fun n => does_pure fun ⟨⟨_, hyx⟩, hrest⟩ => ?_
      refine List.pairwise_cons.mpr ⟨List.forall_mem_cons.mpr ⟨hyx, fun z hz => ?_⟩, hrest⟩
      exact ((List.pairwise_cons.mp hrest).1 z hz).trans_le hyx.le
    · refine does_bind ((rises_countRising y rest).from fun h => htail h.1)
        fun n => does_pure fun ⟨⟨_, hxy⟩, hrest⟩ => ?_
      refine List.pairwise_cons.mpr ⟨List.forall_mem_cons.mpr ⟨hxy, fun z hz => ?_⟩, hrest⟩
      exact hxy.trans ((List.pairwise_cons.mp hrest).1 z hz)

theorem KeepsTies.of_take {n : Nat} {items run : List α} (h : o.KeepsTies (items.take n) run) :
    o.KeepsTies (items.take run.length) run := by
  rwa [h.perm.length_eq, List.length_take, ← List.take_take, List.take_length]

/-- A run that is cut off some items: the first of them with ties kept, in order if it says so, which it
does if it is to be eager. -/
structure Cuts (o : FallibleOrder α) (eager : Bool) (items : List α) (run : Run α) : Prop where
  keeps : o.KeepsTies (items.take run.items.length) run.items
  ascends : run.sorted = true → o.Ascends run.items
  eager : eager = true → run.sorted = true

/-- A stretch that is long enough is a run, turned round if it falls. In place of a shorter one the first
few items are sorted, or left as they are for later. -/
theorem cuts_stretch (eager falls : Bool) (least length : Nat) (items : List α) :
    o.Does ((∀ x ∈ items, o.On x) ∧
        if falls then (items.take length).Pairwise fun a b => o.Lt b a
        else (items.take length).Pairwise o.Le)
      (if least ≤ length then
        pure ⟨if falls then (items.take length).reverse else items.take length, true⟩
      else if eager then do return ⟨← sortSmall o.less (items.take smallLimit), true⟩
      else pure ⟨items.take least, false⟩) (o.Cuts eager items) := by
  have hon : ∀ {n : Nat}, (∀ x ∈ items, o.On x) → ∀ x ∈ items.take n, o.On x := fun h x hx =>
    h x (List.mem_of_mem_take hx)
  by_cases hlong : least ≤ length
  · rw [if_pos hlong]
    refine does_pure fun h => ?_
    obtain ⟨hitems, hruns⟩ := h
    cases falls with
    | true =>
      -- A stretch that falls strictly has no ties, so that it may be reversed.
      refine ⟨(keepsTies_reverse hruns).of_take, fun _ => ⟨fun x hx => ?_, ?_⟩, fun _ => rfl⟩
      · exact hon hitems x (List.mem_reverse.mp hx)
      · exact List.pairwise_reverse.mpr (hruns.imp fun h => h.le)
    | false => exact ⟨(KeepsTies.refl _).of_take, fun _ => ⟨hon hitems, hruns⟩, fun _ => rfl⟩
  · rw [if_neg hlong]
    cases eager with
    | true =>
      refine does_bind ((sorts_sortSmall (items.take smallLimit)).from fun h => hon h.1)
        fun r => does_pure fun h => ?_
      exact ⟨h.2.keeps.of_take, fun _ => h.2.ascends, fun _ => rfl⟩
    | false =>
      exact does_pure fun _ => ⟨(KeepsTies.refl _).of_take, fun h => Bool.noConfusion h,
        fun h => Bool.noConfusion h⟩

theorem cuts_cutRun (eager : Bool) (least : Nat) (items : List α) :
    o.Does (∀ x ∈ items, o.On x) (cutRun o.less eager least items) (o.Cuts eager items) := by
  unfold cutRun
  dsimp only
  split
  next =>
    exact does_bind (runs_leadingStretch items) fun stretch =>
      cuts_stretch eager stretch.2 least stretch.1 items
  next =>
    exact (cuts_stretch eager false least 0 items).from fun h => ⟨h, List.Pairwise.nil⟩

end Cutting

/-! ## Joining runs -/

section Joining

variable {later : Option (List α → Comparing (List α))}

/-- A run of items of the domain, in order if it says so or if there is no sort for later. -/
structure Ready (o : FallibleOrder α) (later : Option (List α → Comparing (List α)))
    (run : Run α) : Prop where
  on : ∀ x ∈ run.items, o.On x
  ascends : run.sorted = true → o.Ascends run.items
  sorted : later = none → run.sorted = true

/-- A sort for later, if there is one, sorts. -/
def LaterSorts (o : FallibleOrder α) (later : Option (List α → Comparing (List α))) : Prop :=
  ∀ sort, later = some sort → ∀ items, o.Does (∀ x ∈ items, o.On x) (sort items) (o.Sorts items)

/-- The items of a run that is ready are put in order, at once or now that they have to be. -/
theorem sorts_ordered (hlater : o.LaterSorts later) (run : Run α) :
    o.Does (o.Ready later run) (run.ordered later) (o.Sorts run.items) := by
  unfold Run.ordered
  split
  next sort hpiece => exact (hlater sort rfl run.items).from Ready.on
  next hother =>
    refine does_pure fun h => Sorts.refl (h.ascends ?_)
    cases hsorted : run.sorted with
    | true => rfl
    | false =>
      have hnone := Option.eq_none_iff_forall_ne_some.mpr fun sort => hother sort hsorted
      exact hsorted.symm.trans (h.sorted hnone)

/-- Two runs that are ready are joined to one that is, without their items leaving their places. -/
theorem ready_join (hlater : o.LaterSorts later) (left right : Run α) :
    o.Does (o.Ready later left ∧ o.Ready later right) (left.join o.less later right) fun r =>
      o.Ready later r ∧ o.KeepsTies (left.items ++ right.items) r.items := by
  unfold Run.join
  split
  next =>
    refine does_bind ((sorts_ordered hlater left).from And.left) fun l => ?_
    refine does_bind ((sorts_ordered hlater right).from fun h => h.1.2) fun r => ?_
    refine does_bind ((sorts_merge l r).from fun h => ⟨h.1.2.ascends, h.2.ascends⟩)
      fun m => does_pure fun ⟨⟨⟨_, hl⟩, hr⟩, hm⟩ => ?_
    exact ⟨⟨hm.ascends.on, fun _ => hm.ascends, fun _ => rfl⟩,
      (hl.keeps.append hr.keeps).trans hm.keeps⟩
  next hpieces =>
    rw [Bool.or_eq_true, not_or] at hpieces
    refine does_pure fun ⟨hl, hr⟩ => ⟨⟨?_, fun h => Bool.noConfusion h, fun hnone => ?_⟩,
      KeepsTies.refl _⟩
    · exact List.forall_mem_append.mpr ⟨hl.on, hr.on⟩
    · exact absurd (hl.sorted hnone) hpieces.1

/-- The items of runs that wait to be merged, the nearest run last. -/
def laidOut : List (Run α × Nat) → List α
  | [] => []
  | (run, _) :: before => laidOut before ++ run.items

/-- Joining a run with those before it leaves all the items where they were, up to their order. -/
theorem ready_collapse (hlater : o.LaterSorts later) (depth : Nat) :
    ∀ (before : List (Run α × Nat)) (run : Run α),
      o.Does ((∀ w ∈ before, o.Ready later w.1) ∧ o.Ready later run)
        (collapse o.less later depth before run) fun r =>
        ((∀ w ∈ r.1, o.Ready later w.1) ∧ o.Ready later r.2) ∧
          o.KeepsTies (laidOut before ++ run.items) (laidOut r.1 ++ r.2.items)
  | [], run => does_pure fun h => ⟨h, KeepsTies.refl _⟩
  | (left, leftDepth) :: before, run => by
    unfold collapse
    split
    next =>
      refine does_bind ((ready_join hlater left run).from fun h =>
        ⟨(List.forall_mem_cons.mp h.1).1, h.2⟩) fun joined => ?_
      refine (ready_collapse hlater depth before joined).mono (fun h =>
        ⟨(List.forall_mem_cons.mp h.1.1).2, h.2.1⟩) fun r h hr => ⟨hr.1, ?_⟩
      refine KeepsTies.trans ?_ hr.2
      show o.KeepsTies (laidOut before ++ left.items ++ run.items) (laidOut before ++ joined.items)
      rw [List.append_assoc]
      exact (KeepsTies.refl _).append h.2.2
    next => exact does_pure fun h => ⟨h, KeepsTies.refl _⟩

/-- A run that is cut off is ready: it is eager if there is no sort for later. -/
theorem ready_cutRun (least : Nat) (items : List α) :
    o.Does (∀ x ∈ items, o.On x) (cutRun o.less later.isNone least items) fun run =>
      o.Ready later run ∧ o.KeepsTies (items.take run.items.length) run.items :=
  (cuts_cutRun later.isNone least items).mono id fun run h hcuts =>
    ⟨⟨hcuts.keeps.all fun x hx => h x (List.mem_of_mem_take hx), hcuts.ascends, fun hnone =>
      hcuts.eager (by rw [hnone]; rfl)⟩, hcuts.keeps⟩

/-- Going on behind the last run reads all that is left, and ends with one run of everything. -/
theorem ready_mergeRuns (hlater : o.LaterSorts later) {count : Nat} :
    ∀ (before : List (Run α × Nat)) (last : Run α) (rest : List α), (rest ≠ [] → 1 ≤ count) →
      o.Does (((∀ w ∈ before, o.Ready later w.1) ∧ o.Ready later last) ∧ ∀ x ∈ rest, o.On x)
        (mergeRuns o.less later count before last rest) fun run =>
        o.Ready later run ∧ o.KeepsTies (laidOut before ++ last.items ++ rest) run.items
  | before, last, [], _ => by
    unfold mergeRuns
    refine does_bind (((ready_collapse hlater 0 before last).and_always
      (collapse_zero o.less before last)).from And.left) fun r => does_pure fun ⟨_, hr, hnone⟩ => ?_
    obtain ⟨⟨-, hready⟩, hkeeps⟩ := hr
    rw [hnone] at hkeeps
    rw [List.append_nil]
    exact ⟨hready, hkeeps⟩
  | before, last, x :: xs, hcount => by
    unfold mergeRuns
    have hcount : 1 ≤ count := hcount (List.cons_ne_nil x xs)
    refine does_bind (((ready_cutRun _ (x :: xs)).and_always (cutRun_front o.less _ (x :: xs)
      fun _ => one_le_leastStretch hcount)).from And.right) fun next => ?_
    refine does_bind ((ready_collapse hlater _ before last).from fun h => h.1.1) fun r => ?_
    -- The run that was cut off and what is behind it are the rest.
    have hrest : next.items ≠ [] → xs.drop (next.items.length - 1) =
        (x :: xs).drop next.items.length := by
      intro hne
      rw [← Nat.sub_add_cancel (List.length_pos_iff.mpr hne)]
      rfl
    refine (ready_mergeRuns hlater _ next (xs.drop (next.items.length - 1)) fun _ => hcount).mono
      (fun ⟨⟨⟨_, hon⟩, ⟨hnext, _⟩, _⟩, ⟨hr, hlast⟩, _⟩ => ?_)
      fun run ⟨⟨_, ⟨_, hcut⟩, _, hne⟩, _, hkeeps⟩ hrun => ⟨hrun.1, ?_⟩
    · exact ⟨⟨List.forall_mem_cons.mpr ⟨hlast, hr⟩, hnext⟩, fun z hz =>
        hon z (List.mem_cons_of_mem x (List.mem_of_mem_drop hz))⟩
    · refine KeepsTies.trans ?_ hrun.2
      rw [hrest (hne (List.cons_ne_nil x xs))]
      show o.KeepsTies _ (laidOut r.1 ++ r.2.items ++ next.items ++ (x :: xs).drop next.items.length)
      rw [List.append_assoc (laidOut r.1 ++ r.2.items)]
      refine hkeeps.append ?_
      have hwhole := hcut.append (KeepsTies.refl ((x :: xs).drop next.items.length))
      rwa [List.take_append_drop] at hwhole
  termination_by _ _ rest _ => rest.length
  decreasing_by simp only [List.length_drop, List.length_cons]; omega

/-- Sorting by runs sorts, if the sort for later does. -/
theorem sorts_sortByRuns (hlater : o.LaterSorts later) (items : List α) :
    o.Does (∀ x ∈ items, o.On x) (sortByRuns o.less later items) (o.Sorts items) := by
  have hcount : ∀ {n : Nat}, items.drop n ≠ [] → 1 ≤ items.length := by
    intro n hne
    refine List.length_pos_iff.mpr fun hnil => hne ?_
    rw [hnil, List.drop_nil]
  unfold sortByRuns
  refine does_bind (ready_cutRun _ items) fun first => ?_
  refine does_bind ((ready_mergeRuns hlater [] first _ hcount).from fun ⟨h, hfirst, _⟩ =>
    ⟨⟨fun w hw => absurd hw (List.not_mem_nil), hfirst⟩, fun x hx =>
      h x (List.mem_of_mem_drop hx)⟩) fun run => ?_
  refine (sorts_ordered hlater run).mono (fun h => h.2.1) fun r ⟨⟨_, _, hfirst⟩, _, hrun⟩ hr => ?_
  have hwhole := hfirst.append (KeepsTies.refl (items.drop first.items.length))
  rw [List.take_append_drop] at hwhole
  exact (hwhole.trans hrun).sorts hr

end Joining

/-! ## Partition -/

section Partition

variable {pre : Prop} {pivot : α}

/-- What compares items that belong to other things compares them by what they belong to. -/
theorem Does.of_comap {β γ : Type} {f : β → α} {c : Comparing γ} {P : γ → Prop}
    (hc : (o.comap f).Does pre c P) : o.Does pre c P where
  answers := hc.answers
  fails h b e hrun := by
    obtain ⟨x, y, hx, hy, he⟩ := hc.fails h b e hrun
    exact ⟨f x, f y, hx, hy, he⟩
  givesUp h hrun := by
    obtain ⟨x, y, e, hx, hy, he⟩ := hc.givesUp h hrun
    exact ⟨f x, f y, e, hx, hy, he⟩
  stays := hc.stays

theorem does_middleOfThree (a b c : α) :
    o.Does (o.On a ∧ o.On b ∧ o.On c) (middleOfThree o.less a b c) o.On := by
  have hless : ∀ {pre : Prop} {x y : α}, (pre → o.On x ∧ o.On y) →
      o.Does pre (o.less x y) fun _ => True := fun hon =>
    (does_less hon).mono id fun _ _ _ => trivial
  unfold middleOfThree
  refine does_bind (hless fun h => ⟨h.1, h.2.1⟩) fun below => ?_
  refine does_bind (hless fun h => ⟨h.1.1, h.1.2.2⟩) fun below' => ?_
  split
  next => exact does_pure fun h => h.1.1.1
  next =>
    refine does_bind (hless fun h => ⟨h.1.1.2.1, h.1.1.2.2⟩) fun between => ?_
    split
    next => exact does_pure fun h => h.1.1.1.2.2
    next => exact does_pure fun h => h.1.1.1.2.1

theorem does_sample (first : α) : ∀ (count : Nat) (items : List α),
    o.Does (o.On first ∧ ∀ x ∈ items, o.On x) (sample o.less first count items) o.On
  | count, items => by
    have hdrop : ∀ {n : Nat}, (∀ x ∈ items, o.On x) → ∀ x ∈ items.drop n, o.On x := fun h x hx =>
      h x (List.mem_of_mem_drop hx)
    unfold sample
    split
    next =>
      refine does_pure fun h => ?_
      cases items with
      | nil => exact h.1
      | cons x xs => exact h.2 x (List.mem_cons_self ..)
    next hmany =>
      dsimp only
      refine does_bind (does_sample first (count / 8) items) fun a => ?_
      refine does_bind ((does_sample first (count / 8) _).from fun h => ⟨h.1.1, hdrop h.1.2⟩)
        fun b => ?_
      refine does_bind ((does_sample first (count / 8) _).from fun h => ⟨h.1.1.1, hdrop h.1.1.2⟩)
        fun c => ?_
      exact (does_middleOfThree a b c).from fun ⟨⟨⟨_, ha⟩, hb⟩, hc⟩ => ⟨ha, hb, hc⟩
  termination_by count => count
  decreasing_by all_goals omega

/-- Not to be less is to be the same or to come behind. -/
theorem does_notLess {a b : α} (hon : pre → o.On a ∧ o.On b) :
    o.Does pre (notLess o.less a b) fun r => if r then o.Le b a else o.Lt a b := by
  unfold notLess
  refine does_bind (does_less hon) fun isLess => does_pure fun h => ?_
  cases isLess with
  | true => exact h.2
  | false => exact h.2

/-! A test splits items into those with one property and those with another, where what has the first
is before what has the second. -/

section Splits

variable {A B : α → Prop} {items items' : List α} {sides sides' : List α × List α}

/-- The items with the first property and those with the second, ties in the order they were in. -/
structure Splits (o : FallibleOrder α) (A B : α → Prop) (items : List α)
    (sides : List α × List α) : Prop where
  left : ∀ x ∈ sides.1, A x
  right : ∀ x ∈ sides.2, B x
  keeps : o.KeepsTies items (sides.1 ++ sides.2)

theorem Splits.nil : o.Splits A B [] ([], []) :=
  ⟨fun _ h => absurd h List.not_mem_nil, fun _ h => absurd h List.not_mem_nil, KeepsTies.refl _⟩

/-- The left side of what is behind moves before the right side of what is in front. -/
theorem Splits.append (hsep : ∀ a b, A a → B b → o.Lt a b) (h : o.Splits A B items sides)
    (h' : o.Splits A B items' sides') :
    o.Splits A B (items ++ items') (sides.1 ++ sides'.1, sides.2 ++ sides'.2) := by
  refine ⟨List.forall_mem_append.mpr ⟨h.left, h'.left⟩, List.forall_mem_append.mpr ⟨h.right, h'.right⟩,
    (h.keeps.append h'.keeps).trans ?_⟩
  have hmove : o.KeepsTies (sides.2 ++ sides'.1) (sides'.1 ++ sides.2) :=
    keepsTies_append_comm _ _ fun b hb a ha => hsep b a (h'.left b hb) (h.right a ha)
  have hwhole := ((KeepsTies.refl sides.1).append hmove).append (KeepsTies.refl sides'.2)
  simpa only [List.append_assoc] using hwhole

/-- One more item with the first property goes to the left in front. -/
theorem Splits.consLeft {x : α} (hx : A x) (h : o.Splits A B items sides) :
    o.Splits A B (x :: items) (x :: sides.1, sides.2) :=
  ⟨List.forall_mem_cons.mpr ⟨hx, h.left⟩, h.right, h.keeps.cons x⟩

theorem Splits.consRight (hsep : ∀ a b, A a → B b → o.Lt a b) {x : α} (hx : B x)
    (h : o.Splits A B items sides) : o.Splits A B (x :: items) (sides.1, x :: sides.2) := by
  have hone : o.Splits A B [x] ([], [x]) :=
    ⟨fun _ h => absurd h List.not_mem_nil, List.forall_mem_singleton.mpr hx, KeepsTies.refl _⟩
  exact hone.append hsep h

variable {test : α → Comparing Bool}

/-- A test that tells two properties apart splits the items by them. -/
theorem splits_split (hsep : ∀ a b, A a → B b → o.Lt a b)
    (htest : ∀ x, o.Does (pre ∧ o.On x) (test x) fun r => if r then A x else B x) :
    ∀ items : List α, o.Does (pre ∧ ∀ x ∈ items, o.On x) (split test items) (o.Splits A B items)
  | [] => does_pure fun _ => Splits.nil
  | x :: xs => by
    unfold split
    refine does_bind ((htest x).from fun h => ⟨h.1, h.2 x (List.mem_cons_self ..)⟩) fun isLeft => ?_
    refine does_bind ((splits_split hsep htest xs).from fun h => ⟨h.1.1, fun z hz =>
      h.1.2 z (List.mem_cons_of_mem x hz)⟩) fun r => does_pure fun h => ?_
    obtain ⟨⟨-, hx⟩, hsplits⟩ := h
    cases isLeft with
    | true => exact hsplits.consLeft hx
    | false => exact hsplits.consRight hsep hx

theorem splits_splitAround (pre : Prop) (A B : α → Prop) (pivotLeft : Bool)
    (hsep : ∀ a b, A a → B b → o.Lt a b)
    (htest : ∀ x, o.Does (pre ∧ o.On x) (test x) fun r => if r then A x else B x)
    (hpivot : pre → o.On pivot → if pivotLeft then A pivot else B pivot)
    {position : Nat} {items : List α} :
    o.Does (pre ∧ (∀ x ∈ items, o.On x) ∧ items[position]? = some pivot)
      (splitAround test pivotLeft position pivot items) (o.Splits A B items) := by
  unfold splitAround
  refine does_bind ((splits_split hsep htest _).from fun h => ⟨h.1, fun x hx =>
    h.2.1 x (List.mem_of_mem_take hx)⟩) fun front => ?_
  refine does_bind ((splits_split hsep htest _).from fun h => ⟨h.1.1, fun x hx =>
    h.1.2.1 x (List.mem_of_mem_drop hx)⟩) fun behind => does_pure fun h => ?_
  obtain ⟨⟨⟨hpre, hon, hat⟩, hfront⟩, hbehind⟩ := h
  have hpivot := hpivot hpre (hon _ (List.mem_of_getElem? hat))
  have hitems : items.take position ++ pivot :: items.drop (position + 1) = items := by
    obtain ⟨hlt, rfl⟩ := List.getElem?_eq_some_iff.mp hat
    rw [List.getElem_cons_drop, List.take_append_drop]
  rw [← hitems]
  cases pivotLeft with
  | true => exact hfront.append hsep (hbehind.consLeft hpivot)
  | false => exact hfront.append hsep (hbehind.consRight hsep hpivot)

end Splits

/-- Items of the domain that are not before the bound, if there is one. -/
structure Above (o : FallibleOrder α) (bound : Option α) (items : List α) : Prop where
  on : ∀ x ∈ items, o.On x
  above : ∀ b, bound = some b → ∀ x ∈ items, o.Le b x

theorem Above.of_subset {bound : Option α} {items part : List α} (h : o.Above bound items)
    (hpart : ∀ x ∈ part, x ∈ items) : o.Above bound part :=
  ⟨fun x hx => h.on x (hpart x hx), fun b hb x hx => h.above b hb x (hpart x hx)⟩

/-! The sides of a pivot that is an item at a position. -/

section Sides

variable {items : List α} {position : Nat} {bound : Option α}

/-- What is before a pivot is split off. If the pivot is a bound, nothing is. -/
theorem splits_splitBefore (isBound : Bool) :
    o.Does ((∀ x ∈ items, o.On x) ∧ items[position]? = some pivot ∧
        (isBound = true → ∀ x ∈ items, o.Le pivot x))
      (splitBefore o.less isBound position pivot items) (o.Splits (o.Lt · pivot) (o.Le pivot) items) := by
  cases isBound with
  | true =>
    exact does_pure fun h => ⟨fun _ hx => absurd hx List.not_mem_nil, h.2.2 rfl, KeepsTies.refl _⟩
  | false =>
    exact (splits_splitAround (o.On pivot) _ _ false (fun _ _ ha hb => ha.trans_le hb)
      (fun x => does_less fun h => ⟨h.2, h.1⟩) fun h _ => Le.refl h).from fun h =>
      ⟨h.1 _ (List.mem_of_getElem? h.2.1), h.1, h.2.1⟩

/-- What is not after a pivot is put aside. If nothing is before it either then that ascends. -/
theorem splits_equal :
    o.Does ((∀ x ∈ items, o.Le pivot x) ∧ items[position]? = some pivot)
      (splitAround (notLess o.less pivot) true position pivot items) fun sides =>
      o.Splits (o.Le · pivot) (o.Lt pivot) items sides ∧ o.Ascends sides.1 := by
  have hon : (∀ x ∈ items, o.Le pivot x) → ∀ x ∈ items, o.On x := fun h x hx => (h x hx).2.1
  refine (splits_splitAround (o.On pivot) (o.Le · pivot) (o.Lt pivot) true
    (fun _ _ ha hb => ha.trans_lt hb) (fun x => does_notLess id) fun h _ => Le.refl h).mono
    (fun h => ⟨hon h.1 _ (List.mem_of_getElem? h.2), hon h.1, h.2⟩) fun sides h hsides => ⟨hsides, ?_⟩
  refine Ascends.of_between (fun x hx => (hsides.left x hx).1) hsides.left fun x hx => ?_
  exact h.1 x (hsides.keeps.perm.mem_iff.mp (List.mem_append_left _ hx))

/-- Sorting both sides of a pivot sorts the items, if `sort` sorts what is above its bound. -/
theorem sorts_sortSides {sort : Option α → List α → Comparing (List α)}
    (hsort : ∀ bound items, o.Does (o.Above bound items) (sort bound items) (o.Sorts items))
    (sides : List α × List α) :
    o.Does ((o.Above bound items ∧ items[position]? = some pivot) ∧
        o.Splits (o.Lt · pivot) (o.Le pivot) items sides)
      (sortSides o.less sort bound position pivot items sides) (o.Sorts items) := by
  unfold sortSides
  split
  next hempty =>
    -- No item is before the pivot, so that those equal to it come first.
    have hnotBefore : o.Splits (o.Lt · pivot) (o.Le pivot) items sides →
        ∀ x ∈ items, o.Le pivot x := fun h => by
      have hkeeps := h.keeps
      rw [List.isEmpty_iff.mp hempty, List.nil_append] at hkeeps
      exact hkeeps.symm.all h.right
    refine does_bind (splits_equal.from fun h => ⟨hnotBefore h.2, h.1.2⟩) fun parts => ?_
    refine does_bind ((hsort none parts.2).from fun h =>
      ⟨fun x hx => (h.2.1.right x hx).2.1, fun b hb => by cases hb⟩) fun larger => does_pure fun h => ?_
    obtain ⟨⟨-, hparts, hequal⟩, hlarger⟩ := h
    refine hparts.keeps.sorts ((Sorts.refl hequal).append hlarger fun x hx y hy => ?_)
    -- Equal to the pivot on the left, larger on the right.
    exact (hparts.left x hx).trans (hparts.right y hy).le
  next =>
    refine does_bind ((hsort (some pivot) sides.2).from fun h =>
      ⟨fun x hx => (h.2.right x hx).2.1, fun b hb => by
        cases hb
        exact h.2.right⟩) fun right => ?_
    refine does_bind ((hsort bound sides.1).from fun h => h.1.1.1.of_subset fun x hx =>
      h.1.2.keeps.perm.mem_iff.mp (List.mem_append_left _ hx)) fun left => does_pure fun h => ?_
    obtain ⟨⟨⟨-, hsides⟩, hsortsRight⟩, hsortsLeft⟩ := h
    refine hsides.keeps.sorts (hsortsLeft.append hsortsRight fun x hx y hy => ?_)
    exact ((hsides.left x hx).trans_le (hsides.right y hy)).le

/-- A pivot that is not after the bound is not after any item. -/
theorem does_isBound :
    o.Does (o.Above bound items ∧ items[position]? = some pivot)
      (bound.elim (pure false) (notLess o.less · pivot)) fun isBound =>
      isBound = true → ∀ x ∈ items, o.Le pivot x := by
  cases bound with
  | none => exact does_pure fun _ h => Bool.noConfusion h
  | some b =>
    have hpivot : o.Above (some b) items ∧ items[position]? = some pivot → o.Le b pivot := fun h =>
      h.1.above b rfl pivot (List.mem_of_getElem? h.2)
    refine (does_notLess fun h => ⟨(hpivot h).1, (hpivot h).2.1⟩).mono id
      fun isBound h hle htrue x hx => ?_
    subst htrue
    exact Le.trans hle (h.1.above b rfl x hx)

end Sides

/-- The sample of a partition is one of the items, with its position. -/
theorem does_sample_at (first : α) (rest : List α) :
    o.Does (∀ x ∈ first :: rest, o.On x)
      (sample (fun a b => o.less a.1 b.1) (first, 0) (first :: rest).length (first :: rest).zipIdx)
      fun sampled => (first :: rest)[sampled.2]? = some sampled.1 := by
  have hsample := Does.of_comap (f := Prod.fst)
    (does_sample (o := o.comap Prod.fst) (first, 0) (first :: rest).length (first :: rest).zipIdx)
  refine ((hsample.from fun h => ⟨h first (List.mem_cons_self ..), fun x hx => ?_⟩).and_always
    (sample_at o.less first rest)).mono id fun _ _ h => h.2
  exact h x.1 (List.fst_mem_of_mem_zipIdx hx)

/-- Sorting by partition sorts items that are not before the bound. -/
theorem sorts_partitionSort (splits : Nat) (bound : Option α) (items : List α) :
    o.Does (o.Above bound items) (partitionSort o.less splits bound items) (o.Sorts items) := by
  have hnone : o.LaterSorts none := by
    rintro sort ⟨⟩
  -- By the number of splits that are left, for any bound below the items.
  induction splits generalizing bound items with
  | zero =>
    unfold partitionSort
    split
    next => exact does_pure fun _ => Sorts.refl Ascends.nil
    next =>
      dsimp only
      split
      next => exact (sorts_sortSmall _).from Above.on
      next => exact (sorts_sortByRuns hnone _).from Above.on
  | succ splits ih =>
    match items with
    | [] =>
      unfold partitionSort
      exact does_pure fun _ => Sorts.refl Ascends.nil
    | first :: rest =>
      by_cases hlong : (first :: rest).length ≤ smallLimit
      · unfold partitionSort
        dsimp only
        rw [if_pos hlong]
        exact (sorts_sortSmall _).from Above.on
      · rw [partitionSort_succ o.less hlong]
        refine does_bind ((does_sample_at first rest).from Above.on) fun sampled => ?_
        refine does_bind does_isBound fun isBound => ?_
        refine does_bind ((splits_splitBefore isBound).from fun h => ⟨h.1.1.on, h.1.2, h.2⟩)
          fun sides => ?_
        exact (sorts_sortSides ih sides).from fun h => ⟨h.1.1, h.2⟩

end Partition

/-! ## The whole sort -/

section Whole

variable {items sorted : List α}

/-- The sort sorts, whichever way it takes. -/
theorem sorts_sort (items : List α) :
    o.Does (∀ x ∈ items, o.On x) (sort o.less items) (o.Sorts items) := by
  have hnone : o.LaterSorts none := by
    rintro sort ⟨⟩
  unfold sort
  split
  next => exact sorts_insertionSort items
  next =>
    split
    next => exact sorts_sortByRuns hnone items
    next =>
      refine sorts_sortByRuns ?_ items
      rintro sort ⟨⟩ part
      exact (sorts_partitionSort _ none part).from fun h => ⟨h, fun b hb => by cases hb⟩

/-- The order on fewer items. -/
def restrict (o : FallibleOrder α) (P : α → Prop) : FallibleOrder α where
  cmp := o.cmp
  On a := o.On a ∧ P a
  self h := o.self h.1
  swap ha hb := o.swap ha.1 hb.1
  climbs ha hb hc := o.climbs ha.1 hb.1 hc.1

/-- A sort that meets no failure sorts. -/
theorem sorts_stableSort (hon : ∀ x ∈ items, o.On x)
    (h : stableSort o.cmp items = some (sorted, none)) : o.Sorts items sorted :=
  (sorts_sort items).answers hon sorted h

/-- A failure of a sort is that of two of the items. -/
theorem exists_of_stableSort {e : Error} (hon : ∀ x ∈ items, o.On x)
    (h : stableSort o.cmp items = some (sorted, some e)) :
    ∃ x ∈ items, ∃ y ∈ items, o.cmp x y = .error e := by
  obtain ⟨x, y, hx, hy, he⟩ := (sorts_sort (o := o.restrict (· ∈ items)) items).fails
    (fun x hx => ⟨hon x hx, hx⟩) sorted e h
  exact ⟨x, hx.2, y, hy.2, he⟩

/-- A sort gives up only if two of the items do not compare. -/
theorem exists_of_stableSort_none (hon : ∀ x ∈ items, o.On x)
    (h : stableSort o.cmp items = none) :
    ∃ e, ∃ x ∈ items, ∃ y ∈ items, o.cmp x y = .error e := by
  obtain ⟨x, y, e, hx, hy, he⟩ := (sorts_sort (o := o.restrict (· ∈ items)) items).givesUp
    (fun x hx => ⟨hon x hx, hx⟩) h
  exact ⟨e, x, hx.2, y, hy.2, he⟩

/-- Items of an ascending list compare with each other, whichever comes first. -/
theorem Ascends.exists_cmp (h : o.Ascends sorted) {x y : α} (hx : x ∈ sorted) (hy : y ∈ sorted) :
    ∃ r, o.cmp x y = .ok r := by
  refine List.Pairwise.forall_of_forall_of_flip (R := fun a b => ∃ r, o.cmp a b = .ok r)
    (fun a ha => ⟨.eq, o.self (h.on a ha)⟩) (h.pairwise.imp fun ⟨_, _, r, hr, _⟩ => ⟨r, hr⟩)
    (h.pairwise.imp fun ⟨ha, hb, r, hr, _⟩ => ⟨r.swap, o.swap ha hb hr⟩) hx hy

/-- A sort puts the items in order exactly if all of them compare. -/
theorem stableSort_sorts_iff (hon : ∀ x ∈ items, o.On x) :
    (∃ sorted, stableSort o.cmp items = some (sorted, none)) ↔
      ∀ x ∈ items, ∀ y ∈ items, ∃ r, o.cmp x y = .ok r := by
  constructor
  · rintro ⟨sorted, h⟩ x hx y hy
    have hsorts := sorts_stableSort hon h
    have hperm := hsorts.keeps.perm
    exact hsorts.ascends.exists_cmp (hperm.mem_iff.mpr hx) (hperm.mem_iff.mpr hy)
  · intro hall
    have hnone : ¬∃ e, ∃ x ∈ items, ∃ y ∈ items, o.cmp x y = .error e := by
      rintro ⟨e, x, hx, y, hy, he⟩
      obtain ⟨r, hr⟩ := hall x hx y hy
      cases he.symm.trans hr
    cases h : stableSort o.cmp items with
    | none => exact absurd (exists_of_stableSort_none hon h) hnone
    | some ended =>
      obtain ⟨sorted, failure⟩ := ended
      cases failure with
      | none => exact ⟨sorted, rfl⟩
      | some e => exact absurd ⟨e, exists_of_stableSort hon h⟩ hnone

end Whole

end RecordStore.FallibleOrder
