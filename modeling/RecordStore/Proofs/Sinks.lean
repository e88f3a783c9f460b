import RecordStore.Proofs.Grouping

/-!
# The rows that a sink is handed

Whatever a sink makes of the rows of a query, it is handed those that `find` answers, in their order,
until it wants no more or fails (`alike_run`). Where the rows are sorted first that is how they are
handed over. Where they are not, the sink itself can bring the walks to an end, and the rows are counted
against the limit on the way; but answering the terms is nothing but offering rows, the same to every
sink, and a delivery hands over the window on what it is offered (`tally_offerAll`). So the number of
rows, the rows one by one, and the first row are all to be had from the list of them (`find_modes`).
-/

namespace RecordStore

namespace Delivery

variable {σ κ ρ : Type}

/-- How many rows have been handed over in the end, and the state of the sink. -/
def tally (work : Step (Delivery σ) Demand) (d : Delivery σ) : Except Error Nat × σ :=
  ((work.answer d).map fun _ => (work.after d).delivered, (work.after d).inner)

section Tally

variable {work : Step (Delivery σ) Demand} {f : Demand → Step (Delivery σ) Demand}
  {d d' : Delivery σ}

theorem tally_bind_of_ends {demand : Demand} (h : work.Ends d demand d') :
    tally (work >>= f) d = tally (f demand) d' := by
  unfold tally
  rw [Step.answer_bind_of_ends h, Step.after_bind_of_ends h]

theorem tally_bind_of_fails {e : Error} (h : work.Fails d e d') :
    tally (work >>= f) d = (.error e, d'.inner) := by
  unfold tally
  rw [Step.answer_bind_of_fails h, Step.after_bind_of_fails h]
  rfl

theorem tally_congr {work' : Step (Delivery σ) Demand} (h : work.Alike work' d) :
    tally work d = tally work' d := by
  unfold tally Step.answer Step.after
  rw [h.1, h.2]

end Tally

/-- Handing rows over after others were, and the state of the sink. -/
def tallyDeliver (sink : Sink σ κ ρ) (delivered : Nat) (rows : List (Row κ ρ)) (inner : σ) :
    Except Error Nat × σ :=
  (((View.deliver sink rows).answer inner).map (delivered + ·), (View.deliver sink rows).after inner)

/-- Tallied from zero, a delivery is its answer and the state it leaves. -/
theorem tallyDeliver_zero (sink : Sink σ κ ρ) (rows : List (Row κ ρ)) (inner : σ) :
    tallyDeliver sink 0 rows inner =
      ((View.deliver sink rows).answer inner, (View.deliver sink rows).after inner) := by
  unfold tallyDeliver
  refine congrArg (·, _) ?_
  cases (View.deliver sink rows).answer inner with
  | error e => rfl
  | ok n => exact congrArg Except.ok (Nat.zero_add n)

/-- A row that the sink takes while asking for more raises the tally by one. -/
theorem tallyDeliver_cons_of_more {sink : Sink σ κ ρ} {delivered : Nat} {row : Row κ ρ}
    {rows : List (Row κ ρ)} {inner inner' : σ} (h : (sink row).Ends inner .more inner') :
    tallyDeliver sink delivered (row :: rows) inner =
      tallyDeliver sink (delivered + 1) rows inner' := by
  unfold tallyDeliver
  rw [View.deliver, Step.answer_bind_of_ends h, Step.after_bind_of_ends h]
  dsimp only
  rw [Step.answer_bind_pure, Step.after_bind_pure]
  refine congrArg (·, _) ?_
  cases (View.deliver sink rows).answer inner' with
  | error e => rfl
  | ok n =>
    refine congrArg Except.ok ?_
    show delivered + (n + 1) = delivered + 1 + n
    omega

/-- A row that is to be skipped is passed over. -/
theorem ends_offer_of_skip {sink : Sink σ κ ρ} {row : Row κ ρ} {d : Delivery σ} (hskip : 0 < d.skip) :
    (offer sink row).Ends d .more { d.mark row.rawKey with skip := d.skip - 1 } := by
  unfold Step.Ends offer
  dsimp only [mark]
  rw [if_pos hskip]
  exact ⟨rfl, rfl⟩

/-- Any other row is handed to the sink. -/
theorem ends_offer_of_ends {sink : Sink σ κ ρ} {row : Row κ ρ} {d : Delivery σ} {demand : Demand}
    {inner : σ} (hskip : d.skip = 0) (h : (sink row).Ends d.inner demand inner) :
    (offer sink row).Ends d
      (if demand = .enough ∨ d.remaining.map (· - 1) = some 0 then .enough else .more)
      { d.mark row.rawKey with
        remaining := d.remaining.map (· - 1), delivered := d.delivered + 1, inner } := by
  unfold Step.Ends at h
  unfold Step.Ends offer
  dsimp only [mark]
  rw [if_neg (by omega)]
  rcases hrun : sink row d.inner with ⟨⟨r, events⟩, inner'⟩
  rw [hrun] at h
  obtain ⟨rfl, rfl⟩ : r = .ok demand ∧ inner' = inner := h
  cases demand with
  | enough => simp
  | more => simp

/-- A sink that fails on a row it is given fails the offer, and the row counts as delivered. -/
theorem fails_offer_of_fails {sink : Sink σ κ ρ} {row : Row κ ρ} {d : Delivery σ} {e : Error}
    {inner : σ} (hskip : d.skip = 0) (h : (sink row).Fails d.inner e inner) :
    (offer sink row).Fails d e
      { d.mark row.rawKey with
        remaining := d.remaining.map (· - 1), delivered := d.delivered + 1, inner } := by
  unfold Step.Fails at h
  unfold Step.Fails offer
  dsimp only [mark]
  rw [if_neg (by omega)]
  rcases hrun : sink row d.inner with ⟨⟨r, events⟩, inner'⟩
  rw [hrun] at h
  obtain ⟨rfl, rfl⟩ : r = .error e ∧ inner' = inner := h
  exact ⟨rfl, rfl⟩

/-- A delivery hands the window on the rows that are offered to it over to its sink, unless it wants
none at all. -/
theorem tally_offerAll (sink : Sink σ κ ρ) : ∀ (rows : List (Row κ ρ)) (d : Delivery σ),
    d.remaining ≠ some 0 → tally (offerAll sink rows) d =
      tallyDeliver sink d.delivered (window d.skip d.remaining rows) d.inner
  | [], d, _ => by
    have hwindow : window d.skip d.remaining ([] : List (Row κ ρ)) = [] := by
      unfold window
      cases d.remaining <;> simp
    rw [hwindow]
    rfl
  | row :: rows, ⟨seen, skip, remaining, delivered, inner⟩, hwants => by
    rw [offerAll]
    cases skip with
    | succ skip =>
      rw [tally_bind_of_ends (ends_offer_of_skip (Nat.succ_pos skip))]
      have hrest := tally_offerAll sink rows
        ⟨seen.map (row.rawKey :: ·), skip, remaining, delivered, inner⟩ hwants
      refine hrest.trans ?_
      cases remaining <;> rfl
    | zero =>
      -- The row is in the window, as long as any is.
      have hwindow : window 0 remaining (row :: rows) =
          row :: window 0 (remaining.map (· - 1)) rows := by
        cases remaining with
        | none => rfl
        | some n =>
          obtain ⟨n, rfl⟩ := Nat.exists_eq_succ_of_ne_zero fun hzero => hwants (congrArg some hzero)
          rfl
      dsimp only
      rw [hwindow]
      rcases Step.ends_or_fails (sink row) inner with ⟨demand, hends⟩ | ⟨e, hfails⟩
      · rw [tally_bind_of_ends (ends_offer_of_ends rfl hends)]
        cases demand with
        | enough =>
          rw [if_pos (.inl rfl)]
          unfold tallyDeliver
          rw [View.deliver, Step.answer_bind_of_ends hends, Step.after_bind_of_ends hends]
          rfl
        | more =>
          rw [tallyDeliver_cons_of_more hends]
          by_cases hlast : remaining.map (· - 1) = some 0
          · -- It was the last row wanted.
            rw [if_pos (.inr hlast), hlast]
            rfl
          · rw [if_neg (by simp [hlast])]
            exact tally_offerAll sink rows _ hlast
      · rw [tally_bind_of_fails (fails_offer_of_fails rfl hfails)]
        unfold tallyDeliver
        rw [View.deliver, Step.answer_bind_of_fails hfails, Step.after_bind_of_fails hfails]
        rfl

/-- If a sink asks for more after a row then one that keeps rows does. -/
theorem ends_offer_keepRow_of_more {sink : Sink σ κ ρ} {row : Row κ ρ} {d d' : Delivery σ}
    (h : (offer sink row).Ends d .more d') (kept : List (Row κ ρ)) :
    ∃ kept', (offer View.keepRow row).Ends { d with inner := kept } .more
      { d' with inner := kept' } := by
  by_cases hskip : 0 < d.skip
  · obtain ⟨-, rfl⟩ := (ends_offer_of_skip hskip).unique h
    exact ⟨kept, ends_offer_of_skip hskip⟩
  have hskip : d.skip = 0 := by omega
  rcases Step.ends_or_fails (sink row) d.inner with ⟨demand, hends⟩ | ⟨e, hfails⟩
  · obtain ⟨hmore, rfl⟩ := (ends_offer_of_ends hskip hends).unique h
    split at hmore
    next => cases hmore
    next hwants =>
      have hkept : (View.keepRow row).Ends kept .more (row :: kept) := ⟨rfl, rfl⟩
      have hkeep := ends_offer_of_ends (d := { d with inner := kept }) hskip hkept
      rw [if_neg fun hc => hwants (.inr (hc.resolve_left Demand.noConfusion))] at hkeep
      exact ⟨row :: kept, hkeep⟩
  · cases (fails_offer_of_fails hskip hfails).1.symm.trans h.1

/-- Where any sink asks for more to the end, the keeping sink does so too. -/
theorem ends_offerAll_keepRow_of_more {sink : Sink σ κ ρ} :
    ∀ {rows : List (Row κ ρ)} {d d' : Delivery σ}, (offerAll sink rows).Ends d .more d' →
      ∀ kept, ∃ kept', (offerAll View.keepRow rows).Ends { d with inner := kept } .more
        { d' with inner := kept' }
  | [], d, d', h, kept => by
    obtain ⟨-, rfl⟩ := Step.ends_pure.mp h
    exact ⟨kept, Step.ends_pure.mpr ⟨rfl, rfl⟩⟩
  | row :: rows, d, d', h, kept => by
    rw [offerAll, Step.ends_bind] at h
    obtain ⟨demand, d₁, hoffer, h⟩ := h
    cases demand with
    | enough => cases (Step.ends_pure.mp h).1
    | more =>
      obtain ⟨kept₁, hkeep⟩ := ends_offer_keepRow_of_more hoffer kept
      obtain ⟨kept', hrest⟩ := ends_offerAll_keepRow_of_more h kept₁
      refine ⟨kept', ?_⟩
      rw [offerAll, Step.ends_bind]
      exact ⟨.more, _, hkeep, hrest⟩

end Delivery

namespace View

variable {σ κ ρ : Type} [CustomKind κ] {v : View κ ρ}

open Delivery (tally tallyDeliver offerAll)

/-! ## Running a query with any sink -/

/-- What the terms are answered with is handed over, whatever the sink. -/
theorem alike_select {q : Query κ ρ} {skip : Nat} {limit : Option Nat} {n : Nat}
    {kept : List (Row κ ρ)} (hlimit : limit ≠ some 0)
    (h : (v.select q skip limit keepRow).Ends [] n kept) (sink : Sink σ κ ρ) (s : σ) :
    (v.select q skip limit sink).Alike (deliver sink kept.reverse) s := by
  obtain ⟨demand, d, hterms, -, rfl⟩ := ends_select.mp h
  obtain ⟨offered, hends, hoffers⟩ := offers_answerTerms hterms
  obtain ⟨demand', d', hends', hinner, -⟩ := Delivery.exists_offerAll_window offered
    (start q skip limit) hlimit
  obtain ⟨rfl, rfl⟩ := hends.unique hends'
  have hkept : d.inner.reverse = window skip limit offered := hinner
  -- If the limit was reached then it is reached with this sink at the latest.
  have hdemand : demand = .more ∨ ∀ d₂, ¬(offerAll sink offered).Ends
      ⟨if q.hasBranches then some [] else none, skip, limit, 0, s⟩ .more d₂ := by
    cases demand with
    | more => exact .inl rfl
    | enough =>
      refine .inr fun d₂ hmore => ?_
      obtain ⟨kept', hkeep⟩ := Delivery.ends_offerAll_keepRow_of_more hmore []
      cases (hkeep.unique hends).1
  have hselect : ((v.select q skip limit sink).answer s, (v.select q skip limit sink).after s) =
      ((deliver sink d.inner.reverse).answer s, (deliver sink d.inner.reverse).after s) := calc
    _ = tally (v.answerTerms sink q.terms) _ := rfl
    _ = tally (offerAll sink offered) _ := Delivery.tally_congr (hoffers σ sink _ rfl hdemand)
    _ = tallyDeliver sink 0 (window skip limit offered) s :=
      Delivery.tally_offerAll sink offered _ hlimit
    _ = _ := by rw [Delivery.tallyDeliver_zero, ← hkept]
  exact Prod.mk.inj hselect

/-- A query hands the rows that it has over to any sink. -/
theorem alike_run {q : Query κ ρ} {rows : List (Row κ ρ)} (h : (v.rows q).result = .ok rows)
    (sink : Sink σ κ ρ) (s : σ) : (v.run q sink).Alike (deliver sink rows) s := by
  obtain ⟨n, kept, hrun, rfl⟩ := rows_eq_ok.mp h
  by_cases hzero : q.limit = some 0
  · rw [run_of_zero _ hzero] at hrun ⊢
    obtain ⟨_, hplan, hpure⟩ := Step.ends_liftExcept_bind.mp hrun
    obtain ⟨-, rfl⟩ := Step.ends_pure.mp hpure
    exact Step.alike_bind_of_ends (Step.ends_liftExcept.mpr ⟨hplan, rfl⟩)
  cases hordered : q.isOrdered with
  | true =>
    rw [run_of_ordered _ hzero hordered] at hrun ⊢
    obtain ⟨found, hfound, hsort⟩ := Step.ends_liftTraced_bind.mp hrun
    obtain ⟨sorted, hsorted, hdeliver⟩ := Step.ends_liftExcept_bind.mp hsort
    rw [deliver_eq_ok.mp ⟨n, kept, hdeliver, rfl⟩]
    refine (Step.alike_bind_of_ends (Step.ends_liftTraced.mpr ⟨hfound, rfl⟩)).trans ?_
    exact Step.alike_bind_of_ends (Step.ends_liftExcept.mpr ⟨hsorted, rfl⟩)
  | false =>
    rw [run_of_unordered _ hzero hordered] at hrun ⊢
    exact alike_select hzero hrun sink s

/-! ## The ways to ask -/

omit [CustomKind κ] in
/-- Delivered to the counting sink, the rows are counted. -/
theorem ends_deliver_countOnly : ∀ rows : List (Row κ ρ),
    (deliver Store.countOnly rows).Ends () rows.length ()
  | [] => Step.ends_pure.mpr ⟨rfl, rfl⟩
  | _ :: rows => by
    rw [deliver, Step.ends_bind]
    refine ⟨.more, (), ⟨rfl, rfl⟩, ?_⟩
    exact (ends_deliver_countOnly rows).bind_pure _

omit [CustomKind κ] in
/-- Delivered to the sink of `findOne`, the first row is kept. -/
theorem exists_deliver_keepFirst : ∀ rows : List (Row κ ρ),
    ∃ n, (deliver Store.keepFirst rows).Ends none n rows.head?
  | [] => ⟨0, Step.ends_pure.mpr ⟨rfl, rfl⟩⟩
  | row :: rows => by
    refine ⟨1, ?_⟩
    rw [deliver, Step.ends_bind]
    exact ⟨.enough, some row, ⟨rfl, rfl⟩, Step.ends_pure.mpr ⟨rfl, rfl⟩⟩

omit [CustomKind κ] in
/-- Handing rows over to a sink that always wants more is calling it on each of them. -/
theorem alike_deliver_forM (f : Row κ ρ → Step σ Unit) : ∀ (rows : List (Row κ ρ)) (s : σ),
    (deliver (fun row => do f row; pure .more) rows >>= fun _ => pure ()).Alike (rows.forM f) s
  | [], s => .refl _ _
  | row :: rows, s => by
    have hcons : (deliver (fun row => do f row; pure .more) (row :: rows) >>= fun _ => pure ()) =
        f row >>= fun _ => deliver (fun row => do f row; pure .more) rows >>= fun _ => pure () := by
      simp only [deliver, bind_assoc, pure_bind]
    rw [hcons]
    exact (Step.Alike.refl (f row) s).bind fun _ s' _ => alike_deliver_forM f rows s'

end View

namespace Store

variable {σ κ ρ : Type}

/-- Calls `f` on a row, and makes a note of it before. -/
def noting (f : Row κ ρ → Step σ Unit) (row : Row κ ρ) : Step (List (Row κ ρ) × σ) Unit :=
  fun (noted, s) =>
    let (answer, s) := f row s
    (answer, noted ++ [row], s)

section Noting

variable {f : Row κ ρ → Step σ Unit} {rows : List (Row κ ρ)} {row : Row κ ρ}
  {noted : List (Row κ ρ)} {s s' : σ}

theorem ends_noting {u : Unit} (h : (f row).Ends s u s') :
    (noting f row).Ends (noted, s) u (noted ++ [row], s') := by
  obtain ⟨hanswer, rfl⟩ := h
  exact ⟨hanswer, rfl⟩

/-- Noting the rows changes nothing when the callback fails, and the row it fails on is noted. -/
theorem fails_noting {e : Error} (h : (f row).Fails s e s') :
    (noting f row).Fails (noted, s) e (noted ++ [row], s') := by
  obtain ⟨hanswer, rfl⟩ := h
  exact ⟨hanswer, rfl⟩

/-- The rows of calls that end are noted, each once and in order. -/
theorem ends_forM_noting : ∀ {rows noted : List (Row κ ρ)} {s s' : σ} {u : Unit},
    (rows.forM f).Ends s u s' → (rows.forM (noting f)).Ends (noted, s) u (noted ++ rows, s')
  | [], noted, s, s', u, h => by
    obtain ⟨hu, rfl⟩ := Step.ends_pure.mp h
    rw [List.append_nil]
    exact Step.ends_pure.mpr ⟨hu, rfl⟩
  | row :: rows, noted, s, s', u, h => by
    obtain ⟨_, s₁, hrow, hrows⟩ := Step.ends_bind.mp h
    have hrest : (rows.forM (noting f)).Ends (noted ++ [row], s₁) u (noted ++ [row] ++ rows, s') :=
      ends_forM_noting hrows
    rw [List.append_assoc, List.singleton_append] at hrest
    exact Step.ends_bind.mpr ⟨(), _, ends_noting hrow, hrest⟩

/-- And so is the row of the first call that fails. -/
theorem fails_forM_noting {front back : List (Row κ ρ)} {e : Error} {s₁ : σ}
    (hfront : (front.forM f).Ends s () s₁) (hrow : (f row).Fails s₁ e s') :
    ((front ++ row :: back).forM (noting f)).Fails (noted, s) e (noted ++ front ++ [row], s') := by
  rw [List.forM_eq_forM, List.forM_append]
  refine Step.fails_bind.mpr (.inr ⟨(), _, ends_forM_noting hfront, ?_⟩)
  exact Step.fails_bind.mpr (.inl (fails_noting hrow))

end Noting

section Modes

variable [CustomKind κ] {s : Store} {t : RecordType κ ρ} {b : Buckets} {q : Query κ ρ}
  {rows : List (Row κ ρ)}

/-- A search that succeeds delivers the rows of `find`, whatever the sink. -/
theorem alike_ask (h : (s.find t b q).result = .ok rows) (sink : Sink σ κ ρ) (x : σ) :
    (s.ask t b q sink).Alike (View.deliver sink rows) x :=
  View.alike_run (v := s.view t b) h sink x

/-- `count` is the number of rows that `find` returns. -/
theorem count_of_find (h : (s.find t b q).result = .ok rows) :
    (s.count t b q).result = .ok rows.length :=
  ((alike_ask h countOnly ()).ends_iff.mpr (View.ends_deliver_countOnly rows)).1

theorem alike_forEach (h : (s.find t b q).result = .ok rows) (f : Row κ ρ → Step σ Unit) (x : σ) :
    (s.forEach t b q f).Alike (rows.forM f) x :=
  ((alike_ask h _ x).bind fun _ _ _ => .refl _ _).trans (View.alike_deliver_forM f rows x)

/-- `findOne` returns the first row of `find`, and refuses an empty result. -/
theorem findOne_of_find (h : (s.find t b q).result = .ok rows) :
    (s.findOne t b q).result = match rows.head? with
      | some row => .ok row
      | none => .error (.notFound (t.name ++ " matching " ++ q.text)) := by
  obtain ⟨n, hfirst⟩ := View.exists_deliver_keepFirst rows
  have hask := (alike_ask h keepFirst none).ends_iff.mpr hfirst
  unfold Step.Ends at hask
  unfold findOne
  rcases hanswer : s.ask t b q keepFirst none with ⟨⟨r, events⟩, first⟩
  rw [hanswer] at hask
  obtain ⟨rfl, rfl⟩ : r = .ok n ∧ first = rows.head? := hask
  cases rows <;> rfl

/-- Let `find` answer some rows. Then `count` answers their number. `forEach` does what calling `f` on
each of them does: if no call fails then `f` is called on all rows, each once and in order, and if one
fails then on the rows up to it and no further, and its error is the answer. `findOne` answers the first
row, and says that there is none if there are no rows. -/
theorem find_modes (h : (s.find t b q).result = .ok rows) :
    (s.count t b q).result = .ok rows.length ∧
    (∀ (σ : Type) (f : Row κ ρ → Step σ Unit) (x : σ),
      (s.forEach t b q f).Alike (rows.forM f) x ∧
      ((∀ row ∈ rows, ∀ y, ∃ y', (f row).Ends y () y') →
        ∃ x', (s.forEach t b q (noting f)).Ends ([], x) () (rows, x')) ∧
      ∀ front row back y y' e, rows = front ++ row :: back → (front.forM f).Ends x () y →
        (f row).Fails y e y' →
          (s.forEach t b q (noting f)).Fails ([], x) e (front ++ [row], y')) ∧
    (s.findOne t b q).result = match rows.head? with
      | some row => .ok row
      | none => .error (.notFound (t.name ++ " matching " ++ q.text)) := by
  refine ⟨count_of_find h, fun σ f x => ⟨alike_forEach h f x, fun hf => ?_, ?_⟩, findOne_of_find h⟩
  · obtain ⟨x', hends, -⟩ := Step.exists_forM (l := rows) (s := x) (P := fun _ => True)
      (fun row hrow y _ => (hf row hrow y).imp fun y' hy' => ⟨hy', trivial⟩) trivial
    exact ⟨x', (alike_forEach h (noting f) ([], x)).ends_iff.mpr (ends_forM_noting hends)⟩
  · rintro front row back y y' e rfl hfront hrow
    obtain ⟨hanswer, hafter⟩ := alike_forEach h (noting f) ([], x)
    obtain ⟨hfails, hnoted⟩ : ((front ++ row :: back).forM (noting f)).Fails ([], x) e
        (front ++ [row], y') := fails_forM_noting hfront hrow
    exact ⟨hanswer.trans hfails, hafter.trans hnoted⟩

end Modes

section Parcels

/-- Lets one row pass and fails at the next. -/
def failSecond (_ : Row Empty Bool) : Step Nat Unit := fun calls =>
  if calls = 1 then (.fail (.codec "full"), calls) else (pure (), calls + 1)

/-- Two parcels, as many as the limit allows: they are counted, the first one is found, and a callback
that fails at the second is not called again. -/
theorem find_modes_twoParcels :
    (standard.find parcels twoParcels { (.all : Query Empty Bool) with limit := some 2 }).result =
      .ok parcelRows ∧
    (standard.count parcels twoParcels { (.all : Query Empty Bool) with limit := some 2 }).result =
      .ok 2 ∧
    (standard.forEach parcels twoParcels { (.all : Query Empty Bool) with limit := some 2 }
      (noting failSecond)).Fails ([], 0) (.codec "full") (parcelRows, 1) ∧
    (standard.findOne parcels twoParcels { (.all : Query Empty Bool) with limit := some 2 }).result =
      .ok ⟨.int 3, true, Keycode.encode (.uint 3 : Value Empty)⟩ := by
  have hfind := (find_window rfl rfl find_twoParcels (some 0) (some 2)).1
  obtain ⟨hcount, hcalls, hfirst⟩ := find_modes hfind
  obtain ⟨-, -, hfails⟩ := hcalls Nat failSecond 0
  exact ⟨hfind, hcount, hfails [_] _ [] 1 1 _ rfl ⟨rfl, rfl⟩ ⟨rfl, rfl⟩, hfirst⟩

end Parcels

end Store

end RecordStore
