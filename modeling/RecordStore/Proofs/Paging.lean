import RecordStore.Proofs.FirstMatch
import RecordStore.Query.Clause

/-!
# Paging

What paging makes of the rows of a query is a window on them: the first ones are dropped, and of the
rest at most as many are kept as the limit allows (`find_window`). Paging has two implementations. If
the query orders its rows the window is cut out of the sorted list. If not, the delivery counts while
the terms are answered, and stops in the middle of a walk. That this is the same window rests on what
a walk does to a delivery being nothing but offering it rows, and the rows that are offered depending
on the keys seen so far and on nothing else (`Offers`): a row that is skipped is seen like any other.
So the rows of the unpaged run can be offered again to a delivery that counts.
-/

namespace RecordStore

/-- The part of a list that paging leaves. -/
def window {α : Type} (skip : Nat) (limit : Option Nat) (l : List α) : List α :=
  match limit with
  | some limit => (l.drop skip).take limit
  | none => l.drop skip

namespace Delivery

variable {σ κ ρ : Type}

/-! ## Offering rows -/

/-- Offers rows one after the other until no more are wanted. -/
def offerAll (sink : Sink σ κ ρ) : List (Row κ ρ) → Step (Delivery σ) Demand
  | [] => pure .more
  | row :: rows => do
    match ← offer sink row with
    | .enough => pure .enough
    | .more => offerAll sink rows

/-- The keys in mind after rows were selected. -/
def seenAfter (seen : Option (List Bytes)) (rows : List (Row κ ρ)) : Option (List Bytes) :=
  seen.map (rows.foldl fun keys row => row.rawKey :: keys)

theorem seenAfter_append (seen : Option (List Bytes)) (rows rows' : List (Row κ ρ)) :
    seenAfter seen (rows ++ rows') = seenAfter (seenAfter seen rows) rows' := by
  cases seen with
  | none => rfl
  | some keys => exact congrArg some List.foldl_append

/-- A row that is offered is seen, whatever the sink makes of it. -/
theorem seen_offer {sink : Sink σ κ ρ} {row : Row κ ρ} {d d' : Delivery σ} {demand : Demand}
    (h : (offer sink row).Ends d demand d') : d'.seen = seenAfter d.seen [row] := by
  obtain ⟨-, rfl⟩ := h
  unfold offer
  dsimp only [mark]
  split
  next => rfl
  next =>
    split
    next => rfl
    next => rfl

/-- A delivery that asks for more after all rows has seen each of them. -/
theorem seen_offerAll {sink : Sink σ κ ρ} : ∀ {rows : List (Row κ ρ)} {d d' : Delivery σ},
    (offerAll sink rows).Ends d .more d' → d'.seen = seenAfter d.seen rows
  | [], d, d', h => by
    obtain ⟨-, rfl⟩ := Step.ends_pure.mp h
    unfold seenAfter
    cases d'.seen <;> rfl
  | row :: rows, d, d', h => by
    rw [offerAll, Step.ends_bind] at h
    obtain ⟨demand, d₁, hoffer, h⟩ := h
    cases demand with
    | enough => cases (Step.ends_pure.mp h).1
    | more =>
      rw [seen_offerAll h, seen_offer hoffer, ← seenAfter_append]
      rfl

/-- Offering two lists is offering the second one where the first has been taken. -/
theorem offerAll_append (sink : Sink σ κ ρ) (rows rows' : List (Row κ ρ)) :
    offerAll sink (rows ++ rows') = (do
      match ← offerAll sink rows with
      | .enough => pure .enough
      | .more => offerAll sink rows') := by
  induction rows with
  | nil =>
    rw [List.nil_append, offerAll, pure_bind]
  | cons row rows ih =>
    rw [List.cons_append, offerAll, offerAll, bind_assoc]
    refine bind_congr fun demand => ?_
    cases demand with
    | enough =>
      show pure Demand.enough = pure Demand.enough >>= _
      rw [pure_bind]
    | more => exact ih

/-- Work on a delivery that, whatever the sink and the paging are, offers these rows: to every
delivery with the same keys in mind, as long as it asks for more rows than these only if `demand`
says that the work is done with them. -/
def Offers (work : (τ : Type) → Sink τ κ ρ → Step (Delivery τ) Demand)
    (seen : Option (List Bytes)) (demand : Demand) (rows : List (Row κ ρ)) : Prop :=
  ∀ (τ : Type) (sink : Sink τ κ ρ) (d : Delivery τ), d.seen = seen →
    (demand = .more ∨ ∀ d', ¬(offerAll sink rows).Ends d .more d') →
    (work τ sink).Alike (offerAll sink rows) d

section Offers

variable {work work' : (τ : Type) → Sink τ κ ρ → Step (Delivery τ) Demand}
  {seen : Option (List Bytes)} {demand : Demand} {rows rows' : List (Row κ ρ)}

/-- Offering one row is the delivery of that row alone. -/
theorem offers_offer (row : Row κ ρ) : Offers (fun _ sink => offer sink row) seen demand [row] := by
  intro τ sink d _ _
  have hoffer : offerAll sink [row] = offer sink row := by
    rw [offerAll]
    refine (bind_congr fun demand => ?_).trans (bind_pure _)
    cases demand <;> rfl
  rw [hoffer]
  exact .refl _ _

/-- Steps that behave alike on every delivery with the keys seen offer the same rows. -/
theorem Offers.congr (h : Offers work seen demand rows)
    (hwork : ∀ (τ : Type) (sink : Sink τ κ ρ) (d : Delivery τ), d.seen = seen →
      (work' τ sink).Alike (work τ sink) d) : Offers work' seen demand rows :=
  fun τ sink d hseen hdemand => (hwork τ sink d hseen).trans (h τ sink d hseen hdemand)

/-- Work after work offers the rows of both. -/
theorem Offers.append (h : Offers work seen .more rows)
    (h' : Offers work' (seenAfter seen rows) demand rows') :
    Offers (fun τ sink => do
      match ← work τ sink with
      | .enough => pure .enough
      | .more => work' τ sink) seen demand (rows ++ rows') := by
  intro τ sink d hseen hdemand
  rw [offerAll_append] at hdemand ⊢
  refine (h τ sink d hseen (.inl rfl)).bind fun demand₁ d₁ h₁ => ?_
  cases demand₁ with
  | enough => exact .refl _ _
  | more =>
    refine h' τ sink d₁ (by rw [seen_offerAll h₁, hseen]) (hdemand.imp_right fun hnever d' hends => ?_)
    exact hnever d' (Step.ends_bind.mpr ⟨.more, d₁, h₁, hends⟩)

/-- Work that is done before the rows are used up keeps later work from its turn. -/
theorem Offers.last (h : Offers work seen .enough rows) :
    Offers (fun τ sink => do
      match ← work τ sink with
      | .enough => pure .enough
      | .more => work' τ sink) seen .enough rows := by
  intro τ sink d hseen hdemand
  have hnever := hdemand.resolve_left Demand.noConfusion
  have hall : offerAll sink rows = (do
      match ← offerAll sink rows with
      | .enough => pure .enough
      | .more => pure .more) := by
    refine ((bind_congr fun demand => ?_).trans (bind_pure _)).symm
    cases demand <;> rfl
  rw [hall]
  refine (h τ sink d hseen hdemand).bind fun demand₁ d₁ h₁ => ?_
  cases demand₁ with
  | enough => exact .refl _ _
  | more => exact absurd h₁ (hnever d₁)

end Offers

/-- A delivery that counts takes the window on the rows that are offered to it, unless it wants none
at all. Without a limit it wants more in the end. -/
theorem exists_offerAll_window : ∀ (rows : List (Row κ ρ)) (d : Delivery (List (Row κ ρ))),
    d.remaining ≠ some 0 → ∃ demand d', (offerAll View.keepRow rows).Ends d demand d' ∧
      d'.inner.reverse = d.inner.reverse ++ window d.skip d.remaining rows ∧
      (d.remaining = none → demand = .more)
  | [], d, _ => by
    refine ⟨.more, d, Step.ends_pure.mpr ⟨rfl, rfl⟩, ?_, fun _ => rfl⟩
    unfold window
    cases d.remaining <;> simp
  | row :: rows, ⟨seen, skip, remaining, delivered, inner⟩, hwants => by
    -- If more is wanted after the row then the rows behind it are offered to what is left.
    have hgo : ∀ (skip' : Nat) (remaining' : Option Nat) (delivered' : Nat)
        (inner' : List (Row κ ρ)),
        (offer View.keepRow row).Ends ⟨seen, skip, remaining, delivered, inner⟩ .more
          ⟨seen.map (row.rawKey :: ·), skip', remaining', delivered', inner'⟩ →
        remaining' ≠ some 0 → (remaining = none → remaining' = none) →
        inner'.reverse ++ window skip' remaining' rows =
          inner.reverse ++ window skip remaining (row :: rows) →
        ∃ demand d', (offerAll View.keepRow (row :: rows)).Ends
            ⟨seen, skip, remaining, delivered, inner⟩ demand d' ∧
          d'.inner.reverse = inner.reverse ++ window skip remaining (row :: rows) ∧
          (remaining = none → demand = .more) := by
      intro skip' remaining' delivered' inner' hoffer hwants' hnone hwindow
      obtain ⟨demand, d', hends, hinner, hmore⟩ := exists_offerAll_window rows
        ⟨seen.map (row.rawKey :: ·), skip', remaining', delivered', inner'⟩ hwants'
      refine ⟨demand, d', ?_, hinner.trans hwindow, fun h => hmore (hnone h)⟩
      rw [offerAll, Step.ends_bind]
      exact ⟨.more, _, hoffer, hends⟩
    cases skip with
    | succ skip =>
      refine hgo skip remaining delivered inner ?_ hwants id ?_
      · rw [View.ends_offer_keepRow, if_pos (Nat.succ_pos _)]
        exact ⟨rfl, rfl⟩
      · cases remaining <;> rfl
    | zero =>
      match remaining, hwants with
      | none, _ =>
        refine hgo 0 none (delivered + 1) (row :: inner) ?_ (by simp) id ?_
        · rw [View.ends_offer_keepRow, if_neg (Nat.lt_irrefl 0)]
          exact ⟨rfl, rfl⟩
        · simp [window]
      | some (n + 2), _ =>
        refine hgo 0 (some (n + 1)) (delivered + 1) (row :: inner) ?_ (by simp) (by simp) ?_
        · rw [View.ends_offer_keepRow, if_neg (Nat.lt_irrefl 0)]
          exact ⟨rfl, rfl⟩
        · simp [window]
      | some 1, _ =>
        -- It was the last row wanted.
        refine ⟨.enough, ⟨seen.map (row.rawKey :: ·), 0, some 0, delivered + 1, row :: inner⟩, ?_,
          by simp [window], by simp⟩
        rw [offerAll, Step.ends_bind]
        refine ⟨.enough, _, ?_, Step.ends_pure.mpr ⟨rfl, rfl⟩⟩
        rw [View.ends_offer_keepRow, if_neg (Nat.lt_irrefl 0)]
        exact ⟨rfl, rfl⟩
      | some 0, h => exact absurd rfl h

end Delivery

namespace View

variable {κ ρ : Type} [CustomKind κ] {v : View κ ρ} {t : Term κ ρ}

open Delivery (Offers offerAll seenAfter)

/-! ## A walk offers rows -/

section Walk

variable {plan : Plan} {σ : Type} {sink : Sink σ κ ρ} {c c' : Candidates κ ρ} {e : Entry}
  {events : List Event} {d : Delivery σ}

/-- A cursor that has ended without an error asks for more. -/
theorem alike_drain_none (hnext : c.next = (none, c', events)) (herror : c'.error = none) :
    (v.drain t plan sink c).Alike (pure .more) d := by
  rw [drain]
  split
  next c₁ events₁ hnext₁ =>
    rw [hnext] at hnext₁
    cases hnext₁
    rw [herror]
    exact Step.alike_bind_of_ends (Step.ends_liftTraced.mpr ⟨rfl, rfl⟩)
  next hnext₁ =>
    rw [hnext] at hnext₁
    cases hnext₁

/-- An entry whose key was delivered before is passed over. -/
theorem alike_drain_seen (hnext : c.next = (some e, c', events)) (hseen : d.hasSeen e.1 = true) :
    (v.drain t plan sink c).Alike (v.drain t plan sink c') d := by
  rw [drain]
  split
  next hnext₁ =>
    rw [hnext] at hnext₁
    cases hnext₁
  next rawKey bytes c₁ events₁ hnext₁ =>
    rw [hnext] at hnext₁
    cases hnext₁
    refine (Step.alike_bind_of_ends (Step.ends_liftTraced.mpr ⟨rfl, rfl⟩)).trans ?_
    refine (Step.alike_bind_of_ends (Step.ends_get.mpr ⟨rfl, rfl⟩)).trans ?_
    rw [if_pos hseen]
    exact .refl _ _

/-- A new entry is decoded and tested, then offered if it meets the term, before the drain goes on. -/
theorem alike_drain_new {key : Value κ} {record : ρ} {met : Bool}
    (hnext : c.next = (some e, c', events)) (hnew : ¬d.hasSeen e.1 = true)
    (hkey : Keycode.decode e.1 = .ok key) (hrecord : v.decode e.2 = .ok record)
    (hmet : (v.meets plan key record (c'.takeUnchecked e.1).1 t.criteria.toList).result
      = .ok met) :
    (v.drain t plan sink c).Alike
      (if met then do
        match ← Delivery.offer sink ⟨key, record, e.1⟩ with
        | .enough => pure .enough
        | .more => v.drain t plan sink (c'.takeUnchecked e.1).2
      else v.drain t plan sink (c'.takeUnchecked e.1).2) d := by
  rw [drain]
  split
  next hnext₁ =>
    rw [hnext] at hnext₁
    cases hnext₁
  next rawKey bytes c₁ events₁ hnext₁ =>
    rw [hnext] at hnext₁
    cases hnext₁
    refine (Step.alike_bind_of_ends (Step.ends_liftTraced.mpr ⟨rfl, rfl⟩)).trans ?_
    refine (Step.alike_bind_of_ends (Step.ends_get.mpr ⟨rfl, rfl⟩)).trans ?_
    rw [if_neg hnew]
    refine (Step.alike_bind_of_ends (Step.ends_liftExcept.mpr ⟨hkey, rfl⟩)).trans ?_
    refine (Step.alike_bind_of_ends (Step.ends_liftExcept.mpr ⟨hrecord, rfl⟩)).trans ?_
    exact Step.alike_bind_of_ends (Step.ends_liftTraced.mpr ⟨hmet, rfl⟩)

end Walk

/-- Going through candidates is offering rows. -/
theorem offers_drain {σ : Type} {taker : Sink σ κ ρ} {plan : Plan} :
    ∀ {c : Candidates κ ρ} {d d' : Delivery σ} {demand : Demand},
    (v.drain t plan taker c).Ends d demand d' →
    ∃ rows, (offerAll taker rows).Ends d demand d' ∧
      Offers (fun _ sink => v.drain t plan sink c) d.seen demand rows
  | c, d, d', demand, h => by
    -- All that matters of another delivery is which keys it has seen.
    have hsameSeen : ∀ {τ : Type} {d₂ : Delivery τ} (key : Bytes), d₂.seen = d.seen →
        d₂.hasSeen key = d.hasSeen key := by
      intro τ d₂ key hseen
      unfold Delivery.hasSeen
      rw [hseen]
    match hnext : c.next with
    | (none, c', events) =>
      obtain ⟨herror, rfl, rfl⟩ := (ends_drain_none hnext).mp h
      refine ⟨[], Step.ends_pure.mpr ⟨rfl, rfl⟩, fun τ sink d₂ _ _ => ?_⟩
      exact alike_drain_none hnext herror
    | (some e, c', events) =>
      have hdecreases := Candidates.next_decreases hnext
      rw [ends_drain_some hnext] at h
      split at h
      next hseen =>
        obtain ⟨rows, hrows, hoffers⟩ := offers_drain h
        refine ⟨rows, hrows, hoffers.congr fun τ sink d₂ hseen₂ => ?_⟩
        exact alike_drain_seen hnext ((hsameSeen _ hseen₂).trans hseen)
      next hnew =>
        have hnew₂ : ∀ {τ : Type} {d₂ : Delivery τ}, d₂.seen = d.seen → ¬d₂.hasSeen e.1 = true := by
          intro τ d₂ hseen₂
          rw [hsameSeen _ hseen₂]
          exact hnew
        rcases h with ⟨hlast, rfl⟩ | ⟨d₁, h₁, h⟩
        · -- The row of this candidate is the last one wanted.
          rw [ends_consider, if_neg hnew] at hlast
          obtain ⟨key, record, met, hkey, hrecord, hmet, hlast⟩ := hlast
          cases met with
          | false => cases hlast.1
          | true =>
            refine ⟨[⟨key, record, e.1⟩], ?_, ?_⟩
            · rw [offerAll, Step.ends_bind]
              exact ⟨.enough, d', hlast, Step.ends_pure.mpr ⟨rfl, rfl⟩⟩
            · have hoffers : Offers (fun _ sink => do
                  match ← Delivery.offer sink ⟨key, record, e.1⟩ with
                  | .enough => pure .enough
                  | .more => v.drain t plan sink (c'.takeUnchecked e.1).2)
                  d.seen .enough [⟨key, record, e.1⟩] := (Delivery.offers_offer _).last
              refine hoffers.congr fun τ sink d₂ hseen₂ => ?_
              exact alike_drain_new hnext (hnew₂ hseen₂) hkey hrecord hmet
        -- The drain goes on, with one row more if the candidate meets the term.
        · obtain ⟨rows, hrows, hoffers⟩ := offers_drain h
          rw [ends_consider, if_neg hnew] at h₁
          obtain ⟨key, record, met, hkey, hrecord, hmet, h₁⟩ := h₁
          cases met with
          | false =>
            obtain ⟨-, rfl⟩ := h₁
            refine ⟨rows, hrows, hoffers.congr fun τ sink d₂ hseen₂ => ?_⟩
            exact alike_drain_new hnext (hnew₂ hseen₂) hkey hrecord hmet
          | true =>
            rw [if_pos rfl] at h₁
            refine ⟨[⟨key, record, e.1⟩] ++ rows, ?_, ?_⟩
            · rw [List.singleton_append, offerAll, Step.ends_bind]
              exact ⟨.more, d₁, h₁, hrows⟩
            · rw [Delivery.seen_offer h₁] at hoffers
              refine ((Delivery.offers_offer _).append hoffers).congr fun τ sink d₂ hseen₂ => ?_
              exact alike_drain_new hnext (hnew₂ hseen₂) hkey hrecord hmet
  termination_by c => (c.ahead.length, c.cache.length)
  decreasing_by
    all_goals exact hdecreases

/-- Once the checks and the plan have passed, a term drains its candidates if its bucket exists. -/
theorem alike_answerTerm {σ : Type} {sink : Sink σ κ ρ} {d : Delivery σ} {plan : Plan}
    (hcheck : v.checkFields t = .ok ()) (hplan : v.plan t = .ok plan) :
    (v.answerTerm sink t).Alike
      (if v.buckets.has v.typeName then v.drain t plan sink (v.candidates plan t)
        else pure .more) d := by
  unfold answerTerm
  refine (Step.alike_bind_of_ends (Step.ends_liftExcept.mpr ⟨hcheck, rfl⟩)).trans ?_
  refine (Step.alike_bind_of_ends (Step.ends_liftExcept.mpr ⟨hplan, rfl⟩)).trans ?_
  refine (Step.alike_bind_of_ends (Step.ends_liftTraced (m := .report _).mpr ⟨rfl, rfl⟩)).trans ?_
  by_cases hbad : plan.badIndex = true
  · rw [if_pos hbad]
    exact Step.alike_bind_of_ends (Step.ends_liftTraced (m := .report _).mpr ⟨rfl, rfl⟩)
  · rw [if_neg hbad]
    exact .refl _ _

/-- A term that ends has offered a list of rows that no other sink could have changed. -/
theorem offers_answerTerm {σ : Type} {taker : Sink σ κ ρ} {d d' : Delivery σ} {demand : Demand}
    (h : (v.answerTerm taker t).Ends d demand d') :
    ∃ rows, (offerAll taker rows).Ends d demand d' ∧
      Offers (fun _ sink => v.answerTerm sink t) d.seen demand rows := by
  obtain ⟨hcheck, plan, hplan, h⟩ := ends_answerTerm.mp h
  have halike : ∀ (τ : Type) (sink : Sink τ κ ρ) (d : Delivery τ),
      (v.answerTerm sink t).Alike
        (if v.buckets.has v.typeName then v.drain t plan sink (v.candidates plan t)
          else pure .more) d :=
    fun _ _ _ => alike_answerTerm hcheck hplan
  split at h
  next hhas =>
    simp only [if_pos hhas] at halike
    obtain ⟨rows, hrows, hoffers⟩ := offers_drain h
    exact ⟨rows, hrows, hoffers.congr fun τ sink d₂ _ => halike τ sink d₂⟩
  next hhas =>
    simp only [if_neg hhas] at halike
    obtain ⟨rfl, rfl⟩ := h
    exact ⟨[], Step.ends_pure.mpr ⟨rfl, rfl⟩, fun τ sink d₂ _ _ => halike τ sink d₂⟩

/-- Answering terms one after the other is offering the rows of all of them. -/
theorem offers_answerTerms {σ : Type} {taker : Sink σ κ ρ} :
    ∀ {terms : List (Term κ ρ)} {d d' : Delivery σ} {demand : Demand},
    (v.answerTerms taker terms).Ends d demand d' →
    ∃ rows, (offerAll taker rows).Ends d demand d' ∧
      Offers (fun _ sink => v.answerTerms sink terms) d.seen demand rows
  | [], d, d', demand, h => ⟨[], h, fun _ _ _ _ _ => .refl _ _⟩
  | t :: terms, d, d', demand, h => by
    rw [answerTerms, Step.ends_bind] at h
    obtain ⟨demand₁, d₁, h₁, h⟩ := h
    obtain ⟨rows, hrows, hoffers⟩ := offers_answerTerm h₁
    cases demand₁ with
    | enough =>
      obtain ⟨rfl, rfl⟩ := Step.ends_pure.mp h
      exact ⟨rows, hrows, hoffers.last⟩
    | more =>
      obtain ⟨rows', hrows', hoffers'⟩ := offers_answerTerms h
      rw [Delivery.seen_offerAll hrows] at hoffers'
      refine ⟨rows ++ rows', ?_, hoffers.append hoffers'⟩
      rw [Delivery.offerAll_append, Step.ends_bind]
      exact ⟨.more, d₁, hrows, hrows'⟩

/-! ## Queries with paging -/

/-- The delivery that a query starts with. -/
def start (q : Query κ ρ) (skip : Nat) (limit : Option Nat) : Delivery (List (Row κ ρ)) :=
  ⟨if q.hasBranches then some [] else none, skip, limit, 0, []⟩

omit [CustomKind κ] in
theorem exists_deliver_keepRow : ∀ (rows kept : List (Row κ ρ)),
    ∃ n, (deliver keepRow rows).Ends kept n (rows.reverse ++ kept)
  | [], kept => ⟨0, Step.ends_pure.mpr ⟨rfl, rfl⟩⟩
  | row :: rows, kept => by
    obtain ⟨n, h⟩ := exists_deliver_keepRow rows (row :: kept)
    refine ⟨n + 1, ?_⟩
    rw [deliver, Step.ends_bind, List.reverse_cons, List.append_assoc]
    refine ⟨.more, row :: kept, ⟨rfl, rfl⟩, ?_⟩
    exact h.bind_pure _

omit [CustomKind κ] in
/-- Handing rows over from the start keeps just them. -/
theorem deliver_eq_ok {rows rows' : List (Row κ ρ)} :
    (∃ n kept, (deliver keepRow rows).Ends [] n kept ∧ kept.reverse = rows') ↔ rows' = rows := by
  constructor
  · intro h
    obtain ⟨n, kept, h, rfl⟩ := h
    rw [ends_deliver_keepRow h, List.append_nil, List.reverse_reverse]
  · intro h
    obtain ⟨n, hends⟩ := exists_deliver_keepRow rows []
    exact ⟨n, _, hends, by rw [h, List.append_nil, List.reverse_reverse]⟩

/-- The delivery that the terms of a query are answered to. If the query orders its rows then paging has
to wait. -/
def opening (q : Query κ ρ) : Delivery (List (Row κ ρ)) :=
  if q.isOrdered then start q 0 none else start q q.skip q.limit

omit [CustomKind κ] in
/-- All rows are wanted if they are ordered, or if there is no limit. -/
theorem remaining_opening {q : Query κ ρ} (h : q.isOrdered = true ∨ q.limit = none) :
    (opening q).remaining = none := by
  unfold opening
  split
  next => rfl
  next hunordered => exact h.resolve_left hunordered

omit [CustomKind κ] in
theorem opening_of_unpaged {q : Query κ ρ} (hskip : q.skip = 0) (hlimit : q.limit = none) :
    opening q = start q 0 none := by
  unfold opening
  rw [hskip, hlimit, ite_self]

/-- What is made of the rows that the terms have delivered. -/
def closing (v : View κ ρ) (q : Query κ ρ) (found : List (Row κ ρ)) :
    Except Error (List (Row κ ρ)) :=
  if q.isOrdered then
    (Row.sort v.type.schema q.sort q.reverse found).map (window q.skip q.limit)
  else .ok found

/-- How the rows of a query come about. A limit of zero only asks for the terms to be planned. -/
theorem rows_iff {q : Query κ ρ} {rows : List (Row κ ρ)} :
    (v.rows q).result = .ok rows ↔
      if q.limit = some 0 then v.planAll q.terms = .ok () ∧ rows = []
      else ∃ demand d, (v.answerTerms keepRow q.terms).Ends (opening q) demand d ∧
        v.closing q d.inner.reverse = .ok rows := by
  rw [rows_eq_ok]
  by_cases hzero : q.limit = some 0
  · rw [run_of_zero _ hzero, if_pos hzero]
    simp only [Step.ends_liftExcept_bind, Step.ends_pure]
    constructor
    · intro h
      obtain ⟨n, kept, ⟨_, hplan, -, rfl⟩, rfl⟩ := h
      exact ⟨hplan, rfl⟩
    · intro h
      obtain ⟨hplan, rfl⟩ := h
      exact ⟨0, [], ⟨(), hplan, rfl, rfl⟩, rfl⟩
  rw [if_neg hzero]
  unfold opening closing
  cases hordered : q.isOrdered with
  | true =>
    -- All rows are collected first; sorting and paging are the closing.
    rw [run_of_ordered _ hzero hordered]
    simp only [if_true]
    constructor
    · intro h
      obtain ⟨n, kept, hrun, hkept⟩ := h
      obtain ⟨found, hfound, hsort⟩ := Step.ends_liftTraced_bind.mp hrun
      obtain ⟨sorted, hsorted, hdeliver⟩ := Step.ends_liftExcept_bind.mp hsort
      obtain ⟨m, kept₁, hselect, rfl⟩ := collect_eq_ok.mp hfound
      obtain ⟨demand, d, hterms, -, rfl⟩ := ends_select.mp hselect
      refine ⟨demand, d, hterms, ?_⟩
      rw [hsorted, deliver_eq_ok.mp ⟨n, kept, hdeliver, hkept⟩]
      rfl
    · intro h
      obtain ⟨demand, d, hterms, hclosing⟩ := h
      cases hsorted : Row.sort v.type.schema q.sort q.reverse d.inner.reverse with
      | error e =>
        rw [hsorted] at hclosing
        cases hclosing
      | ok sorted =>
        rw [hsorted] at hclosing
        cases hclosing
        obtain ⟨n, kept, hdeliver, hkept⟩ := deliver_eq_ok.mpr rfl
        refine ⟨n, kept, Step.ends_liftTraced_bind.mpr ⟨d.inner.reverse, ?_,
          Step.ends_liftExcept_bind.mpr ⟨sorted, hsorted, hdeliver⟩⟩, hkept⟩
        exact collect_eq_ok.mpr ⟨_, _, ends_select.mpr ⟨demand, d, hterms, rfl, rfl⟩, rfl⟩
  | false =>
    -- The delivery pages, and the closing has nothing left to do.
    rw [run_of_unordered _ hzero hordered]
    simp only [Bool.false_eq_true, if_false, Except.ok.injEq]
    constructor
    · intro h
      obtain ⟨n, kept, hselect, hkept⟩ := h
      obtain ⟨demand, d, hterms, -, rfl⟩ := ends_select.mp hselect
      exact ⟨demand, d, hterms, hkept⟩
    · intro h
      obtain ⟨demand, d, hterms, hrows⟩ := h
      exact ⟨_, _, ends_select.mpr ⟨demand, d, hterms, rfl, rfl⟩, hrows⟩

/-- If terms were answered to the end then each of them was checked and planned. -/
theorem planAll_of_answerTerms {σ : Type} {sink : Sink σ κ ρ} :
    ∀ {terms : List (Term κ ρ)} {d d' : Delivery σ},
      (v.answerTerms sink terms).Ends d .more d' → v.planAll terms = .ok ()
  | [], _, _, _ => rfl
  | t :: terms, d, d', h => by
    rw [answerTerms, Step.ends_bind] at h
    obtain ⟨demand, d₁, h₁, h⟩ := h
    cases demand with
    | enough => cases (Step.ends_pure.mp h).1
    | more =>
      obtain ⟨hcheck, plan, hplan, -⟩ := ends_answerTerm.mp h₁
      rw [planAll, hcheck, hplan]
      exact planAll_of_answerTerms h

/-- Terms that are answered to a delivery without a limit are answered to their end. -/
theorem more_of_answerTerms {terms : List (Term κ ρ)} {d d' : Delivery (List (Row κ ρ))}
    {demand : Demand} (hd : d.remaining = none)
    (h : (v.answerTerms keepRow terms).Ends d demand d') : demand = .more := by
  obtain ⟨rows, hrows, -⟩ := offers_answerTerms h
  obtain ⟨demand', d₁, hrows', -, hmore⟩ :=
    Delivery.exists_offerAll_window rows d (by simp [hd])
  rw [(hrows.unique hrows').1]
  exact hmore hd

/-- What was answered without paging is answered with paging, by a window on it. -/
theorem rows_window {q : Query κ ρ} {rows : List (Row κ ρ)} (hskip : q.skip = 0)
    (hlimit : q.limit = none) (h : (v.rows q).result = .ok rows) (skip : Nat)
    (limit : Option Nat) :
    (v.rows { q with skip, limit }).result = .ok (window skip limit rows) := by
  rw [rows_iff, hlimit, if_neg (by simp), opening_of_unpaged hskip hlimit] at h
  obtain ⟨demand, d, hterms, hclosing⟩ := h
  cases more_of_answerTerms rfl hterms
  rw [rows_iff]
  by_cases hzero : limit = some 0
  · rw [if_pos hzero, hzero]
    exact ⟨planAll_of_answerTerms hterms, List.take_zero (l := rows.drop skip)⟩
  rw [if_neg hzero]
  by_cases hordered : q.isOrdered = true
  · -- The window is cut out of the sorted rows.
    have hopening' : opening { q with skip, limit } = start q 0 none := if_pos hordered
    have hclosing' : v.closing { q with skip, limit } d.inner.reverse =
        (Row.sort v.type.schema q.sort q.reverse d.inner.reverse).map (window skip limit) :=
      if_pos hordered
    refine ⟨.more, d, ?_, ?_⟩
    · rw [hopening']
      exact hterms
    · unfold closing at hclosing
      rw [if_pos hordered] at hclosing
      rw [hclosing']
      cases hsorted : Row.sort v.type.schema q.sort q.reverse d.inner.reverse with
      | error e =>
        rw [hsorted] at hclosing
        cases hclosing
      | ok sorted =>
        rw [hsorted, hskip, hlimit] at hclosing
        cases hclosing
        rfl
  · -- The rows that were offered without paging are offered to a delivery that counts.
    unfold closing at hclosing
    rw [if_neg hordered, Except.ok.injEq] at hclosing
    obtain ⟨offered, hends, hoffers⟩ := offers_answerTerms hterms
    obtain ⟨demand', d', hends', hinner, -⟩ :=
      Delivery.exists_offerAll_window offered (start q 0 none) (by simp [start])
    obtain ⟨-, rfl⟩ := hends.unique hends'
    have hoffered : d.inner.reverse = offered := hinner
    rw [hoffered] at hclosing
    obtain ⟨demand₂, d₂, hends₂, hinner₂, -⟩ :=
      Delivery.exists_offerAll_window offered (start q skip limit) hzero
    have hopening' : opening { q with skip, limit } = start q skip limit := if_neg hordered
    have hclosing' : v.closing { q with skip, limit } d₂.inner.reverse = .ok d₂.inner.reverse :=
      if_neg hordered
    refine ⟨demand₂, d₂, ?_, ?_⟩
    · rw [hopening']
      exact (hoffers _ keepRow (start q skip limit) rfl (.inl rfl)).ends_iff.mpr hends₂
    · rw [hclosing', hinner₂, hclosing]
      rfl

end View

/-! ## Asking for a window -/

/-- Whether a clause sets paging. -/
def Clause.isPaging {κ ρ : Type} : Clause κ ρ → Bool
  | .skip _ | .limit _ => true
  | _ => false

namespace Query

variable {κ ρ : Type}

/-- The clauses that ask for a window, each of them only if it is set. -/
def windowClauses (skip limit : Option Nat) : List (Clause κ ρ) :=
  (skip.map Clause.skip).toList ++ (limit.map Clause.limit).toList

namespace Draft

theorem extend_append : ∀ (clauses clauses' : List (Clause κ ρ)) (d : Draft κ ρ),
    d.extend (clauses ++ clauses') = (d.extend clauses).extend clauses'
  | [], _, _ => by
    rw [List.nil_append, extend]
  | c :: clauses, clauses', d => by
    rw [List.cons_append, extend, extend]
    exact extend_append clauses clauses' _

end Draft

/-- No paging was set. -/
structure Node.Unpaged (n : Node κ ρ) : Prop where
  skip : n.skip = none
  limit : n.limit = none

namespace Node.Unpaged

variable {n : Node κ ρ}

/-- Recording a fault leaves the page clauses as they are. -/
theorem blame (h : n.Unpaged) (isFault : Bool) (f : Fault) : (n.blame isFault f).Unpaged := by
  unfold Node.blame
  cases isFault with
  | true => exact ⟨h.skip, h.limit⟩
  | false => exact h

theorem addSort (h : n.Unpaged) (field : String) : (n.addSort field).Unpaged := by
  unfold Node.addSort
  split
  next => exact h.blame true _
  next =>
    split
    next => exact h
    next => exact ⟨h.skip, h.limit⟩

theorem foldl_addSort : ∀ (fields : List String) {n : Node κ ρ}, n.Unpaged →
    (fields.foldl Node.addSort n).Unpaged
  | [], _, h => h
  | field :: fields, _, h => foldl_addSort fields (h.addSort field)

/-- Only paging clauses set paging. -/
theorem apply (h : n.Unpaged) {c : Clause κ ρ} (hc : c.isPaging = false) :
    (n.apply c).Unpaged := by
  cases c with
  | wherever field negations condition =>
    have hblame := h.blame (field = keyField && condition.isPredicate) .predicateOnKey
    exact ⟨hblame.skip, hblame.limit⟩
  | index name => exact ⟨h.skip, h.limit⟩
  | skip amount => cases hc
  | limit amount => cases hc
  | sortBy fields => exact foldl_addSort fields h
  | reverse => exact ⟨h.skip, h.limit⟩
  | or branch => exact h

end Node.Unpaged

namespace Draft

/-- An alternative leaves the node as it is, and any other clause is for the node alone. -/
theorem step_cases (c : Clause κ ρ) (node : Node κ ρ) (branches : List (Draft κ ρ)) :
    (∃ branches', step (.mk node branches) c = .mk node branches') ∨
      step (.mk node branches) c = .mk (node.apply c) branches := by
  cases c with
  | or branch => exact .inl ⟨_, rfl⟩
  | _ => exact .inr rfl

/-- A draft that is given no paging clause stays without paging. -/
theorem unpaged_extend : ∀ {clauses : List (Clause κ ρ)} {node : Node κ ρ}
    {branches : List (Draft κ ρ)}, node.Unpaged → (∀ c ∈ clauses, c.isPaging = false) →
    ∃ node' branches', extend (.mk node branches) clauses = .mk node' branches' ∧ node'.Unpaged
  | [], node, branches, h, _ => ⟨node, branches, by rw [extend], h⟩
  | c :: clauses, node, branches, h, hclauses => by
    obtain ⟨hc, hrest⟩ := List.forall_mem_cons.mp hclauses
    rw [extend]
    rcases step_cases c node branches with ⟨branches', hstep⟩ | hstep
    · rw [hstep]
      exact unpaged_extend h hrest
    · rw [hstep]
      exact unpaged_extend (h.apply hc) hrest

/-- The clauses that ask for a window set just that. -/
theorem extend_windowClauses {node : Node κ ρ} (h : node.Unpaged) (branches : List (Draft κ ρ))
    (skip limit : Option Nat) : extend (.mk node branches) (windowClauses skip limit) =
      .mk { node with skip, limit } branches := by
  obtain ⟨term, sort, reverse, skip', limit', fault⟩ := node
  obtain ⟨rfl, rfl⟩ : skip' = none ∧ limit' = none := ⟨h.skip, h.limit⟩
  cases skip <;> cases limit <;> rfl

end Draft

/-- A query that was built without paging can be built with it, and is otherwise the same. -/
theorem build_window {schema : Schema κ ρ} {clauses : List (Clause κ ρ)} {q : Query κ ρ}
    (hclauses : ∀ c ∈ clauses, c.isPaging = false) (h : build schema clauses = .ok q)
    (skip limit : Option Nat) :
    build schema (clauses ++ windowClauses skip limit) =
      .ok { q with skip := skip.getD 0, limit := limit } := by
  obtain ⟨node, branches, hdraft, hnode⟩ : ∃ node branches,
      Draft.extend (.mk .blank []) clauses = .mk node branches ∧ node.Unpaged :=
    Draft.unpaged_extend ⟨rfl, rfl⟩ hclauses
  -- The page clauses come last and change the root node only.
  have hdraft' : Draft.ofClauses (clauses ++ windowClauses skip limit) =
      .mk { node with skip, limit } branches := by
    unfold Draft.ofClauses
    rw [Draft.extend_append, hdraft, Draft.extend_windowClauses hnode]
  unfold build at h ⊢
  unfold Draft.ofClauses at h
  rw [hdraft] at h
  rw [hdraft']
  -- Finishing a draft looks at neither skip nor limit.
  have hfinish : finishDraft schema false (.mk { node with skip, limit } branches) =
      finishDraft schema false (.mk node branches) := by
    rw [finishDraft, finishDraft]
    rfl
  dsimp only at h ⊢
  rw [hfinish]
  cases hselection : finishDraft schema false (.mk node branches) with
  | error e =>
    rw [hselection] at h
    cases h
  | ok selection =>
    rw [hselection] at h
    cases h
    rfl

end Query

namespace Store

variable {κ ρ : Type} [CustomKind κ] {s : Store} {type : RecordType κ ρ} {b : Buckets}

/-- Paging is a window on the rows that the query has without it: so many are dropped, and of the rest
so many are kept. What is not set drops nothing and keeps everything. The clauses that ask for it change
nothing else about the query. -/
theorem find_window {q : Query κ ρ} {rows : List (Row κ ρ)} (hskip : q.skip = 0)
    (hlimit : q.limit = none) (h : (s.find type b q).result = .ok rows) (skip limit : Option Nat) :
    (s.find type b { q with skip := skip.getD 0, limit }).result =
        .ok (window (skip.getD 0) limit rows) ∧
      ∀ clauses, (∀ c ∈ clauses, c.isPaging = false) → Query.build type.schema clauses = .ok q →
        Query.build type.schema (clauses ++ Query.windowClauses skip limit) =
          .ok { q with skip := skip.getD 0, limit } := by
  constructor
  · exact View.rows_window hskip hlimit h (skip.getD 0) limit
  · intro clauses hclauses hbuild
    exact Query.build_window hclauses hbuild skip limit

section Parcels

/-- All parcels, those first that the index on their weight lists. -/
def weighedFirst : List (Clause Empty Bool) := [.index "weight", .or []]

theorem exists_weighedFirst : ∃ rows, (standard.find parcels halfWeighed
    (.ofSelection (.mk allByWeight [.mk Term.all []]))).result = .ok rows := by
  obtain ⟨hinted, hhinted⟩ := exists_byWeight_halfWeighed
  obtain ⟨plain, hplain⟩ : ∃ rows, (standard.find parcels halfWeighed (.ofSelection (.mk Term.all
      []))).result = .ok rows :=
    exists_plain (fun b => by cbv) (fun b => by cbv) (fun b => ⟨⟨_, by cbv⟩, ⟨_, by cbv⟩⟩)
      (fun b recheck => by cases recheck <;> exact ⟨⟨_, by cbv⟩, ⟨_, by cbv⟩⟩) entries_halfWeighed
  have hbranches : (Selection.mk allByWeight [.mk Term.all []]).branches ≠ [] :=
    List.cons_ne_nil _ _
  exact ⟨_, View.rows_alternatives hbranches (.cons hhinted (.cons hplain .nil))⟩

/-- The second of all parcels. The first one is found by both terms, and skipped once. -/
theorem find_window_halfWeighed : ∃ rows,
    (standard.find parcels halfWeighed
      (.ofSelection (.mk allByWeight [.mk Term.all []]))).result = .ok rows ∧
    (standard.find parcels halfWeighed
        ⟨.mk allByWeight [.mk Term.all []], [], false, 1, some 1⟩).result =
      .ok (window 1 (some 1) rows) ∧
    Query.build parcels.schema (weighedFirst ++ [.skip 1, .limit 1]) =
      .ok ⟨.mk allByWeight [.mk Term.all []], [], false, 1, some 1⟩ := by
  obtain ⟨rows, hrows⟩ := exists_weighedFirst
  obtain ⟨hfind, hbuild⟩ := find_window rfl rfl hrows (some 1) (some 1)
  exact ⟨rows, hrows, hfind, hbuild weighedFirst (by decide) rfl⟩

end Parcels

end Store

end RecordStore
