import RecordStore.Traced
import Mathlib

/-!
# How steps end

`m.Ends s a s'` says that the step `m`, begun in the state `s`, answers `a` and leaves the state `s'`
behind. What the events were is left open. A sequence ends well exactly when its parts do one after
the other (`ends_bind`), so a program is taken apart by rewriting, from its first step to its last.
`m.Fails s e s'` says the same of a step that ends in an error; a sequence fails in the first of its
parts that does (`fails_bind`). What holds of a state however a step goes on from there is what the
step `Keeps`.
-/

namespace RecordStore

/-- A sequence of answers is well exactly when both are. -/
theorem bind_eq_ok {ε α β : Type} {x : Except ε α} {f : α → Except ε β} {b : β} :
    (x >>= f) = .ok b ↔ ∃ a, x = .ok a ∧ f a = .ok b := by
  cases x with
  | error e => exact ⟨by rintro ⟨⟩, by rintro ⟨a, ⟨⟩, -⟩⟩
  | ok a =>
    constructor
    · intro h
      exact ⟨a, rfl, h⟩
    · rintro ⟨a', ha, h⟩
      cases ha
      exact h

namespace Traced

variable {α β : Type}

/-- The answer of a sequence is that of its second part, or the error of the first. -/
theorem result_bind (m : Traced α) (f : α → Traced β) :
    (m >>= f).result = m.result.bind fun a => (f a).result := by
  rcases m with ⟨r, events⟩
  cases r <;> rfl

/-- A sequence answers well exactly when both of its parts do. -/
@[simp] theorem result_bind_eq_ok {m : Traced α} {f : α → Traced β} {b : β} :
    (m >>= f).result = .ok b ↔ ∃ a, m.result = .ok a ∧ (f a).result = .ok b := by
  rw [result_bind]
  cases m.result <;> simp [Except.bind]

end Traced

namespace Step

universe u

variable {σ α β : Type}

/-- The step answers `a` from `s` and leaves `s'`. -/
def Ends (m : Step σ α) (s : σ) (a : α) (s' : σ) : Prop := (m s).1.result = .ok a ∧ (m s).2 = s'

/-- A step has one answer and leaves one state. -/
theorem Ends.unique {m : Step σ α} {s s' s'' : σ} {a a' : α} (h : m.Ends s a s')
    (h' : m.Ends s a' s'') : a = a' ∧ s' = s'' :=
  ⟨Except.ok.inj (h.1.symm.trans h'.1), h.2.symm.trans h'.2⟩

/-- What is made of the answer and the state that a step leaves. -/
theorem map_result_eq_ok {m : Step σ α} {s : σ} {f : α → σ → β} {b : β} :
    ((m s).1.result.map fun a => f a (m s).2) = .ok b ↔ ∃ a s', m.Ends s a s' ∧ f a s' = b := by
  unfold Ends
  rcases m s with ⟨⟨r, events⟩, s'⟩
  cases r with
  | error e => simp [Except.map]
  | ok a =>
    constructor
    · intro h
      exact ⟨a, s', ⟨rfl, rfl⟩, Except.ok.inj h⟩
    · rintro ⟨a', s'', ⟨ha, hs⟩, rfl⟩
      cases ha
      cases hs
      rfl

/-- A constant step ends with its constant and leaves the state alone. -/
@[simp] theorem ends_pure {s s' : σ} {a b : α} :
    (pure a : Step σ α).Ends s b s' ↔ b = a ∧ s' = s := by
  show (Except.ok a = Except.ok b ∧ s = s') ↔ _
  rw [Except.ok.injEq, eq_comm, @eq_comm _ s]

/-- A sequence ends well exactly when its parts do, the second where the first has ended. -/
@[simp] theorem ends_bind {m : Step σ α} {f : α → Step σ β} {s s' : σ} {b : β} :
    (m >>= f).Ends s b s' ↔ ∃ a t, m.Ends s a t ∧ (f a).Ends t b s' := by
  show (andThen m f s).1.result = _ ∧ (andThen m f s).2 = s' ↔ _
  unfold andThen Ends
  rcases m s with ⟨⟨r, events⟩, t⟩
  cases r with
  | error e => simp
  | ok a =>
    constructor
    · intro h
      exact ⟨a, t, ⟨rfl, rfl⟩, h⟩
    · rintro ⟨a', t', ⟨ha, rfl⟩, h⟩
      cases ha
      exact h

/-- A traced answer ends a step exactly if it is one, and leaves the state alone. -/
@[simp] theorem ends_ofTraced {m : Traced α} {s s' : σ} {a : α} :
    (ofTraced m).Ends s a s' ↔ m.result = .ok a ∧ s' = s := by
  show m.result = .ok a ∧ s = s' ↔ _
  rw [@eq_comm _ s]

@[simp] theorem ends_liftTraced {m : Traced α} {s s' : σ} {a : α} :
    (liftM m : Step σ α).Ends s a s' ↔ m.result = .ok a ∧ s' = s :=
  ends_ofTraced

@[simp] theorem ends_liftExcept {r : Except Error α} {s s' : σ} {a : α} :
    (liftM r : Step σ α).Ends s a s' ↔ r = .ok a ∧ s' = s :=
  ends_ofTraced (m := .ofExcept r)

@[simp] theorem ends_fail {e : Error} {s s' : σ} {a : α} : ¬(fail e : Step σ α).Ends s a s' := by
  rintro ⟨h, -⟩
  cases h

@[simp] theorem ends_get {s t s' : σ} : (get : Step σ σ).Ends s t s' ↔ t = s ∧ s' = s := by
  show Except.ok s = Except.ok t ∧ s = s' ↔ _
  rw [Except.ok.injEq, eq_comm, @eq_comm _ s]

@[simp] theorem ends_report {e : Event} {s s' : σ} {a : Unit} :
    (report e : Step σ Unit).Ends s a s' ↔ s' = s := by
  show Except.ok () = Except.ok a ∧ s = s' ↔ _
  simp [eq_comm]

theorem ends_get_bind {f : σ → Step σ β} {s s' : σ} {b : β} :
    (get >>= f).Ends s b s' ↔ (f s).Ends s b s' := by
  simp [and_assoc]

/-- A sequence that starts with an answer or an error goes on only with an answer. -/
theorem ends_liftExcept_bind {r : Except Error α} {f : α → Step σ β} {s s' : σ} {b : β} :
    (liftM r >>= f : Step σ β).Ends s b s' ↔ ∃ a, r = .ok a ∧ (f a).Ends s b s' := by
  simp [and_assoc]

/-- What comes of the answer at the end comes of the step. -/
theorem Ends.bind_pure {m : Step σ α} {s s' : σ} {a : α} (h : m.Ends s a s') (f : α → β) :
    (m >>= fun a => pure (f a)).Ends s (f a) s' :=
  ends_bind.mpr ⟨a, s', h, ends_pure.mpr ⟨rfl, rfl⟩⟩

/-- A sequence that starts with a traced answer goes on only if there is an answer. -/
theorem ends_liftTraced_bind {m : Traced α} {f : α → Step σ β} {s s' : σ} {b : β} :
    (liftM m >>= f : Step σ β).Ends s b s' ↔ ∃ a, m.result = .ok a ∧ (f a).Ends s b s' := by
  simp [and_assoc]

/-! ## Steps that answer alike -/

/-- Two steps answer alike from a state, well or not, and leave the same state. What events they
report is left open. -/
def Alike (m m' : Step σ α) (s : σ) : Prop :=
  (m s).1.result = (m' s).1.result ∧ (m s).2 = (m' s).2

theorem Alike.refl (m : Step σ α) (s : σ) : m.Alike m s := ⟨rfl, rfl⟩

theorem Alike.trans {m m' m'' : Step σ α} {s : σ} (h : m.Alike m' s) (h' : m'.Alike m'' s) :
    m.Alike m'' s :=
  ⟨h.1.trans h'.1, h.2.trans h'.2⟩

theorem Alike.ends_iff {m m' : Step σ α} {s s' : σ} {a : α} (h : m.Alike m' s) :
    m.Ends s a s' ↔ m'.Ends s a s' := by
  unfold Ends
  rw [h.1, h.2]

/-- Sequences answer alike if their first parts do, and their second parts where these end. -/
theorem Alike.bind {m m' : Step σ α} {f f' : α → Step σ β} {s : σ} (h : m.Alike m' s)
    (hf : ∀ a t, m'.Ends s a t → (f a).Alike (f' a) t) : (m >>= f).Alike (m' >>= f') s := by
  show (andThen m f s).1.result = (andThen m' f' s).1.result ∧
    (andThen m f s).2 = (andThen m' f' s).2
  unfold andThen
  unfold Alike at h
  unfold Ends at hf
  rcases hm : m s with ⟨⟨r, events⟩, t⟩
  rcases hm' : m' s with ⟨⟨r', events'⟩, t'⟩
  rw [hm, hm'] at h
  rw [hm'] at hf
  obtain ⟨rfl, rfl⟩ : r = r' ∧ t = t' := h
  cases r with
  | error e => exact ⟨rfl, rfl⟩
  | ok a => exact hf a t ⟨rfl, rfl⟩

/-- What only looks at the state can be left out. -/
theorem alike_bind_of_ends {m : Step σ α} {f : α → Step σ β} {s : σ} {a : α} (h : m.Ends s a s) :
    (m >>= f).Alike (f a) s := by
  show (andThen m f s).1.result = (f a s).1.result ∧ (andThen m f s).2 = (f a s).2
  unfold andThen
  unfold Ends at h
  rcases hm : m s with ⟨⟨r, events⟩, t⟩
  rw [hm] at h
  obtain ⟨rfl, rfl⟩ : r = .ok a ∧ t = s := h
  exact ⟨rfl, rfl⟩

/-! ## Failures -/

/-- The step fails from `s` with an error and leaves `s'`. -/
def Fails (m : Step σ α) (s : σ) (e : Error) (s' : σ) : Prop :=
  (m s).1.result = .error e ∧ (m s).2 = s'

@[simp] theorem fails_pure {s s' : σ} {a : α} {e : Error} : ¬(pure a : Step σ α).Fails s e s' := by
  rintro ⟨h, -⟩
  cases h

/-- A sequence fails if its first part does, or the second where the first has ended. -/
@[simp] theorem fails_bind {m : Step σ α} {f : α → Step σ β} {s s' : σ} {e : Error} :
    (m >>= f).Fails s e s' ↔ m.Fails s e s' ∨ ∃ a t, m.Ends s a t ∧ (f a).Fails t e s' := by
  show (andThen m f s).1.result = _ ∧ (andThen m f s).2 = s' ↔ _
  unfold andThen Fails Ends
  rcases m s with ⟨⟨r, events⟩, t⟩
  cases r with
  | error e' => simp
  | ok a =>
    constructor
    · intro h
      exact .inr ⟨a, t, ⟨rfl, rfl⟩, h⟩
    · rintro (⟨h, -⟩ | ⟨a', t', ⟨ha, rfl⟩, h⟩)
      · cases h
      · cases ha
        exact h

@[simp] theorem fails_fail {e e' : Error} {s s' : σ} :
    (fail e : Step σ α).Fails s e' s' ↔ e' = e ∧ s' = s := by
  show Except.error e = Except.error e' ∧ s = s' ↔ _
  rw [Except.error.injEq, eq_comm, @eq_comm _ s]

@[simp] theorem fails_get {s s' : σ} {e : Error} : ¬(get : Step σ σ).Fails s e s' := by
  rintro ⟨h, -⟩
  cases h

@[simp] theorem fails_liftExcept {r : Except Error α} {s s' : σ} {e : Error} :
    (liftM r : Step σ α).Fails s e s' ↔ r = .error e ∧ s' = s := by
  show r = .error e ∧ s = s' ↔ _
  rw [@eq_comm _ s]

theorem fails_get_bind {f : σ → Step σ β} {s s' : σ} {e : Error} :
    (get >>= f).Fails s e s' ↔ (f s).Fails s e s' := by
  simp [and_assoc]

/-- A sequence that starts with an answer or an error fails with that error, or later on. -/
theorem fails_liftExcept_bind {r : Except Error α} {f : α → Step σ β} {s s' : σ} {e : Error} :
    (liftM r >>= f : Step σ β).Fails s e s' ↔
      r = .error e ∧ s' = s ∨ ∃ a, r = .ok a ∧ (f a).Fails s e s' := by
  simp [and_assoc]

/-- What is made of the answer does not fail. -/
theorem fails_bind_pure {m : Step σ α} {f : α → β} {s s' : σ} {e : Error} :
    (m >>= fun a => pure (f a)).Fails s e s' ↔ m.Fails s e s' := by
  rw [fails_bind]
  simp

/-! ## Loops -/

/-- What every part of a loop keeps, the loop keeps. -/
theorem forM_keeps {α : Type u} {f : α → Step σ Unit} {P : σ → Prop}
    (hf : ∀ a s u s', (f a).Ends s u s' → P s → P s') :
    ∀ (l : List α) {s s' : σ} {u : Unit}, (l.forM f).Ends s u s' → P s → P s'
  | [], s, s', u, h, hs => by
    have h : (pure () : Step σ Unit).Ends s u s' := h
    rw [ends_pure] at h
    exact h.2 ▸ hs
  | a :: l, s, s', u, h, hs => by
    have h : (f a >>= fun _ => l.forM f).Ends s u s' := h
    rw [ends_bind] at h
    obtain ⟨v, t, ha, hl⟩ := h
    exact forM_keeps hf l hl (hf a s v t ha hs)

/-- A loop ends if each of its parts ends where those before it have led. -/
theorem exists_forM {α : Type u} {f : α → Step σ Unit} {P : σ → Prop} :
    ∀ {l : List α} {s : σ}, (∀ a ∈ l, ∀ s, P s → ∃ s', (f a).Ends s () s' ∧ P s') → P s →
      ∃ s', (l.forM f).Ends s () s' ∧ P s'
  | [], s, _, hs => ⟨s, ends_pure.mpr ⟨rfl, rfl⟩, hs⟩
  | a :: l, s, hf, hs => by
    obtain ⟨t, ha, ht⟩ := hf a (List.mem_cons_self ..) s hs
    obtain ⟨s', hl, hs'⟩ := exists_forM (fun b hb => hf b (List.mem_cons_of_mem a hb)) ht
    exact ⟨s', ends_bind.mpr ⟨(), t, ha, hl⟩, hs'⟩

/-- Every part of a loop that ends has ended somewhere. -/
theorem exists_of_forM {α : Type u} {f : α → Step σ Unit} {a : α} :
    ∀ {l : List α} {s s' : σ} {u : Unit}, (l.forM f).Ends s u s' → a ∈ l →
      ∃ t v t', (f a).Ends t v t'
  | b :: l, s, s', u, h, ha => by
    have h : (f b >>= fun _ => l.forM f).Ends s u s' := h
    rw [ends_bind] at h
    obtain ⟨v, t, hb, hl⟩ := h
    rcases List.mem_cons.mp ha with rfl | ha
    · exact ⟨s, v, t, hb⟩
    · exact exists_of_forM hl ha

/-! ## What a step keeps -/

/-- A step ends or fails. -/
theorem ends_or_fails (m : Step σ α) (s : σ) : (∃ a, m.Ends s a (m.after s)) ∨
    ∃ e, m.Fails s e (m.after s) := by
  cases h : (m s).1.result with
  | ok a => exact .inl ⟨a, h, rfl⟩
  | error e => exact .inr ⟨e, h, rfl⟩

/-- A sequence leaves what its second part leaves, or its first where that fails. -/
theorem after_bind (m : Step σ α) (f : α → Step σ β) (s : σ) : (m >>= f).after s =
    match m.answer s with
    | .ok a => (f a).after (m.after s)
    | .error _ => m.after s := by
  show (andThen m f s).2 = _
  unfold andThen answer after
  rcases m s with ⟨⟨r, events⟩, t⟩
  cases r <;> rfl

/-- After a first part that ends, a sequence leaves what the second part leaves. -/
theorem after_bind_of_ends {m : Step σ α} {f : α → Step σ β} {s t : σ} {a : α} (h : m.Ends s a t) :
    (m >>= f).after s = (f a).after t := by
  rw [after_bind, answer, h.1, after, h.2]

theorem after_bind_of_fails {m : Step σ α} {f : α → Step σ β} {s t : σ} {e : Error}
    (h : m.Fails s e t) : (m >>= f).after s = t := by
  rw [after_bind, answer, h.1, after, h.2]

/-- After a first part that ends, a sequence answers what the second part answers. -/
theorem answer_bind_of_ends {m : Step σ α} {f : α → Step σ β} {s t : σ} {a : α} (h : m.Ends s a t) :
    (m >>= f).answer s = (f a).answer t := by
  show (andThen m f s).1.result = _
  unfold andThen answer
  unfold Ends at h
  rcases hm : m s with ⟨⟨r, events⟩, t'⟩
  rw [hm] at h
  obtain ⟨rfl, rfl⟩ : r = .ok a ∧ t' = t := h
  rfl

theorem answer_bind_of_fails {m : Step σ α} {f : α → Step σ β} {s t : σ} {e : Error}
    (h : m.Fails s e t) : (m >>= f).answer s = .error e := by
  show (andThen m f s).1.result = _
  unfold andThen
  unfold Fails at h
  rcases hm : m s with ⟨⟨r, events⟩, t'⟩
  rw [hm] at h
  obtain ⟨rfl, -⟩ : r = .error e ∧ t' = t := h
  rfl

/-- What is made of an answer does not change whether there is one. -/
theorem answer_bind_pure (m : Step σ α) (f : α → β) (s : σ) :
    (m >>= fun a => pure (f a)).answer s = (m.answer s).map f := by
  show (andThen m _ s).1.result = _
  unfold andThen answer
  rcases m s with ⟨⟨r, events⟩, t⟩
  cases r <;> rfl

/-- What is made of an answer does not change the state. -/
theorem after_bind_pure (m : Step σ α) (f : α → β) (s : σ) :
    (m >>= fun a => pure (f a)).after s = m.after s := by
  rw [after_bind]
  cases m.answer s <;> rfl

theorem after_get_bind (f : σ → Step σ β) (s : σ) : (get >>= f).after s = (f s).after s :=
  after_bind_of_ends (ends_get.mpr ⟨rfl, rfl⟩)

/-- An error at the start of a sequence leaves the state alone. -/
theorem after_liftExcept_bind (r : Except Error α) (f : α → Step σ β) (s : σ) :
    (liftM r >>= f : Step σ β).after s = match r with
      | .ok a => (f a).after s
      | .error _ => s :=
  after_bind _ f s

theorem after_liftTraced_bind (m : Traced α) (f : α → Step σ β) (s : σ) :
    (liftM m >>= f : Step σ β).after s = match m.result with
      | .ok a => (f a).after s
      | .error _ => s :=
  after_bind _ f s

/-- What holds of a state holds of the one that the step leaves, whether it ends or fails. -/
def Keeps (P : σ → Prop) (m : Step σ α) : Prop := ∀ s, P s → P (m.after s)

variable {P : σ → Prop}

/-- A step that leaves the state alone keeps every property of it. -/
theorem keeps_of_same {m : Step σ α} (h : ∀ s, m.after s = s) : Keeps P m := by
  intro s hs
  rwa [h]

theorem keeps_pure (a : α) : Keeps P (pure a) := keeps_of_same fun _ => rfl

theorem keeps_fail (e : Error) : Keeps P (fail e : Step σ α) := keeps_of_same fun _ => rfl

theorem keeps_get : Keeps P get := keeps_of_same fun _ => rfl

theorem keeps_report (e : Event) : Keeps P (report e) := keeps_of_same fun _ => rfl

theorem keeps_liftExcept (r : Except Error α) : Keeps P (liftM r : Step σ α) :=
  keeps_of_same fun _ => rfl

theorem keeps_liftTraced (m : Traced α) : Keeps P (liftM m : Step σ α) :=
  keeps_of_same fun _ => rfl

/-- What both parts of a sequence keep, the sequence keeps. -/
theorem Keeps.bind {m : Step σ α} {f : α → Step σ β} (hm : Keeps P m) (hf : ∀ a, Keeps P (f a)) :
    Keeps P (m >>= f) := by
  intro s hs
  have hfirst := hm s hs
  rw [after_bind]
  cases m.answer s with
  | ok a => exact hf a _ hfirst
  | error e => exact hfirst

/-- Steps one after the other keep what each of them keeps. -/
theorem keeps_forM {α : Type u} {f : α → Step σ Unit} :
    ∀ {l : List α}, (∀ a ∈ l, Keeps P (f a)) → Keeps P (l.forM f)
  | [], _ => keeps_pure ()
  | a :: _, hf =>
    (hf a (List.mem_cons_self ..)).bind fun _ =>
      keeps_forM fun b hb => hf b (List.mem_cons_of_mem a hb)

/-! ## What a step reports -/

/-- A sequence reports what its parts report, the second where the first has ended. -/
theorem events_bind_of_ends {m : Step σ α} {f : α → Step σ β} {s t : σ} {a : α} (h : m.Ends s a t) :
    (m >>= f).events s = m.events s ++ (f a).events t := by
  show (andThen m f s).1.events = _
  unfold andThen events
  unfold Ends at h
  rcases hm : m s with ⟨⟨r, reported⟩, t'⟩
  rw [hm] at h
  obtain ⟨rfl, rfl⟩ : r = .ok a ∧ t' = t := h
  rfl

/-- After a first part that fails, a sequence has reported what that part reported. -/
theorem events_bind_of_fails {m : Step σ α} {f : α → Step σ β} {s t : σ} {e : Error}
    (h : m.Fails s e t) : (m >>= f).events s = m.events s := by
  show (andThen m f s).1.events = _
  unfold andThen events
  unfold Fails at h
  rcases hm : m s with ⟨⟨r, reported⟩, t'⟩
  rw [hm] at h
  obtain ⟨rfl, rfl⟩ : r = .error e ∧ t' = t := h
  rfl

/-- What is reported, whether the step ends or fails, has a property. -/
def Reports (P : Event → Prop) (m : Step σ α) : Prop := ∀ s, ∀ e ∈ m.events s, P e

variable {P : Event → Prop}

theorem reports_pure (a : α) : Reports P (pure a : Step σ α) := fun _ _ h => nomatch h

theorem reports_fail (e : Error) : Reports P (fail e : Step σ α) := fun _ _ h => nomatch h

theorem reports_get : Reports P (get : Step σ σ) := fun _ _ h => nomatch h

theorem reports_liftExcept (r : Except Error α) : Reports P (liftM r : Step σ α) :=
  fun _ _ h => nomatch h

/-- A traced answer reports what stands in its trace. -/
theorem reports_liftTraced {m : Traced α} (h : ∀ e ∈ m.events, P e) :
    Reports P (liftM m : Step σ α) :=
  fun _ => h

/-- A sequence reports what its parts may report. -/
theorem Reports.bind {m : Step σ α} {f : α → Step σ β} (hm : Reports P m) (hf : ∀ a, Reports P (f a)) :
    Reports P (m >>= f) := by
  intro s e he
  rcases ends_or_fails m s with ⟨a, hends⟩ | ⟨err, hfails⟩
  · rw [events_bind_of_ends hends] at he
    rcases List.mem_append.mp he with he | he
    · exact hm s e he
    · exact hf a _ e he
  · rw [events_bind_of_fails hfails] at he
    exact hm s e he

end Step

end RecordStore
