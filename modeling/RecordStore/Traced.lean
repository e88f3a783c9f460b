import RecordStore.Error
import RecordStore.Event

/-!
# Answers with a trace, and steps on a state

`Traced α` is an answer or an error together with the events that were reported on the way, in
order. `Step σ α` is such an answer that may also change a state. A step that fails leaves behind
the state it had reached, as a write scope does whose caller goes on after an error. Both are
lawful monads: events of a sequence are the events of its parts in order.
-/

namespace RecordStore

/-- An answer or an error, and the events reported on the way. -/
structure Traced (α : Type) where
  result : Except Error α
  events : List Event

namespace Traced

variable {α β : Type}

/-- Goes on with the answer; an error ends the sequence. -/
def andThen (m : Traced α) (f : α → Traced β) : Traced β :=
  match m.result with
  | .error e => ⟨.error e, m.events⟩
  | .ok a =>
    let next := f a
    ⟨next.result, m.events ++ next.events⟩

instance : Monad Traced where
  pure a := ⟨.ok a, []⟩
  bind := andThen

/-- An answer without events. -/
def ofExcept (r : Except Error α) : Traced α := ⟨r, []⟩

/-- A failure. -/
def fail (e : Error) : Traced α := ⟨.error e, []⟩

/-- Reports an event. -/
def report (e : Event) : Traced Unit := ⟨.ok (), [e]⟩

/-- Reports events in order. -/
def reportAll (events : List Event) : Traced Unit := ⟨.ok (), events⟩

instance : MonadLift (Except Error) Traced := ⟨ofExcept⟩

@[simp] theorem pure_eq (a : α) : (pure a : Traced α) = ⟨.ok a, []⟩ := rfl

@[simp] theorem ok_bind (a : α) (events : List Event) (f : α → Traced β) :
    (⟨.ok a, events⟩ : Traced α) >>= f = ⟨(f a).result, events ++ (f a).events⟩ := rfl

@[simp] theorem error_bind (e : Error) (events : List Event) (f : α → Traced β) :
    (⟨.error e, events⟩ : Traced α) >>= f = ⟨.error e, events⟩ := rfl

theorem map_id (m : Traced α) : id <$> m = m := by
  rcases m with ⟨r, events⟩
  cases r <;> simp [Functor.map, andThen]

theorem bind_assoc {γ : Type} (m : Traced α) (f : α → Traced β) (g : β → Traced γ) :
    m >>= f >>= g = m >>= fun a => f a >>= g := by
  rcases m with ⟨r, events⟩
  cases r with
  | error e => rfl
  | ok a =>
    rw [ok_bind, ok_bind]
    rcases h : f a with ⟨r', events'⟩
    cases r' <;> simp [List.append_assoc]

instance : LawfulMonad Traced :=
  LawfulMonad.mk' _ map_id (fun _ _ => by simp) bind_assoc

end Traced

/-- An answer that may change a state; the state is there after an error too. -/
def Step (σ α : Type) : Type := σ → Traced α × σ

namespace Step

variable {σ τ α β : Type}

/-- Goes on with the answer and the state; an error ends the sequence. -/
def andThen (m : Step σ α) (f : α → Step σ β) : Step σ β := fun s =>
  match m s with
  | (⟨.error e, events⟩, s') => (⟨.error e, events⟩, s')
  | (⟨.ok a, events⟩, s') =>
    let (next, s'') := f a s'
    (⟨next.result, events ++ next.events⟩, s'')

instance : Monad (Step σ) where
  pure a := fun s => (⟨.ok a, []⟩, s)
  bind := andThen

/-- The state. -/
def get : Step σ σ := fun s => (⟨.ok s, []⟩, s)

/-- Replaces the state. -/
def set (s : σ) : Step σ Unit := fun _ => (⟨.ok (), []⟩, s)

/-- Changes the state. -/
def modify (f : σ → σ) : Step σ Unit := fun s => (⟨.ok (), []⟩, f s)

/-- A traced answer that leaves the state alone. -/
def ofTraced (m : Traced α) : Step σ α := fun s => (m, s)

/-- A failure that leaves the state alone. -/
def fail (e : Error) : Step σ α := ofTraced (.fail e)

/-- Reports an event. -/
def report (e : Event) : Step σ Unit := ofTraced (.report e)

/-- A traced answer about the state. -/
def reading (f : σ → Traced α) : Step σ α := fun s => (f s, s)

instance : MonadLift Traced (Step σ) := ⟨ofTraced⟩

instance : MonadLift (Except Error) (Step σ) := ⟨fun r => ofTraced (.ofExcept r)⟩

/-- The answer of a step from a state. -/
def answer (m : Step σ α) (s : σ) : Except Error α := (m s).1.result

/-- The state that a step leaves behind. -/
def after (m : Step σ α) (s : σ) : σ := (m s).2

/-- The events of a step from a state. -/
def events (m : Step σ α) (s : σ) : List Event := (m s).1.events

theorem map_id (m : Step σ α) : id <$> m = m := by
  funext s
  show andThen m _ s = m s
  unfold andThen
  rcases m s with ⟨⟨r, events⟩, s'⟩
  cases r <;> simp [Function.comp]

theorem pure_bind (a : α) (f : α → Step σ β) : pure a >>= f = f a := by
  funext s
  show andThen (fun s => (⟨.ok a, []⟩, s)) f s = f a s
  simp [andThen]

theorem bind_assoc {γ : Type} (m : Step σ α) (f : α → Step σ β) (g : β → Step σ γ) :
    m >>= f >>= g = m >>= fun a => f a >>= g := by
  funext s
  show andThen (andThen m f) g s = andThen m (fun a => andThen (f a) g) s
  unfold andThen
  rcases m s with ⟨⟨r, events⟩, s'⟩
  cases r with
  | error e => rfl
  | ok a =>
    rcases h : f a s' with ⟨⟨r', events'⟩, s''⟩
    cases r' <;> simp [h, List.append_assoc]

instance : LawfulMonad (Step σ) := LawfulMonad.mk' _ map_id pure_bind bind_assoc

end Step

end RecordStore
