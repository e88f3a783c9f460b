/-!
# Reading from the front

A reader takes something from the front of its input. `Taken α input` is what it took and what it
left, together with the fact that it left less than there was: a reader that goes on with the rest
therefore comes to an end.
-/

namespace RecordStore

/-- What was read from the front of `input` and what is left, which is less. -/
structure Taken {τ : Type} (α : Type) (input : List τ) where
  value : α
  rest : List τ
  shorter : rest.length < input.length

namespace Taken

variable {τ α β : Type} {input : List τ}

/-- Takes the first item only, for something it stands for. -/
def first (t : τ) (a : α) (rest : List τ) : Taken α (t :: rest) :=
  ⟨a, rest, Nat.lt_succ_self _⟩

/-- The same reading seen from an item earlier. -/
def after (t : τ) (r : Taken α input) : Taken α (t :: input) :=
  ⟨r.value, r.rest, Nat.lt_succ_of_lt r.shorter⟩

/-- The same reading from an input that is no shorter. -/
def within {input' : List τ} (r : Taken α input) (h : input.length ≤ input'.length) :
    Taken α input' :=
  ⟨r.value, r.rest, Nat.lt_of_lt_of_le r.shorter h⟩

/-- What was read, turned into something else. -/
def map (f : α → β) (r : Taken α input) : Taken β input := ⟨f r.value, r.rest, r.shorter⟩

/-- What was read, turned into something else or refused. -/
def map? (f : α → Option β) (r : Taken α input) : Option (Taken β input) :=
  (f r.value).map fun b => ⟨b, r.rest, r.shorter⟩

end Taken

end RecordStore
