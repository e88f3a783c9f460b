import RecordStore.Proofs.SliceScan
import RecordStore.Proofs.ValueOrder

/-!
# Where a walk may start

A walk of a single comparison starts at the operand. It goes back to the first entry if it lands on another
kind, and does not start at all if it finds nothing. Either way what it has passed over has a smaller
key code than the operand, and that is enough to know that the criteria do not hold of it
(`not_holds_below`): keys of different kinds are not in the order of their values, and a key may decode
to another value than the one it was made of, but neither ever puts a larger value below an operand that
a walk starts at. So the accepted entries are those of the walk from the first key on, and so are the
candidates (`seek_keeps_accepted`).
-/

namespace RecordStore.Candidates

variable {κ ρ : Type} [CustomKind κ]

/-! ## Testing entries -/

/-- The entries of which the criteria hold. Each is tested by the value that is read from its key; the
first of which that cannot be told ends the test. -/
def acceptedOf (criteria : List (Criterion κ ρ)) : List Entry → Except Error (List Entry)
  | [] => .ok []
  | e :: rest => do
    let value : Value κ ← Keycode.decode e.1
    let met ← Criterion.allHoldOf value criteria
    let accepted ← acceptedOf criteria rest
    return if met then e :: accepted else accepted

/-- Entries of which the criteria do not hold can be left out in front. -/
theorem acceptedOf_append {criteria : List (Criterion κ ρ)} {rest accepted : List Entry} :
    ∀ {passed : List Entry},
      (∀ e ∈ passed, ∀ value : Value κ, Keycode.decode e.1 = .ok value →
        Criterion.allHoldOf value criteria ≠ .ok true) →
      acceptedOf criteria (passed ++ rest) = .ok accepted → acceptedOf criteria rest = .ok accepted
  | [], _, h => h
  | e :: passed, hpassed, h => by
    obtain ⟨he, hrest⟩ := List.forall_mem_cons.mp hpassed
    obtain ⟨value, hvalue, h⟩ := bind_eq_ok.mp h
    obtain ⟨met, hmet, h⟩ := bind_eq_ok.mp h
    obtain ⟨accepted', haccepted, h⟩ := bind_eq_ok.mp h
    cases met with
    | true => exact absurd hmet (he value hvalue)
    | false =>
      cases h
      exact acceptedOf_append hrest haccepted

/-! ## Below the start -/

section Below

variable {criteria : List (Criterion κ ρ)} {e : Entry} {target : Bytes} {u : Value κ}

/-- The criteria hold of nothing that is read from a key below the start. -/
theorem not_holds_below (hkey : e.1 = Keycode.encode u) (htarget : startCode? criteria = some target)
    (hlt : compare e.1 target = .lt) {value : Value κ} (hvalue : Keycode.decode e.1 = .ok value) :
    Criterion.allHoldOf value criteria ≠ .ok true := by
  obtain ⟨relation, v, rfl, hallows, hkeeps, hfloat, rfl⟩ := startCode?_eq_some htarget
  have hread : value = u.restored := Keycode.decode_encode (hkey ▸ hvalue)
  intro hholds
  -- The value that is read has no larger code than the key, so it is below the operand itself.
  have hcode : (compare (Keycode.encode value) e.1).isLE = true := by
    rw [hread, hkey]
    exact (Keycode.below_encode_restored u).order
  have hcustom : ∀ c, value ≠ .custom c := by
    rw [hread]
    exact u.restored_ne_custom
  exact not_allows_below hallows hkeeps hfloat hcustom hcode hlt
    (Criterion.allHoldOf_eq_true.mp hholds _ (List.mem_singleton.mpr rfl))

/-- A value of the user's own kind is never below the start. -/
theorem not_isCustom_below (hkey : e.1 = Keycode.encode u) (htarget : startCode? criteria = some target)
    (hlt : compare e.1 target = .lt) : Keycode.isCustom e.1 = false := by
  obtain ⟨relation, v, rfl, -, hkeeps, -, rfl⟩ := startCode?_eq_some htarget
  have hcustom : ∀ c, v ≠ .custom c := by
    rintro c rfl
    cases hkeeps
  rw [hkey] at hlt ⊢
  refine Keycode.isCustom_encode ?_
  rintro c rfl
  exact Keycode.not_encode_custom_lt hcustom hlt

/-- An entry below the start stands for nothing, if it can be told at all. -/
theorem expand_below {c : Candidates κ ρ} (hscan : c.scan = .primaryKey ∨ c.scan = .index)
    (hkey : e.1 = Keycode.encode u) (htarget : startCode? c.criteria = some target)
    (hlt : compare e.1 target = .lt) {x : Expansion} (hx : c.expand e = .ok x) : x = .nothing := by
  rcases hscan with hscan | hscan
  · unfold expand at hx
    rw [hscan] at hx
    obtain ⟨value, hvalue, hx⟩ := bind_eq_ok.mp hx
    obtain ⟨met, hmet, hx⟩ := bind_eq_ok.mp hx
    cases met with
    | true => exact absurd hmet (not_holds_below hkey htarget hlt hvalue)
    | false =>
      cases hx
      rfl
  · obtain ⟨value, met, hvalue, hmet, hx⟩ := (expand_index (.inl hscan)).mp hx
    unfold acceptsValue at hmet
    rw [hscan, not_isCustom_below hkey htarget hlt] at hmet
    cases met with
    | true => exact absurd hmet (not_holds_below hkey htarget hlt hvalue)
    | false => exact hx

end Below

/-- Entries that stand for nothing can be left out in front. -/
theorem stream_passedOver {c : Candidates κ ρ} {emitted : List Bytes} {rest : List Entry} :
    ∀ {passed : List Entry}, (∀ e ∈ passed, ∀ x, c.expand e = .ok x → x = .nothing) →
      c.stream emitted (passed ++ rest) = c.stream emitted rest
  | [], _ => rfl
  | e :: passed, hpassed => by
    obtain ⟨he, hrest⟩ := List.forall_mem_cons.mp hpassed
    rw [List.cons_append, stream]
    cases hx : c.expand e with
    | error err => exact stream_passedOver hrest
    | ok x =>
      obtain rfl := he x hx
      exact stream_passedOver hrest

/-! ## Starting behind the first entry -/

variable {s : Buckets} {plan : Plan} {dataBucket : String} {criteria : List (Criterion κ ρ)}
  {codec : Codec} {batchSize : Nat} {accepted : List Entry}

/-- In a bucket whose keys are key codes a walk loses nothing by where it starts. If all entries from the
first one on can be tested, then those that the walk comes to are accepted as they were, in the same
order. The candidates that the entries stand for are the same as well; only a slice index has to have a
criterion to narrow its items down by, since otherwise it takes all items that it comes to. -/
theorem seek_keeps_accepted
    (hkeys : ∀ e ∈ s.entries plan.bucket, ∃ v : Value κ, e.1 = Keycode.encode v)
    (htested : acceptedOf criteria (s.entries plan.bucket) = .ok accepted) :
    acceptedOf criteria (ofPlan s plan dataBucket criteria codec batchSize).ahead = .ok accepted ∧
      (plan.scan ≠ .sliceIndex ∨ (narrowing? criteria).isSome = true →
        (ofPlan s plan dataBucket criteria codec batchSize).stream []
            (ofPlan s plan dataBucket criteria codec batchSize).ahead =
          (ofPlan s plan dataBucket criteria codec batchSize).stream [] (s.entries plan.bucket)) := by
  generalize hc : ofPlan s plan dataBucket criteria codec batchSize = c
  have hscan : c.scan = plan.scan := by
    rw [← hc]
    rfl
  have hahead : c.ahead = walkFrom (s.entries plan.bucket) c.criteria := by
    rw [← hc]
    rfl
  have hcriteria : c.criteria = if plan.scan = .full then [] else criteria := by
    rw [← hc]
    rfl
  by_cases hfull : plan.scan = .full
  · -- A full scan asks for nothing and starts at the first entry.
    rw [if_pos hfull] at hcriteria
    have hall : c.ahead = s.entries plan.bucket := by
      rw [hahead, hcriteria]
      rfl
    rw [hall]
    exact ⟨htested, fun _ => rfl⟩
  rw [if_neg hfull] at hcriteria
  obtain ⟨passed, hsplit, hbelow⟩ := exists_passedOver (s.entries plan.bucket) c.criteria
  rw [← hahead] at hsplit
  -- Whatever was passed over is a key code, and below the start.
  have hpassed : ∀ e ∈ passed, ∃ u : Value κ, e.1 = Keycode.encode u := by
    intro e he
    refine hkeys e ?_
    rw [hsplit]
    exact List.mem_append_left _ he
  constructor
  · rw [hsplit] at htested
    refine acceptedOf_append ?_ htested
    intro e he value hvalue
    obtain ⟨u, hu⟩ := hpassed e he
    obtain ⟨target, htarget, hlt⟩ := hbelow e he
    rw [hcriteria] at htarget
    exact not_holds_below hu htarget hlt hvalue
  · intro hnarrowed
    rw [hsplit, stream_passedOver]
    intro e he x hx
    obtain ⟨u, hu⟩ := hpassed e he
    obtain ⟨target, htarget, hlt⟩ := hbelow e he
    refine expand_below ?_ hu htarget hlt hx
    rw [hscan]
    cases hkind : plan.scan with
    | primaryKey => exact .inl rfl
    | index => exact .inr rfl
    | full => exact absurd hkind hfull
    | sliceIndex =>
      -- A criterion that narrows down gives no place to start at, so nothing was passed over.
      have hsome := hnarrowed.resolve_left (fun hne => hne hkind)
      have hasks : criteria.any (fun c => !c.negated && c.condition.asksForItem) = true := by
        rw [List.any_eq_true]
        exact List.find?_isSome.mp hsome
      rw [hcriteria, startCode?_of_asks hasks] at htarget
      cases htarget

section Sealed

open Value (Sealed)

/-- Keys of two kinds; inside two of them are values of the user's own kind, which are read back as
bytes. -/
def sealedKeys : List (Value Sealed) :=
  [.nil, .list [.bytes [0x01]], .list [.custom ⟨[0x03]⟩], .list [.custom ⟨[0x09]⟩]]

/-- A bucket with an entry under each of them. -/
def sealedBuckets : Buckets :=
  Buckets.empty.setBucket "Sealed"
    ⟨sealedKeys.foldl (fun entries key => entries.insert (Keycode.encode key) []) .empty, 0⟩

theorem entries_sealedBuckets :
    sealedBuckets.entries "Sealed" = sealedKeys.map fun key => (Keycode.encode key, []) := by
  decide +kernel

/-- Lists that begin with the byte five or come later. -/
def fromFiveOn : List (Criterion Sealed Bool) := [⟨.compares .ge (.list [.bytes [0x05]]), false⟩]

/-- The walk passes over two entries. It comes to the key with the byte three, whose code is above the
operand because of the tag, but which is below it once it is read. -/
theorem seek_keeps_accepted_sealed :
    (∀ e ∈ sealedBuckets.entries (Plan.primaryKey "Sealed").bucket,
      ∃ v : Value Sealed, e.1 = Keycode.encode v) ∧
    acceptedOf fromFiveOn (sealedBuckets.entries (Plan.primaryKey "Sealed").bucket) =
      .ok [(Keycode.encode (.list [.custom ⟨[0x09]⟩] : Value Sealed), [])] ∧
    acceptedOf fromFiveOn
        (ofPlan sealedBuckets (.primaryKey "Sealed") "Sealed" fromFiveOn .json 1).ahead =
      .ok [(Keycode.encode (.list [.custom ⟨[0x09]⟩] : Value Sealed), [])] := by
  have hkeys : ∀ e ∈ sealedBuckets.entries (Plan.primaryKey "Sealed").bucket,
      ∃ v : Value Sealed, e.1 = Keycode.encode v := by
    intro e he
    have hentries : sealedBuckets.entries (Plan.primaryKey "Sealed").bucket = _ :=
      entries_sealedBuckets
    rw [hentries] at he
    obtain ⟨key, -, rfl⟩ := List.mem_map.mp he
    exact ⟨key, rfl⟩
  have htested : acceptedOf fromFiveOn (sealedBuckets.entries (Plan.primaryKey "Sealed").bucket) =
      .ok [(Keycode.encode (.list [.custom ⟨[0x09]⟩] : Value Sealed), [])] := by
    have hentries : sealedBuckets.entries (Plan.primaryKey "Sealed").bucket = _ :=
      entries_sealedBuckets
    rw [hentries]
    cbv
  exact ⟨hkeys, htested, (seek_keeps_accepted hkeys htested).1⟩

end Sealed

end RecordStore.Candidates
