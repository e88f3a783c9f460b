import RecordStore.Proofs.Index

/-!
# Key lists as sets that calls leave

A key list that was built by calls is the set of the keys that were added and not removed since, and
it is this set in one way only. Each call keeps the list ascending and decides about its own key; after
any number of calls a key is there if the last call on it added it (`mem_ofCalls_iff`). A call searches
the list that the calls before it left, and finds what it looks for because this list ascends
(`ascends_ofCalls`): so the order comes first, and the members follow from it.
-/

namespace RecordStore.KeyList

/-- A call on a key list: what it does, and at which key. -/
structure Call where
  change : Index.Change
  key : Bytes

/-- The list after calls on the empty one. -/
def ofCalls (calls : List Call) : KeyList :=
  calls.foldl (fun l call => call.change.apply l call.key) .empty

/-- What the last call on a key did, if there was one. -/
def lastChange? (calls : List Call) (key : Bytes) : Option Index.Change :=
  ((calls.filter fun call => call.key = key).getLast?).map Call.change

/-- The keys whose last call added them. -/
def keysLeft (calls : List Call) : Finset Bytes :=
  (calls.map Call.key).toFinset.filter fun key => lastChange? calls key = some .add

theorem ofCalls_concat (calls : List Call) (call : Call) :
    ofCalls (calls ++ [call]) = call.change.apply (ofCalls calls) call.key := by
  unfold ofCalls
  rw [List.foldl_append]
  rfl

/-- The last change of a key is that of the last call, if it is about the key. -/
theorem lastChange?_concat (calls : List Call) (call : Call) (key : Bytes) :
    lastChange? (calls ++ [call]) key =
      if call.key = key then some call.change else lastChange? calls key := by
  unfold lastChange?
  rw [List.filter_append]
  by_cases hkey : call.key = key
  · rw [if_pos hkey, List.filter_singleton, decide_eq_true hkey, cond_true, List.getLast?_concat]
    rfl
  · rw [if_neg hkey, List.filter_singleton, decide_eq_false hkey, cond_false, List.append_nil]

/-- The keys left are those whose last call added them. -/
theorem mem_keysLeft_iff {calls : List Call} {key : Bytes} :
    key ∈ keysLeft calls ↔ lastChange? calls key = some .add := by
  unfold keysLeft
  rw [Finset.mem_filter, List.mem_toFinset]
  refine and_iff_right_of_imp fun hlast => ?_
  -- The call that the filter ends with is one of the calls.
  obtain ⟨call, hcall, -⟩ := Option.map_eq_some_iff.mp hlast
  obtain ⟨hmem, hkey⟩ := List.mem_filter.mp (List.mem_of_getLast? hcall)
  exact List.mem_map.mpr ⟨call, hmem, of_decide_eq_true hkey⟩

/-! ## What the calls leave -/

theorem ascends_ofCalls (calls : List Call) : (ofCalls calls).Ascends := by
  induction calls using List.reverseRecOn with
  | nil => exact ascends_empty
  | append_singleton calls call ih =>
    rw [ofCalls_concat]
    exact call.change.ascends_apply ih call.key

/-- The list has the keys whose last call added them. -/
theorem mem_ofCalls_iff (calls : List Call) (k : Bytes) :
    k ∈ (ofCalls calls).keys ↔ lastChange? calls k = some .add := by
  induction calls using List.reverseRecOn with
  | nil => exact ⟨nofun, nofun⟩
  | append_singleton calls call ih =>
    rw [ofCalls_concat, lastChange?_concat, Index.Change.mem_apply_iff (ascends_ofCalls calls)]
    split
    next => exact (Option.some_inj).symm
    next => exact ih

/-- As a set, the list is what the calls leave. -/
theorem toFinset_ofCalls (calls : List Call) : (ofCalls calls).keys.toFinset = keysLeft calls := by
  ext k
  rw [List.mem_toFinset, mem_ofCalls_iff, mem_keysLeft_iff]

/-- Calls leave the same list exactly if they leave the same keys. -/
theorem ofCalls_eq_iff {calls others : List Call} :
    ofCalls others = ofCalls calls ↔ keysLeft others = keysLeft calls := by
  constructor
  · intro hsame
    rw [← toFinset_ofCalls, hsame, toFinset_ofCalls]
  · intro hleft
    refine ascends_ext (ascends_ofCalls others) (ascends_ofCalls calls) fun k => ?_
    rw [mem_ofCalls_iff, mem_ofCalls_iff, ← mem_keysLeft_iff, hleft, mem_keysLeft_iff]

/-- What is stored of the lists is the same under every codec exactly if the calls leave the same keys. -/
theorem write_ofCalls_eq_iff {calls others : List Call} :
    (∀ codec : Codec, codec.write (some (ofCalls others).toJson) =
      codec.write (some (ofCalls calls).toJson)) ↔ keysLeft others = keysLeft calls := by
  constructor
  · intro hstored
    exact ofCalls_eq_iff.mp (Codec.keepsKeyLists_json.eq_of_write (hstored .json) rfl)
  · intro hleft codec
    rw [ofCalls_eq_iff.mpr hleft]

/-- After any calls on the empty list, and after each of them, the keys ascend. A key is found exactly if
the last call on it added it, and the list is as long as there are such keys. Other calls leave the same
list, and the same stored bytes, exactly if they leave the same keys. Removing a key changes nothing
exactly if the last call on it, if any, did not add it. -/
theorem ofCalls_sortedSet (calls : List Call) :
    (∀ n, (ofCalls (calls.take n)).Ascends) ∧
    (∀ k, (ofCalls calls).contains k = true ↔ lastChange? calls k = some .add) ∧
    (ofCalls calls).size = (keysLeft calls).card ∧
    (∀ others, ofCalls others = ofCalls calls ↔ keysLeft others = keysLeft calls) ∧
    (∀ others, (∀ codec : Codec, codec.write (some (ofCalls others).toJson) =
      codec.write (some (ofCalls calls).toJson)) ↔ keysLeft others = keysLeft calls) ∧
    (∀ k, (ofCalls calls).remove k = ofCalls calls ↔ lastChange? calls k ≠ some .add) := by
  have hascends := ascends_ofCalls calls
  refine ⟨fun n => ascends_ofCalls (calls.take n), fun k => ?_, ?_, fun _ => ofCalls_eq_iff,
    fun _ => write_ofCalls_eq_iff, fun k => ?_⟩
  · rw [contains_eq_true_iff hascends, mem_ofCalls_iff]
  · rw [← toFinset_ofCalls, List.toFinset_card_of_nodup hascends.nodup]
    rfl
  · rw [remove_eq_self_iff hascends, mem_ofCalls_iff]

/-- A key that was added twice is removed at once, and one that lies beyond all members changes nothing. -/
example : (([[0x6d], [0x63], [0x78], [0x63], [0x61]].foldl add empty).remove [0x63]).remove
    [0x7a, 0x7a] = ⟨[[0x61], [0x6d], [0x78]]⟩ := by
  cbv

end RecordStore.KeyList
