/-
  Histories of the store (`generic/hash_helper.c`): the table after any
  sequence of `set`, `get` and `delete_element`.

  * `HashTable.call` is one call, with what it returns;
  * `run_content`: the last call on a key decides what the table binds it to;
  * `store_is_map`: so the store is a finite map without duplicates.
-/
import ChordPeer.Store
import ChordPeer.Lib.Machine
import ChordPeer.Lib.Updates

namespace ChordPeer

/-- A call of a function of the store. -/
inductive Call where
  | set (key value : List UInt8) (value_length : UInt32)
  | get (key : List UInt8)
  | delete_element (key : List UInt8)
  deriving DecidableEq

namespace Call

def key : Call → List UInt8
  | .set key _ _ => key
  | .get key => key
  | .delete_element key => key

/-- What a call binds its key to; `get` updates nothing. -/
def update : Call → Option (Updates.Update (List UInt8) (List UInt8 × UInt32))
  | .set key value value_length => some (key, some (value, value_length))
  | .get _ => none
  | .delete_element key => some (key, none)

end Call

namespace HashTable

/-- A call on the table: the new table, and what the call returns. -/
def call (head : HashTable) : Call → Option (HashTable × Option HashElement)
  | .set key value value_length => some (set head key value value_length, none)
  | .get key => some (head, get head key)
  | .delete_element key => (delete_element head key).map fun head => (head, none)

/-- The value and the length that the table binds a key to. -/
def content (head : HashTable) (key : List UInt8) : Option (List UInt8 × UInt32) :=
  (get head key).map fun e => (e.value, e.value_length)

section
variable {t t' : HashTable} {c : Call} {cs : List Call} {o : Option HashElement}
  {os : List (Option HashElement)}

/-- An element is found where its key is bound to what it holds. -/
theorem get_eq_some_iff {key : List UInt8} {e : HashElement} :
    get t key = some e ↔ e.key = key ∧ content t key = some (e.value, e.value_length) := by
  unfold content
  constructor
  · intro h
    rw [h]
    exact ⟨KeyedList.find_key h, rfl⟩
  · rintro ⟨hk, hc⟩
    obtain ⟨e', he', hv⟩ := Option.map_eq_some_iff.1 hc
    have hk' : e'.key = key := KeyedList.find_key he'
    obtain ⟨k, v, n⟩ := e
    obtain ⟨k', v', n'⟩ := e'
    cases hv
    cases hk
    cases hk'
    exact he'

theorem nodupKeys_nil : KeyedList.NodupKeys HashElement.key ([] : HashTable) := List.nodup_nil

/-- **One call.** -/
theorem call_content (hn : KeyedList.NodupKeys HashElement.key t) (h : call t c = some (t', o)) :
    KeyedList.NodupKeys HashElement.key t' ∧ content t' = Updates.apply₁ (content t) c.update := by
  cases c with
  | set key value n =>
    cases h
    refine ⟨nodupKeys_set hn key value n, ?_⟩
    ext k : 1
    by_cases hk : k = key
    · subst hk
      simp [content, get_set, Call.update, Updates.apply₁]
    · simp [content, get_set, Call.update, Updates.apply₁, hk, Ne.symm hk]
  | get key =>
    cases h
    exact ⟨hn, rfl⟩
  | delete_element key =>
    obtain ⟨t₁, hd, h⟩ := Option.map_eq_some_iff.1 h
    cases h
    refine ⟨nodupKeys_delete_element hn hd, ?_⟩
    ext k : 1
    by_cases hk : k = key
    · subst hk
      simp [content, get_delete_element hn hd, Call.update, Updates.apply₁]
    · simp [content, get_delete_element hn hd, Call.update, Updates.apply₁, hk, Ne.symm hk]

/-- **A sequence of calls.** -/
theorem run_content (hn : KeyedList.NodupKeys HashElement.key t)
    (h : Machine.run call t cs = some (t', os)) :
    KeyedList.NodupKeys HashElement.key t' ∧
      content t' = Updates.apply Call.update (content t) cs := by
  induction cs generalizing t os with
  | nil =>
    cases h
    exact ⟨hn, rfl⟩
  | cons c cs ih =>
    obtain ⟨t₁, o, os, hc, hr, -⟩ := Machine.run_cons.1 h
    obtain ⟨hn₁, hc₁⟩ := call_content hn hc
    obtain ⟨hn', hc'⟩ := ih hn₁ hr
    refine ⟨hn', ?_⟩
    rw [hc', hc₁]
    rfl

/-- After calls on the empty table, a key is bound to what it was last set to. -/
theorem run_empty_content (h : Machine.run call [] cs = some (t, os)) (key : List UInt8)
    (v : List UInt8 × UInt32) :
    content t key = some v ↔ Updates.Last Call.update cs key (some v) := by
  rw [(run_content nodupKeys_nil h).2, ← Updates.apply_eq_some_iff]
  rfl

/-- A call comes to its end unless it deletes a key that is not there. -/
theorem call_isSome : (call t c).isSome ↔ ∀ key, c = .delete_element key → (get t key).isSome := by
  cases c with
  | set => simp [call]
  | get => simp [call]
  | delete_element key =>
    cases hg : get t key <;> simp [call, delete_element, hg]

/-- A call leaves the elements of all other keys as they are. -/
theorem call_other (hn : KeyedList.NodupKeys HashElement.key t) (h : call t c = some (t', o))
    {key : List UInt8} (hk : key ≠ c.key) : get t' key = get t key := by
  cases c with
  | set key' value n =>
    cases h
    have hk : key ≠ key' := hk
    rw [get_set, if_neg hk.symm]
  | get key' =>
    cases h
    rfl
  | delete_element key' =>
    obtain ⟨t₁, hd, h⟩ := Option.map_eq_some_iff.1 h
    cases h
    have hk : key ≠ key' := hk
    rw [get_delete_element hn hd, if_neg hk.symm]

/-- **The store is a map.**  In every state that calls on the empty table lead
    to, no key occurs twice, an element is found exactly if it is what its key
    was last set to, and a call changes at most the element of its key. -/
theorem store_is_map (h : Machine.run call [] cs = some (t, os)) :
    KeyedList.NodupKeys HashElement.key t ∧
    (∀ key e, get t key = some e ↔
      e.key = key ∧ Updates.Last Call.update cs key (some (e.value, e.value_length))) ∧
    ∀ c, ((call t c).isSome ↔ ∀ key, c = .delete_element key → (get t key).isSome) ∧
      ∀ t' o, call t c = some (t', o) → (∀ key, key ≠ c.key → get t' key = get t key) ∧
        ∀ key, c = .get key → t' = t ∧ o = get t key := by
  have hn : KeyedList.NodupKeys HashElement.key t := (run_content nodupKeys_nil h).1
  refine ⟨hn, fun key e => ?_, fun c => ⟨call_isSome, fun t' o hc => ⟨fun key hk => ?_, ?_⟩⟩⟩
  · rw [get_eq_some_iff, run_empty_content h]
  · exact call_other hn hc hk
  · rintro key rfl
    cases hc
    exact ⟨rfl, rfl⟩

end

/-- The empty key, and a key that is deleted and set again. -/
theorem store_is_map_set_again :
    Updates.Last Call.update [.set [] [1] 1, .set [7] [2] 1, .delete_element [7], .get [],
      .set [7] [3] 1] [7] (some ([3], 1)) :=
  ((store_is_map (t := [⟨[], [1], 1⟩, ⟨[7], [3], 1⟩]) rfl).2.1 [7] ⟨[7], [3], 1⟩).1 rfl |>.2

end HashTable

end ChordPeer
