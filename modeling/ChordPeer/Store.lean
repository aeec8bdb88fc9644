/-
  The store of a peer (`generic/hash_helper.c`): a uthash table of elements,
  kept in the order they were added, and the hash of a key.

  `HASH_FIND`, `HASH_ADD_KEYPTR` and `HASH_DEL` find, append and remove
  elements by equality of key bytes (`KeyedList`); the buckets behind them are
  in `Uthash`, and `HashHelper` has the operations on them.  `HASH_JEN` is the
  hash function `HASH_VALUE` applies by default (`libraries/uthash.h`).

  * `get`, `set`, `delete_element` are the operations of the source;
  * `get_set` and `get_delete_element`: what a later `get` sees;
  * `lookup` reads the store as a map from keys to values: `lookup_set`,
    `lookup_delete_element`.
-/
import ChordPeer.Lib.KeyedList
import Mathlib.Logic.Function.Basic
import Mathlib.Tactic.Basic

namespace ChordPeer

/-- `struct HashElement`.  `value` holds `value_length` bytes. -/
structure HashElement where
  key : List UInt8
  value : List UInt8
  value_length : UInt32
  deriving DecidableEq, Repr

/-- The table behind `hash_table_head`. -/
abbrev HashTable := List HashElement

namespace HashTable

/-- The assignments of `set` to the element it found or added. -/
def assign (value : List UInt8) (value_length : UInt32) (s : HashElement) : HashElement :=
  { s with value := value, value_length := value_length }

/-- `get`; `none` is `NULL`. -/
def get (head : HashTable) (key : List UInt8) : Option HashElement :=
  KeyedList.find HashElement.key head key

def set (head : HashTable) (key value : List UInt8) (value_length : UInt32) : HashTable :=
  match get head key with
  | none => head ++ [{ key := key, value := value, value_length := value_length }]
  | some _ => KeyedList.update HashElement.key (assign value value_length) head key

/-- `delete_element`; `none` where `HASH_DEL` reads through the `NULL` that
    `get` returned. -/
def delete_element (head : HashTable) (key : List UInt8) : Option HashTable :=
  match get head key with
  | none => none
  | some _ => some (KeyedList.erase HashElement.key head key)

/-! ## What a later `get` sees -/

theorem get_set (head : HashTable) (key value : List UInt8) (n : UInt32) (k : List UInt8) :
    get (set head key value n) k = if key = k then some ⟨key, value, n⟩ else get head k := by
  unfold set
  cases hg : get head key with
  | none =>
    have hg' : KeyedList.find HashElement.key head (HashElement.key ⟨key, value, n⟩) = none := hg
    exact KeyedList.find_concat hg' k
  | some s =>
    have hs : s.key = key := KeyedList.find_key hg
    have hg' : KeyedList.find HashElement.key head key = some s := hg
    have hf : ∀ e : HashElement, (assign value n e).key = e.key := fun _ => rfl
    simp only [get]
    rw [KeyedList.find_update hf, hg', ← hs]
    rfl

theorem delete_element_eq_some {head head' : HashTable} {key : List UInt8} :
    delete_element head key = some head' ↔
      (get head key).isSome ∧ head' = KeyedList.erase HashElement.key head key := by
  unfold delete_element
  cases hg : get head key with
  | none => simp
  | some s => simp [eq_comm]

theorem get_delete_element {head head' : HashTable} {key : List UInt8}
    (hn : KeyedList.NodupKeys HashElement.key head) (h : delete_element head key = some head')
    (k : List UInt8) : get head' k = if key = k then none else get head k := by
  obtain ⟨-, rfl⟩ := delete_element_eq_some.1 h
  exact KeyedList.find_erase hn key k

theorem nodupKeys_set {head : HashTable} (hn : KeyedList.NodupKeys HashElement.key head)
    (key value : List UInt8) (n : UInt32) :
    KeyedList.NodupKeys HashElement.key (set head key value n) := by
  unfold set
  cases hg : get head key with
  | none => exact hn.concat hg
  | some s => exact hn.update (f := assign value n) (fun _ => rfl) key

theorem nodupKeys_delete_element {head head' : HashTable} {key : List UInt8}
    (hn : KeyedList.NodupKeys HashElement.key head) (h : delete_element head key = some head') :
    KeyedList.NodupKeys HashElement.key head' := by
  obtain ⟨-, rfl⟩ := delete_element_eq_some.1 h
  exact hn.erase key

/-- The elements of a table after `set`. -/
theorem mem_set {head : HashTable} {key value : List UInt8} {n : UInt32} {e : HashElement}
    (h : e ∈ set head key value n) : e ∈ head ∨ e = ⟨key, value, n⟩ := by
  unfold set at h
  split at h
  · rcases List.mem_append.1 h with h | h
    · exact .inl h
    · exact .inr (List.mem_singleton.1 h)
  · rcases KeyedList.mem_update h with h | ⟨e', hk, rfl⟩
    · exact .inl h
    · rw [assign, hk]
      exact .inr rfl

theorem mem_delete_element {head head' : HashTable} {key : List UInt8} {e : HashElement}
    (h : delete_element head key = some head') (he : e ∈ head') : e ∈ head := by
  obtain ⟨-, rfl⟩ := delete_element_eq_some.1 h
  exact List.mem_of_mem_eraseP he

/-! ## The store as a map -/

/-- The value of a key. -/
def lookup (head : HashTable) (key : List UInt8) : Option (List UInt8) :=
  (get head key).map HashElement.value

theorem lookup_isSome {head : HashTable} {key : List UInt8} :
    (lookup head key).isSome = (get head key).isSome := by
  simp [lookup]

theorem lookup_set (head : HashTable) (key value : List UInt8) (n : UInt32) :
    lookup (set head key value n) = Function.update (lookup head) key (some value) := by
  ext k : 1
  by_cases hk : k = key
  · subst hk
    simp [lookup, get_set]
  · simp [lookup, get_set, hk, Ne.symm hk]

theorem lookup_delete_element {head head' : HashTable} {key : List UInt8}
    (hn : KeyedList.NodupKeys HashElement.key head) (h : delete_element head key = some head') :
    lookup head' = Function.update (lookup head) key none := by
  ext k : 1
  by_cases hk : k = key
  · subst hk
    simp [lookup, get_delete_element hn h]
  · simp [lookup, get_delete_element hn h, hk, Ne.symm hk]

/-- The length field of an element counts its value. -/
def Sized (head : HashTable) : Prop :=
  ∀ key e, get head key = some e → e.value.length = e.value_length.toNat

theorem Sized.set {head : HashTable} (h : Sized head) (key : List UInt8) {value : List UInt8}
    {n : UInt32} (hv : value.length = n.toNat) : Sized (set head key value n) := by
  intro k e he
  rw [get_set] at he
  split at he
  · cases he
    exact hv
  · exact h k e he

theorem Sized.delete_element {head head' : HashTable} {key : List UInt8} (h : Sized head)
    (hn : KeyedList.NodupKeys HashElement.key head) (hd : delete_element head key = some head') :
    Sized head' := by
  intro k e he
  rw [get_delete_element hn hd] at he
  split at he
  · cases he
  · exact h k e he

end HashTable

/-! ## The hash of a key -/

/-- `HASH_JEN_MIX`. -/
def HASH_JEN_MIX (a b c : UInt32) : UInt32 × UInt32 × UInt32 :=
  let a := (a - b - c) ^^^ (c >>> 13)
  let b := (b - c - a) ^^^ (a <<< 8)
  let c := (c - a - b) ^^^ (b >>> 13)
  let a := (a - b - c) ^^^ (c >>> 12)
  let b := (b - c - a) ^^^ (a <<< 16)
  let c := (c - a - b) ^^^ (b >>> 5)
  let a := (a - b - c) ^^^ (c >>> 3)
  let b := (b - c - a) ^^^ (a <<< 10)
  let c := (c - a - b) ^^^ (b >>> 15)
  (a, b, c)

/-- Four key bytes, the first one least significant. -/
def hj_word (b₀ b₁ b₂ b₃ : UInt8) : UInt32 :=
  b₀.toUInt32 + (b₁.toUInt32 <<< 8) + (b₂.toUInt32 <<< 16) + (b₃.toUInt32 <<< 24)

/-- The loop of `HASH_JEN` over 12 bytes at a time; the rest of the key is
    left. -/
def hj_loop : List UInt8 → UInt32 → UInt32 → UInt32 → List UInt8 × UInt32 × UInt32 × UInt32
  | k₀ :: k₁ :: k₂ :: k₃ :: k₄ :: k₅ :: k₆ :: k₇ :: k₈ :: k₉ :: k₁₀ :: k₁₁ :: rest, i, j, hashv =>
    let m := HASH_JEN_MIX (i + hj_word k₀ k₁ k₂ k₃) (j + hj_word k₄ k₅ k₆ k₇)
      (hashv + hj_word k₈ k₉ k₁₀ k₁₁)
    hj_loop rest m.1 m.2.1 m.2.2
  | rest, i, j, hashv => (rest, i, j, hashv)

/-- `HASH_JEN`.  A case of the final `switch` falls through to the ones below
    it, so each byte that is left adds its term. -/
def HASH_JEN (key : List UInt8) : UInt32 :=
  let (rest, i, j, hashv) := hj_loop key 0x9e3779b9 0x9e3779b9 0xfeedbeef
  let b (n : ℕ) : UInt32 := (rest[n]?.getD 0).toUInt32
  let hashv := hashv + UInt32.ofNat key.length +
    (b 10 <<< 24) + (b 9 <<< 16) + (b 8 <<< 8)
  let j := j + (b 7 <<< 24) + (b 6 <<< 16) + (b 5 <<< 8) + b 4
  let i := i + (b 3 <<< 24) + (b 2 <<< 16) + (b 1 <<< 8) + b 0
  (HASH_JEN_MIX i j hashv).2.2

end ChordPeer
