/-
  The store on its hash table (`generic/hash_helper.c` over
  `libraries/uthash.h`).

  An element is its handle and the fields of `HashElement`.  `uthash_malloc`
  answers by how many elements were allocated so far and by the size.  What an
  element that was just allocated has in its handle is `junk`, and what the
  pointer to a key points to stays as it is (`Buffers`).

  * `HashStore.get`, `set`, `delete_element` are the operations of the source;
  * `Stored`: the elements are those of a table of `Store`, in its order;
  * `calls_refine`: so along any sequence of calls the store answers as that
    table does, and no macro goes astray; it ends early when memory runs out,
    or when a key is deleted that is not there;
  * `calls_fsck`: the check of uthash never fails.
-/
import ChordPeer.Table
import ChordPeer.History

namespace ChordPeer

open Uthash

/-- `hash_table_head` with all that can be reached from it. -/
structure HashStore where
  hash_table : Hash
  elements : ℕ → HashElement

namespace HashStore

def empty : HashStore := ⟨Hash.empty, fun _ => ⟨[], [], 0⟩⟩

section
variable (uthash_malloc : ℕ → ℕ → Bool) (hash : List UInt8 → UInt32) (junk : ℕ → UT_hash_handle)

/-- `get`: the element that `HASH_FIND` puts out. -/
def get (s : HashStore) (key : List UInt8) : Except UthashFault (Option ℕ) :=
  HASH_FIND hash s.hash_table key

/-- `malloc` of an element, and the assignment of its key.  The other fields are
    not set yet. -/
def allocate (s : HashStore) (key : List UInt8) : HashStore :=
  let p := s.hash_table.allocated
  { hash_table := { s.hash_table with
      handles := Function.update s.hash_table.handles p (some (junk p)), allocated := p + 1 }
    elements := Function.update s.elements p { s.elements p with key := key } }

def set (s : HashStore) (key value : List UInt8) (value_length : UInt32) :
    Except UthashFault HashStore := do
  let (s, p) ← match ← get hash s key with
    | none => do
      let p := s.hash_table.allocated
      let s := s.allocate junk key
      let t ← HASH_ADD_KEYPTR (uthash_malloc s.hash_table.allocated) hash s.hash_table key p
      pure ({ s with hash_table := t }, p)
    | some p => pure (s, p)
  return { s with
    elements := Function.update s.elements p (HashTable.assign value value_length (s.elements p)) }

/-- `delete_element`.  Where there is no such element, `HASH_DEL` reads through
    the `NULL` that `get` returned. -/
def delete_element (s : HashStore) (key : List UInt8) : Except UthashFault HashStore := do
  let element ← get hash s key
  let t ← HASH_DELETE_HH s.hash_table element
  let handles := element.elim t.handles fun p => Function.update t.handles p none
  return { s with hash_table := { t with handles := handles } }

/-- A call, with the element that the pointer which it returns points to. -/
def call (s : HashStore) : Call → Except UthashFault (HashStore × Option HashElement)
  | .set key value value_length => do
    let s ← set uthash_malloc hash junk s key value value_length
    return (s, none)
  | .get key => do
    let p ← get hash s key
    return (s, p.map s.elements)
  | .delete_element key => do
    let s ← delete_element hash s key
    return (s, none)

def calls (s : HashStore) :
    List Call → Except UthashFault (HashStore × List (Option HashElement))
  | [] => .ok (s, [])
  | c :: cs => do
    let (s, o) ← call uthash_malloc hash junk s c
    let (s, os) ← calls s cs
    return (s, o :: os)

end

theorem allocate_key (s : HashStore) (junk : ℕ → UT_hash_handle) (key : List UInt8) :
    ((s.allocate junk key).elements s.hash_table.allocated).key = key := by
  simp [allocate]

/-! ## The table that is stored -/

/-- The elements `es` are in the hash table, and they hold what the table `t`
    holds. -/
structure Stored (hash : List UInt8 → UInt32) (s : HashStore) (es : List ℕ) (t : HashTable) :
    Prop where
  holds : Holds hash s.hash_table es
  elements : es.map s.elements = t
  keys : ∀ p ∈ es, ∀ e, s.hash_table.handles p = some e → e.key = (s.elements p).key
  nodup : KeyedList.NodupKeys HashElement.key t

section
variable {uthash_malloc : ℕ → ℕ → Bool} {hash : List UInt8 → UInt32}
  {s s' : HashStore} {es : List ℕ} {t : HashTable} {key : List UInt8} {p : ℕ}

theorem stored_empty : Stored hash empty [] [] :=
  ⟨Holds.empty.2 rfl, rfl, fun _ hp => absurd hp List.not_mem_nil, HashTable.nodupKeys_nil⟩

/-- An element is in the table under its key. -/
theorem Stored.get_mem (h : Stored hash s es t) (hp : p ∈ es) :
    HashTable.get t (s.elements p).key = some (s.elements p) :=
  h.nodup.find_mem (h.elements ▸ List.mem_map_of_mem hp)

theorem Stored.inj (h : Stored hash s es t) {q : ℕ} (hp : p ∈ es) (hq : q ∈ es)
    (hk : (s.elements q).key = (s.elements p).key) : q = p := by
  have hn : (es.map fun p => (s.elements p).key).Nodup := by
    have hn := h.nodup
    rw [KeyedList.NodupKeys, ← h.elements, List.map_map] at hn
    exact hn
  exact List.inj_on_of_nodup_map hn hq hp hk

/-- **`get`** finds what the table has under the key. -/
theorem Stored.get (h : Stored hash s es t) (key : List UInt8) :
    ∃ out, HashStore.get hash s key = .ok out ∧ out.map s.elements = HashTable.get t key ∧
      ∀ p, out = some p → p ∈ es ∧ (s.elements p).key = key := by
  obtain ⟨out, hout, hsome, hnone⟩ := h.holds.find key
  refine ⟨out, hout, ?_, ?_⟩
  · cases hp : out with
    | none =>
      -- no element in the table has the key
      refine (KeyedList.find_eq_none.2 fun x hx hk => ?_).symm
      rw [← h.elements] at hx
      obtain ⟨p, hpes, rfl⟩ := List.mem_map.1 hx
      obtain ⟨e, he, -⟩ := h.holds.hashed p hpes
      exact hnone hp p hpes e he ((h.keys p hpes e he).trans hk)
    | some p =>
      obtain ⟨hpes, e, he, hk⟩ := hsome p hp
      rw [← hk, h.keys p hpes e he]
      exact (h.get_mem hpes).symm
  · intro p hp
    obtain ⟨hpes, e, he, hk⟩ := hsome p hp
    exact ⟨hpes, by rw [← h.keys p hpes e he, hk]⟩

/-- The value of an element is assigned. -/
theorem Stored.assign (h : Stored hash s es t) (hp : p ∈ es) (value : List UInt8) (n : UInt32) :
    Stored hash { s with
        elements := Function.update s.elements p (HashTable.assign value n (s.elements p)) } es
      (KeyedList.update HashElement.key (HashTable.assign value n) t (s.elements p).key) where
  holds := h.holds
  elements := by
    rw [← h.elements]
    exact KeyedList.map_function_update h.holds.nodup (fun q hq => h.inj hp hq) _
  keys q hq e he := by
    rw [h.keys q hq e he]
    show _ = (Function.update s.elements p _ q).key
    by_cases hqp : q = p
    · subst hqp
      rw [Function.update_self]
      rfl
    · rw [Function.update_of_ne hqp]
  nodup := h.nodup.update (f := HashTable.assign value n) (fun _ => rfl) _

/-- **A new element**, unless memory runs out. -/
theorem Stored.add (h : Stored hash s es t) (junk : ℕ → UT_hash_handle)
    (hm : ∀ n, Bounded (uthash_malloc n))
    (hk : HashTable.get t key = none) :
    let s₀ := s.allocate junk key
    let p := s.hash_table.allocated
    HASH_ADD_KEYPTR (uthash_malloc s₀.hash_table.allocated) hash s₀.hash_table key p =
        .error .outOfMemory ∨
      ∃ u, HASH_ADD_KEYPTR (uthash_malloc s₀.hash_table.allocated) hash s₀.hash_table key p = .ok u ∧
        Stored hash { s₀ with hash_table := u } (es ++ [p])
          (t ++ [s₀.elements p]) := by
  intro s₀ p
  have hp : p ∉ es := fun hp => Nat.lt_irrefl _ (h.holds.allocated p hp)
  have hne : ∀ q ∈ es, q ≠ p := fun q hq => ne_of_mem_of_not_mem hq hp
  have h₀ : Holds hash s₀.hash_table es :=
    h.holds.congr (fun q hq => Function.update_of_ne (hne q hq) _ _) (Nat.le_succ p) rfl rfl
  have hlive : s₀.hash_table.handles p = some (junk p) := Function.update_self _ _ _
  have hself : (s₀.elements p).key = key := allocate_key s junk key
  rcases h₀.add_keyptr (hm _) hp (Nat.lt_succ_self p) hlive key with hoom | ⟨u, hu, hholds, hx, hrest, -⟩
  · exact .inl hoom
  · refine .inr ⟨u, hu, hholds, ?_, ?_, ?_⟩
    · rw [List.map_append, List.map_singleton, ← h.elements]
      congr 1
      exact List.map_congr_left fun q hq => Function.update_of_ne (hne q hq) _ _
    · intro q hq e he
      rcases List.mem_append.1 hq with hq | hq
      · -- the label of another element is what it was
        have hlabel := hrest q (hne q hq)
        have hold : s₀.hash_table.handles q = s.hash_table.handles q :=
          Function.update_of_ne (hne q hq) _ _
        rw [hold] at hlabel
        obtain ⟨e', he', -⟩ := h.holds.hashed q hq
        have he : u.handles q = some e := he
        rw [he, he'] at hlabel
        have hkey : e.key = e'.key := congrArg Prod.fst (Option.some.inj hlabel)
        show e.key = (s₀.elements q).key
        rw [hkey, h.keys q hq e' he']
        exact congrArg HashElement.key (Function.update_of_ne (hne q hq) _ _).symm
      · obtain rfl := List.mem_singleton.1 hq
        obtain ⟨e', he', hk'⟩ := hx
        obtain rfl : e' = e := Option.some.inj (he'.symm.trans he)
        show e'.key = (s₀.elements _).key
        exact hk'.trans hself.symm
    · refine h.nodup.concat ?_
      rw [hself]
      exact hk

/-- **`set`.** -/
theorem Stored.set (h : Stored hash s es t) (junk : ℕ → UT_hash_handle)
    (hm : ∀ n, Bounded (uthash_malloc n)) (key value : List UInt8) (n : UInt32) :
    HashStore.set uthash_malloc hash junk s key value n = .error .outOfMemory ∨
      ∃ s' es', HashStore.set uthash_malloc hash junk s key value n = .ok s' ∧
        Stored hash s' es' (HashTable.set t key value n) := by
  obtain ⟨out, hout, hget, hmem⟩ := h.get key
  rw [HashStore.set, hout]
  cases hp : out with
  | some p =>
    obtain ⟨hpes, hk⟩ := hmem p hp
    have hsome : HashTable.get t key = some (s.elements p) := by
      rw [← hget, hp]
      rfl
    have hassign := h.assign hpes value n
    rw [hk] at hassign
    refine .inr ⟨_, es, rfl, ?_⟩
    rw [HashTable.set, hsome]
    exact hassign
  | none =>
    have hnone : HashTable.get t key = none := by
      rw [← hget, hp]
      rfl
    rcases h.add junk hm hnone with hoom | ⟨u, hu, hstored⟩
    · left
      simp only [bind, Except.bind, hoom]
    · let s₀ := s.allocate junk key
      let p := s.hash_table.allocated
      have hself : (s₀.elements p).key = key := allocate_key s junk key
      have hlast : KeyedList.update HashElement.key (HashTable.assign value n) (t ++ [s₀.elements p])
          (s₀.elements p).key = t ++ [⟨key, value, n⟩] := by
        rw [KeyedList.update_concat (by rw [hself]; exact hnone), HashTable.assign, hself]
      have hassign := hstored.assign (List.mem_append_right es (List.mem_singleton_self _)) value n
      rw [hlast] at hassign
      rw [HashTable.set, hnone]
      refine .inr ⟨_, es ++ [p], ?_, hassign⟩
      simp only [bind, Except.bind, pure, Except.pure, hu]

/-- **`delete_element`** of a key that is there. -/
theorem Stored.delete (h : Stored hash s es t) (hk : (HashTable.get t key).isSome) :
    ∃ s' es', HashStore.delete_element hash s key = .ok s' ∧
      Stored hash s' es' (KeyedList.erase HashElement.key t key) := by
  obtain ⟨out, hout, hget, hmem⟩ := h.get key
  obtain ⟨p, rfl⟩ : ∃ p, out = some p := by
    rw [← hget, Option.isSome_map] at hk
    exact Option.isSome_iff_exists.1 hk
  obtain ⟨hpes, rfl⟩ := hmem p rfl
  obtain ⟨l₁, l₂, rfl⟩ := List.append_of_mem hpes
  obtain ⟨u, hu, hholds, hrel, ha⟩ := h.holds.delete
  have hpn : p ∉ l₁ ++ l₂ := (List.nodup_cons.1 (List.nodup_middle.1 h.holds.nodup)).1
  have hmem' : ∀ q ∈ l₁ ++ l₂, q ∈ l₁ ++ p :: l₂ := fun q hq =>
    (List.mem_append.1 hq).elim (List.mem_append_left _)
      fun hq => List.mem_append_right _ (List.mem_cons_of_mem p hq)
  let u' : Hash := { u with handles := Function.update u.handles p none }
  have hu' : Holds hash u' (l₁ ++ l₂) :=
    hholds.congr (fun q hq => Function.update_of_ne (ne_of_mem_of_not_mem hq hpn) _ _) le_rfl rfl rfl
  refine ⟨{ s with hash_table := u' }, l₁ ++ l₂, ?_, hu', ?_, ?_, h.nodup.erase _⟩
  · rw [HashStore.delete_element, hout]
    show HASH_DELETE_HH s.hash_table (some p) >>= _ = _
    rw [hu]
    rfl
  · have hbefore : ∀ x ∈ l₁.map s.elements, ¬ decide (x.key = (s.elements p).key) = true := by
      intro x hx
      obtain ⟨q, hq, rfl⟩ := List.mem_map.1 hx
      rw [decide_eq_true_iff]
      intro hkey
      exact hpn (h.inj hpes (List.mem_append_left _ hq) hkey ▸ List.mem_append_left _ hq)
    have hmap : (l₁ ++ p :: l₂).map s.elements =
        l₁.map s.elements ++ s.elements p :: l₂.map s.elements := by simp
    have hself : decide ((s.elements p).key = (s.elements p).key) = true := decide_eq_true rfl
    rw [← h.elements, hmap, KeyedList.erase, List.eraseP_append_right _ hbefore,
      List.eraseP_cons_of_pos (p := fun e : HashElement => decide (e.key = (s.elements p).key)) hself]
    exact List.map_append
  · intro q hq e he
    have he : u.handles q = some e :=
      (Function.update_of_ne (ne_of_mem_of_not_mem hq hpn) _ _).symm.trans he
    obtain ⟨e', he', -⟩ := h.holds.hashed q (hmem' q hq)
    have hlabel := hrel q
    rw [he, he'] at hlabel
    have hkey : e.key = e'.key := congrArg Prod.fst (Option.some.inj hlabel)
    rw [hkey]
    exact h.keys q (hmem' q hq) e' he'

/-- `delete_element` of a key that is not there. -/
theorem Stored.delete_none (h : Stored hash s es t) (hk : HashTable.get t key = none) :
    HashStore.delete_element hash s key = .error .null := by
  obtain ⟨out, hout, hget, -⟩ := h.get key
  rw [hk, Option.map_eq_none_iff] at hget
  rw [HashStore.delete_element, hout, hget]
  rfl

/-- **One call** answers as on the table that is stored. -/
theorem Stored.call (h : Stored hash s es t) (junk : ℕ → UT_hash_handle)
    (hm : ∀ n, Bounded (uthash_malloc n)) (c : Call) :
    HashStore.call uthash_malloc hash junk s c = .error .outOfMemory ∨
      (HashStore.call uthash_malloc hash junk s c = .error .null ∧ HashTable.call t c = none) ∨
      ∃ s' es' t' o, HashStore.call uthash_malloc hash junk s c = .ok (s', o) ∧
        HashTable.call t c = some (t', o) ∧ Stored hash s' es' t' := by
  cases c with
  | set key value n =>
    rw [HashStore.call]
    rcases h.set junk hm key value n with hoom | ⟨s', es', hs', hstored⟩
    · left
      rw [hoom]
      rfl
    · refine .inr (.inr ⟨s', es', _, none, ?_, rfl, hstored⟩)
      rw [hs']
      rfl
  | get key =>
    obtain ⟨out, hout, hget, -⟩ := h.get key
    refine .inr (.inr ⟨s, es, t, HashTable.get t key, ?_, rfl, h⟩)
    rw [HashStore.call, hout, ← hget]
    rfl
  | delete_element key =>
    rw [HashStore.call, HashTable.call, HashTable.delete_element]
    cases hk : HashTable.get t key with
    | none =>
      refine .inr (.inl ⟨?_, rfl⟩)
      rw [h.delete_none hk]
      rfl
    | some e =>
      have hsome : (HashTable.get t key).isSome := by
        rw [hk]
        rfl
      obtain ⟨s', es', hs', hstored⟩ := h.delete hsome
      refine .inr (.inr ⟨s', es', _, none, ?_, rfl, hstored⟩)
      rw [hs']
      rfl

/-- **A sequence of calls.** -/
theorem Stored.calls (h : Stored hash s es t) (junk : ℕ → UT_hash_handle)
    (hm : ∀ n, Bounded (uthash_malloc n)) (cs : List Call) :
    HashStore.calls uthash_malloc hash junk s cs = .error .outOfMemory ∨
      (HashStore.calls uthash_malloc hash junk s cs = .error .null ∧
        Machine.run HashTable.call t cs = none) ∨
      ∃ s' es' t' os, HashStore.calls uthash_malloc hash junk s cs = .ok (s', os) ∧
        Machine.run HashTable.call t cs = some (t', os) ∧ Stored hash s' es' t' := by
  induction cs generalizing s es t with
  | nil => exact .inr (.inr ⟨s, es, t, [], rfl, rfl, h⟩)
  | cons c cs ih =>
    rw [HashStore.calls]
    rcases h.call junk hm c with hc | ⟨hc, ht⟩ | ⟨s₁, es₁, t₁, o, hc, ht, h₁⟩
    · left
      rw [hc]
      rfl
    · refine .inr (.inl ⟨?_, ?_⟩)
      · rw [hc]
        rfl
      · rw [Machine.run, ht]
    · rw [hc]
      rcases ih h₁ with hcs | ⟨hcs, hts⟩ | ⟨s', es', t', os, hcs, hts, h'⟩
      · left
        show (HashStore.calls uthash_malloc hash junk s₁ cs >>= _) = _
        rw [hcs]
        rfl
      · refine .inr (.inl ⟨?_, ?_⟩)
        · show (HashStore.calls uthash_malloc hash junk s₁ cs >>= _) = _
          rw [hcs]
          rfl
        · rw [Machine.run, ht]
          exact Option.map_eq_none_iff.2 hts
      · refine .inr (.inr ⟨s', es', t', o :: os, ?_, Machine.run_cons.2 ⟨t₁, o, os, ht, hts, rfl⟩, h'⟩)
        show (HashStore.calls uthash_malloc hash junk s₁ cs >>= _) = _
        rw [hcs]
        rfl

end

/-! ## All runs -/

section
variable {uthash_malloc : ℕ → ℕ → Bool} (hm : ∀ n, Bounded (uthash_malloc n))
  (hash : List UInt8 → UInt32) (junk : ℕ → UT_hash_handle)
include hm

/-- **The hash table refines the list of its elements.**  Whatever the hash
    function and whatever memory there is, calls on the empty store answer as
    on that list, and the elements in the buckets are those of the list; else
    memory runs out, or a key is deleted that is not there. -/
theorem calls_refine (cs : List Call) :
    match calls uthash_malloc hash junk empty cs with
    | .ok (s, os) => ∃ es t, Machine.run HashTable.call [] cs = some (t, os) ∧ Stored hash s es t
    | .error f => f = .outOfMemory ∨ f = .null ∧ Machine.run HashTable.call [] cs = none := by
  rcases stored_empty.calls junk hm cs with
    h | ⟨h, ht⟩ | ⟨s, es, t, os, h, ht, hstored⟩
  · rw [h]
    exact .inl rfl
  · rw [h]
    exact .inr ⟨rfl, ht⟩
  · rw [h]
    exact ⟨es, t, ht, hstored⟩

/-- **In every state that calls lead to, `HASH_FSCK` passes**: each bucket has
    as many elements as it says, the buckets have as many as the table says, as
    has the list of all elements, and every element knows the one before it. -/
theorem calls_fsck {cs : List Call} {s : HashStore}
    {os : List (Option HashElement)} (h : calls uthash_malloc hash junk empty cs = .ok (s, os)) :
    HASH_FSCK s.hash_table = .ok () := by
  rcases stored_empty.calls junk hm cs with
    h' | ⟨h', -⟩ | ⟨s', es, t, os', h', -, hstored⟩ <;> rw [h] at h'
  · cases h'
  · cases h'
  · cases h'
    exact hstored.holds.fsck

end

/-- Memory for a table and a few thousand buckets. -/
def small_malloc (_ n : ℕ) : Bool := n < 65536

theorem small_malloc_bounded (n : ℕ) : Bounded (small_malloc n) := by
  intro size hsize
  exact decide_eq_false (by omega)

/-- Keys that all collide, and elements that have other pointers in them. -/
theorem calls_refine_collision :
    ∃ s es, calls small_malloc (fun _ => 7)
        (fun p => ⟨some p, some p, some p, some p, [], 0, 0⟩) empty
        [.set [1] [2] 1, .set [3] [4] 1, .set [5] [6] 1, .delete_element [3], .get [5]] =
          .ok (s, [none, none, none, none, some ⟨[5], [6], 1⟩]) ∧
      Stored (fun _ => 7) s es [⟨[1], [2], 1⟩, ⟨[5], [6], 1⟩] := by
  obtain ⟨es, t, ht, hs⟩ := calls_refine small_malloc_bounded (fun _ => 7)
    (fun p => ⟨some p, some p, some p, some p, [], 0, 0⟩)
    [.set [1] [2] 1, .set [3] [4] 1, .set [5] [6] 1, .delete_element [3], .get [5]]
  cases ht
  exact ⟨_, es, rfl, hs⟩

/-- Eleven keys that collide. -/
theorem calls_fsck_expanded :
    ∃ s os, calls small_malloc (fun _ => 7)
        (fun p => ⟨some p, some p, some p, some p, [], 0, 0⟩) empty
        ((List.range 11).map fun k => .set [UInt8.ofNat k] [] 0) = .ok (s, os) ∧
      HASH_FSCK s.hash_table = .ok () := by
  obtain ⟨s, os, h⟩ : ∃ s os, calls small_malloc (fun _ => 7)
      (fun p => ⟨some p, some p, some p, some p, [], 0, 0⟩) empty
      ((List.range 11).map fun k => .set [UInt8.ofNat k] [] 0) = .ok (s, os) := ⟨_, _, rfl⟩
  exact ⟨s, os, h, calls_fsck small_malloc_bounded _ _ h⟩

/-- The tenth one makes twice as many buckets, which does not help. -/
example : (calls small_malloc (fun _ => 7)
      (fun p => ⟨some p, some p, some p, some p, [], 0, 0⟩) empty
      ((List.range 11).map fun k => .set [UInt8.ofNat k] [] 0)).map (fun r =>
        r.1.hash_table.tbl.map fun tbl => (tbl.num_buckets, tbl.ineff_expands, tbl.nonideal_items)) =
    .ok (some (64, 1, 9)) := rfl

end HashStore

end ChordPeer
