/-
  The store in memory (`generic/hash_helper.c`): the blocks that an element
  points to, and those of the callers.

  `set` copies the key of a new element to a block of its own, and then gives
  uthash the pointer it was called with.  What lies behind that pointer is
  compared by `HASH_FIND` from then on.

  * `BufferTable.get`, `set`, `delete_element` are the operations of the source
    on blocks;
  * `Element.Sound`: an element is compared by the key it has a copy of;
    `Stands` is the invariant, with the table of `Store` that the blocks hold;
  * `stands_step`: a call then does what it does on that table, and a caller's
    overwrite nothing if it keeps the bytes that are compared;
  * `buffers_kept`: so along all such runs every element is found by its key.
-/
import ChordPeer.Process
import ChordPeer.History

namespace ChordPeer

open CBytes

/-! ## Elements in memory -/

/-- `struct HashElement` with the fields of its `UT_hash_handle` that a lookup
    reads.  The struct itself is known by the number `self`. -/
structure Element where
  self : ℕ
  key : Heap.Ptr
  value : Heap.Ptr
  value_length : UInt32
  hh_key : Heap.Ptr
  hh_keylen : ℕ
  hh_hashv : UInt32

/-- The orders in which the calls of `HASH_FIND` come upon the elements.  A new
    element is the first of its bucket, and expanding the buckets moves them;
    elements with one hash value are in one bucket. -/
structure Chains where
  order : ℕ → List Element → List Element
  perm : ∀ n es, (order n es).Perm es

/-- The globals of `hash_helper.c`, the heap, and the numbers of structs
    allocated and of lookups made. -/
structure BufferTable where
  heap : Heap
  hash_table_head : List Element
  structs : ℕ
  finds : ℕ

/-- `HASH_FIND_IN_BKT`. -/
def HASH_FIND_IN_BKT (heap : Heap) (keyptr : Heap.Ptr) (keylen : ℕ) (hashval : UInt32) :
    List Element → Except HeapFault (Option Element)
  | [] => .ok none
  | out :: rest =>
    if out.hh_hashv = hashval ∧ out.hh_keylen = keylen then do
      let stored ← heap.read out.hh_key 0 keylen
      let given ← heap.read keyptr 0 keylen
      if stored = given then return some out
      else HASH_FIND_IN_BKT heap keyptr keylen hashval rest
    else HASH_FIND_IN_BKT heap keyptr keylen hashval rest

namespace BufferTable

variable (hash : List UInt8 → UInt32) (chains : Chains)

/-- `get`: `HASH_FIND`. -/
def get (s : BufferTable) (key : Heap.Ptr) (key_len : UInt16) :
    Except HeapFault (Option Element × BufferTable) := do
  if s.hash_table_head.isEmpty then return (none, s)
  let bytes ← s.heap.read key 0 key_len.toNat
  let out ← HASH_FIND_IN_BKT s.heap key key_len.toNat (hash bytes)
    (chains.order s.finds s.hash_table_head)
  return (out, { s with finds := s.finds + 1 })

/-- A new element: its key is copied, and `HASH_ADD_KEYPTR` appends it. -/
def add (s : BufferTable) (key : Heap.Ptr) (key_len : UInt16) :
    Except HeapFault (Element × BufferTable) := do
  let (s_key, heap) := s.heap.malloc key_len.toNat
  let heap ← heap.memcpy s_key key key_len.toNat
  let bytes ← heap.read key 0 key_len.toNat
  let e : Element :=
    { self := s.structs, key := s_key, value := none, value_length := 0
      -- the pointer of the caller, not `s_key`
      hh_key := key, hh_keylen := key_len.toNat, hh_hashv := hash bytes }
  return (e, { s with
    heap := heap, hash_table_head := s.hash_table_head ++ [e], structs := s.structs + 1 })

/-- The assignments of `set` to the element it found or added. -/
def assign (value : Heap.Ptr) (value_length : UInt32) (e : Element) : Element :=
  { e with value := value, value_length := value_length }

/-- The rest of `set`: the value is copied. -/
def put (s : BufferTable) (e : Element) (value : Heap.Ptr) (value_length : UInt32) :
    Except HeapFault BufferTable := do
  let (s_value, heap) := s.heap.malloc value_length.toNat
  let heap ← heap.memcpy s_value value value_length.toNat
  return { s with
    heap := heap
    hash_table_head :=
      KeyedList.update Element.self (assign s_value value_length) s.hash_table_head e.self }

def set (s : BufferTable) (key : Heap.Ptr) (key_len : UInt16) (value : Heap.Ptr)
    (value_length : UInt32) : Except HeapFault BufferTable := do
  let (found, s) ← get hash chains s key key_len
  let (e, s) ← match found with
    | none => add hash s key key_len
    | some e => pure (e, s)
  put s e value value_length

/-- `delete_element`; `none` where `HASH_DEL` reads through the `NULL` that
    `get` returned. -/
def delete_element (s : BufferTable) (key : Heap.Ptr) (key_len : UInt16) :
    Except HeapFault (Option BufferTable) := do
  let (element, s) ← get hash chains s key key_len
  match element with
  | none => return none
  | some e =>
    return some { s with
      hash_table_head := KeyedList.erase Element.self s.hash_table_head e.self }

end BufferTable

/-! ## What an element holds -/

/-- The bytes behind a pointer. -/
def shown (heap : Heap) (p : Heap.Ptr) (n : ℕ) : List UInt8 := (heap.read p 0 n).toOption.getD []

/-- The element as `Store` has it: its own copy of the key, and its value. -/
def Element.content (heap : Heap) (e : Element) : HashElement where
  key := shown heap e.key e.hh_keylen
  value := shown heap e.value e.value_length.toNat
  value_length := e.value_length

/-- The three blocks are there, and the bytes that a lookup compares are those
    of the key that the element has a copy of. -/
structure Element.Sound (hash : List UInt8 → UInt32) (heap : Heap) (e : Element) : Prop where
  key : heap.read e.key 0 e.hh_keylen = .ok (e.content heap).key
  compared : heap.read e.hh_key 0 e.hh_keylen = .ok (e.content heap).key
  hashv : e.hh_hashv = hash (e.content heap).key
  value : heap.read e.value 0 e.value_length.toNat = .ok (e.content heap).value

section
variable {hash : List UInt8 → UInt32} {heap heap' : Heap} {e : Element}

theorem shown_of_read {p : Heap.Ptr} {n : ℕ} {bs : List UInt8} (h : heap.read p 0 n = .ok bs) :
    shown heap p n = bs := by
  rw [shown, h]
  rfl

theorem Element.Sound.keylen (h : e.Sound hash heap) : e.hh_keylen = (e.content heap).key.length :=
  (Heap.read_length h.key).symm

/-- An element whose three blocks read the same is the same. -/
theorem Element.Sound.congr (h : e.Sound hash heap)
    (hkey : heap'.read e.key 0 e.hh_keylen = heap.read e.key 0 e.hh_keylen)
    (hcmp : heap'.read e.hh_key 0 e.hh_keylen = heap.read e.hh_key 0 e.hh_keylen)
    (hval : heap'.read e.value 0 e.value_length.toNat = heap.read e.value 0 e.value_length.toNat) :
    e.content heap' = e.content heap ∧ e.Sound hash heap' := by
  have hc : e.content heap' = e.content heap := by
    simp only [content, shown, hkey, hval]
  refine ⟨hc, ?_, ?_, ?_, ?_⟩
  · rw [hc, hkey, h.key]
  · rw [hc, hcmp, h.compared]
  · rw [hc, h.hashv]
  · rw [hc, hval, h.value]

theorem Element.Sound.grows (h : e.Sound hash heap) (ha : heap.Allocated) (g : heap.Grows heap') :
    e.content heap' = e.content heap ∧ e.Sound hash heap' := by
  refine h.congr ?_ ?_ ?_
  · rw [g.read ha h.key, h.key]
  · rw [g.read ha h.compared, h.compared]
  · rw [g.read ha h.value, h.value]

/-- **A lookup among sound elements** finds one whose key has the bytes given,
    if there is one. -/
theorem find_in_bkt {key : Heap.Ptr} {n : ℕ} {k : List UInt8} (hk : heap.read key 0 n = .ok k)
    {es : List Element} (hs : ∀ e ∈ es, e.Sound hash heap) :
    ∃ out, HASH_FIND_IN_BKT heap key n (hash k) es = .ok out ∧
      (∀ e, out = some e → e ∈ es ∧ (e.content heap).key = k) ∧
      (out = none → ∀ e ∈ es, (e.content heap).key ≠ k) := by
  induction es with
  | nil => exact ⟨none, rfl, by simp, by simp⟩
  | cons e es ih =>
    obtain ⟨he, hes⟩ := List.forall_mem_cons.1 hs
    obtain ⟨out, hout, hsome, hnone⟩ := ih hes
    by_cases hek : (e.content heap).key = k
    · refine ⟨some e, ?_, ?_, by simp⟩
      · have hcond : e.hh_hashv = hash k ∧ e.hh_keylen = n := by
          rw [he.hashv, he.keylen, hek]
          exact ⟨rfl, Heap.read_length hk⟩
        have hcmp : heap.read e.hh_key 0 n = .ok k := by
          rw [← hcond.2, he.compared, hek]
        rw [HASH_FIND_IN_BKT, if_pos hcond, hcmp, hk]
        exact if_pos rfl
      · rintro _ ⟨⟩
        exact ⟨List.mem_cons_self, hek⟩
    · refine ⟨out, ?_, ?_, ?_⟩
      · rw [HASH_FIND_IN_BKT]
        split
        · next hcond =>
          have hcmp : heap.read e.hh_key 0 n = .ok (e.content heap).key := by
            rw [← hcond.2, he.compared]
          rw [hcmp, hk]
          exact (if_neg hek).trans hout
        · exact hout
      · intro e' he'
        obtain ⟨hmem, hkey⟩ := hsome e' he'
        exact ⟨List.mem_cons_of_mem e hmem, hkey⟩
      · intro h
        exact List.forall_mem_cons.2 ⟨hek, hnone h⟩

end

/-! ## The table that the blocks hold -/

/-- The table, and the blocks that callers allocated. -/
structure Shared where
  store : BufferTable
  callers : List ℕ

/-- The table of `Store` in these blocks. -/
def Shared.table (w : Shared) : HashTable :=
  w.store.hash_table_head.map (Element.content w.store.heap)

/-- All elements are sound, no two have one key, and what they point to for
    themselves is not a caller's. -/
structure Stands (hash : List UInt8 → UInt32) (w : Shared) : Prop where
  allocated : w.store.heap.Allocated
  sound : ∀ e ∈ w.store.hash_table_head, e.Sound hash w.store.heap
  keys : KeyedList.NodupKeys HashElement.key w.table
  selves : KeyedList.NodupKeys Element.self w.store.hash_table_head
  numbered : ∀ e ∈ w.store.hash_table_head, e.self < w.store.structs
  own : ∀ e ∈ w.store.hash_table_head, ∀ b, e.key = some b ∨ e.value = some b →
    b < w.store.heap.next ∧ b ∉ w.callers
  callers : ∀ b ∈ w.callers, b < w.store.heap.next

section
variable {hash : List UInt8 → UInt32} {chains : Chains} {w : Shared} {e : Element}
  {key value : Heap.Ptr} {key_len : UInt16} {value_length : UInt32} {k v : List UInt8}

theorem Stands.unique (h : Stands hash w) (he : e ∈ w.store.hash_table_head) :
    ∀ x ∈ w.store.hash_table_head,
      x.self = e.self ↔ (x.content w.store.heap).key = (e.content w.store.heap).key := by
  intro x hx
  have hkeys : (w.store.hash_table_head.map fun e => (e.content w.store.heap).key).Nodup := by
    have hn := h.keys
    rw [KeyedList.NodupKeys, Shared.table, List.map_map] at hn
    exact hn
  constructor
  · intro hs
    rw [List.inj_on_of_nodup_map h.selves hx he hs]
  · intro hk
    rw [List.inj_on_of_nodup_map hkeys hx he hk]

/-- What `get` returns. -/
theorem Stands.get (h : Stands hash w) (hk : w.store.heap.read key 0 key_len.toNat = .ok k) :
    ∃ out n, w.store.get hash chains key key_len = .ok (out, { w.store with finds := n }) ∧
      (∀ e, out = some e → e ∈ w.store.hash_table_head ∧ (e.content w.store.heap).key = k) ∧
      (out = none → ∀ e ∈ w.store.hash_table_head, (e.content w.store.heap).key ≠ k) := by
  unfold BufferTable.get
  cases he : w.store.hash_table_head with
  | nil => exact ⟨none, w.store.finds, rfl, by simp, by simp⟩
  | cons e es =>
    rw [← he]
    have hp := chains.perm w.store.finds w.store.hash_table_head
    obtain ⟨out, hout, hsome, hnone⟩ := find_in_bkt hk fun e he => h.sound e (hp.mem_iff.1 he)
    refine ⟨out, w.store.finds + 1, ?_, ?_, ?_⟩
    · have hne : w.store.hash_table_head.isEmpty = false := by rw [he]; rfl
      rw [hne, hk]
      show HASH_FIND_IN_BKT _ _ _ _ _ >>= _ = _
      rw [hout]
      rfl
    · intro e he
      obtain ⟨hmem, hkey⟩ := hsome e he
      exact ⟨hp.mem_iff.1 hmem, hkey⟩
    · intro hn e he
      exact hnone hn e (hp.mem_iff.2 he)

/-- What `get` returns is what the table has. -/
theorem Stands.table_get (h : Stands hash w) {out : Option Element}
    (hsome : ∀ e, out = some e → e ∈ w.store.hash_table_head ∧ (e.content w.store.heap).key = k)
    (hnone : out = none → ∀ e ∈ w.store.hash_table_head, (e.content w.store.heap).key ≠ k) :
    w.table.get k = out.map (Element.content w.store.heap) := by
  cases out with
  | none =>
    refine KeyedList.find_eq_none.2 ?_
    intro a ha
    obtain ⟨e, he, rfl⟩ := List.mem_map.1 ha
    exact hnone rfl e he
  | some e =>
    obtain ⟨he, rfl⟩ := hsome e rfl
    exact h.keys.find_mem (List.mem_map_of_mem he)

/-- The blocks that are there stay as they are while new ones come. -/
theorem Stands.contents (h : Stands hash w) {heap : Heap} (g : w.store.heap.Grows heap) :
    ∀ e ∈ w.store.hash_table_head, e.content heap = e.content w.store.heap ∧ e.Sound hash heap :=
  fun e he => (h.sound e he).grows h.allocated g

/-- A block that comes next is no caller's. -/
theorem Stands.new_block (h : Stands hash w) {heap : Heap}
    (hnext : heap.next = w.store.heap.next + 1) :
    w.store.heap.next < heap.next ∧ w.store.heap.next ∉ w.callers := by
  refine ⟨by rw [hnext]; exact Nat.lt_succ_self _, fun hb => ?_⟩
  exact absurd (h.callers _ hb) (Nat.lt_irrefl _)

/-- The table in a heap that grew, with one element `e` that is new or has
    changed. -/
theorem Stands.with_element (h : Stands hash w) {heap : Heap} (ha : heap.Allocated)
    (g : w.store.heap.Grows heap) {es : List Element} {n : ℕ} (hn : w.store.structs ≤ n)
    (hmem : ∀ x ∈ es, x ∈ w.store.hash_table_head ∨ x = e) (he : e.Sound hash heap)
    (hlt : e.self < n)
    (hown : ∀ b, e.key = some b ∨ e.value = some b → b < heap.next ∧ b ∉ w.callers)
    (hkeys : KeyedList.NodupKeys HashElement.key (es.map (Element.content heap)))
    (hselves : KeyedList.NodupKeys Element.self es) :
    Stands hash
      ⟨{ w.store with heap := heap, hash_table_head := es, structs := n }, w.callers⟩ := by
  constructor
  · exact ha
  · intro x hx
    rcases hmem x hx with hx | rfl
    · exact (h.contents g x hx).2
    · exact he
  · exact hkeys
  · exact hselves
  · intro x hx
    rcases hmem x hx with hx | rfl
    · exact (h.numbered x hx).trans_le hn
    · exact hlt
  · intro x hx b hb
    rcases hmem x hx with hx | rfl
    · exact (h.own x hx b hb).imp_left fun hlt => hlt.trans_le g.next
    · exact hown b hb
  · intro b hb
    exact (h.callers b hb).trans_le g.next

/-- **A new element**, as yet without a value. -/
theorem Stands.add (h : Stands hash w) (hk : w.store.heap.read key 0 key_len.toNat = .ok k)
    (hnone : ∀ e ∈ w.store.hash_table_head, (e.content w.store.heap).key ≠ k) :
    ∃ e s, w.store.add hash key key_len = .ok (e, s) ∧ w.store.heap.Grows s.heap ∧
      Stands hash ⟨s, w.callers⟩ ∧ e ∈ s.hash_table_head ∧ (e.content s.heap).key = k ∧
      Shared.table ⟨s, w.callers⟩ = w.table ++ [⟨k, [], 0⟩] := by
  obtain ⟨heap, hcopy, hnext, g, ha, hread⟩ := Heap.malloc_memcpy h.allocated hk
  have hk' : heap.read key 0 key_len.toNat = .ok k := g.read h.allocated hk
  let e : Element :=
    { self := w.store.structs, key := some w.store.heap.next, value := none, value_length := 0
      hh_key := key, hh_keylen := key_len.toNat, hh_hashv := hash k }
  let s : BufferTable := { w.store with
    heap := heap
    hash_table_head := w.store.hash_table_head ++ [e]
    structs := w.store.structs + 1 }
  have hadd : w.store.add hash key key_len = .ok (e, s) := by
    unfold BufferTable.add
    dsimp only
    rw [hcopy]
    show heap.read key 0 key_len.toNat >>= _ = _
    rw [hk']
    rfl
  have hcontent : e.content heap = ⟨k, [], 0⟩ := by
    simp only [Element.content, e, shown_of_read hread]
    rfl
  have hmem : ∀ x ∈ s.hash_table_head, x ∈ w.store.hash_table_head ∨ x = e := by
    intro x hx
    exact (List.mem_append.1 hx).imp_right List.mem_singleton.1
  have htable : Shared.table ⟨s, w.callers⟩ = w.table ++ [⟨k, [], 0⟩] := by
    have hold : w.store.hash_table_head.map (Element.content heap) = w.table :=
      List.map_congr_left fun x hx => (h.contents g x hx).1
    show (w.store.hash_table_head ++ [e]).map (Element.content heap) = _
    rw [List.map_append, hold, List.map_singleton, hcontent]
  have hsound : e.Sound hash heap := by
    constructor
    · rw [hcontent]
      exact hread
    · rw [hcontent]
      exact hk'
    · rw [hcontent]
    · rw [hcontent]
      rfl
  refine ⟨e, s, hadd, g, ?_, by simp [s], by rw [hcontent], htable⟩
  refine h.with_element ha g (Nat.le_succ _) hmem hsound (Nat.lt_succ_self _) ?_ ?_ ?_
  · rintro b (hb | hb)
    · cases hb
      exact h.new_block hnext
    · cases hb
  · show KeyedList.NodupKeys HashElement.key (Shared.table ⟨s, w.callers⟩)
    rw [htable]
    refine h.keys.concat (KeyedList.find_eq_none.2 ?_)
    intro a ha
    obtain ⟨x, hx, rfl⟩ := List.mem_map.1 ha
    exact hnone x hx
  · refine h.selves.concat (KeyedList.find_eq_none.2 ?_)
    intro x hx
    exact (h.numbered x hx).ne

/-- **A new value** for an element. -/
theorem Stands.put (h : Stands hash w) (he : e ∈ w.store.hash_table_head)
    (hv : w.store.heap.read value 0 value_length.toNat = .ok v) :
    ∃ s, w.store.put e value value_length = .ok s ∧ Stands hash ⟨s, w.callers⟩ ∧
      Shared.table ⟨s, w.callers⟩ = KeyedList.update HashElement.key
        (HashTable.assign v value_length) w.table (e.content w.store.heap).key := by
  obtain ⟨heap, hcopy, hnext, g, ha, hread⟩ := Heap.malloc_memcpy h.allocated hv
  let f := BufferTable.assign (some w.store.heap.next) value_length
  let s : BufferTable := { w.store with
    heap := heap
    hash_table_head := KeyedList.update Element.self f w.store.hash_table_head e.self }
  have hput : w.store.put e value value_length = .ok s := by
    unfold BufferTable.put
    dsimp only
    rw [hcopy]
    rfl
  have hself : ∀ x, (f x).self = x.self := fun _ => rfl
  -- the element with its new value
  have hf : (f e).content heap = HashTable.assign v value_length (e.content w.store.heap) := by
    have hold := (h.contents g e he).1
    have hkey : (e.content heap).key = (e.content w.store.heap).key := by rw [hold]
    have hval : shown heap (some w.store.heap.next) value_length.toNat = v := shown_of_read hread
    show (⟨(e.content heap).key, shown heap (some w.store.heap.next) value_length.toNat,
      value_length⟩ : HashElement) = _
    rw [hkey, hval]
    rfl
  have hfs : (f e).Sound hash heap := by
    obtain ⟨hc, hs⟩ := h.contents g e he
    refine ⟨?_, ?_, ?_, ?_⟩
    · exact hs.key
    · exact hs.compared
    · exact hs.hashv
    · rw [hf]
      exact hread
  have htable : (KeyedList.update Element.self f w.store.hash_table_head e.self).map
      (Element.content heap) = KeyedList.update HashElement.key (HashTable.assign v value_length)
        w.table (e.content w.store.heap).key := by
    refine KeyedList.map_update (h.unique he) ?_ fun x hx => (h.contents g x hx).1
    intro x hx hxe
    obtain rfl := List.inj_on_of_nodup_map h.selves hx he hxe
    exact hf
  have hmem : ∀ x ∈ KeyedList.update Element.self f w.store.hash_table_head e.self,
      x ∈ w.store.hash_table_head ∨ x = f e := by
    intro x hx
    rcases KeyedList.mem_update_of_mem h.selves he hx with hx | hx
    · exact .inl hx
    · exact .inr hx
  refine ⟨s, hput, ?_, htable⟩
  refine h.with_element ha g le_rfl hmem hfs (h.numbered e he) ?_ ?_ (h.selves.update hself _)
  · rintro b (hb | hb)
    · exact (h.own e he b (.inl hb)).imp_left fun hlt => hlt.trans_le g.next
    · cases hb
      exact h.new_block hnext
  · rw [htable]
    exact h.keys.update (f := HashTable.assign v value_length) (fun _ => rfl) _

/-- The counter of lookups does not matter. -/
theorem Stands.find (h : Stands hash w) (n : ℕ) :
    Stands hash ⟨{ w.store with finds := n }, w.callers⟩ :=
  ⟨h.allocated, h.sound, h.keys, h.selves, h.numbered, h.own, h.callers⟩

/-- **`set`** on blocks. -/
theorem Stands.set (h : Stands hash w) (hk : w.store.heap.read key 0 key_len.toNat = .ok k)
    (hv : w.store.heap.read value 0 value_length.toNat = .ok v) :
    ∃ s, w.store.set hash chains key key_len value value_length = .ok s ∧
      Stands hash ⟨s, w.callers⟩ ∧ Shared.table ⟨s, w.callers⟩ = w.table.set k v value_length := by
  obtain ⟨out, n, hget, hsome, hnone⟩ := h.get hk
  have htg := h.table_get hsome hnone
  cases out with
  | none =>
    obtain ⟨e, s, hadd, g, hs, he, hek, ht⟩ := (h.find n).add hk (hnone rfl)
    obtain ⟨s', hput, hs', ht'⟩ := hs.put he (g.read h.allocated hv)
    refine ⟨s', ?_, hs', ?_⟩
    · unfold BufferTable.set
      rw [hget]
      show (BufferTable.add _ _ _ _ >>= _) = _
      rw [hadd]
      exact hput
    · rw [ht', ht, hek, HashTable.set, htg]
      exact KeyedList.update_concat htg
  | some e =>
    obtain ⟨he, rfl⟩ := hsome e rfl
    obtain ⟨s', hput, hs', ht'⟩ := (h.find n).put he hv
    refine ⟨s', ?_, hs', ?_⟩
    · unfold BufferTable.set
      rw [hget]
      exact hput
    · rw [ht', HashTable.set, htg]
      rfl

/-- **`delete_element`** on blocks. -/
theorem Stands.delete_element (h : Stands hash w)
    (hk : w.store.heap.read key 0 key_len.toNat = .ok k) :
    ∃ r, w.store.delete_element hash chains key key_len = .ok r ∧
      r.map (fun s => Shared.table ⟨s, w.callers⟩) = w.table.delete_element k ∧
      ∀ s, r = some s → Stands hash ⟨s, w.callers⟩ := by
  obtain ⟨out, n, hget, hsome, hnone⟩ := h.get hk
  have htg := h.table_get hsome hnone
  have hrun : w.store.delete_element hash chains key key_len = .ok (out.map fun e =>
      { w.store with
        finds := n
        hash_table_head := KeyedList.erase Element.self w.store.hash_table_head e.self }) := by
    unfold BufferTable.delete_element
    rw [hget]
    cases out <;> rfl
  refine ⟨_, hrun, ?_, ?_⟩
  · rw [HashTable.delete_element, htg]
    cases out with
    | none => rfl
    | some e =>
      obtain ⟨he, rfl⟩ := hsome e rfl
      exact congrArg some (KeyedList.map_erase (h.unique he))
  · intro s hs
    obtain ⟨e, rfl, rfl⟩ := Option.map_eq_some_iff.1 hs
    obtain ⟨he, rfl⟩ := hsome e rfl
    have hsub : (KeyedList.erase Element.self w.store.hash_table_head e.self).Sublist
        w.store.hash_table_head := List.eraseP_sublist
    constructor
    · exact h.allocated
    · exact fun x hx => h.sound x (hsub.subset hx)
    · exact h.keys.sublist ((hsub.map _).map _)
    · exact h.selves.erase _
    · exact fun x hx => h.numbered x (hsub.subset hx)
    · exact fun x hx => h.own x (hsub.subset hx)
    · exact h.callers

end

/-! ## Calls and callers -/

/-- A call, labelled with the bytes that its pointers show, or what a caller
    does with blocks of its own. -/
inductive SharedStep (hash : List UInt8 → UInt32) (chains : Chains) (w : Shared) :
    Option Call → Shared → Prop where
  | set {key value : Heap.Ptr} {key_len : UInt16} {value_length : UInt32} {k v : List UInt8}
      {s : BufferTable} (hk : w.store.heap.read key 0 key_len.toNat = .ok k)
      (hv : w.store.heap.read value 0 value_length.toNat = .ok v)
      (h : w.store.set hash chains key key_len value value_length = .ok s) :
      SharedStep hash chains w (some (.set k v value_length)) ⟨s, w.callers⟩
  | get {key : Heap.Ptr} {key_len : UInt16} {k : List UInt8} {out : Option Element}
      {s : BufferTable} (hk : w.store.heap.read key 0 key_len.toNat = .ok k)
      (h : w.store.get hash chains key key_len = .ok (out, s)) :
      SharedStep hash chains w (some (.get k)) ⟨s, w.callers⟩
  | delete_element {key : Heap.Ptr} {key_len : UInt16} {k : List UInt8} {s : BufferTable}
      (hk : w.store.heap.read key 0 key_len.toNat = .ok k)
      (h : w.store.delete_element hash chains key key_len = .ok (some s)) :
      SharedStep hash chains w (some (.delete_element k)) ⟨s, w.callers⟩
  | malloc (n : ℕ) : SharedStep hash chains w none
      ⟨{ w.store with heap := (w.store.heap.malloc n).2 }, w.store.heap.next :: w.callers⟩
  | overwrite {b i : ℕ} {data : List UInt8} {heap : Heap} (hb : b ∈ w.callers)
      (h : w.store.heap.write (some b) i data = .ok heap) :
      SharedStep hash chains w none ⟨{ w.store with heap := heap }, w.callers⟩

/-- The bytes that the elements are compared by are as they were. -/
def KeepsKeys (w w' : Shared) : Prop := ∀ e ∈ w.store.hash_table_head,
  w'.store.heap.read e.hh_key 0 e.hh_keylen = w.store.heap.read e.hh_key 0 e.hh_keylen

/-- What a step binds a key to. -/
def step_update (l : Option Call) : Option (Updates.Update (List UInt8) (List UInt8 × UInt32)) :=
  l.bind Call.update

/-- An empty table, with blocks of callers. -/
structure Shared.Empty (w : Shared) : Prop where
  allocated : w.store.heap.Allocated
  callers : ∀ b ∈ w.callers, b < w.store.heap.next
  empty : w.store.hash_table_head = []

/-- Each element is found by the key it has a copy of and by no other, and a
    lookup gives what the key was last set to. -/
structure Independent (hash : List UInt8 → UInt32) (chains : Chains) (ls : List (Option Call))
    (w : Shared) : Prop where
  element : ∀ e ∈ w.store.hash_table_head, ∃ k v, Updates.Last step_update ls k (some (v, e.value_length)) ∧
    w.store.heap.read e.key 0 k.length = .ok k ∧
    ∀ key key_len bs, w.store.heap.read key 0 (UInt16.toNat key_len) = .ok bs →
      ((∃ s, w.store.get hash chains key key_len = .ok (some e, s)) ↔ bs = k)
  lookup : ∀ key key_len bs, w.store.heap.read key 0 (UInt16.toNat key_len) = .ok bs →
    ∃ out s, w.store.get hash chains key key_len = .ok (out, s) ∧ ∀ v n,
      (∃ e, out = some e ∧ e.value_length = n ∧ w.store.heap.read e.value 0 (UInt32.toNat n) = .ok v) ↔
        Updates.Last step_update ls bs (some (v, n))

section
variable {hash : List UInt8 → UInt32} {chains : Chains} {w w' : Shared} {l : Option Call}
  {ls : List (Option Call)}

theorem Shared.Empty.stands (h : w.Empty) : Stands hash w := by
  have hnil : ∀ e ∈ w.store.hash_table_head, False := by
    intro e he
    rw [h.empty] at he
    cases he
  constructor
  · exact h.allocated
  · exact fun e he => (hnil e he).elim
  · rw [Shared.table, h.empty]
    exact List.nodup_nil
  · rw [h.empty]
    exact List.nodup_nil
  · exact fun e he => (hnil e he).elim
  · exact fun e he => (hnil e he).elim
  · exact h.callers

/-- A caller's block, written where no key is that the elements are compared by. -/
theorem Stands.overwrite (h : Stands hash w) {b i : ℕ} {data : List UInt8} {heap : Heap}
    (hb : b ∈ w.callers) (hw : w.store.heap.write (some b) i data = .ok heap)
    (hk : KeepsKeys w ⟨{ w.store with heap := heap }, w.callers⟩) :
    Stands hash ⟨{ w.store with heap := heap }, w.callers⟩ ∧
      Shared.table ⟨{ w.store with heap := heap }, w.callers⟩ = w.table := by
  obtain ⟨hnext, hother, -⟩ := Heap.write_ok hw
  have hsame : ∀ e ∈ w.store.hash_table_head,
      e.content heap = e.content w.store.heap ∧ e.Sound hash heap := by
    intro e he
    -- the element's own blocks are not written
    have hown : ∀ c, e.key = some c ∨ e.value = some c → heap.block c = w.store.heap.block c := by
      intro c hc
      refine hother c ?_
      rintro ⟨⟩
      exact (h.own e he b hc).2 hb
    refine (h.sound e he).congr ?_ (hk e he) ?_
    · exact Heap.read_congr (fun c hc => hown c (.inl hc)) _ _
    · exact Heap.read_congr (fun c hc => hown c (.inr hc)) _ _
  have htable : Shared.table ⟨{ w.store with heap := heap }, w.callers⟩ = w.table :=
    List.map_congr_left fun e he => (hsame e he).1
  refine ⟨?_, htable⟩
  constructor
  · exact h.allocated.write hw
  · exact fun e he => (hsame e he).2
  · rw [htable]
    exact h.keys
  · exact h.selves
  · exact h.numbered
  · intro e he c hc
    show c < heap.next ∧ c ∉ w.callers
    rw [hnext]
    exact h.own e he c hc
  · intro c hc
    show c < heap.next
    rw [hnext]
    exact h.callers c hc

/-- A new block for a caller. -/
theorem Stands.malloc (h : Stands hash w) (n : ℕ) :
    let w' : Shared :=
      ⟨{ w.store with heap := (w.store.heap.malloc n).2 }, w.store.heap.next :: w.callers⟩
    Stands hash w' ∧ w'.table = w.table := by
  have g := Heap.grows_malloc w.store.heap n
  have htable : w.store.hash_table_head.map (Element.content (w.store.heap.malloc n).2) = w.table :=
    List.map_congr_left fun e he => (h.contents g e he).1
  refine ⟨?_, htable⟩
  constructor
  · exact h.allocated.malloc n
  · exact fun e he => (h.contents g e he).2
  · show KeyedList.NodupKeys HashElement.key (List.map _ _)
    rw [htable]
    exact h.keys
  · exact h.selves
  · exact h.numbered
  · intro e he b hb
    obtain ⟨hlt, hb⟩ := h.own e he b hb
    refine ⟨hlt.trans (Nat.lt_succ_self _), ?_⟩
    rintro (_ | ⟨_, hc⟩)
    · exact absurd hlt (Nat.lt_irrefl _)
    · exact hb hc
  · intro b hb
    rcases List.mem_cons.1 hb with rfl | hb
    · exact Nat.lt_succ_self _
    · exact (h.callers b hb).trans (Nat.lt_succ_self _)

/-- **One step**: a call does what it does on the table, and a caller that keeps
    the keys as they are does nothing. -/
theorem Stands.step (h : Stands hash w) (hs : SharedStep hash chains w l w')
    (hk : l = none → KeepsKeys w w') :
    Stands hash w' ∧ w'.table.content = Updates.apply₁ w.table.content (step_update l) := by
  cases hs with
  | @set _ _ _ n k v _ hkey hv hset =>
    obtain ⟨s, hset', hst, ht⟩ := h.set hkey hv
    cases hset.symm.trans hset'
    refine ⟨hst, ?_⟩
    have hcall : w.table.call (.set k v n) = some (w.table.set k v n, none) := rfl
    rw [ht]
    exact (HashTable.call_content h.keys hcall).2
  | get hkey hget =>
    obtain ⟨out, n, hget', -⟩ := h.get hkey
    cases hget.symm.trans hget'
    exact ⟨h.find n, rfl⟩
  | @delete_element _ _ k s hkey hdel =>
    obtain ⟨r, hdel', ht, hst⟩ := h.delete_element hkey
    cases hdel.symm.trans hdel'
    refine ⟨hst _ rfl, ?_⟩
    have hcall : w.table.call (.delete_element k) = some (Shared.table ⟨s, w.callers⟩, none) :=
      congrArg (Option.map fun t => (t, (none : Option HashElement))) ht.symm
    exact (HashTable.call_content h.keys hcall).2
  | malloc n =>
    obtain ⟨hst, ht⟩ := h.malloc n
    exact ⟨hst, by rw [ht]; rfl⟩
  | overwrite hb hw =>
    obtain ⟨hst, ht⟩ := h.overwrite hb hw (hk rfl)
    exact ⟨hst, by rw [ht]; rfl⟩

/-- **A run** whose overwrites keep the keys as they are. -/
theorem Stands.run (h : Stands hash w) (hr : Machine.Trace (fun w l w' =>
      SharedStep hash chains w l w' ∧ (l = none → KeepsKeys w w')) w ls w') :
    Stands hash w' ∧ w'.table.content = Updates.apply step_update w.table.content ls := by
  induction hr with
  | nil => exact ⟨h, rfl⟩
  | cons hstep _ ih =>
    obtain ⟨hst, ht⟩ := h.step hstep.1 hstep.2
    obtain ⟨hst', ht'⟩ := ih hst
    refine ⟨hst', ?_⟩
    rw [ht', ht]
    rfl

/-- What is found is what the key was last set to. -/
theorem Stands.independent (h : Stands hash w)
    (hc : ∀ k v, w.table.content k = some v ↔ Updates.Last step_update ls k (some v)) :
    Independent hash chains ls w := by
  constructor
  · intro e he
    obtain ⟨hkey, -, -, hval⟩ := h.sound e he
    have hmem : w.table.get (e.content w.store.heap).key = some (e.content w.store.heap) :=
      h.keys.find_mem (List.mem_map_of_mem he)
    refine ⟨_, _, (hc _ _).1 (HashTable.get_eq_some_iff.1 hmem).2, ?_, ?_⟩
    · rw [← (h.sound e he).keylen]
      exact hkey
    · intro key key_len bs hbs
      obtain ⟨out, n, hget, hsome, hnone⟩ := h.get hbs
      constructor
      · rintro ⟨s, hs⟩
        cases hs.symm.trans hget
        exact (hsome e rfl).2.symm
      · rintro rfl
        cases out with
        | none => exact absurd rfl (hnone rfl e he)
        | some x =>
          obtain ⟨hx, hxe⟩ := hsome x rfl
          obtain rfl := List.inj_on_of_nodup_map h.selves hx he ((h.unique he x hx).2 hxe)
          exact ⟨_, hget⟩
  · intro key key_len bs hbs
    obtain ⟨out, n, hget, hsome, hnone⟩ := h.get hbs
    refine ⟨out, _, hget, fun v m => ?_⟩
    rw [← hc, HashTable.content, h.table_get hsome hnone]
    cases out with
    | none => simp
    | some e =>
      have hval := (h.sound e (hsome e rfl).1).value
      constructor
      · rintro ⟨_, ⟨⟩, rfl, hread⟩
        rw [hread] at hval
        cases hval
        rfl
      · intro heq
        cases heq
        exact ⟨e, rfl, rfl, hval⟩

/-- **The store and its callers' buffers.**  In every run whose overwrites keep
    the bytes that the elements of the table are compared by, every element is
    found by its key and no other, with the value of its last `set`. -/
theorem buffers_kept (hw : w.Empty) (hr : Machine.Trace (fun w l w' =>
      SharedStep hash chains w l w' ∧ (l = none → KeepsKeys w w')) w ls w') :
    Independent hash chains ls w' := by
  obtain ⟨hst, hc⟩ := hw.stands.run hr
  refine hst.independent fun k v => ?_
  have hempty : w.table.content = fun _ => none := by
    rw [Shared.table, hw.empty]
    rfl
  rw [hc, hempty, Updates.apply_eq_some_iff]

end

/-! ## A key buffer that is used again -/

/-- Elements looked at in the order they were added. -/
def Chains.in_order : Chains := ⟨fun _ es => es, fun _ _ => .refl _⟩

/-- Two blocks of a caller, with a key and a value. -/
def key_and_value : Shared where
  store :=
    { heap := ⟨2, fun b => if b = 0 then some [0x6b] else if b = 1 then some [0x76] else none,
        fun _ => false, 0, fun _ => 0⟩
      hash_table_head := [], structs := 0, finds := 0 }
  callers := [0, 1]

theorem key_and_value_empty : key_and_value.Empty where
  allocated := by
    intro b hb
    have hb : 2 ≤ b := hb
    have h0 : b ≠ 0 := by omega
    have h1 : b ≠ 1 := by omega
    show (if b = 0 then _ else if b = 1 then _ else none) = none
    rw [if_neg h0, if_neg h1]
  callers := by
    intro b hb
    show b < 2
    rcases List.mem_cons.1 hb with rfl | hb
    · omega
    · rw [List.mem_singleton.1 hb]
      omega
  empty := rfl

/-- The table after `set` of the key in block `0` to the value in block `1`. -/
def key_set : BufferTable :=
  (key_and_value.store.set HASH_JEN .in_order (some 0) 1 (some 1) 1).toOption.getD key_and_value.store

/-- One of the two blocks is written again. -/
def key_set_written (b : ℕ) : Shared :=
  ⟨{ key_set with heap := (key_set.heap.write (some b) 0 [0x7a]).toOption.getD key_set.heap }, [0, 1]⟩

theorem key_set_step :
    SharedStep HASH_JEN .in_order key_and_value (some (.set [0x6b] [0x76] 1)) ⟨key_set, [0, 1]⟩ :=
  @SharedStep.set _ _ _ (some 0) (some 1) 1 1 _ _ _ rfl rfl rfl

theorem key_set_written_step {b : ℕ} (hb : b ∈ [0, 1]) :
    SharedStep HASH_JEN .in_order ⟨key_set, [0, 1]⟩ none (key_set_written b) := by
  refine @SharedStep.overwrite _ _ _ b 0 [0x7a] _ hb ?_
  rcases List.mem_cons.1 hb with rfl | hb
  · rfl
  · rw [List.mem_singleton.1 hb]
    rfl

/-- The value buffer is written again. -/
theorem buffers_kept_value :
    Independent HASH_JEN .in_order [some (.set [0x6b] [0x76] 1), none] (key_set_written 1) := by
  refine buffers_kept key_and_value_empty (.cons ⟨key_set_step, by simp⟩
    (.cons ⟨key_set_written_step (by simp), fun _ => ?_⟩ .nil))
  intro e he
  obtain rfl := List.mem_singleton.1 he
  rfl

/-- **The key buffer is written again**, and the key is not found any more. -/
theorem not_buffers_kept : ¬ ∀ (hash : List UInt8 → UInt32) (chains : Chains) (w w' : Shared)
    (ls : List (Option Call)), w.Empty → Machine.Trace (SharedStep hash chains) w ls w' →
    Independent hash chains ls w' := by
  intro h
  have hind := h HASH_JEN .in_order _ _ _ key_and_value_empty
    (.cons key_set_step (.cons (key_set_written_step (b := 0) (by simp)) .nil))
  -- the copy of the key that `set` made
  have hcopy : (key_set_written 0).store.heap.read (some 2) 0 1 = .ok [0x6b] := rfl
  obtain ⟨out, s, hget, hlast⟩ := hind.lookup (some 2) 1 [0x6b] hcopy
  have hmiss : (key_set_written 0).store.get HASH_JEN .in_order (some 2) 1 =
      .ok (none, { (key_set_written 0).store with finds := 1 }) := rfl
  cases hmiss.symm.trans hget
  obtain ⟨e, he, -⟩ := (hlast [0x76] 1).2 ⟨[], _, [none], rfl, rfl, by simp [step_update]⟩
  cases he

end ChordPeer
