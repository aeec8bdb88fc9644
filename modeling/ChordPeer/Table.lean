/-
  The hash table as a whole, over all its operations.

  * `Holds hash s es`: the elements `es` are in the table, in the order in which
    they were added, each in the chain of its bucket;
  * `Holds.find`, `Holds.add_keyptr`, `Holds.delete`: what the operations do;
    the only way in which adding fails is that memory runs out;
  * `Holds.fsck`: the check of uthash finds nothing wrong.
-/
import ChordPeer.Buckets
import Mathlib.Algebra.Group.Nat.Defs

namespace ChordPeer

namespace Uthash

open Linked

/-! ## The invariant -/

/-- The table that the elements `es` are in. -/
structure Table (hh : Handles) (tbl : UT_hash_table) (es : List ℕ) : Prop where
  tail : tbl.tail = es.getLast?
  items : tbl.num_items = UInt32.ofNat es.length
  length : tbl.buckets.length = tbl.num_buckets.toNat
  size : tbl.num_buckets.toNat = 2 ^ tbl.log2_num_buckets.toNat
  buckets : Buckets hh tbl.buckets tbl.num_buckets {p | p ∈ es}

/-- The elements `es` are in the table, and nothing else. -/
structure Holds (hash : List UInt8 → UInt32) (s : Hash) (es : List ℕ) : Prop where
  nodup : es.Nodup
  hashed : ∀ p ∈ es, ∃ e, s.handles p = some e ∧ e.keylen = e.key.length ∧ e.hashv = hash e.key
  allocated : ∀ p ∈ es, p < s.allocated
  app : Chain (app s.handles) es
  head : s.head = es.head?
  table : es ≠ [] → ∃ tbl, s.tbl = some tbl ∧ Table s.handles tbl es

section
variable {hash : List UInt8 → UInt32} {s : Hash} {es : List ℕ} {hh hh' : Handles}
  {tbl : UT_hash_table} {p : ℕ}

theorem Table.num_ne_zero (h : Table hh tbl es) : tbl.num_buckets ≠ 0 := by
  intro h0
  have hsize := h.size
  rw [h0] at hsize
  exact absurd hsize (Nat.two_pow_pos _).ne

theorem Table.congr (h : Table hh tbl es) (hrel : Relinked hh hh') (hb : bkt hh' = bkt hh) :
    Table hh' tbl es :=
  ⟨h.tail, h.items, h.length, h.size, h.buckets.congr hrel hb⟩

theorem Holds.empty : Holds hash s [] ↔ s.head = none := by
  refine ⟨fun h => h.head, fun h => ⟨List.nodup_nil, ?_, ?_, .nil, h, fun h => absurd rfl h⟩⟩
  · exact fun p hp => absurd hp List.not_mem_nil
  · exact fun p hp => absurd hp List.not_mem_nil

theorem Holds.live (h : Holds hash s es) (hp : p ∈ es) : (s.handles p).isSome := by
  obtain ⟨e, he, -⟩ := h.hashed p hp
  rw [he]
  rfl

/-- The table is read through the first element. -/
theorem table_eq {q : ℕ} {e : UT_hash_handle} (hq : s.head = some q) (he : s.handles q = some e)
    (ht : s.tbl = some tbl) : s.table = .ok tbl := by
  rw [Hash.table, hq, deref_eq he, ht]
  rfl

theorem Holds.table_eq (h : Holds hash s es) (hp : p ∈ es) :
    ∃ tbl, s.table = .ok tbl ∧ s.tbl = some tbl ∧ Table s.handles tbl es := by
  obtain ⟨tbl, ht, htbl⟩ := h.table (List.ne_nil_of_mem hp)
  cases es with
  | nil => cases hp
  | cons q es =>
    obtain ⟨e, he, -⟩ := h.hashed q List.mem_cons_self
    exact ⟨tbl, Uthash.table_eq h.head he ht, ht, htbl⟩

/-- The bucket of a hash value. -/
theorem Table.bucket (h : Table hh tbl es) (hashv : UInt32) :
    ∃ b l, tbl.buckets[HASH_TO_BKT hashv tbl.num_buckets]? = some b ∧
      Bucket hh tbl.num_buckets {p | p ∈ es} (HASH_TO_BKT hashv tbl.num_buckets) b l := by
  have hlt : HASH_TO_BKT hashv tbl.num_buckets < tbl.buckets.length := by
    rw [h.length]
    exact HASH_TO_BKT_lt hashv h.num_ne_zero
  have hb := List.getElem?_eq_getElem hlt
  obtain ⟨l, hl⟩ := h.buckets _ _ hb
  exact ⟨_, l, hb, hl⟩

/-- **`HASH_FIND`** finds an element with the key, if there is one. -/
theorem Holds.find (h : Holds hash s es) (keyptr : List UInt8) :
    ∃ out, HASH_FIND hash s keyptr = .ok out ∧
      (∀ p, out = some p → p ∈ es ∧ ∃ e, s.handles p = some e ∧ e.key = keyptr) ∧
      (out = none → ∀ p ∈ es, ∀ e, s.handles p = some e → e.key ≠ keyptr) := by
  cases hes : es with
  | nil =>
    subst hes
    refine ⟨none, ?_, ?_, fun _ p hp => absurd hp List.not_mem_nil⟩
    · rw [HASH_FIND, h.head]
      rfl
    · rintro p ⟨⟩
  | cons q rest =>
    have hq : q ∈ es := hes ▸ List.mem_cons_self
    obtain ⟨tbl, htable, -, htbl⟩ := h.table_eq hq
    obtain ⟨b, l, hb, hl⟩ := htbl.bucket (hash keyptr)
    have hfuel := length_le_of_lt hl.nodup fun p hp => h.allocated p ((hl.mem p).1 hp).1
    have hsearch : HASH_FIND_IN_BKT s.handles keyptr (hash keyptr) s.allocated l.head? = _ :=
      find_segment hl.chain (fun p hp => hl.live hp) hfuel
    have hhead : s.head.isNone = false := by
      rw [h.head, hes]
      rfl
    rw [← hes]
    refine ⟨l.find? fun p => (s.handles p).any (UT_hash_handle.matches_key keyptr (hash keyptr)),
      ?_, fun p hp => ?_, fun hnone p hp e he hk => ?_⟩
    · rw [HASH_FIND, hhead, htable]
      simp only [Uthash.bucket, hb, hl.head, hsearch, bind, Except.bind]
      rfl
    · obtain ⟨e, he, -⟩ := h.hashed p ((hl.mem p).1 (List.mem_of_find?_eq_some hp)).1
      have hm := List.find?_some hp
      rw [he, Option.any_some] at hm
      exact ⟨((hl.mem p).1 (List.mem_of_find?_eq_some hp)).1, e, he, (of_decide_eq_true hm).2.2⟩
    · -- an element with the key is in this very chain
      obtain ⟨e', he', hlen, hhash⟩ := h.hashed p hp
      obtain rfl : e' = e := Option.some.inj (he'.symm.trans he)
      have hpl : p ∈ l := (hl.mem p).2 ⟨hp, by rw [slot, he', ← hk, ← hhash]; rfl⟩
      have hno := List.find?_eq_none.1 hnone p hpl
      rw [he', Option.any_some] at hno
      exact hno (decide_eq_true ⟨by rw [hhash, hk], by rw [hlen, hk], hk⟩)

end

/-! ## An element more -/

/-- There is no room for `2 ^ 32` buckets. -/
def Bounded (uthash_malloc : ℕ → Bool) : Prop := ∀ n, 2 ^ 36 ≤ n → uthash_malloc n = false

section
variable {hash : List UInt8 → UInt32} {s : Hash} {es : List ℕ} {tbl : UT_hash_table}
  {uthash_malloc : ℕ → Bool} (hm : Bounded uthash_malloc)
include hm

/-- Memory for twice as many buckets: their number is still a power of two. -/
theorem Table.double (h : Table s.handles tbl es)
    (ha : uthash_malloc (2 * tbl.num_buckets.toNat * sizeof_UT_hash_bucket) = true) :
    (tbl.num_buckets * 2).toNat = 2 * tbl.num_buckets.toNat ∧
      (tbl.num_buckets * 2).toNat = 2 ^ (tbl.log2_num_buckets + 1).toNat := by
  have hlt : tbl.num_buckets.toNat < 2 ^ 31 := by
    by_contra hge
    have hsize : 2 ^ 36 ≤ 2 * tbl.num_buckets.toNat * sizeof_UT_hash_bucket := by
      rw [sizeof_UT_hash_bucket]
      omega
    rw [hm _ hsize] at ha
    cases ha
  have hdouble : (tbl.num_buckets * 2).toNat = 2 * tbl.num_buckets.toNat := by
    rw [UInt32.toNat_mul]
    show tbl.num_buckets.toNat * 2 % 2 ^ 32 = _
    omega
  have hlog : tbl.log2_num_buckets.toNat < 31 := by
    rw [h.size] at hlt
    exact (Nat.pow_lt_pow_iff_right Nat.one_lt_two).1 hlt
  have hsucc : (tbl.log2_num_buckets + 1).toNat = tbl.log2_num_buckets.toNat + 1 := by
    rw [UInt32.toNat_add]
    show (tbl.log2_num_buckets.toNat + 1) % 2 ^ 32 = _
    omega
  refine ⟨hdouble, ?_⟩
  rw [hdouble, hsucc, h.size, Nat.pow_succ, Nat.mul_comm]

/-- **Twice as many buckets.** -/
theorem Table.expand (h : Table s.handles tbl es)
    (hs : ∀ p ∈ es, p < s.allocated ∧ (s.handles p).isSome) :
    HASH_EXPAND_BUCKETS uthash_malloc s tbl = .error .outOfMemory ∨
      ∃ hh tbl', HASH_EXPAND_BUCKETS uthash_malloc s tbl =
          .ok { s with handles := hh, tbl := some tbl' } ∧
        Table hh tbl' es ∧ app hh = app s.handles ∧ Relinked s.handles hh := by
  unfold HASH_EXPAND_BUCKETS
  by_cases ha : uthash_malloc (2 * tbl.num_buckets.toNat * sizeof_UT_hash_bucket) = true
  · rw [if_pos ha]
    obtain ⟨hdouble, hsize⟩ := h.double hm ha
    have hn : tbl.num_buckets * 2 ≠ 0 := by
      intro h0
      rw [h0] at hsize
      exact absurd hsize (Nat.two_pow_pos _).ne
    let ideal := (tbl.num_items >>> (tbl.log2_num_buckets + 1)) +
      (if tbl.num_items &&& (tbl.num_buckets * 2 - 1) ≠ 0 then 1 else 0)
    obtain ⟨x, hx, hmoved⟩ := Moved.loop h.buckets hdouble hn
      (fun p hp => (hs p hp).1) ideal h.length.ge
    -- every element has been in one of the old chains
    have hall : {p | p ∈ {p | p ∈ es} ∧
        ∃ j < tbl.num_buckets.toNat, slot s.handles tbl.num_buckets p = some j} = {p | p ∈ es} := by
      ext p
      refine ⟨fun hp => hp.1, fun hp => ⟨hp, ?_⟩⟩
      obtain ⟨e, he⟩ := Option.isSome_iff_exists.1 (hs p hp).2
      refine ⟨HASH_TO_BKT e.hashv tbl.num_buckets, HASH_TO_BKT_lt _ h.num_ne_zero, ?_⟩
      rw [slot, he]
      rfl
    rw [hall] at hmoved
    let ineff_expands := if x.nonideal_items > tbl.num_items >>> 1 then tbl.ineff_expands + 1 else 0
    let tbl' : UT_hash_table := { tbl with
      buckets := x.new_buckets
      num_buckets := tbl.num_buckets * 2
      log2_num_buckets := tbl.log2_num_buckets + 1
      ideal_chain_maxlen := ideal
      nonideal_items := x.nonideal_items
      ineff_expands := ineff_expands
      noexpand := if ineff_expands > 1 then 1 else tbl.noexpand }
    have htbl' : Table x.handles tbl' es :=
      ⟨h.tail, h.items, hmoved.length, hsize, hmoved.buckets⟩
    refine .inr ⟨x.handles, tbl', ?_, htbl', hmoved.app, hmoved.relinked⟩
    show expand_loop s tbl ideal tbl.num_buckets.toNat >>= _ = _
    rw [hx]
    rfl
  · rw [if_neg ha]
    exact .inl rfl

/-- **A bucket gets an element**, and the table more buckets if it is full. -/
theorem add_to_bkt {x : ℕ} (hx : x ∉ es) (hb : Buckets s.handles tbl.buckets tbl.num_buckets {p | p ∈ es})
    (hlen : tbl.buckets.length = tbl.num_buckets.toNat)
    (hsize : tbl.num_buckets.toNat = 2 ^ tbl.log2_num_buckets.toNat)
    (htail : tbl.tail = (es ++ [x]).getLast?)
    (hitems : tbl.num_items = UInt32.ofNat (es ++ [x]).length)
    (hs : ∀ p ∈ es ++ [x], p < s.allocated ∧ (s.handles p).isSome) {e : UT_hash_handle}
    (he : s.handles x = some e) :
    HASH_ADD_TO_BKT uthash_malloc s tbl (HASH_TO_BKT e.hashv tbl.num_buckets) x =
        .error .outOfMemory ∨
      ∃ hh tbl', HASH_ADD_TO_BKT uthash_malloc s tbl (HASH_TO_BKT e.hashv tbl.num_buckets) x =
          .ok { s with handles := hh, tbl := some tbl' } ∧
        Table hh tbl' (es ++ [x]) ∧ app hh = app s.handles ∧ Relinked s.handles hh := by
  have hn : tbl.num_buckets ≠ 0 := by
    intro h0
    rw [h0] at hsize
    exact absurd hsize (Nat.two_pow_pos _).ne
  have hlt : HASH_TO_BKT e.hashv tbl.num_buckets < tbl.buckets.length := by
    rw [hlen]
    exact HASH_TO_BKT_lt e.hashv hn
  have hget := List.getElem?_eq_getElem hlt
  generalize tbl.buckets[HASH_TO_BKT e.hashv tbl.num_buckets] = b at hget
  have hslot : slot s.handles tbl.num_buckets x = some (HASH_TO_BKT e.hashv tbl.num_buckets) := by
    rw [slot, he]
    rfl
  let b' : UT_hash_bucket := { b with count := b.count + 1, hh_head := some x }
  obtain ⟨hh, hadd, hbk, happ, hrel, -⟩ := hb.add hget hx hslot b' rfl rfl
  have hset : insert x {p | p ∈ es} = {p | p ∈ es ++ [x]} := by
    ext p
    simp only [Set.mem_insert_iff, Set.mem_ofPred_eq, List.mem_append, List.mem_singleton]
    exact or_comm
  rw [hset] at hbk
  let tbl₁ : UT_hash_table :=
    { tbl with buckets := tbl.buckets.set (HASH_TO_BKT e.hashv tbl.num_buckets) b' }
  have htbl₁ : Table hh tbl₁ (es ++ [x]) :=
    ⟨htail, hitems, List.length_set.trans hlen, hsize, hbk⟩
  have hstep : HASH_ADD_TO_BKT uthash_malloc s tbl (HASH_TO_BKT e.hashv tbl.num_buckets) x =
      if b'.over && tbl.noexpand == 0 then
        HASH_EXPAND_BUCKETS uthash_malloc { s with handles := hh, tbl := some tbl₁ } tbl₁
      else .ok { s with handles := hh, tbl := some tbl₁ } := by
    simp only [HASH_ADD_TO_BKT, bucket, hget, hadd, bind, Except.bind, pure, Except.pure, b', tbl₁]
  rw [hstep]
  by_cases hover : (b'.over && tbl.noexpand == 0) = true
  · rw [if_pos hover]
    have hs₁ : ∀ p ∈ es ++ [x], p < s.allocated ∧ (hh p).isSome := fun p hp =>
      ⟨(hs p hp).1, hrel.isSome (hs p hp).2⟩
    rcases Table.expand (s := { s with handles := hh, tbl := some tbl₁ }) hm htbl₁ hs₁ with
      h | ⟨hh₂, tbl₂, h, htbl₂, happ₂, hrel₂⟩
    · exact .inl h
    · exact .inr ⟨hh₂, tbl₂, h, htbl₂, happ₂.trans happ, hrel.trans hrel₂⟩
  · rw [if_neg hover]
    exact .inr ⟨hh, tbl₁, rfl, htbl₁, happ, hrel⟩

end


/-- The table and the list are ready for `x`, which is not in a bucket yet. -/
structure Ready (hash : List UInt8 → UInt32) (s : Hash) (es : List ℕ) (x : ℕ) : Prop where
  nodup : (es ++ [x]).Nodup
  hashed : ∀ p ∈ es ++ [x], ∃ e, s.handles p = some e ∧ e.keylen = e.key.length ∧ e.hashv = hash e.key
  allocated : ∀ p ∈ es ++ [x], p < s.allocated
  app : Chain (app s.handles) (es ++ [x])
  head : s.head = (es ++ [x]).head?
  table : ∃ tbl, s.tbl = some tbl ∧ tbl.tail = some x ∧ tbl.num_items = UInt32.ofNat es.length ∧
    tbl.buckets.length = tbl.num_buckets.toNat ∧
    tbl.num_buckets.toNat = 2 ^ tbl.log2_num_buckets.toNat ∧
    Buckets s.handles tbl.buckets tbl.num_buckets {p | p ∈ es}

section
variable {hash : List UInt8 → UInt32} {s s' : Hash} {es : List ℕ} {x : ℕ} {e : UT_hash_handle}
  {uthash_malloc : ℕ → Bool}

theorem Relinked.hashed {hh hh' : Handles} (h : Relinked hh hh') {p : ℕ}
    (hp : ∃ e, hh p = some e ∧ e.keylen = e.key.length ∧ e.hashv = hash e.key) :
    ∃ e, hh' p = some e ∧ e.keylen = e.key.length ∧ e.hashv = hash e.key := by
  obtain ⟨e, he, hlen, hhash⟩ := hp
  obtain ⟨e', he'⟩ := Option.isSome_iff_exists.1 (h.isSome (p := p) (by rw [he]; rfl))
  have hmap := h p
  rw [he, he'] at hmap
  have hl : e'.hashed = e.hashed := Option.some.inj hmap
  obtain ⟨hk, hn, hv⟩ : e'.key = e.key ∧ e'.keylen = e.keylen ∧ e'.hashv = e.hashv := by
    simpa [UT_hash_handle.hashed] using hl
  exact ⟨e', he', by rw [hn, hk, hlen], by rw [hv, hk, hhash]⟩

/-- **`HASH_ADD_TO_TABLE`.** -/
theorem Ready.add_to_table (h : Ready hash s es x) (hm : Bounded uthash_malloc)
    (he : s.handles x = some e) :
    HASH_ADD_TO_TABLE uthash_malloc s e.hashv x = .error .outOfMemory ∨
      ∃ s', HASH_ADD_TO_TABLE uthash_malloc s e.hashv x = .ok s' ∧ Holds hash s' (es ++ [x]) ∧
        Relinked s.handles s'.handles ∧ s'.allocated = s.allocated := by
  obtain ⟨tbl, ht, htail, hitems, hlen, hsize, hb⟩ := h.table
  have hx : x ∉ es := fun hx =>
    (List.nodup_append.1 h.nodup).2.2 x hx x (List.mem_singleton_self x) rfl
  have htable : s.table = .ok tbl := by
    obtain ⟨q, hq⟩ : ∃ q, (es ++ [x]).head? = some q := by
      cases es <;> exact ⟨_, rfl⟩
    obtain ⟨e', he', -⟩ := h.hashed q (List.mem_of_head? hq)
    exact Uthash.table_eq (h.head.trans hq) he' ht
  let tbl₁ : UT_hash_table := { tbl with num_items := tbl.num_items + 1 }
  have hlive : ∀ p ∈ es ++ [x], p < s.allocated ∧ (s.handles p).isSome := by
    intro p hp
    obtain ⟨e', he', -⟩ := h.hashed p hp
    exact ⟨h.allocated p hp, by rw [he']; rfl⟩
  have hitems₁ : tbl₁.num_items = UInt32.ofNat (es ++ [x]).length := by
    rw [List.length_append, List.length_singleton, UInt32.ofNat_add, ← hitems]
    rfl
  have htail₁ : tbl₁.tail = (es ++ [x]).getLast? := by
    rw [List.getLast?_concat]
    exact htail
  have hstep : HASH_ADD_TO_TABLE uthash_malloc s e.hashv x =
      HASH_ADD_TO_BKT uthash_malloc s tbl₁ (HASH_TO_BKT e.hashv tbl₁.num_buckets) x := by
    rw [HASH_ADD_TO_TABLE, htable]
    rfl
  have hb₁ : Buckets s.handles tbl₁.buckets tbl₁.num_buckets {p | p ∈ es} := hb
  rw [hstep]
  rcases add_to_bkt hm hx hb₁ hlen hsize htail₁ hitems₁ hlive he with
    h' | ⟨hh, tbl', h', htbl', happ, hrel⟩
  · exact .inl h'
  · refine .inr ⟨_, h', ⟨h.nodup, fun p hp => hrel.hashed (h.hashed p hp), h.allocated, ?_, h.head,
      fun _ => ⟨tbl', rfl, htbl'⟩⟩, hrel, rfl⟩
    show Chain (Uthash.app hh) (es ++ [x])
    rw [happ]
    exact h.app

/-- Only the handles of its elements matter to a table. -/
theorem Buckets.congr_on {hh hh' : Handles} {bs : List UT_hash_bucket} {num : UInt32} {S : Set ℕ}
    (h : Buckets hh bs num S) (hS : ∀ p ∈ S, hh' p = hh p) : Buckets hh' bs num S := by
  intro j b hj
  obtain ⟨l, hl⟩ := h j b hj
  have hlinks : ∀ p ∈ l, (bkt hh').prev p = (bkt hh).prev p ∧ (bkt hh').next p = (bkt hh).next p := by
    intro p hp
    have hp' := hS p ((hl.mem p).1 hp).1
    simp [links, hp']
  refine ⟨l, hl.chain.congr hlinks, hl.nodup, hl.head, hl.count, fun p => ?_⟩
  rw [hl.mem, slot, slot]
  refine and_congr_right fun hp => ?_
  rw [hS p hp]

theorem Holds.congr (h : Holds hash s es) (hl : ∀ p ∈ es, s'.handles p = s.handles p)
    (ha : s.allocated ≤ s'.allocated) (ht : s'.tbl = s.tbl) (hh : s'.head = s.head) :
    Holds hash s' es where
  nodup := h.nodup
  hashed p hp := by
    rw [hl p hp]
    exact h.hashed p hp
  allocated p hp := Nat.lt_of_lt_of_le (h.allocated p hp) ha
  app := h.app.congr fun p hp => by simp [links, hl p hp]
  head := hh.trans h.head
  table hne := by
    obtain ⟨tbl, htbl, hT⟩ := h.table hne
    exact ⟨tbl, ht.trans htbl, hT.tail, hT.items, hT.length, hT.size, hT.buckets.congr_on hl⟩

/-- **`HASH_APPEND_LIST`.** -/
theorem Holds.append_list (h : Holds hash s es) (hes : es ≠ []) (hx : x ∉ es)
    (hxa : x < s.allocated) (he : s.handles x = some e) (hlen : e.keylen = e.key.length)
    (hhash : e.hashv = hash e.key) :
    ∃ s', HASH_APPEND_LIST s x = .ok s' ∧ Ready hash s' es x ∧ Relinked s.handles s'.handles ∧
      s'.allocated = s.allocated ∧ s'.head = s.head := by
  obtain ⟨p, hp⟩ := List.exists_mem_of_ne_nil es hes
  obtain ⟨tbl, htable, ht, htbl⟩ := h.table_eq hp
  obtain ⟨t, hlast⟩ : ∃ t, es.getLast? = some t := ⟨_, List.getLast?_eq_some_getLast hes⟩
  have htail : tbl.tail = some t := htbl.tail.trans hlast
  obtain ⟨d, hd⟩ := Option.isSome_iff_exists.1 (h.live (List.mem_of_getLast? hlast))
  have htx : t ≠ x := fun htx => hx (htx ▸ List.mem_of_getLast? hlast)
  -- the two assignments
  let e₁ : UT_hash_handle := { e with next := none, prev := some t }
  let d₁ : UT_hash_handle := { d with next := some x }
  let hh₁ : Handles := Function.update s.handles x (some e₁)
  let hh₂ : Handles := Function.update hh₁ t (some d₁)
  have hd₁ : hh₁ t = some d := (Function.update_of_ne htx _ _).trans hd
  have hrel₁ : Relinked s.handles hh₁ := Relinked.update he rfl
  have hrel₂ : Relinked hh₁ hh₂ := Relinked.update hd₁ rfl
  have hrel : Relinked s.handles hh₂ := hrel₁.trans hrel₂
  have happ : Uthash.app hh₂ = (Uthash.app s.handles).append t x := by
    have h₁ : Uthash.app hh₁ = ((Uthash.app s.handles).set_prev x (some t)).set_next x none :=
      links_update x e₁
    have h₂ : Uthash.app hh₂ = (Uthash.app hh₁).set_next t (some x) := links_update_next hd₁ rfl
    rw [h₂, h₁]
    rfl
  have hbkt₁ : bkt hh₁ = bkt s.handles := links_update_same he rfl rfl
  have hbkt₂ : bkt hh₂ = bkt hh₁ := links_update_same hd₁ rfl rfl
  have hbkt : bkt hh₂ = bkt s.handles := hbkt₂.trans hbkt₁
  refine ⟨{ s with handles := hh₂, tbl := some { tbl with tail := some x } }, ?_, ?_, hrel, rfl, rfl⟩
  · rw [HASH_APPEND_LIST, htable]
    show s.handles.assign (some x) _ >>= _ = _
    rw [assign_eq he, htail]
    show Handles.assign hh₁ (some t) _ >>= _ = _
    rw [assign_eq hd₁]
    rfl
  · have hlabel : ∀ p ∈ es ++ [x], ∃ e, s.handles p = some e ∧ e.keylen = e.key.length ∧
        e.hashv = hash e.key := by
      intro p hp
      rcases List.mem_append.1 hp with hp | hp
      · exact h.hashed p hp
      · rw [List.mem_singleton.1 hp]
        exact ⟨e, he, hlen, hhash⟩
    refine ⟨List.nodup_append.2 ⟨h.nodup, List.nodup_singleton x, ?_⟩,
      fun p hp => hrel.hashed (hlabel p hp), ?_, ?_, ?_, ?_⟩
    · intro p hp q hq
      rw [List.mem_singleton.1 hq]
      exact ne_of_mem_of_not_mem hp hx
    · intro p hp
      rcases List.mem_append.1 hp with hp | hp
      · exact h.allocated p hp
      · rw [List.mem_singleton.1 hp]
        exact hxa
    · show Chain (Uthash.app hh₂) _
      rw [happ]
      exact h.app.append h.nodup hx hlast
    · rw [List.head?_append_of_ne_nil es hes]
      exact h.head
    · exact ⟨_, rfl, rfl, htbl.items, htbl.length, htbl.size, htbl.buckets.congr hrel hbkt⟩

end

section
variable {hash : List UInt8 → UInt32} {s s' : Hash} {es : List ℕ} {x : ℕ} {e : UT_hash_handle}
  {uthash_malloc : ℕ → Bool}

/-- **`HASH_MAKE_TABLE`**, for a first element. -/
theorem make_table (hxa : x < s.allocated) (he : s.handles x = some e)
    (hlen : e.keylen = e.key.length) (hhash : e.hashv = hash e.key) {tbl : UT_hash_table}
    (hmake : HASH_MAKE_TABLE uthash_malloc x = .ok tbl) :
    Ready hash { s with
      handles := Function.update s.handles x (some { e with next := none, prev := none })
      tbl := some tbl, head := some x } [] x := by
  rw [HASH_MAKE_TABLE] at hmake
  split at hmake
  · cases hmake
    refine ⟨List.nodup_singleton x, ?_, ?_, ?_, rfl, _, rfl, rfl, rfl, rfl, rfl, ?_⟩
    · intro p hp
      obtain rfl := List.mem_singleton.1 hp
      exact ⟨_, Function.update_self _ _ _, hlen, hhash⟩
    · intro p hp
      obtain rfl := List.mem_singleton.1 hp
      exact hxa
    · exact ⟨by simp [links], by simp [links], trivial⟩
    · have hset : {p | p ∈ ([] : List ℕ)} = ∅ := by simp
      rw [hset]
      exact Buckets.empty _ _ _
  · cases hmake

/-- **`HASH_ADD_KEYPTR`** puts an element behind all others, unless the memory
    for the buckets runs out. -/
theorem Holds.add_keyptr (h : Holds hash s es) (hm : Bounded uthash_malloc) (hx : x ∉ es)
    (hxa : x < s.allocated) (he : s.handles x = some e) (keyptr : List UInt8) :
    HASH_ADD_KEYPTR uthash_malloc hash s keyptr x = .error .outOfMemory ∨
      ∃ s', HASH_ADD_KEYPTR uthash_malloc hash s keyptr x = .ok s' ∧ Holds hash s' (es ++ [x]) ∧
        (∃ e', s'.handles x = some e' ∧ e'.key = keyptr) ∧
        (∀ p, p ≠ x → (s'.handles p).map UT_hash_handle.hashed =
          (s.handles p).map UT_hash_handle.hashed) ∧
        s'.allocated = s.allocated := by
  let e₀ : UT_hash_handle := { e with hashv := hash keyptr, key := keyptr, keylen := keyptr.length }
  let s₀ : Hash := { s with handles := Function.update s.handles x (some e₀) }
  have he₀ : s₀.handles x = some e₀ := Function.update_self _ _ _
  have h₀ : Holds hash s₀ es :=
    h.congr (fun p hp => Function.update_of_ne (ne_of_mem_of_not_mem hp hx) _ _) le_rfl rfl rfl
  -- the element is linked with the others, and then put into its bucket
  have hrest : ∀ s₁, Ready hash s₁ es x → Relinked s₀.handles s₁.handles →
      s₁.allocated = s.allocated → HASH_ADD_KEYPTR uthash_malloc hash s keyptr x =
        HASH_ADD_TO_TABLE uthash_malloc s₁ (hash keyptr) x →
      HASH_ADD_KEYPTR uthash_malloc hash s keyptr x = .error .outOfMemory ∨
        ∃ s', HASH_ADD_KEYPTR uthash_malloc hash s keyptr x = .ok s' ∧ Holds hash s' (es ++ [x]) ∧
          (∃ e', s'.handles x = some e' ∧ e'.key = keyptr) ∧
          (∀ p, p ≠ x → (s'.handles p).map UT_hash_handle.hashed =
            (s.handles p).map UT_hash_handle.hashed) ∧
          s'.allocated = s.allocated := by
    intro s₁ hready hrel₁ ha₁ heq
    have hlabel := hrel₁ x
    rw [he₀] at hlabel
    obtain ⟨e₁, he₁, hl₁⟩ := Option.map_eq_some_iff.1 hlabel
    obtain ⟨-, -, hv₁⟩ : e₁.key = keyptr ∧ e₁.keylen = keyptr.length ∧ e₁.hashv = hash keyptr := by
      simpa [UT_hash_handle.hashed, e₀] using hl₁
    rw [heq, ← hv₁]
    rcases hready.add_to_table hm he₁ with hoom | ⟨s', hs', hholds, hrel₂, ha₂⟩
    · exact .inl hoom
    · have hrel : Relinked s₀.handles s'.handles := hrel₁.trans hrel₂
      refine .inr ⟨s', hs', hholds, ?_, fun p hp => ?_, ha₂.trans ha₁⟩
      · have hlabel' := hrel x
        rw [he₀] at hlabel'
        obtain ⟨e', he', hl'⟩ := Option.map_eq_some_iff.1 hlabel'
        exact ⟨e', he', congrArg Prod.fst hl'⟩
      · rw [hrel p]
        exact congrArg _ (Function.update_of_ne hp _ _)
  have hadd : HASH_ADD_KEYPTR uthash_malloc hash s keyptr x = (do
      let s₁ ← if s₀.head.isNone then do
          let handles ← s₀.handles.assign (some x) fun h => { h with next := none, prev := none }
          let tbl ← HASH_MAKE_TABLE uthash_malloc x
          pure { s₀ with handles := handles, tbl := some tbl, head := some x }
        else HASH_APPEND_LIST s₀ x
      HASH_ADD_TO_TABLE uthash_malloc s₁ (hash keyptr) x) := by
    rw [HASH_ADD_KEYPTR, assign_eq he]
    rfl
  by_cases hes : es = []
  · subst hes
    have hhead : s₀.head.isNone = true := by
      rw [h₀.head]
      rfl
    rw [if_pos hhead, assign_eq he₀] at hadd
    cases hmake : HASH_MAKE_TABLE uthash_malloc x with
    | error f =>
      have hf : f = .outOfMemory := by
        rw [HASH_MAKE_TABLE] at hmake
        split at hmake <;> cases hmake
        rfl
      rw [hmake] at hadd
      left
      rw [hadd, hf]
      rfl
    | ok tbl =>
      have hready := make_table (s := s₀) hxa he₀ rfl rfl hmake
      refine hrest _ hready (Relinked.update he₀ rfl) rfl ?_
      rw [hadd, hmake]
      rfl
  · have hhead : s₀.head.isNone = false := by
      rw [h₀.head]
      cases es with
      | nil => exact absurd rfl hes
      | cons q es => rfl
    obtain ⟨s₁, h₁, hready, hrel₁, ha₁, -⟩ := h₀.append_list hes hx hxa he₀ rfl rfl
    refine hrest s₁ hready hrel₁ ha₁ ?_
    rw [hadd, hhead, if_neg Bool.false_ne_true, h₁]
    rfl

end

/-! ## An element less -/

section
variable {hash : List UInt8 → UInt32} {s s' : Hash} {es l₁ l₂ : List ℕ} {p : ℕ}

/-- **`HASH_DELETE_HH`** takes an element out, wherever it stands; with the last
    one the table is freed. -/
theorem Holds.delete (h : Holds hash s (l₁ ++ p :: l₂)) :
    ∃ s', HASH_DELETE_HH s (some p) = .ok s' ∧ Holds hash s' (l₁ ++ l₂) ∧
      Relinked s.handles s'.handles ∧ s'.allocated = s.allocated := by
  have hp : p ∈ l₁ ++ p :: l₂ := List.mem_append_right _ List.mem_cons_self
  obtain ⟨tbl, htable, ht, htbl⟩ := h.table_eq hp
  obtain ⟨d, hd⟩ := Option.isSome_iff_exists.1 (h.live hp)
  obtain ⟨hprev, hnext⟩ := h.app.mid
  have hdprev : d.prev = l₁.getLast? := by
    rw [← hprev]
    simp [links, hd]
  have hdnext : d.next = l₂.head? := by
    rw [← hnext]
    simp [links, hd]
  have hmem : ∀ q ∈ l₁ ++ l₂, q ∈ l₁ ++ p :: l₂ := fun q hq =>
    (List.mem_append.1 hq).elim (List.mem_append_left _)
      fun hq => List.mem_append_right _ (List.mem_cons_of_mem p hq)
  rw [HASH_DELETE_HH, deref_eq hd, htable]
  by_cases hlast : d.prev = none ∧ d.next = none
  · -- the only element
    obtain rfl := List.getLast?_eq_none_iff.1 (hdprev.symm.trans hlast.1)
    obtain rfl := List.head?_eq_none_iff.1 (hdnext.symm.trans hlast.2)
    refine ⟨{ s with tbl := none, head := none }, if_pos hlast, Holds.empty.2 rfl, .refl _, rfl⟩
  obtain ⟨hh₁, h₁, happ₁, hbkt₁, hrel₁⟩ :=
    assign?_next s.handles UT_hash_handle.prev UT_hash_handle.next UT_hash_handle.hh_prev
      UT_hash_handle.hh_next (x := d.prev) (v := d.next) (f := fun h => { h with next := d.next })
      (fun y hy => h.live (List.mem_append_left _ (List.mem_of_getLast? (hdprev ▸ hy))))
      (fun _ => rfl) (fun _ => rfl) (fun _ => rfl) (fun _ => rfl) fun _ => rfl
  obtain ⟨hh₂, h₂, happ₂, hbkt₂, hrel₂⟩ :=
    assign?_prev hh₁ UT_hash_handle.prev UT_hash_handle.next UT_hash_handle.hh_prev
      UT_hash_handle.hh_next (x := d.next) (v := d.prev) (f := fun h => { h with prev := d.prev })
      (fun y hy => hrel₁.isSome (h.live (List.mem_append_right _
        (List.mem_cons_of_mem p (List.mem_of_head? (hdnext ▸ hy))))))
      (fun _ => rfl) (fun _ => rfl) (fun _ => rfl) (fun _ => rfl) fun _ => rfl
  have happ : Uthash.app hh₂ = (Uthash.app s.handles).unlink p := by
    rw [Uthash.app, happ₂, happ₁, Links.unlink, hprev, hnext, hdprev, hdnext]
  have hrel : Relinked s.handles hh₂ := hrel₁.trans hrel₂
  have hb : Buckets hh₂ tbl.buckets tbl.num_buckets {q | q ∈ l₁ ++ p :: l₂} :=
    htbl.buckets.congr hrel (hbkt₂.trans hbkt₁)
  obtain ⟨b, -, hget, -⟩ := htbl.bucket d.hashv
  have hslot : slot hh₂ tbl.num_buckets p = some (HASH_TO_BKT d.hashv tbl.num_buckets) := by
    rw [hrel.slot, slot, hd]
    rfl
  obtain ⟨hh₃, bs, hdel, hlen, hb₃, happ₃, hrel₃⟩ := hb.del hget hp hslot
  have hset : {q | q ∈ l₁ ++ p :: l₂} \ {p} = {q | q ∈ l₁ ++ l₂} := by
    have hpn : p ∉ l₁ ++ l₂ := (List.nodup_cons.1 (List.nodup_middle.1 h.nodup)).1
    ext q
    rw [Set.mem_sdiff, Set.mem_singleton_iff, Set.mem_ofPred_eq, Set.mem_ofPred_eq]
    constructor
    · rintro ⟨hq, hqp⟩
      rcases List.mem_append.1 hq with hq | hq
      · exact List.mem_append_left _ hq
      · exact List.mem_append_right _ ((List.mem_cons.1 hq).resolve_left hqp)
    · exact fun hq => ⟨hmem q hq, ne_of_mem_of_not_mem hq hpn⟩
  rw [hset] at hb₃
  let tail := if some p = tbl.tail then d.prev else tbl.tail
  let head := if d.prev.isSome then s.head else d.next
  let tbl' : UT_hash_table :=
    { tbl with tail := tail, buckets := bs, num_items := tbl.num_items - 1 }
  have htail : tail = (l₁ ++ l₂).getLast? := by
    simp only [tail, htbl.tail, hdprev]
    cases hl₂ : l₂.getLast? with
    | none =>
      obtain rfl := List.getLast?_eq_none_iff.1 hl₂
      simp
    | some t =>
      have htp : t ≠ p := by
        rintro rfl
        have hn := (List.nodup_cons.1 (List.nodup_append.1 h.nodup).2.1).1
        exact hn (List.mem_of_getLast? hl₂)
      have hcons : (l₁ ++ p :: l₂).getLast? = some t := by
        rw [List.getLast?_append, List.getLast?_cons, hl₂]
        rfl
      rw [hcons, if_neg fun h => htp (Option.some.inj h).symm, List.getLast?_append, hl₂]
      rfl
  have hhead : head = (l₁ ++ l₂).head? := by
    simp only [head, hdprev, h.head, hdnext]
    cases l₁ with
    | nil => simp
    | cons y l₁ => simp
  have hitems : tbl.num_items - 1 = UInt32.ofNat (l₁ ++ l₂).length := by
    have hlen' : (l₁ ++ p :: l₂).length = (l₁ ++ l₂).length + 1 := by
      simp only [List.length_append, List.length_cons]
      omega
    rw [htbl.items, hlen', UInt32.ofNat_add]
    exact UInt32.add_sub_cancel _ _
  have hrel' : Relinked s.handles hh₃ := hrel.trans hrel₃
  refine ⟨{ s with handles := hh₃, tbl := some tbl', head := head }, ?_, ⟨?_, ?_, ?_, ?_, hhead, ?_⟩,
    hrel', rfl⟩
  · refine (if_neg hlast).trans ?_
    have htbl₁ : (if some p = tbl.tail then { tbl with tail := d.prev } else tbl) =
        { tbl with tail := tail } := by
      simp only [tail]
      split <;> rfl
    simp only [htbl₁, h₁, h₂, Option.getD_some, hdel, bind, Except.bind]
    rfl
  · exact h.nodup.sublist (List.Sublist.append_left (List.sublist_cons_self p l₂) l₁)
  · exact fun q hq => hrel'.hashed (h.hashed q (hmem q hq))
  · exact fun q hq => h.allocated q (hmem q hq)
  · show Chain (Uthash.app hh₃) _
    rw [happ₃, happ]
    exact h.app.unlink h.nodup
  · exact fun _ => ⟨tbl', rfl, htail, hitems, hlen.trans htbl.length, htbl.size, hb₃⟩

end

/-! ## The check -/

/-- **The walk along the links** ends, finds each node before the next one, and
    counts them. -/
theorem walk_segment {hh : Handles} {pr nx : UT_hash_handle → Option ℕ} {fuel : ℕ} {a : Option ℕ}
    {l : List ℕ} (h : Segment (links pr nx hh) a l none) (hlive : ∀ p ∈ l, (hh p).isSome)
    (hf : l.length ≤ fuel) (count : UInt32) :
    fsck_walk pr nx hh fuel l.head? a count = .ok (count + UInt32.ofNat l.length) := by
  induction l generalizing a fuel count with
  | nil =>
    have hzero : count + UInt32.ofNat ([] : List ℕ).length = count := UInt32.add_zero count
    rw [hzero]
    cases fuel <;> rfl
  | cons p l ih =>
    obtain ⟨fuel, rfl⟩ := Nat.exists_eq_succ_of_ne_zero (by simp at hf; omega : fuel ≠ 0)
    obtain ⟨hp, hl⟩ := List.forall_mem_cons.1 hlive
    obtain ⟨e, he⟩ := Option.isSome_iff_exists.1 hp
    obtain ⟨hprev, hnext, h⟩ := h
    have hprev : pr e = a := by
      rw [← hprev]
      simp [links, he]
    have hnext : nx e = l.head? := by
      rw [← Option.or_none (o := l.head?), ← hnext]
      simp [links, he]
    rw [List.head?_cons, fsck_walk, deref_eq he]
    refine (if_pos hprev).trans ?_
    rw [hnext, ih h hl (by simpa using hf), List.length_cons, UInt32.ofNat_add,
      UInt32.add_comm (UInt32.ofNat l.length), ← UInt32.add_assoc]
    rfl

section
variable {hash : List UInt8 → UInt32} {s : Hash} {es : List ℕ} {hh : Handles}
  {tbl : UT_hash_table}

/-- A chain has the elements of its bucket. -/
theorem Bucket.count_eq {num : UInt32} {j : ℕ} {b : UT_hash_bucket} {l : List ℕ}
    (h : Bucket hh num {p | p ∈ es} j b l) (hn : es.Nodup) :
    l.length = es.countP fun p => slot hh num p = some j := by
  have hperm : l.Perm (es.filter fun p => slot hh num p = some j) := by
    refine (List.perm_ext_iff_of_nodup h.nodup (hn.filter _)).2 fun p => ?_
    rw [h.mem, List.mem_filter, decide_eq_true_iff]
    exact Iff.rfl
  rw [hperm.length_eq, List.countP_eq_length_filter]

theorem countP_lt_succ (f : ℕ → Option ℕ) (es : List ℕ) (n : ℕ) :
    (es.countP fun p => (f p).any (· < n + 1)) =
      (es.countP fun p => (f p).any (· < n)) + es.countP fun p => f p = some n := by
  induction es with
  | nil => rfl
  | cons p es ih =>
    have hp : (if (f p).any (· < n + 1) = true then 1 else 0) =
        (if (f p).any (· < n) = true then 1 else 0) + if decide (f p = some n) = true then 1 else 0 := by
      cases f p with
      | none => rfl
      | some j =>
        simp only [Option.any_some, decide_eq_true_eq, Option.some.injEq]
        split <;> split <;> split <;> omega
    rw [List.countP_cons, List.countP_cons, List.countP_cons, ih, hp]
    omega

/-- The loop over the buckets, the first `n` here. -/
theorem Table.fsck_buckets (h : Table hh tbl es) (hn : es.Nodup) {fuel : ℕ}
    (hfuel : ∀ p ∈ es, p < fuel) {n : ℕ} (hlen : n ≤ tbl.buckets.length) :
    ((List.range n).foldlM (fun count i => do
      let b ← Uthash.bucket tbl.buckets i
      let bkt_count ← fsck_walk UT_hash_handle.hh_prev UT_hash_handle.hh_next hh fuel b.hh_head none 0
      if b.count = bkt_count then return count + bkt_count else .error .oops) (0 : UInt32)) =
      Except.ok (UInt32.ofNat (es.countP fun p => (slot hh tbl.num_buckets p).any (· < n))) := by
  induction n with
  | zero => simp [pure, Except.pure]
  | succ n ih =>
    have hb := List.getElem?_eq_getElem (Nat.lt_of_succ_le hlen)
    generalize tbl.buckets[n] = b at hb
    obtain ⟨l, hl⟩ := h.buckets n b hb
    have hlf : l.length ≤ fuel := length_le_of_lt hl.nodup fun p hp => hfuel p ((hl.mem p).1 hp).1
    have hwalk : fsck_walk UT_hash_handle.hh_prev UT_hash_handle.hh_next hh fuel b.hh_head none 0 =
        .ok (UInt32.ofNat l.length) := by
      rw [hl.head, walk_segment hl.chain (fun p hp => hl.live hp) hlf, UInt32.zero_add]
    rw [List.range_succ, List.foldlM_append, ih (Nat.le_of_succ_le hlen)]
    simp only [List.foldlM_cons, List.foldlM_nil, Uthash.bucket, hb, hwalk, hl.count, bind,
      Except.bind, if_true, pure, Except.pure]
    rw [countP_lt_succ, ← hl.count_eq hn, UInt32.ofNat_add]

/-- **The check of uthash finds nothing wrong.** -/
theorem Holds.fsck (h : Holds hash s es) : HASH_FSCK s = .ok () := by
  cases hes : es with
  | nil =>
    rw [hes] at h
    rw [HASH_FSCK, h.head]
    rfl
  | cons q rest =>
    have hq : q ∈ es := hes ▸ List.mem_cons_self
    obtain ⟨tbl, htable, -, htbl⟩ := h.table_eq hq
    have hall : (es.countP fun p => (slot s.handles tbl.num_buckets p).any
        (· < tbl.num_buckets.toNat)) = es.length := by
      rw [List.countP_eq_length]
      intro p hp
      obtain ⟨e, he, -⟩ := h.hashed p hp
      simp [slot, he, HASH_TO_BKT_lt _ htbl.num_ne_zero]
    have hbuckets := htbl.fsck_buckets h.nodup h.allocated htbl.length.ge
    rw [hall, ← htbl.items] at hbuckets
    have hlist : fsck_walk UT_hash_handle.prev UT_hash_handle.next s.handles s.allocated s.head none 0 =
        .ok tbl.num_items := by
      rw [h.head, walk_segment h.app (fun p hp => h.live hp) (length_le_of_lt h.nodup h.allocated),
        UInt32.zero_add, htbl.items]
    have hhead : s.head.isNone = false := by
      rw [h.head, hes]
      rfl
    rw [HASH_FSCK, hhead, htable]
    have hstep := congrArg (fun x : Except UthashFault UInt32 => x >>= fun count =>
      if count ≠ tbl.num_items then (.error .oops : Except UthashFault Unit) else do
        let count ← fsck_walk UT_hash_handle.prev UT_hash_handle.next s.handles s.allocated s.head none 0
        if count ≠ tbl.num_items then .error .oops) hbuckets
    refine hstep.trans ?_
    simp only [hlist, bind, Except.bind, ne_eq, not_true, if_false]
    rfl

end

end Uthash

end ChordPeer
