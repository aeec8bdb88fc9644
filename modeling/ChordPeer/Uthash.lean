/-
  The hash table of `libraries/uthash.h`, as the store of a peer uses it: the
  macros on the links of the handles and the array of buckets.

  An element is known by its address, and so is the handle inside it
  (`ELMT_FROM_HH`, `HH_FROM_ELMT`).  There is one table, and the `tbl` of every
  handle that is in it points to it.

  * `HASH_FIND`, `HASH_ADD_KEYPTR`, `HASH_DELETE_HH`: the operations;
    `HASH_EXPAND_BUCKETS`: twice as many buckets;
  * `HASH_FSCK`: the check of the table that uthash has for itself.

  A loop along a chain is given the number of elements there have been; one
  that does not end within as many steps never does.
-/
import ChordPeer.Store

namespace ChordPeer

namespace Uthash

/-- Where a macro goes wrong, or ends the program. -/
inductive UthashFault where
  | null
  /-- an element or a table that was freed -/
  | released
  /-- outside the array of buckets -/
  | bucket
  /-- a chain that leads back into itself -/
  | endless
  /-- `uthash_fatal` -/
  | outOfMemory
  /-- `HASH_OOPS` -/
  | oops
  deriving DecidableEq, Repr

/-! ## Handles, buckets, tables -/

/-- `struct UT_hash_handle`.  `key` is what the pointer to the key points to. -/
structure UT_hash_handle where
  prev : Option ℕ
  next : Option ℕ
  hh_prev : Option ℕ
  hh_next : Option ℕ
  key : List UInt8
  keylen : ℕ
  hashv : UInt32
  deriving DecidableEq, Repr

structure UT_hash_bucket where
  hh_head : Option ℕ
  count : UInt32
  expand_mult : UInt32
  deriving DecidableEq, Repr

structure UT_hash_table where
  buckets : List UT_hash_bucket
  num_buckets : UInt32
  log2_num_buckets : UInt32
  num_items : UInt32
  tail : Option ℕ
  ideal_chain_maxlen : UInt32
  nonideal_items : UInt32
  ineff_expands : UInt32
  noexpand : UInt32
  deriving DecidableEq, Repr

/-- The memory of the handles; `none` where there is no element. -/
abbrev Handles := ℕ → Option UT_hash_handle

/-- `*p`. -/
def Handles.deref (hh : Handles) : Option ℕ → Except UthashFault UT_hash_handle
  | none => .error .null
  | some p => match hh p with
    | none => .error .released
    | some h => .ok h

/-- Assignments to the fields of `*p`. -/
def Handles.assign (hh : Handles) (p : Option ℕ) (f : UT_hash_handle → UT_hash_handle) :
    Except UthashFault Handles :=
  match p with
  | none => .error .null
  | some p => match hh p with
    | none => .error .released
    | some h => .ok (Function.update hh p (some (f h)))

/-- The same behind `if (p)`. -/
def Handles.assign? (hh : Handles) (p : Option ℕ) (f : UT_hash_handle → UT_hash_handle) :
    Except UthashFault Handles :=
  match p with
  | none => .ok hh
  | some p => hh.assign (some p) f

/-- The head pointer, the table, the handles, and how many elements were
    allocated so far. -/
structure Hash where
  handles : Handles
  allocated : ℕ
  tbl : Option UT_hash_table
  head : Option ℕ

def Hash.empty : Hash := ⟨fun _ => none, 0, none, none⟩

/-- `(head)->hh.tbl`. -/
def Hash.table (s : Hash) : Except UthashFault UT_hash_table := do
  let _ ← s.handles.deref s.head
  match s.tbl with
  | none => .error .released
  | some tbl => .ok tbl

def bucket (bs : List UT_hash_bucket) (i : ℕ) : Except UthashFault UT_hash_bucket :=
  match bs[i]? with
  | none => .error .bucket
  | some b => .ok b

/-! ## Sizes -/

def HASH_INITIAL_NUM_BUCKETS : UInt32 := 32

def HASH_INITIAL_NUM_BUCKETS_LOG2 : UInt32 := 5

def HASH_BKT_CAPACITY_THRESH : UInt32 := 10

def sizeof_UT_hash_bucket : ℕ := 16

def sizeof_UT_hash_table : ℕ := 64

def HASH_TO_BKT (hashv num_bkts : UInt32) : ℕ := (hashv &&& (num_bkts - 1)).toNat

/-! ## Chains -/

section
variable (uthash_malloc : ℕ → Bool)

/-- The assignments that put a handle in front of a chain.  `HASH_ADD_TO_BKT`
    and the loop of `HASH_EXPAND_BUCKETS` make them. -/
def add_front (hh : Handles) (hh_head : Option ℕ) (addhh : ℕ) : Except UthashFault Handles := do
  let hh ← hh.assign (some addhh) fun h => { h with hh_prev := none, hh_next := hh_head }
  hh.assign? hh_head fun h => { h with hh_prev := some addhh }

/-- What the loops of `HASH_EXPAND_BUCKETS` change. -/
structure Expansion where
  handles : Handles
  new_buckets : List UT_hash_bucket
  nonideal_items : UInt32

/-- The counters of a new bucket that gets one more item. -/
def expand_count (ideal_chain_maxlen : UInt32) (newbkt : UT_hash_bucket) : UT_hash_bucket :=
  let newbkt := { newbkt with count := newbkt.count + 1 }
  if newbkt.count > ideal_chain_maxlen ∧ newbkt.count > newbkt.expand_mult * ideal_chain_maxlen then
    { newbkt with expand_mult := newbkt.expand_mult + 1 }
  else newbkt

/-- An item moves to its new bucket. -/
def expand_item (num_buckets ideal_chain_maxlen : UInt32) (x : Expansion) (thh : ℕ)
    (hashv : UInt32) : Except UthashFault Expansion := do
  let bkt := HASH_TO_BKT hashv num_buckets
  let newbkt ← bucket x.new_buckets bkt
  let newbkt := expand_count ideal_chain_maxlen newbkt
  let nonideal_items :=
    if newbkt.count > ideal_chain_maxlen then x.nonideal_items + 1 else x.nonideal_items
  let handles ← add_front x.handles newbkt.hh_head thh
  return ⟨handles, x.new_buckets.set bkt { newbkt with hh_head := some thh }, nonideal_items⟩

/-- The inner loop, over an old chain. -/
def expand_chain (num_buckets ideal_chain_maxlen : UInt32) :
    ℕ → Option ℕ → Expansion → Except UthashFault Expansion
  | _, none, x => .ok x
  | 0, some _, _ => .error .endless
  | fuel + 1, some thh, x => do
    let h ← x.handles.deref (some thh)
    let x ← expand_item num_buckets ideal_chain_maxlen x thh h.hashv
    expand_chain num_buckets ideal_chain_maxlen fuel h.hh_next x

/-- The outer loop, over the old buckets. -/
def expand_loop (s : Hash) (tbl : UT_hash_table) (ideal_chain_maxlen : UInt32) (n : ℕ) :
    Except UthashFault Expansion :=
  (List.range n).foldlM (fun x i => do
    let b ← bucket tbl.buckets i
    expand_chain (tbl.num_buckets * 2) ideal_chain_maxlen s.allocated b.hh_head x)
    ⟨s.handles, List.replicate (2 * tbl.num_buckets.toNat) ⟨none, 0, 0⟩, 0⟩

def HASH_EXPAND_BUCKETS (s : Hash) (tbl : UT_hash_table) : Except UthashFault Hash := do
  if uthash_malloc (2 * tbl.num_buckets.toNat * sizeof_UT_hash_bucket) then
    let ideal_chain_maxlen := (tbl.num_items >>> (tbl.log2_num_buckets + 1)) +
      (if tbl.num_items &&& (tbl.num_buckets * 2 - 1) ≠ 0 then 1 else 0)
    let x ← expand_loop s tbl ideal_chain_maxlen tbl.num_buckets.toNat
    let ineff_expands :=
      if x.nonideal_items > tbl.num_items >>> 1 then tbl.ineff_expands + 1 else 0
    return { s with
      handles := x.handles
      tbl := some { tbl with
        buckets := x.new_buckets
        num_buckets := tbl.num_buckets * 2
        log2_num_buckets := tbl.log2_num_buckets + 1
        ideal_chain_maxlen := ideal_chain_maxlen
        nonideal_items := x.nonideal_items
        ineff_expands := ineff_expands
        noexpand := if ineff_expands > 1 then 1 else tbl.noexpand } }
  else .error .outOfMemory

/-- The bucket is to be expanded. -/
def UT_hash_bucket.over (head : UT_hash_bucket) : Bool :=
  head.count ≥ (head.expand_mult + 1) * HASH_BKT_CAPACITY_THRESH

def HASH_ADD_TO_BKT (s : Hash) (tbl : UT_hash_table) (bkt : ℕ) (addhh : ℕ) :
    Except UthashFault Hash := do
  let head ← bucket tbl.buckets bkt
  let handles ← add_front s.handles head.hh_head addhh
  let head := { head with count := head.count + 1, hh_head := some addhh }
  let tbl := { tbl with buckets := tbl.buckets.set bkt head }
  let s := { s with handles := handles, tbl := some tbl }
  if head.over && tbl.noexpand == 0 then HASH_EXPAND_BUCKETS uthash_malloc s tbl else return s

/-- `HASH_DEL_IN_BKT`.  The fields of `delhh` are not among those it assigns. -/
def HASH_DEL_IN_BKT (hh : Handles) (bs : List UT_hash_bucket) (bkt : ℕ) (delhh : ℕ) :
    Except UthashFault (Handles × List UT_hash_bucket) := do
  let head ← bucket bs bkt
  let d ← hh.deref (some delhh)
  let head := { head with
    count := head.count - 1
    hh_head := if head.hh_head = some delhh then d.hh_next else head.hh_head }
  let hh ← hh.assign? d.hh_prev fun h => { h with hh_next := d.hh_next }
  let hh ← hh.assign? d.hh_next fun h => { h with hh_prev := d.hh_prev }
  return (hh, bs.set bkt head)

/-- `HASH_FIND_IN_BKT` from the handle `out` on. -/
def HASH_FIND_IN_BKT (hh : Handles) (keyptr : List UInt8) (hashval : UInt32) :
    ℕ → Option ℕ → Except UthashFault (Option ℕ)
  | _, none => .ok none
  | 0, some _ => .error .endless
  | fuel + 1, some out => do
    let h ← hh.deref (some out)
    if h.hashv = hashval ∧ h.keylen = keyptr.length ∧ h.key = keyptr then return some out
    else HASH_FIND_IN_BKT hh keyptr hashval fuel h.hh_next

/-! ## Operations -/

variable (hash : List UInt8 → UInt32)

def HASH_FIND (s : Hash) (keyptr : List UInt8) : Except UthashFault (Option ℕ) := do
  if s.head.isNone then return none
  let tbl ← s.table
  let b ← bucket tbl.buckets (HASH_TO_BKT (hash keyptr) tbl.num_buckets)
  HASH_FIND_IN_BKT s.handles keyptr (hash keyptr) s.allocated b.hh_head

/-- `HASH_MAKE_TABLE`: the table of which `head` is the first element. -/
def HASH_MAKE_TABLE (head : ℕ) : Except UthashFault UT_hash_table := do
  if uthash_malloc sizeof_UT_hash_table ∧
      uthash_malloc (HASH_INITIAL_NUM_BUCKETS.toNat * sizeof_UT_hash_bucket) then
    return {
      buckets := List.replicate HASH_INITIAL_NUM_BUCKETS.toNat ⟨none, 0, 0⟩
      num_buckets := HASH_INITIAL_NUM_BUCKETS
      log2_num_buckets := HASH_INITIAL_NUM_BUCKETS_LOG2
      num_items := 0
      tail := some head
      ideal_chain_maxlen := 0
      nonideal_items := 0
      ineff_expands := 0
      noexpand := 0 }
  else .error .outOfMemory

def HASH_APPEND_LIST (s : Hash) (add : ℕ) : Except UthashFault Hash := do
  let tbl ← s.table
  let handles ← s.handles.assign (some add) fun h => { h with next := none, prev := tbl.tail }
  let handles ← handles.assign tbl.tail fun h => { h with next := some add }
  return { s with handles := handles, tbl := some { tbl with tail := some add } }

def HASH_ADD_TO_TABLE (s : Hash) (hashval : UInt32) (add : ℕ) : Except UthashFault Hash := do
  let tbl ← s.table
  let tbl := { tbl with num_items := tbl.num_items + 1 }
  HASH_ADD_TO_BKT uthash_malloc s tbl (HASH_TO_BKT hashval tbl.num_buckets) add

def HASH_ADD_KEYPTR (s : Hash) (keyptr : List UInt8) (add : ℕ) : Except UthashFault Hash := do
  let handles ← s.handles.assign (some add) fun h =>
    { h with hashv := hash keyptr, key := keyptr, keylen := keyptr.length }
  let s := { s with handles := handles }
  let s ← if s.head.isNone then do
      let handles ← s.handles.assign (some add) fun h => { h with next := none, prev := none }
      let tbl ← HASH_MAKE_TABLE uthash_malloc add
      pure { s with handles := handles, tbl := some tbl, head := some add }
    else HASH_APPEND_LIST s add
  HASH_ADD_TO_TABLE uthash_malloc s (hash keyptr) add

/-- `HASH_DELETE_HH`. -/
def HASH_DELETE_HH (s : Hash) (delptrhh : Option ℕ) : Except UthashFault Hash := do
  let d ← s.handles.deref delptrhh
  let tbl ← s.table
  if d.prev = none ∧ d.next = none then
    return { s with tbl := none, head := none }
  else
    let tbl := if delptrhh = tbl.tail then { tbl with tail := d.prev } else tbl
    let handles ← s.handles.assign? d.prev fun h => { h with next := d.next }
    let head := if d.prev.isSome then s.head else d.next
    let handles ← handles.assign? d.next fun h => { h with prev := d.prev }
    let (handles, buckets) ← HASH_DEL_IN_BKT handles tbl.buckets
      (HASH_TO_BKT d.hashv tbl.num_buckets) (delptrhh.getD 0)
    return { s with
      handles := handles
      tbl := some { tbl with buckets := buckets, num_items := tbl.num_items - 1 }
      head := head }

end

/-! ## The check -/

/-- The loop along the links `next`, with the count so far and the node before. -/
def fsck_walk (prev next : UT_hash_handle → Option ℕ) (hh : Handles) :
    ℕ → Option ℕ → Option ℕ → UInt32 → Except UthashFault UInt32
  | _, none, _, count => .ok count
  | 0, some _, _, _ => .error .endless
  | fuel + 1, some thh, before, count => do
    let h ← hh.deref (some thh)
    if prev h = before then fsck_walk prev next hh fuel (next h) (some thh) (count + 1)
    else .error .oops

/-- `HASH_FSCK`. -/
def HASH_FSCK (s : Hash) : Except UthashFault Unit := do
  if s.head.isNone then return ()
  let tbl ← s.table
  let count ← (List.range tbl.num_buckets.toNat).foldlM (fun count i => do
    let b ← bucket tbl.buckets i
    let bkt_count ← fsck_walk UT_hash_handle.hh_prev UT_hash_handle.hh_next s.handles s.allocated
      b.hh_head none 0
    if b.count = bkt_count then return count + bkt_count else .error .oops) 0
  if count ≠ tbl.num_items then .error .oops
  let count ← fsck_walk UT_hash_handle.prev UT_hash_handle.next s.handles s.allocated s.head none 0
  if count ≠ tbl.num_items then .error .oops

end Uthash

end ChordPeer
