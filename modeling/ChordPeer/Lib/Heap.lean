/-
  A heap of blocks — allocation, resizing and release of blocks of bytes, with
  the accesses that a program must not make as faults.

  A pointer is the number of a block (`none` is `NULL`); a block that was
  released has no bytes any more, and its number is never given out again.
  `realloc` may keep a block in place or move it: `moves` decides, call by call.

  * `read`, `write`, `free`, `realloc` fault on a released block;
  * `read_live`, `write_block`, `realloc_in_place`, `realloc_moved`: what they
    do on a live block;
  * `Grows`: the blocks given out stay as they are (`Grows.read`), as under
    `malloc` and copying to the new block (`malloc_memcpy`).
-/
import ChordPeer.Lib.Bytes
import Mathlib.Logic.Function.Basic

open CBytes

/-- An access that the memory does not allow. -/
inductive HeapFault where
  | null
  | released
  | outOfBounds
  deriving DecidableEq, Repr

/-- The blocks allocated so far and the bytes of those still live. -/
structure Heap where
  next : ℕ
  block : ℕ → Option (List UInt8)
  /-- whether the `n`-th call of `realloc` moves the block -/
  moves : ℕ → Bool
  reallocs : ℕ
  /-- what memory holds that was never written -/
  junk : Mem

namespace Heap

abbrev Ptr := Option ℕ

def malloc (h : Heap) (n : ℕ) : Ptr × Heap :=
  (some h.next, { h with
    next := h.next + 1
    block := Function.update h.block h.next (some (h.junk.bytes 0 n)) })

/-- The `n` bytes from offset `i` of a block. -/
def read (h : Heap) (p : Ptr) (i n : ℕ) : Except HeapFault (List UInt8) :=
  if n = 0 then .ok [] else
  match p with
  | none => .error .null
  | some b => match h.block b with
    | none => .error .released
    | some bs => if i + n ≤ bs.length then .ok ((bs.drop i).take n) else .error .outOfBounds

/-- The block behind a pointer, for an access to its bytes. -/
def deref (h : Heap) : Ptr → Except HeapFault (List UInt8)
  | none => .error .null
  | some b => match h.block b with
    | none => .error .released
    | some bs => .ok bs

/-- Store bytes from offset `i` of a block. -/
def write (h : Heap) (p : Ptr) (i : ℕ) (data : List UInt8) : Except HeapFault Heap :=
  if data = [] then .ok h else
  match p with
  | none => .error .null
  | some b => match h.block b with
    | none => .error .released
    | some bs =>
      if i + data.length ≤ bs.length then
        .ok { h with
          block := Function.update h.block b
            (some (bs.take i ++ data ++ bs.drop (i + data.length))) }
      else .error .outOfBounds

def free (h : Heap) : Ptr → Except HeapFault Heap
  | none => .ok h
  | some b => match h.block b with
    | none => .error .released
    | some _ => .ok { h with block := Function.update h.block b none }

/-- Resize a block; size `0` releases it. -/
def realloc (h : Heap) (p : Ptr) (n : ℕ) : Except HeapFault (Ptr × Heap) :=
  match p with
  | none => .ok (h.malloc n)
  | some b => match h.block b with
    | none => .error .released
    | some bs =>
      let h' := { h with reallocs := h.reallocs + 1 }
      let resized := (Mem.ofList bs h.junk).bytes 0 n
      if n = 0 then .ok (none, { h' with block := Function.update h.block b none })
      else if h.moves h.reallocs then
        .ok (some h.next, { h' with
          next := h.next + 1
          block := Function.update (Function.update h.block b none) h.next (some resized) })
      else .ok (some b, { h' with block := Function.update h.block b (some resized) })

theorem malloc_block (h : Heap) (n : ℕ) :
    (h.malloc n).2.block h.next = some (h.junk.bytes 0 n) := by
  simp [malloc]

/-- Reading a live block within its bounds. -/
theorem read_live {h : Heap} {b : ℕ} {bs : List UInt8} (hb : h.block b = some bs) {n : ℕ}
    (hn : n ≤ bs.length) : h.read (some b) 0 n = .ok (bs.take n) := by
  unfold read
  by_cases h0 : n = 0
  · simp [h0]
  · simp [h0, hb, hn]

/-- What was read from the start of a block lies there. -/
theorem deref_of_read {h : Heap} {p : Ptr} {n : ℕ} {data : List UInt8}
    (hr : h.read p 0 n = .ok data) (hne : data ≠ []) :
    data.length = n ∧ ∃ tail, h.deref p = .ok (data ++ tail) := by
  unfold read at hr
  split at hr
  · cases hr
    exact absurd rfl hne
  · split at hr
    · cases hr
    · split at hr
      · cases hr
      · next bs hb =>
        split at hr
        · next hn =>
          cases hr
          refine ⟨by simpa using hn, bs.drop n, ?_⟩
          simp [deref, hb]
        · cases hr

/-! ## One block -/

def setBlock (h : Heap) (b : ℕ) (bs : Option (List UInt8)) : Heap :=
  { h with block := Function.update h.block b bs }

section
variable {h : Heap} {b n : ℕ} {bs data : List UInt8}

@[simp] theorem setBlock_block (h : Heap) (b : ℕ) (bs : Option (List UInt8)) :
    (h.setBlock b bs).block b = bs :=
  Function.update_self _ _ _

theorem setBlock_block_of_ne {c : ℕ} (hc : c ≠ b) (bs : Option (List UInt8)) :
    (h.setBlock b bs).block c = h.block c :=
  Function.update_of_ne hc _ _

@[simp] theorem setBlock_next (h : Heap) (b : ℕ) (bs : Option (List UInt8)) :
    (h.setBlock b bs).next = h.next := rfl

@[simp] theorem setBlock_moves (h : Heap) (b : ℕ) (bs : Option (List UInt8)) :
    (h.setBlock b bs).moves = h.moves := rfl

@[simp] theorem setBlock_reallocs (h : Heap) (b : ℕ) (bs : Option (List UInt8)) :
    (h.setBlock b bs).reallocs = h.reallocs := rfl

/-- Storing within the bounds of a live block. -/
theorem write_block (hb : h.block b = some bs) {i : ℕ} (hn : i + data.length ≤ bs.length) :
    h.write (some b) i data =
      .ok (h.setBlock b (some (bs.take i ++ data ++ bs.drop (i + data.length)))) := by
  unfold write
  by_cases h0 : data = []
  · subst h0
    have hself : h.setBlock b (some bs) = h := by simp [setBlock, ← hb]
    simp [hself]
  · simp [h0, hb, hn, setBlock]

theorem free_block (hb : h.block b = some bs) : h.free (some b) = .ok (h.setBlock b none) := by
  simp [free, hb, setBlock]

def release (h : Heap) : Ptr → Heap
  | none => h
  | some b => h.setBlock b none

theorem free_release {p : Ptr} (hp : ∀ b, p = some b → h.block b ≠ none) :
    h.free p = .ok (h.release p) := by
  cases p with
  | none => rfl
  | some b =>
    obtain ⟨bs, hb⟩ := Option.ne_none_iff_exists'.1 (hp b rfl)
    exact free_block hb

@[simp] theorem release_next (h : Heap) (p : Ptr) : (h.release p).next = h.next := by
  cases p <;> rfl

@[simp] theorem release_moves (h : Heap) (p : Ptr) : (h.release p).moves = h.moves := by
  cases p <;> rfl

@[simp] theorem release_reallocs (h : Heap) (p : Ptr) : (h.release p).reallocs = h.reallocs := by
  cases p <;> rfl

theorem release_block_of_ne {p : Ptr} (hp : p ≠ some b) : (h.release p).block b = h.block b := by
  cases p with
  | none => rfl
  | some c => exact setBlock_block_of_ne (fun hc => hp (by rw [hc])) _

theorem realloc_released (hb : h.block b = some bs) :
    h.realloc (some b) 0 = .ok (none, { h.setBlock b none with reallocs := h.reallocs + 1 }) := by
  simp [realloc, hb, setBlock]

theorem realloc_in_place (hb : h.block b = some bs) (hn : n ≠ 0) (hm : h.moves h.reallocs = false) :
    h.realloc (some b) n = .ok (some b, { h.setBlock b (some ((Mem.ofList bs h.junk).bytes 0 n)) with
      reallocs := h.reallocs + 1 }) := by
  simp [realloc, hb, hn, hm, setBlock]

theorem realloc_moved (hb : h.block b = some bs) (hn : n ≠ 0) (hm : h.moves h.reallocs = true) :
    h.realloc (some b) n = .ok (some h.next,
      { (h.setBlock b none).setBlock h.next (some ((Mem.ofList bs h.junk).bytes 0 n)) with
        next := h.next + 1
        reallocs := h.reallocs + 1 }) := by
  simp [realloc, hb, hn, hm, setBlock]

/-- The block `b` of `h` became the one of `p` in `h'`, with the bytes `bs`. -/
structure Resized (h : Heap) (b : ℕ) (bs : List UInt8) (p : Ptr) (h' : Heap) : Prop where
  null : p = none ↔ bs = []
  block : ∀ c, p = some c → (c = b ∨ h.next ≤ c) ∧ c < h'.next ∧ h'.block c = some bs
  old : p ≠ some b → h'.block b = none
  new : ∀ c, h.next ≤ c → c < h'.next → p = some c
  other : ∀ c < h.next, c ≠ b → h'.block c = h.block c
  next : h.next ≤ h'.next
  moves : h'.moves = h.moves
  reallocs : h'.reallocs = h.reallocs + 1

/-- Cutting a block down, in place or not. -/
theorem realloc_take (hb : h.block b = some bs) (hlt : b < h.next) (hn : n ≤ bs.length) :
    ∃ p h', h.realloc (some b) n = .ok (p, h') ∧ Resized h b (bs.take n) p h' := by
  have hresized : (Mem.ofList bs h.junk).bytes 0 n = bs.take n := by
    rw [Mem.bytes_ofList (by simpa using hn), List.drop_zero]
  by_cases h0 : n = 0
  · subst h0
    refine ⟨_, _, realloc_released hb, ?_⟩
    constructor
    · simp
    · simp
    · intro _
      exact setBlock_block _ _ _
    · intro c hle hc
      exact absurd hc (Nat.not_lt.2 hle)
    · intro c _ hc
      exact setBlock_block_of_ne hc _
    · exact le_rfl
    · rfl
    · rfl
  · have hne : bs.take n ≠ [] := by
      intro hnil
      have hlen := congrArg List.length hnil
      rw [List.length_take_of_le hn] at hlen
      exact h0 hlen
    cases hm : h.moves h.reallocs with
    | true =>
      have hrealloc := realloc_moved hb h0 hm
      rw [hresized] at hrealloc
      refine ⟨_, _, hrealloc, ?_⟩
      constructor
      · exact iff_of_false (by simp) hne
      · intro c hc
        cases hc
        exact ⟨.inr le_rfl, Nat.lt_succ_self _, setBlock_block _ _ _⟩
      · intro _
        exact (setBlock_block_of_ne hlt.ne _).trans (setBlock_block _ _ _)
      · intro c hle hc
        rw [Nat.le_antisymm (Nat.le_of_lt_succ hc) hle]
      · intro c hc hne
        exact (setBlock_block_of_ne hc.ne _).trans (setBlock_block_of_ne hne _)
      · exact Nat.le_succ _
      · rfl
      · rfl
    | false =>
      have hrealloc := realloc_in_place hb h0 hm
      rw [hresized] at hrealloc
      refine ⟨_, _, hrealloc, ?_⟩
      constructor
      · exact iff_of_false (by simp) hne
      · intro c hc
        cases hc
        exact ⟨.inl rfl, hlt, setBlock_block _ _ _⟩
      · intro hp
        exact absurd rfl hp
      · intro c hle hc
        exact absurd hc (Nat.not_lt.2 hle)
      · intro c _ hne
        exact setBlock_block_of_ne hne _
      · exact le_rfl
      · rfl
      · rfl

/-- Through the old pointer there is no reading as much as before, if the block
    was moved or made too small for it. -/
theorem realloc_read_fault (hb : h.block b = some bs) (hlt : b < h.next) {k : ℕ} (hk : k ≠ 0)
    (hn : h.moves h.reallocs = true ∨ n < k) :
    ∃ p h' f, h.realloc (some b) n = .ok (p, h') ∧ h'.read (some b) 0 k = .error f := by
  have hne : b ≠ h.next := hlt.ne
  by_cases h0 : n = 0
  · subst h0
    refine ⟨_, _, .released, realloc_released hb, ?_⟩
    simp [read, hk]
  · by_cases hm : h.moves h.reallocs = true
    · refine ⟨_, _, .released, realloc_moved hb h0 hm, ?_⟩
      simp [read, hk, setBlock_block_of_ne hne]
    · have hlt : n < k := hn.resolve_left hm
      refine ⟨_, _, .outOfBounds, realloc_in_place hb h0 (by simpa using hm), ?_⟩
      simp [read, hk, hlt]

end

/-! ## What stays as it is -/

/-- Copy `n` bytes from the start of a block to the start of another. -/
def memcpy (h : Heap) (dst src : Ptr) (n : ℕ) : Except HeapFault Heap := do
  let data ← h.read src 0 n
  h.write dst 0 data

/-- A block that was not given out yet has no bytes. -/
def Allocated (h : Heap) : Prop := ∀ b, h.next ≤ b → h.block b = none

/-- The blocks given out are as they were. -/
structure Grows (h h' : Heap) : Prop where
  next : h.next ≤ h'.next
  block : ∀ b < h.next, h'.block b = h.block b

theorem Grows.refl (h : Heap) : Grows h h := ⟨le_rfl, fun _ _ => rfl⟩

theorem Grows.trans {h h' h'' : Heap} (g : Grows h h') (g' : Grows h' h'') : Grows h h'' where
  next := g.next.trans g'.next
  block b hb := (g'.block b (hb.trans_le g.next)).trans (g.block b hb)

/-- A read sees the block behind its pointer and nothing else. -/
theorem read_congr {h h' : Heap} {p : Ptr} (hp : ∀ b, p = some b → h'.block b = h.block b) (i n : ℕ) :
    h'.read p i n = h.read p i n := by
  cases p with
  | none => rfl
  | some b => simp only [read, hp b rfl]

theorem Allocated.lt_of_read {h : Heap} (ha : h.Allocated) {b i n : ℕ} {bs : List UInt8} (hn : n ≠ 0)
    (hr : h.read (some b) i n = .ok bs) : b < h.next := by
  by_contra hb
  rw [read, if_neg hn] at hr
  simp only [ha b (Nat.le_of_not_lt hb)] at hr
  cases hr

theorem Grows.read {h h' : Heap} (g : Grows h h') (ha : h.Allocated) {p : Ptr} {i n : ℕ}
    {bs : List UInt8} (hr : h.read p i n = .ok bs) : h'.read p i n = .ok bs := by
  by_cases hn : n = 0
  · subst hn
    exact hr
  · rw [← hr]
    refine read_congr ?_ i n
    rintro b rfl
    exact g.block b (ha.lt_of_read hn hr)

theorem Allocated.malloc {h : Heap} (ha : h.Allocated) (n : ℕ) : (h.malloc n).2.Allocated := by
  intro b hb
  have hb : h.next + 1 ≤ b := hb
  have hne : b ≠ h.next := by omega
  show Function.update h.block h.next _ b = none
  rw [Function.update_of_ne hne]
  exact ha b (by omega)

theorem grows_malloc (h : Heap) (n : ℕ) : Grows h (h.malloc n).2 where
  next := Nat.le_succ _
  block _ hb := Function.update_of_ne hb.ne _ _

/-- A store changes the block behind its pointer and nothing else. -/
theorem write_ok {h h' : Heap} {p : Ptr} {i : ℕ} {data : List UInt8}
    (hw : h.write p i data = .ok h') :
    h'.next = h.next ∧ (∀ b, p ≠ some b → h'.block b = h.block b) ∧
      ∀ b, h.block b = none → h'.block b = none := by
  unfold write at hw
  split at hw
  · cases hw
    exact ⟨rfl, fun _ _ => rfl, fun _ hb => hb⟩
  · split at hw
    · cases hw
    · next c =>
      split at hw
      · cases hw
      · next bs hc =>
        split at hw
        · cases hw
          refine ⟨rfl, fun b hb => Function.update_of_ne (fun h => hb (by rw [h])) _ _, ?_⟩
          intro b hb
          have hne : b ≠ c := by
            rintro rfl
            rw [hb] at hc
            cases hc
          exact (Function.update_of_ne hne _ _).trans hb
        · cases hw

theorem Allocated.write {h h' : Heap} (ha : h.Allocated) {p : Ptr} {i : ℕ} {data : List UInt8}
    (hw : h.write p i data = .ok h') : h'.Allocated := by
  obtain ⟨hnext, -, hnone⟩ := write_ok hw
  intro b hb
  rw [hnext] at hb
  exact hnone b (ha b hb)

theorem read_length {h : Heap} {p : Ptr} {i n : ℕ} {bs : List UInt8} (hr : h.read p i n = .ok bs) :
    bs.length = n := by
  unfold read at hr
  split at hr
  · next hn =>
    cases hr
    exact hn.symm
  · split at hr
    · cases hr
    · split at hr
      · cases hr
      · split at hr
        · next hn =>
          cases hr
          rw [List.length_take, List.length_drop]
          omega
        · cases hr

/-- **A copy in a new block.** -/
theorem malloc_memcpy {h : Heap} (ha : h.Allocated) {src : Ptr} {n : ℕ} {bs : List UInt8}
    (hr : h.read src 0 n = .ok bs) :
    ∃ h', (h.malloc n).2.memcpy (h.malloc n).1 src n = .ok h' ∧ h'.next = h.next + 1 ∧ Grows h h' ∧
      h'.Allocated ∧ h'.read (some h.next) 0 n = .ok bs := by
  have hlen : bs.length = n := read_length hr
  have hr' : (h.malloc n).2.read src 0 n = .ok bs := (grows_malloc h n).read ha hr
  have hfit : 0 + bs.length ≤ (h.junk.bytes 0 n).length := by
    rw [Mem.bytes_length, hlen, Nat.zero_add]
  have hw := write_block (malloc_block h n) hfit
  -- the bytes fill the new block
  have hfill : (h.junk.bytes 0 n).drop (0 + bs.length) = [] := by
    rw [Nat.zero_add, List.drop_of_length_le (by rw [Mem.bytes_length, hlen])]
  rw [hfill, List.take_zero, List.nil_append, List.append_nil] at hw
  have hmem : (h.malloc n).2.memcpy (h.malloc n).1 src n =
      .ok ((h.malloc n).2.setBlock h.next (some bs)) := by
    rw [memcpy, hr']
    exact hw
  refine ⟨_, hmem, rfl, ⟨Nat.le_succ _, fun b hlt => ?_⟩, (ha.malloc n).write hw, ?_⟩
  · exact (setBlock_block_of_ne hlt.ne _).trans ((grows_malloc h n).block b hlt)
  · rw [read_live (setBlock_block _ _ _) hlen.ge, ← hlen, List.take_length]

end Heap
