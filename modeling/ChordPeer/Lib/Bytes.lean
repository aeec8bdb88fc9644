/-
  Bytes in memory — a byte-addressed memory behind a pointer, the wider loads
  and stores of a little-endian host, and the byte swaps of the network order.

  * `Mem` is the memory seen from a pointer, `Mem.ofList bs rest` a block that
    holds `bs` with `rest` behind it, and `Mem.bytes` reads a run of bytes;
  * `Mem.load16`, `Mem.load32` and the stored bytes `le16`, `le32` are the
    accesses of the host;
  * with the byte swap, a word lies in memory most significant byte first
    (`le16_bswap16`, `bswap16_load16` and their 32-bit versions).
-/
import Mathlib.Data.List.Basic
import Mathlib.Data.List.Range
import Mathlib.Data.Nat.Bitwise
import Mathlib.Tactic.Ring

namespace CBytes

/-! ## Words and their bytes -/

/-- The 16-bit word with the bytes `b₁ b₀`, least significant last. -/
def word16 (b₁ b₀ : UInt8) : UInt16 := UInt16.ofNat (b₁.toNat * 256 + b₀.toNat)

/-- The 32-bit word with the bytes `b₃ b₂ b₁ b₀`, least significant last. -/
def word32 (b₃ b₂ b₁ b₀ : UInt8) : UInt32 :=
  UInt32.ofNat (((b₃.toNat * 256 + b₂.toNat) * 256 + b₁.toNat) * 256 + b₀.toNat)

/-- The byte of significance `k` of a 16-bit word. -/
def byte16 (v : UInt16) (k : ℕ) : UInt8 := UInt8.ofNat (v.toNat / 256 ^ k)

/-- The byte of significance `k` of a 32-bit word. -/
def byte32 (v : UInt32) (k : ℕ) : UInt8 := UInt8.ofNat (v.toNat / 256 ^ k)

/-- Swap the bytes of a 16-bit word. -/
def bswap16 (v : UInt16) : UInt16 := word16 (byte16 v 0) (byte16 v 1)

/-- Swap the bytes of a 32-bit word. -/
def bswap32 (v : UInt32) : UInt32 := word32 (byte32 v 0) (byte32 v 1) (byte32 v 2) (byte32 v 3)

/-- The bytes of a word in the order a little-endian host stores them. -/
def le16 (v : UInt16) : List UInt8 := [byte16 v 0, byte16 v 1]

/-- The bytes of a word in the order a little-endian host stores them. -/
def le32 (v : UInt32) : List UInt8 := [byte32 v 0, byte32 v 1, byte32 v 2, byte32 v 3]

@[simp] theorem word16_byte16 (v : UInt16) : word16 (byte16 v 1) (byte16 v 0) = v := by
  apply UInt16.toNat_inj.mp
  have := v.toNat_lt
  simp only [word16, byte16, UInt16.toNat_ofNat', UInt8.toNat_ofNat']
  omega

@[simp] theorem byte16_word16 (b₁ b₀ : UInt8) :
    byte16 (word16 b₁ b₀) 0 = b₀ ∧ byte16 (word16 b₁ b₀) 1 = b₁ := by
  have h₀ := b₀.toNat_lt
  have h₁ := b₁.toNat_lt
  constructor <;>
  · apply UInt8.toNat_inj.mp
    simp only [word16, byte16, UInt16.toNat_ofNat', UInt8.toNat_ofNat']
    omega

@[simp] theorem word32_byte32 (v : UInt32) :
    word32 (byte32 v 3) (byte32 v 2) (byte32 v 1) (byte32 v 0) = v := by
  apply UInt32.toNat_inj.mp
  have := v.toNat_lt
  simp only [word32, byte32, UInt32.toNat_ofNat', UInt8.toNat_ofNat']
  omega

@[simp] theorem byte32_word32 (b₃ b₂ b₁ b₀ : UInt8) :
    byte32 (word32 b₃ b₂ b₁ b₀) 0 = b₀ ∧ byte32 (word32 b₃ b₂ b₁ b₀) 1 = b₁ ∧
      byte32 (word32 b₃ b₂ b₁ b₀) 2 = b₂ ∧ byte32 (word32 b₃ b₂ b₁ b₀) 3 = b₃ := by
  have h₀ := b₀.toNat_lt
  have h₁ := b₁.toNat_lt
  have h₂ := b₂.toNat_lt
  have h₃ := b₃.toNat_lt
  refine ⟨?_, ?_, ?_, ?_⟩ <;>
  · apply UInt8.toNat_inj.mp
    simp only [word32, byte32, UInt32.toNat_ofNat', UInt8.toNat_ofNat']
    omega

theorem le16_bswap16 (v : UInt16) : le16 (bswap16 v) = [byte16 v 1, byte16 v 0] := by
  simp [le16, bswap16]

theorem le32_bswap32 (v : UInt32) :
    le32 (bswap32 v) = [byte32 v 3, byte32 v 2, byte32 v 1, byte32 v 0] := by
  simp [le32, bswap32]

theorem bswap16_word16 (b₁ b₀ : UInt8) : bswap16 (word16 b₁ b₀) = word16 b₀ b₁ := by
  simp [bswap16]

theorem bswap32_word32 (b₃ b₂ b₁ b₀ : UInt8) :
    bswap32 (word32 b₃ b₂ b₁ b₀) = word32 b₀ b₁ b₂ b₃ := by
  simp [bswap32]

/-- Widening a 16-bit word and storing it appends two zero bytes. -/
theorem le32_toUInt32 (v : UInt16) : le32 v.toUInt32 = le16 v ++ [0, 0] := by
  have := v.toNat_lt
  have h₂ : v.toNat / 256 ^ 2 = 0 := by omega
  have h₃ : v.toNat / 256 ^ 3 = 0 := by omega
  simp only [le32, le16, byte32, byte16, UInt16.toNat_toUInt32, h₂, h₃]
  rfl

/-- Narrowing a 32-bit word keeps its two low bytes. -/
theorem toUInt16_word32 (b₃ b₂ b₁ b₀ : UInt8) : (word32 b₃ b₂ b₁ b₀).toUInt16 = word16 b₁ b₀ := by
  apply UInt16.toNat_inj.mp
  simp only [word32, word16, UInt32.toNat_toUInt16, UInt32.toNat_ofNat', UInt16.toNat_ofNat']
  omega

/-- A mask takes out of a byte what was put in. -/
theorem or_and_absorb (b x : UInt8) : (b ||| x) &&& b = b := by
  refine UInt8.toBitVec_inj.1 ?_
  ext k hk
  simp only [UInt8.toBitVec_and, UInt8.toBitVec_or, BitVec.getElem_and, BitVec.getElem_or]
  cases b.toBitVec[k] <;> simp

/-- A mask of one bit takes that bit out of a byte. -/
theorem and_bit (x : UInt8) {b : UInt8} {k : ℕ} (hb : b.toNat = 2 ^ k) :
    x &&& b = 0 ∨ x &&& b = b := by
  have h : (x &&& b).toNat = (x.toNat.testBit k).toNat * 2 ^ k := by
    rw [UInt8.toNat_and, hb, Nat.and_two_pow]
  cases hx : x.toNat.testBit k with
  | false =>
    refine .inl (UInt8.toNat_inj.1 ?_)
    rw [h, hx, Bool.toNat_false, Nat.zero_mul]
    rfl
  | true =>
    refine .inr (UInt8.toNat_inj.1 ?_)
    rw [h, hx, hb, Bool.toNat_true, Nat.one_mul]

/-! ## Memory behind a pointer -/

/-- The memory seen from a pointer: the byte at each offset. -/
abbrev Mem := ℕ → UInt8

/-- A store: the bytes written from an offset on. -/
structure Write where
  off : ℕ
  data : List UInt8

namespace Mem

/-- A block that holds `bs`, with `rest` behind it. -/
def ofList (bs : List UInt8) (rest : Mem) : Mem := fun i => bs[i]?.getD (rest (i - bs.length))

/-- The `n` bytes from offset `i` on. -/
def bytes (m : Mem) (i n : ℕ) : List UInt8 := (List.range n).map fun k => m (i + k)

def load16 (m : Mem) (i : ℕ) : UInt16 := word16 (m (i + 1)) (m i)

def load32 (m : Mem) (i : ℕ) : UInt32 := word32 (m (i + 3)) (m (i + 2)) (m (i + 1)) (m i)

def write (m : Mem) (w : Write) : Mem := fun i =>
  if w.off ≤ i then w.data[i - w.off]?.getD (m i) else m i

/-- Stores one after the other. -/
def writes (m : Mem) (ws : List Write) : Mem := ws.foldl write m

theorem ofList_getElem {bs : List UInt8} {rest : Mem} {i : ℕ} (h : i < bs.length) :
    ofList bs rest i = bs[i] := by
  simp [ofList, h]

@[simp] theorem ofList_cons_zero (b : UInt8) (bs : List UInt8) (rest : Mem) :
    ofList (b :: bs) rest 0 = b := rfl

@[simp] theorem ofList_cons_succ (b : UInt8) (bs : List UInt8) (rest : Mem) (i : ℕ) :
    ofList (b :: bs) rest (i + 1) = ofList bs rest i := by
  simp [ofList]

@[simp] theorem bytes_length (m : Mem) (i n : ℕ) : (m.bytes i n).length = n := by
  simp [bytes]

@[simp] theorem bytes_zero (m : Mem) (i : ℕ) : m.bytes i 0 = [] := rfl

theorem bytes_getElem (m : Mem) (i n k : ℕ) (h : k < (m.bytes i n).length) :
    (m.bytes i n)[k] = m (i + k) := by
  simp [bytes]

/-- Two runs side by side are one run. -/
theorem bytes_append (m : Mem) (i n k : ℕ) :
    m.bytes i n ++ m.bytes (i + n) k = m.bytes i (n + k) := by
  simp [bytes, List.range_add, Nat.add_assoc]

/-- A run inside the block reads the block's bytes. -/
theorem bytes_ofList {bs : List UInt8} {rest : Mem} {i n : ℕ} (h : i + n ≤ bs.length) :
    (ofList bs rest).bytes i n = (bs.drop i).take n := by
  refine List.ext_getElem (by simp; omega) fun k hk _ => ?_
  rw [bytes_length] at hk
  rw [bytes_getElem, ofList_getElem (by omega)]
  simp

/-- Two blocks side by side. -/
theorem ofList_append (bs cs : List UInt8) (rest : Mem) :
    ofList (bs ++ cs) rest = ofList bs (ofList cs rest) := by
  funext i
  by_cases h : i < bs.length
  · simp [ofList, List.getElem?_append_left h, h]
  · have h' : bs.length ≤ i := by omega
    simp [ofList, List.getElem?_append_right h', h', Nat.sub_sub]

/-- A memory is the block of its first bytes with the rest behind it. -/
theorem ofList_bytes (m : Mem) (n : ℕ) : ofList (m.bytes 0 n) (fun i => m (n + i)) = m := by
  funext i
  by_cases h : i < n
  · rw [ofList_getElem (by simpa using h), bytes_getElem, Nat.zero_add]
  · have h' : n ≤ i := by omega
    simp [ofList, h', Nat.add_sub_cancel' h']

/-- A block read whole. -/
theorem bytes_ofList_all (bs : List UInt8) (rest : Mem) :
    (ofList bs rest).bytes 0 bs.length = bs := by
  rw [bytes_ofList (by omega)]
  simp

/-! ## Stores that fill a block from left to right -/

/-- The stores of `ds` side by side, from offset `o` on. -/
def layout : ℕ → List (List UInt8) → List Write
  | _, [] => []
  | o, d :: ds => ⟨o, d⟩ :: layout (o + d.length) ds

/-- Stores side by side are one store of the bytes in order. -/
theorem writes_layout (ds : List (List UInt8)) :
    ∀ (m : Mem) (o : ℕ), m.writes (layout o ds) = m.write ⟨o, ds.flatten⟩ := by
  induction ds with
  | nil => intro m o; funext i; simp [writes, layout, write]
  | cons d ds ih =>
    intro m o
    have hcons : m.writes (layout o (d :: ds)) =
        (m.write ⟨o, d⟩).writes (layout (o + d.length) ds) := rfl
    rw [hcons, ih]
    funext i
    simp only [write, List.flatten_cons]
    by_cases h₁ : o + d.length ≤ i
    · have h₂ : o ≤ i := by omega
      have h₃ : i - (o + d.length) = i - o - d.length := by omega
      simp only [h₁, h₂, if_true, h₃]
      rw [List.getElem?_append_right (by omega), List.getElem?_eq_none (l := d) (by omega)]
      rfl
    · by_cases h₂ : o ≤ i
      · simp only [h₁, h₂, if_false, if_true]
        rw [List.getElem?_append_left (by omega)]
      · simp [h₁, h₂]

/-- What stores side by side leave in memory. -/
theorem bytes_writes_layout {m : Mem} {o n : ℕ} {ds : List (List UInt8)}
    (h : n ≤ ds.flatten.length) : (m.writes (layout o ds)).bytes o n = ds.flatten.take n := by
  refine List.ext_getElem (by simpa using h) fun k hk _ => ?_
  rw [bytes_length] at hk
  rw [bytes_getElem, writes_layout]
  have hk' : k < ds.flatten.length := by omega
  simp only [write, Nat.le_add_right, if_true, Nat.add_sub_cancel_left, List.getElem_take,
    List.getElem?_eq_getElem hk', Option.getD_some]

theorem bswap16_load16 (m : Mem) (i : ℕ) : bswap16 (m.load16 i) = word16 (m i) (m (i + 1)) :=
  bswap16_word16 _ _

theorem bswap32_load32 (m : Mem) (i : ℕ) :
    bswap32 (m.load32 i) = word32 (m i) (m (i + 1)) (m (i + 2)) (m (i + 3)) :=
  bswap32_word32 _ _ _ _

end Mem

end CBytes
