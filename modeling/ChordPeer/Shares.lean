/-
  How evenly `HASH_JEN` spreads the keys (`libraries/uthash.h`).

  * `turn`: `HASH_JEN_MIX` is nine of these steps one after the other, and each
    can be undone (`HASH_JEN_MIX_bijective`);
  * `hash_JEN_balanced`: of the keys of any length from 12 on, every hash value
    gets the same number;
  * `owned_share`: so of these keys each peer of a consistent ring owns as large
    a share as the gap before it is of all hashes, and `unowned_share` is what
    is left to nobody.
-/
import ChordPeer.Routing
import ChordPeer.Lib.Balanced
import Mathlib.Data.Fintype.Vector
import Mathlib.Logic.Equiv.Fintype
import Mathlib.Order.Interval.Finset.Nat
import Mathlib.Data.Set.Card

namespace ChordPeer

open Counting

/-! ## The mixing steps -/

/-- The values of `i`, `j` and `hashv`. -/
abbrev JenState := UInt32 × UInt32 × UInt32

/-- One line of `HASH_JEN_MIX`; the value that it assigns comes last then. -/
def turn (f : UInt32 → UInt32) : JenState → JenState
  | (a, b, c) => (b, c, (a - b - c) ^^^ f c)

theorem turn_bijective (f : UInt32 → UInt32) : Function.Bijective (turn f) := by
  let undo : JenState → JenState := fun (b, c, x) => ((x ^^^ f c) + c + b, b, c)
  refine Function.bijective_iff_has_inverse.2 ⟨undo, fun (a, b, c) => ?_, fun (b, c, x) => ?_⟩
  · have hxor : ((a - b - c) ^^^ f c) ^^^ f c = a - b - c := by
      rw [UInt32.xor_assoc, UInt32.xor_self, UInt32.xor_zero]
    simp only [turn, undo, hxor, UInt32.sub_add_cancel]
  · have hsub : (x ^^^ f c) + c + b - b - c = x ^^^ f c := by
      rw [UInt32.add_sub_cancel, UInt32.add_sub_cancel]
    simp only [turn, undo, hsub, UInt32.xor_assoc, UInt32.xor_self, UInt32.xor_zero]

theorem HASH_JEN_MIX_eq (a b c : UInt32) :
    HASH_JEN_MIX a b c =
      turn (· >>> 15) (turn (· <<< 10) (turn (· >>> 3) (turn (· >>> 5) (turn (· <<< 16)
        (turn (· >>> 12) (turn (· >>> 13) (turn (· <<< 8) (turn (· >>> 13) (a, b, c))))))))) := rfl

/-- **`HASH_JEN_MIX` loses nothing.** -/
theorem HASH_JEN_MIX_bijective :
    Function.Bijective fun s : JenState => HASH_JEN_MIX s.1 s.2.1 s.2.2 := by
  have h := (turn_bijective (· >>> 15)).comp <| (turn_bijective (· <<< 10)).comp <|
    (turn_bijective (· >>> 3)).comp <| (turn_bijective (· >>> 5)).comp <|
    (turn_bijective (· <<< 16)).comp <| (turn_bijective (· >>> 12)).comp <|
    (turn_bijective (· >>> 13)).comp <| (turn_bijective (· <<< 8)).comp (turn_bijective (· >>> 13))
  rw [funext fun s : JenState => HASH_JEN_MIX_eq s.1 s.2.1 s.2.2]
  exact h

/-- Adding to the three values. -/
theorem add_bijective (x y z : UInt32) :
    Function.Bijective fun s : JenState => (s.1 + x, s.2.1 + y, s.2.2 + z) := by
  let undo : JenState → JenState := fun s => (s.1 - x, s.2.1 - y, s.2.2 - z)
  refine Function.bijective_iff_has_inverse.2 ⟨undo, fun s => ?_, fun s => ?_⟩
  · simp only [undo, UInt32.add_sub_cancel]
  · simp only [undo, UInt32.sub_add_cancel]

/-! ## The whole hash -/

theorem hj_loop_twelve (k₀ k₁ k₂ k₃ k₄ k₅ k₆ k₇ k₈ k₉ k₁₀ k₁₁ : UInt8) (rest : List UInt8)
    (s : JenState) :
    hj_loop (k₀ :: k₁ :: k₂ :: k₃ :: k₄ :: k₅ :: k₆ :: k₇ :: k₈ :: k₉ :: k₁₀ :: k₁₁ :: rest)
        s.1 s.2.1 s.2.2 =
      let m := HASH_JEN_MIX (s.1 + hj_word k₀ k₁ k₂ k₃) (s.2.1 + hj_word k₄ k₅ k₆ k₇)
        (s.2.2 + hj_word k₈ k₉ k₁₀ k₁₁)
      hj_loop rest m.1 m.2.1 m.2.2 := rfl

/-- **The loop over the key** leaves the same bytes whatever it starts with, and
    loses nothing of it. -/
theorem hj_loop_bijective (key : List UInt8) (i j hashv : UInt32) :
    ∃ rest, ∃ e : JenState → JenState, Function.Bijective e ∧
      ∀ s : JenState, hj_loop key s.1 s.2.1 s.2.2 = (rest, e s) := by
  -- along the calls of the loop, whatever they are made with
  induction key, i, j, hashv using hj_loop.induct with
  | case1 k₀ k₁ k₂ k₃ k₄ k₅ k₆ k₇ k₈ k₉ k₁₀ k₁₁ rest i j hashv m ih =>
    obtain ⟨rest', e, he, h⟩ := ih
    have hmix := HASH_JEN_MIX_bijective.comp
      (add_bijective (hj_word k₀ k₁ k₂ k₃) (hj_word k₄ k₅ k₆ k₇) (hj_word k₈ k₉ k₁₀ k₁₁))
    exact ⟨rest', _, he.comp hmix, fun s => (hj_loop_twelve ..).trans (h _)⟩
  | case2 rest i j hashv hshort =>
    refine ⟨rest, id, Function.bijective_id, fun s => ?_⟩
    rw [hj_loop]
    · rfl
    · exact hshort

/-- What `HASH_JEN` makes of the first twelve bytes and of the others. -/
def hj_rest (len : UInt32) (rest : List UInt8) (w : JenState) : UInt32 :=
  let m := HASH_JEN_MIX (0x9e3779b9 + w.1) (0x9e3779b9 + w.2.1) (0xfeedbeef + w.2.2)
  let (rest, i, j, hashv) := hj_loop rest m.1 m.2.1 m.2.2
  let b (n : ℕ) : UInt32 := (rest[n]?.getD 0).toUInt32
  let hashv := hashv + len + (b 10 <<< 24) + (b 9 <<< 16) + (b 8 <<< 8)
  let j := j + (b 7 <<< 24) + (b 6 <<< 16) + (b 5 <<< 8) + b 4
  let i := i + (b 3 <<< 24) + (b 2 <<< 16) + (b 1 <<< 8) + b 0
  (HASH_JEN_MIX i j hashv).2.2

/-- With the other bytes given, every hash value is taken equally often. -/
theorem hj_rest_balanced (len : UInt32) (rest : List UInt8) : Balanced (hj_rest len rest) := by
  obtain ⟨rest', e, he, h⟩ := hj_loop_bijective rest 0 0 0
  let b (n : ℕ) : UInt32 := (rest'[n]?.getD 0).toUInt32
  have hfirst := HASH_JEN_MIX_bijective.comp (add_bijective 0x9e3779b9 0x9e3779b9 0xfeedbeef)
  have hlast := HASH_JEN_MIX_bijective.comp
    (add_bijective ((b 3 <<< 24) + (b 2 <<< 16) + (b 1 <<< 8) + b 0)
      ((b 7 <<< 24) + (b 6 <<< 16) + (b 5 <<< 8) + b 4)
      (len + (b 10 <<< 24) + (b 9 <<< 16) + (b 8 <<< 8)))
  have hsnd : Balanced fun s : JenState => s.2.2 := Balanced.snd.comp Balanced.snd
  have hall := hsnd.comp (Balanced.bijective (hlast.comp (he.comp hfirst)))
  refine (congrArg Balanced (funext fun w => ?_)).mpr hall
  simp only [hj_rest, h, Function.comp, UInt32.add_comm _ w.1, UInt32.add_comm _ w.2.1,
    UInt32.add_comm _ w.2.2, UInt32.add_assoc, b]

/-! ## Keys -/

theorem hj_word_toNat (b₀ b₁ b₂ b₃ : UInt8) : (hj_word b₀ b₁ b₂ b₃).toNat =
    b₀.toNat + 256 * b₁.toNat + 65536 * b₂.toNat + 16777216 * b₃.toNat := by
  have h₀ := b₀.toNat_lt
  have h₁ := b₁.toNat_lt
  have h₂ := b₂.toNat_lt
  have h₃ := b₃.toNat_lt
  simp only [hj_word, UInt32.toNat_add, UInt32.toNat_shiftLeft, UInt8.toNat_toUInt32,
    Nat.shiftLeft_eq, UInt32.reduceToNat, Nat.reduceMod, Nat.reducePow]
  omega

theorem hj_word_inj {b₀ b₁ b₂ b₃ c₀ c₁ c₂ c₃ : UInt8} (h : hj_word b₀ b₁ b₂ b₃ = hj_word c₀ c₁ c₂ c₃) :
    b₀ = c₀ ∧ b₁ = c₁ ∧ b₂ = c₂ ∧ b₃ = c₃ := by
  have h := congrArg UInt32.toNat h
  rw [hj_word_toNat, hj_word_toNat] at h
  have := b₀.toNat_lt
  have := b₁.toNat_lt
  have := b₂.toNat_lt
  have := b₃.toNat_lt
  have := c₀.toNat_lt
  have := c₁.toNat_lt
  have := c₂.toNat_lt
  have := c₃.toNat_lt
  refine ⟨UInt8.toNat_inj.1 ?_, UInt8.toNat_inj.1 ?_, UInt8.toNat_inj.1 ?_, UInt8.toNat_inj.1 ?_⟩ <;>
    omega

/-- The keys of one length. -/
abbrev Key (len : ℕ) := {key : List UInt8 // key.length = len}

/-- The first twelve bytes of a key as words. -/
def hj_words : List UInt8 → JenState
  | k₀ :: k₁ :: k₂ :: k₃ :: k₄ :: k₅ :: k₆ :: k₇ :: k₈ :: k₉ :: k₁₀ :: k₁₁ :: _ =>
    (hj_word k₀ k₁ k₂ k₃, hj_word k₄ k₅ k₆ k₇, hj_word k₈ k₉ k₁₀ k₁₁)
  | _ => (0, 0, 0)

theorem exists_twelve {key : List UInt8} (h : 12 ≤ key.length) :
    ∃ k₀ k₁ k₂ k₃ k₄ k₅ k₆ k₇ k₈ k₉ k₁₀ k₁₁ rest,
      key = k₀ :: k₁ :: k₂ :: k₃ :: k₄ :: k₅ :: k₆ :: k₇ :: k₈ :: k₉ :: k₁₀ :: k₁₁ :: rest := by
  match key, h with
  | k₀ :: k₁ :: k₂ :: k₃ :: k₄ :: k₅ :: k₆ :: k₇ :: k₈ :: k₉ :: k₁₀ :: k₁₁ :: rest, _ =>
    exact ⟨k₀, k₁, k₂, k₃, k₄, k₅, k₆, k₇, k₈, k₉, k₁₀, k₁₁, rest, rfl⟩

theorem HASH_JEN_eq {key : List UInt8} (h : 12 ≤ key.length) :
    HASH_JEN key = hj_rest (UInt32.ofNat key.length) (key.drop 12) (hj_words key) := by
  obtain ⟨k₀, k₁, k₂, k₃, k₄, k₅, k₆, k₇, k₈, k₉, k₁₀, k₁₁, rest, rfl⟩ := exists_twelve h
  rfl

instance finite_key (len : ℕ) : Finite (Key len) := Finite.of_equiv _ (Equiv.vectorEquivFin UInt8 len).symm

instance nonempty_key (len : ℕ) : Nonempty (Key len) := ⟨⟨List.replicate len 0, List.length_replicate⟩⟩

theorem card_key (len : ℕ) : Nat.card (Key len) = (2 ^ 8) ^ len := by
  have hfun : Nat.card (Key len) = Nat.card (Fin len → UInt8) :=
    Nat.card_congr (Equiv.vectorEquivFin UInt8 len)
  rw [hfun, Nat.card_fun, Nat.card_fin, nat_card_finEnum UInt8, FinEnum.card_UInt8]

/-- A key is its first three words and what is left of it. -/
def hj_split (len : ℕ) (key : Key (len + 12)) : Key len × JenState :=
  (⟨key.1.drop 12, by rw [List.length_drop, key.2, Nat.add_sub_cancel]⟩, hj_words key)

theorem hj_split_bijective (len : ℕ) : Function.Bijective (hj_split len) := by
  have hinj : Function.Injective (hj_split len) := by
    rintro ⟨key, hkey⟩ ⟨key', hkey'⟩ h
    obtain ⟨k₀, k₁, k₂, k₃, k₄, k₅, k₆, k₇, k₈, k₉, k₁₀, k₁₁, rest, rfl⟩ :=
      exists_twelve (hkey ▸ Nat.le_add_left 12 len)
    obtain ⟨l₀, l₁, l₂, l₃, l₄, l₅, l₆, l₇, l₈, l₉, l₁₀, l₁₁, rest', rfl⟩ :=
      exists_twelve (hkey' ▸ Nat.le_add_left 12 len)
    obtain ⟨hrest, hwords⟩ := Prod.ext_iff.1 h
    obtain ⟨h₀, hwords⟩ := Prod.ext_iff.1 hwords
    obtain ⟨h₁, h₂⟩ := Prod.ext_iff.1 hwords
    obtain rfl : rest = rest' := congrArg Subtype.val hrest
    obtain ⟨rfl, rfl, rfl, rfl⟩ := hj_word_inj h₀
    obtain ⟨rfl, rfl, rfl, rfl⟩ := hj_word_inj h₁
    obtain ⟨rfl, rfl, rfl, rfl⟩ := hj_word_inj h₂
    rfl
  refine hinj.bijective_of_nat_card_le (le_of_eq ?_)
  rw [Nat.card_prod, Nat.card_prod, Nat.card_prod, card_key, card_key, nat_card_finEnum UInt32,
    FinEnum.card_UInt32, pow_add]
  norm_num

/-- The hash of a key from its two parts. -/
def hj_parts (len : ℕ) (p : Key len × JenState) : UInt32 :=
  hj_rest (UInt32.ofNat (len + 12)) p.1.1 p.2

theorem HASH_JEN_parts (len : ℕ) (key : Key (len + 12)) :
    HASH_JEN key.1 = hj_parts len (hj_split len key) := by
  have hlen : 12 ≤ key.1.length := by
    rw [key.2]
    exact Nat.le_add_left 12 len
  rw [HASH_JEN_eq hlen, key.2]
  rfl

theorem hj_parts_balanced (len : ℕ) :
    Balanced fun key : Key (len + 12) => hj_parts len (hj_split len key) := by
  have hfamily : Balanced (hj_parts len) :=
    Balanced.family fun rest : Key len => hj_rest_balanced (UInt32.ofNat (len + 12)) rest.1
  exact hfamily.comp (Balanced.bijective (hj_split_bijective len))

/-- **`HASH_JEN` is even** on the keys of every length from 12 on. -/
theorem hash_JEN_balanced (len : ℕ) :
    Balanced fun key : Key (len + 12) => HASH_JEN key.1 := by
  simp only [HASH_JEN_parts]
  exact hj_parts_balanced len

/-! ## Shares of a ring -/

/-- The lower half of a word. -/
theorem toUInt16_balanced : Balanced UInt32.toUInt16 := by
  -- a word is its two halves
  let e : UInt32 → UInt16 × UInt16 := fun x => ((x >>> 16).toUInt16, x.toUInt16)
  have hinj : Function.Injective e := by
    intro x y h
    obtain ⟨h₁, h₂⟩ := Prod.ext_iff.1 h
    have h₁ := congrArg UInt16.toNat h₁
    have h₂ := congrArg UInt16.toNat h₂
    simp only [e, UInt32.toNat_toUInt16, UInt32.toNat_shiftRight, Nat.shiftRight_eq_div_pow,
      UInt32.reduceToNat, Nat.reduceMod, Nat.reducePow] at h₁ h₂
    have := x.toNat_lt
    have := y.toNat_lt
    exact UInt32.toNat_inj.1 (by omega)
  have hbij : Function.Bijective e := hinj.bijective_of_nat_card_le (le_of_eq (by
    rw [Nat.card_prod, nat_card_finEnum UInt32, nat_card_finEnum UInt16, FinEnum.card_UInt32,
      FinEnum.card_UInt16, ← pow_add]))
  exact Balanced.snd.comp (Balanced.bijective hbij)

theorem get_hash_value_balanced (len : ℕ) :
    Balanced fun key : Key (len + 12) => get_hash_value HASH_JEN key := by
  simp only [get_hash_value, HASH_JEN_parts]
  exact toUInt16_balanced.comp (hj_parts_balanced len)

/-- The hashes with a number in a set. -/
theorem card_numbers (s : Finset ℕ) (hs : ∀ x ∈ s, x < 2 ^ 16) :
    Nat.card {h : UInt16 | h.toNat ∈ s} = s.card := by
  have hnat : ∀ x : s, (UInt16.ofNat x).toNat = x := fun x => UInt16.toNat_ofNat_of_lt' (hs x x.2)
  let e : {h : UInt16 | h.toNat ∈ s} ≃ s :=
    { toFun h := ⟨h.1.toNat, h.2⟩
      invFun x := ⟨UInt16.ofNat x, by rw [Set.mem_ofPred_eq, hnat]; exact x.2⟩
      left_inv h := Subtype.ext UInt16.ofNat_toNat
      right_inv x := Subtype.ext (hnat x) }
  rw [Nat.card_congr e, Nat.card_eq_fintype_card, Fintype.card_coe]

section
variable {n : ℕ} [NeZero n] {R : Fin n → PeerInfo}

/-- **The share of a peer.**  Of the keys of one length from 12 on, a peer of a
    consistent ring owns as large a share as the gap before it is of all hashes. -/
theorem owned_share (hc : Consistent R) (i : Fin n) (len : ℕ) :
    Nat.card {key : Key (len + 12) // (R i).owns (get_hash_value HASH_JEN key.1) = true} * 2 ^ 16 =
      ((R i).this.id.toNat - (R (i - 1)).this.id.toNat - 1) * Nat.card (Key (len + 12)) := by
  have hmem := (get_hash_value_balanced len).card_mem {h | (R i).owns h = true}
  have hset : {h | (R i).owns h = true} =
      {h | h.toNat ∈ Finset.Ioo (R (i - 1)).this.id.toNat (R i).this.id.toNat} := by
    ext h
    rw [Set.mem_ofPred_eq, Set.mem_ofPred_eq, Finset.mem_Ioo]
    exact hc.owns_iff
  have hlt : ∀ x ∈ Finset.Ioo (R (i - 1)).this.id.toNat (R i).this.id.toNat, x < 2 ^ 16 :=
    fun x hx => (Finset.mem_Ioo.1 hx).2.trans (R i).this.id.toNat_lt
  rw [nat_card_finEnum UInt16, FinEnum.card_UInt16, hset, card_numbers _ hlt, Nat.card_Ioo] at hmem
  rw [← hmem, ← hset]
  rfl

/-- The hashes that are owned, and the ids, are the numbers from the first id to
    the last. -/
theorem owned_or_id (hc : Consistent R) (h : UInt16) :
    ((∃ i, (R i).owns h = true) ∨ ∃ i, (R i).this.id = h) ↔
      h.toNat ∈ Finset.Icc (R 0).this.id.toNat (R (0 - 1)).this.id.toNat := by
  have hlast : ∀ j : Fin n, j ≤ 0 - 1 := by
    intro j
    have hn := hc.two_le
    have hj := j.isLt
    rw [Fin.le_def, Fin.val_sub, Fin.val_zero, Fin.val_one', Nat.mod_eq_of_lt (show 1 < n by omega),
      Nat.add_zero, Nat.mod_eq_of_lt (by omega)]
    omega
  have hfirst : ∀ j, (R 0).this.id.toNat ≤ (R j).this.id.toNat := fun j =>
    hc.ids.monotone (Fin.zero_le j)
  have hle : ∀ j, (R j).this.id.toNat ≤ (R (0 - 1)).this.id.toNat := fun j =>
    hc.ids.monotone (hlast j)
  have hgap : (∃ i, (R i).owns h = true) ↔ (∃ i, (R i).this.id.toNat < h.toNat) ∧
      (∃ i, h.toNat < (R i).this.id.toNat) ∧ ∀ i, (R i).this.id.toNat ≠ h.toNat :=
    (exists_congr fun _ => hc.owns_iff).trans (Cyclic.exists_gap_iff hc.ids)
  rw [hgap, Finset.mem_Icc]
  constructor
  · rintro (⟨⟨i, hi⟩, ⟨j, hj⟩, -⟩ | ⟨i, rfl⟩)
    · exact ⟨(hfirst i).trans hi.le, hj.le.trans (hle j)⟩
    · exact ⟨hfirst i, hle i⟩
  · rintro ⟨hlo, hhi⟩
    by_cases hid : ∃ i, (R i).this.id = h
    · exact .inr hid
    · have hne : ∀ i, (R i).this.id.toNat ≠ h.toNat := fun i hi => hid ⟨i, UInt16.toNat_inj.1 hi⟩
      exact .inl ⟨⟨0, lt_of_le_of_ne hlo (hne 0)⟩, ⟨0 - 1, lt_of_le_of_ne hhi (hne _).symm⟩, hne⟩

/-- **What nobody owns**: the hashes up to the first id and from the last on,
    and those that are an id. -/
theorem unowned_share (hc : Consistent R) (len : ℕ) :
    Nat.card {key : Key (len + 12) //
        ∀ i, (R i).owns (get_hash_value HASH_JEN key.1) = false} * 2 ^ 16 =
      (2 ^ 16 - ((R (0 - 1)).this.id.toNat + 1 - (R 0).this.id.toNat - n)) *
        Nat.card (Key (len + 12)) := by
  let owned : Set UInt16 := {h | ∃ i, (R i).owns h = true}
  let ids : Set UInt16 := Set.range fun i => (R i).this.id
  have hmem := (get_hash_value_balanced len).card_mem ownedᶜ
  have hinj : Function.Injective fun i => (R i).this.id := fun i j hij =>
    hc.ids.injective (congrArg UInt16.toNat hij)
  have hids : ids.ncard = n := by
    rw [← Nat.card_fin n]
    exact Nat.card_range_of_injective hinj
  have hdisj : Disjoint owned ids := by
    rw [Set.disjoint_left]
    rintro h ⟨i, hi⟩ ⟨j, rfl⟩
    exact ((Cyclic.exists_gap_iff hc.ids).1 ⟨i, hc.owns_iff.1 hi⟩).2.2 j rfl
  have hunion : owned ∪ ids =
      {h | h.toNat ∈ Finset.Icc (R 0).this.id.toNat (R (0 - 1)).this.id.toNat} := by
    ext h
    exact owned_or_id hc h
  have hlt : ∀ x ∈ Finset.Icc (R 0).this.id.toNat (R (0 - 1)).this.id.toNat, x < 2 ^ 16 :=
    fun x hx => (Finset.mem_Icc.1 hx).2.trans_lt (R (0 - 1)).this.id.toNat_lt
  have hcard : owned.ncard + n = (R (0 - 1)).this.id.toNat + 1 - (R 0).this.id.toNat := by
    have hsum := Set.ncard_union_eq hdisj
    rw [hids, hunion] at hsum
    rw [← hsum, ← Nat.card_Icc]
    exact card_numbers _ hlt
  have hcompl : ownedᶜ.ncard = 2 ^ 16 - owned.ncard := by
    have hall := Set.ncard_add_ncard_compl owned
    rw [nat_card_finEnum UInt16, FinEnum.card_UInt16] at hall
    omega
  have hfew : Nat.card (ownedᶜ : Set UInt16) =
      2 ^ 16 - ((R (0 - 1)).this.id.toNat + 1 - (R 0).this.id.toNat - n) := by
    rw [← hcard, Nat.add_sub_cancel, ← hcompl]
    rfl
  rw [hfew, nat_card_finEnum UInt16, FinEnum.card_UInt16] at hmem
  rw [← hmem]
  congr 1
  refine Nat.card_congr (Equiv.subtypeEquivRight fun key => ?_)
  simp [owned]

end

theorem owned_share_two_peers : Nat.card {key : Key (4 + 12) //
    (circle two_peers 1).owns (get_hash_value HASH_JEN key.1) = true} * 2 ^ 16 =
      (100 - 10 - 1) * Nat.card (Key (4 + 12)) :=
  owned_share two_peers_consistent 1 4

theorem unowned_share_two_peers : Nat.card {key : Key (4 + 12) //
    ∀ i, (circle two_peers i).owns (get_hash_value HASH_JEN key.1) = false} * 2 ^ 16 =
      (2 ^ 16 - (100 + 1 - 10 - 2)) * Nat.card (Key (4 + 12)) :=
  unowned_share two_peers_consistent 4

end ChordPeer
