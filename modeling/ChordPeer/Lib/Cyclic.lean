/-
  Values on a cycle — `n` values in increasing order, taken around: after the
  last one comes the first.

  * `Gap f i x`: `x` lies strictly between the `i`-th value and the one before;
    it lies in one gap at most (`Gap.unique`), and in some gap exactly when it
    is between two of the values and is none of them (`exists_gap_iff`);
  * `hops i j`: how many steps lead from place `i` to place `j`; `j` is
    reached after that many (`ahead_hops`) and not before (`ahead_ne`).
-/
import Mathlib.Algebra.Group.Fin.Basic
import Mathlib.Data.Fintype.Basic
import Mathlib.Data.Int.ModEq
import Mathlib.Order.WellFounded
import Mathlib.Order.Monotone.Basic

namespace Cyclic

variable {n : ℕ} [NeZero n]

/-! ## Gaps between values -/

section
variable {α : Type*} [LinearOrder α] {f : Fin n → α} {i j : Fin n} {x : α}

/-- Strictly between the `i`-th value and the one before it. -/
def Gap (f : Fin n → α) (i : Fin n) (x : α) : Prop := f (i - 1) < x ∧ x < f i

theorem Gap.ne_zero (hf : StrictMono f) (h : Gap f i x) : i ≠ 0 := by
  rintro rfl
  have h0 : f 0 ≤ f (0 - 1) := hf.monotone (Fin.zero_le _)
  exact absurd (h.1.trans h.2) (not_lt.2 h0)

theorem le_sub_one {i j : Fin n} (hi : i ≠ 0) (h : j < i) : j ≤ i - 1 := by
  rw [Fin.le_def, Fin.val_sub_one_of_ne_zero hi]
  have : j.val < i.val := h
  omega

theorem sub_one_lt {i : Fin n} (hi : i ≠ 0) : i - 1 < i := by
  have : i.val ≠ 0 := fun h => hi (Fin.ext h)
  rw [Fin.lt_def, Fin.val_sub_one_of_ne_zero hi]
  omega

/-- A value is below the gap at `i` exactly when its place is. -/
theorem Gap.lt_iff (hf : StrictMono f) (h : Gap f i x) : f j < x ↔ j < i := by
  constructor
  · intro hj
    by_contra hi
    exact absurd (hj.trans h.2) (not_lt.2 (hf.monotone (not_lt.1 hi)))
  · intro hj
    exact (hf.monotone (le_sub_one (h.ne_zero hf) hj)).trans_lt h.1

/-- **Gaps are disjoint.** -/
theorem Gap.unique (hf : StrictMono f) (hi : Gap f i x) (hj : Gap f j x) : i = j := by
  rcases lt_trichotomy i j with h | h | h
  · exact absurd ((hj.lt_iff hf).2 h) (not_lt.2 hi.2.le)
  · exact h
  · exact absurd ((hi.lt_iff hf).2 h) (not_lt.2 hj.2.le)

/-- **What the gaps cover**: the values between the extreme ones, but for
    these values themselves. -/
theorem exists_gap_iff (hf : StrictMono f) :
    (∃ i, Gap f i x) ↔ (∃ i, f i < x) ∧ (∃ i, x < f i) ∧ ∀ i, f i ≠ x := by
  constructor
  · rintro ⟨i, h⟩
    refine ⟨⟨i - 1, h.1⟩, ⟨i, h.2⟩, fun j hj => ?_⟩
    have h₁ : i ≤ j := not_lt.1 fun hlt => ((h.lt_iff hf).2 hlt).ne hj
    exact absurd (h.2.trans_le (hf.monotone h₁)) (by rw [hj]; exact lt_irrefl x)
  · rintro ⟨⟨k, hk⟩, hi, hne⟩
    -- the first place with a larger value
    obtain ⟨i, hi, hmin⟩ := WellFounded.has_min (wellFounded_lt (α := Fin n)) {i | x < f i} hi
    have h0 : i ≠ 0 := by
      rintro rfl
      exact absurd ((hf.monotone (Fin.zero_le k)).trans_lt hk) (not_lt.2 (le_of_lt hi))
    have hle : f (i - 1) ≤ x := not_lt.1 fun h => hmin _ h (sub_one_lt h0)
    exact ⟨i, lt_of_le_of_ne hle (hne _), hi⟩

end

/-! ## Steps around -/

/-- How many steps lead from `i` to `j`. -/
def hops (i j : Fin n) : ℕ := (j - i).val

omit [NeZero n] in
theorem hops_lt (i j : Fin n) : hops i j < n := (j - i).isLt

/-- The place `k` steps after `i`. -/
theorem ahead_val (i : Fin n) (k : ℕ) : ((· + 1)^[k] i).val = (i.val + k) % n := by
  induction k with
  | zero => exact (Nat.mod_eq_of_lt i.isLt).symm
  | succ k ih =>
    rw [Function.iterate_succ_apply', Fin.val_add, ih, Fin.val_one', Nat.add_mod_mod,
      Nat.mod_add_mod, Nat.add_assoc]

theorem ahead_hops (i j : Fin n) : (· + 1)^[hops i j] i = j := by
  apply Fin.ext
  rw [ahead_val, hops, ← Fin.val_add, add_sub_cancel]

/-- The first `n` places after `i` are different. -/
theorem ahead_ne {i j : Fin n} {k : ℕ} (h : k < hops i j) : (· + 1)^[k] i ≠ j := by
  intro hk
  have hv : (i.val + k) % n = (i.val + hops i j) % n := by
    rw [← ahead_val, ← ahead_val, hk, ahead_hops]
  have hlt := hops_lt i j
  have hmod : k % n = hops i j % n := Nat.ModEq.add_left_cancel' i.val hv
  rw [Nat.mod_eq_of_lt (by omega), Nat.mod_eq_of_lt hlt] at hmod
  omega

/-- With two places, a step leads somewhere else. -/
theorem add_one_ne (hn : 2 ≤ n) (i : Fin n) : i + 1 ≠ i := by
  intro h
  have h1 : (1 : Fin n) = 0 := by simpa using h
  have := congrArg Fin.val h1
  rw [Fin.val_one', Nat.mod_eq_of_lt (by omega)] at this
  simp at this

theorem sub_one_ne (hn : 2 ≤ n) (i : Fin n) : i - 1 ≠ i := by
  intro h
  exact add_one_ne hn (i - 1) (by rw [sub_add_cancel, h])

end Cyclic
