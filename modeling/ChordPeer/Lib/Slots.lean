/-
  Numbered slots — a table whose entries are taken and given back by number, as
  the descriptors of a process are: a new entry takes the first free slot.

  * `get`, `alloc`, `release`;
  * `get_alloc`, `get_release`: what the slots hold after each;
    `get_alloc_of_some`: a slot in use is left alone;
  * `Same`: two tables with the same entries, though their unused ends differ;
    `alloc_congr`: they take the same slot.
-/
import Mathlib.Data.List.Basic

namespace Slots

variable {α : Type*}

/-- What is in slot `n`. -/
def get (t : List (Option α)) (n : ℕ) : Option α := t[n]?.join

/-- Take the first free slot. -/
def alloc (a : α) : List (Option α) → ℕ × List (Option α)
  | [] => (0, [some a])
  | none :: t => (0, some a :: t)
  | some b :: t => ((alloc a t).1 + 1, some b :: (alloc a t).2)

def release (t : List (Option α)) (n : ℕ) : List (Option α) := t.set n none

@[simp] theorem get_nil (n : ℕ) : get ([] : List (Option α)) n = none := rfl

@[simp] theorem get_cons_zero (o : Option α) (t : List (Option α)) : get (o :: t) 0 = o := by
  cases o <;> rfl

@[simp] theorem get_cons_succ (o : Option α) (t : List (Option α)) (n : ℕ) :
    get (o :: t) (n + 1) = get t n := rfl

/-- The slot taken was free. -/
theorem get_alloc_free (a : α) (t : List (Option α)) : get t (alloc a t).1 = none := by
  induction t with
  | nil => rfl
  | cons o t ih =>
    cases o with
    | none => rfl
    | some b => exact ih

theorem get_alloc (a : α) (t : List (Option α)) (n : ℕ) :
    get (alloc a t).2 n = if n = (alloc a t).1 then some a else get t n := by
  induction t generalizing n with
  | nil => cases n <;> simp [alloc]
  | cons o t ih =>
    cases o with
    | none => cases n <;> simp [alloc]
    | some b =>
      cases n with
      | zero => simp [alloc]
      | succ n => simp [alloc, ih]

theorem get_alloc_of_some {a b : α} {t : List (Option α)} {n : ℕ} (h : get t n = some b) :
    get (alloc a t).2 n = some b := by
  rw [get_alloc, if_neg, h]
  rintro rfl
  rw [get_alloc_free] at h
  cases h

theorem get_release (t : List (Option α)) (n k : ℕ) :
    get (release t n) k = if k = n then none else get t k := by
  by_cases hk : k = n
  · subst hk
    by_cases hlt : k < t.length <;> simp [get, release, hlt]
  · simp [get, release, hk, Ne.symm hk]

/-! ## Tables with the same entries -/

/-- The slots below the one taken are in use. -/
theorem get_ne_none_of_lt_alloc {a : α} {t : List (Option α)} {n : ℕ} (h : n < (alloc a t).1) :
    get t n ≠ none := by
  induction t generalizing n with
  | nil => exact absurd h (Nat.not_lt_zero n)
  | cons o t ih =>
    cases o with
    | none => exact absurd h (Nat.not_lt_zero n)
    | some b =>
      cases n with
      | zero => simp
      | succ n => exact ih (Nat.lt_of_succ_lt_succ h)

def Same (t t' : List (Option α)) : Prop := ∀ n, get t n = get t' n

theorem Same.refl (t : List (Option α)) : Same t t := fun _ => rfl

theorem Same.trans {t₁ t₂ t₃ : List (Option α)} (h : Same t₁ t₂) (h' : Same t₂ t₃) : Same t₁ t₃ :=
  fun n => (h n).trans (h' n)

/-- The first free slot is the same. -/
theorem Same.alloc_le {t t' : List (Option α)} (h : Same t t') (a b : α) :
    (alloc a t).1 ≤ (alloc b t').1 := by
  by_contra hlt
  have hused := get_ne_none_of_lt_alloc (Nat.lt_of_not_le hlt)
  rw [h, get_alloc_free] at hused
  exact hused rfl

theorem Same.symm {t t' : List (Option α)} (h : Same t t') : Same t' t := fun n => (h n).symm

theorem Same.alloc_fst {t t' : List (Option α)} (h : Same t t') (a b : α) :
    (alloc a t).1 = (alloc b t').1 :=
  Nat.le_antisymm (h.alloc_le a b) (h.symm.alloc_le b a)

theorem alloc_congr {t t' : List (Option α)} (h : Same t t') (a : α) :
    Same (alloc a t).2 (alloc a t').2 := by
  intro n
  rw [get_alloc, get_alloc, h.alloc_fst a a, h]

/-- The next slot taken is a later one. -/
theorem alloc_lt_alloc (a b : α) (t : List (Option α)) : (alloc a t).1 < (alloc b (alloc a t).2).1 := by
  by_contra hle
  have hfree := get_alloc_free b (alloc a t).2
  rw [get_alloc] at hfree
  split at hfree
  · cases hfree
  · next hne =>
    exact get_ne_none_of_lt_alloc (Nat.lt_of_le_of_ne (Nat.le_of_not_lt hle) hne) hfree

/-- What was taken and given back again. -/
theorem release_alloc (a : α) (t : List (Option α)) : Same (release (alloc a t).2 (alloc a t).1) t := by
  intro n
  rw [get_release, get_alloc]
  split
  · next hn => rw [hn, get_alloc_free]
  · rfl

theorem get_set {t : List (Option α)} {n : ℕ} {b : α} (h : get t n = some b) (a : α) (k : ℕ) :
    get (t.set n (some a)) k = if k = n then some a else get t k := by
  have hlt : n < t.length := by
    by_contra hge
    rw [get, List.getElem?_eq_none (Nat.le_of_not_lt hge)] at h
    cases h
  by_cases hk : k = n
  · subst hk
    simp [get, hlt]
  · simp [get, hk, Ne.symm hk]

end Slots
