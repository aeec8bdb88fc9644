/-
  Updates of a map — operations of which some bind a key or unbind it, and the
  map that a list of them leaves.

  * `apply` does the updates of the operations in order;
  * `Last`: the last operation on a key; `apply_eq_some_iff`: it decides what
    the key is bound to.
-/
import Mathlib.Data.List.Induction
import Mathlib.Logic.Function.Basic

namespace Updates

variable {κ ν ω : Type*} [DecidableEq κ]

/-- The key that an operation updates, and what it binds it to. -/
abbrev Update (κ ν : Type*) := κ × Option ν

/-- One update. -/
def apply₁ (f : κ → Option ν) : Option (Update κ ν) → κ → Option ν
  | none => f
  | some (k, v) => Function.update f k v

variable (upd : ω → Option (Update κ ν))

/-- The map after the operations. -/
def apply (f : κ → Option ν) (os : List ω) : κ → Option ν :=
  os.foldl (fun f o => apply₁ f (upd o)) f

/-- The last of the operations that update `k` binds it to `v`. -/
def Last (os : List ω) (k : κ) (v : Option ν) : Prop :=
  ∃ before o after, os = before ++ o :: after ∧ upd o = some (k, v) ∧
    ∀ o' ∈ after, ∀ w, upd o' ≠ some (k, w)

variable {upd}

theorem apply_concat (f : κ → Option ν) (os : List ω) (o : ω) :
    apply upd f (os ++ [o]) = apply₁ (apply upd f os) (upd o) := by
  simp [apply]

omit [DecidableEq κ] in
/-- The last update of a key is the last operation, or one before it. -/
theorem last_concat {os : List ω} {o : ω} {k : κ} {v : Option ν} :
    Last upd (os ++ [o]) k v ↔
      upd o = some (k, v) ∨ (∀ w, upd o ≠ some (k, w)) ∧ Last upd os k v := by
  constructor
  · rintro ⟨before, o', after, hos, ho', hafter⟩
    rcases List.eq_nil_or_concat after with rfl | ⟨after, o'', rfl⟩
    · obtain ⟨-, h⟩ := List.append_inj' hos rfl
      obtain rfl : o = o' := by simpa using h
      exact .inl ho'
    · rw [List.concat_eq_append, ← List.cons_append, ← List.append_assoc] at hos
      obtain ⟨rfl, h⟩ := List.append_inj' hos rfl
      obtain rfl : o = o'' := by simpa using h
      exact .inr ⟨hafter o (by simp), before, o', after, rfl, ho', fun x hx => hafter x (by simp [hx])⟩
  · rintro (ho | ⟨ho, before, o', after, rfl, ho', hafter⟩)
    · exact ⟨os, o, [], rfl, ho, by simp⟩
    · refine ⟨before, o', after ++ [o], by simp, ho', ?_⟩
      intro x hx
      rcases List.mem_append.1 hx with hx | hx
      · exact hafter x hx
      · rw [List.mem_singleton.1 hx]
        exact ho

/-- **The last update of a key** decides. -/
theorem apply_eq_some_iff {os : List ω} {k : κ} {v : ν} :
    apply upd (fun _ => none) os k = some v ↔ Last upd os k (some v) := by
  induction os using List.reverseRecOn with
  | nil =>
    constructor
    · intro h
      cases h
    · rintro ⟨before, o, after, hos, -⟩
      simp at hos
  | append_singleton os o ih =>
    rw [apply_concat, last_concat]
    cases hu : upd o with
    | none => simpa [apply₁] using ih
    | some u =>
      obtain ⟨k', w⟩ := u
      by_cases hk : k = k'
      · subst hk
        simp [apply₁]
      · simp [apply₁, Function.update_of_ne hk, ih, Ne.symm hk]

end Updates
