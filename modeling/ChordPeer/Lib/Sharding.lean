/-
  Maps in parts — a map whose keys belong to places, held by them in parts.

  * `InParts belongs σ part`: each place holds what `σ` has for the keys that
    belong to it, and nothing else;
  * `InParts.update`: a change of the map is one of the part that the key
    belongs to, where it belongs to one place only.
-/
import Mathlib.Logic.Function.Basic

namespace Sharding

variable {ι κ β : Type*} {belongs : ι → κ → Prop} {σ : κ → Option β} {part : ι → κ → Option β}

/-- The places `ι` hold the map `σ` in parts. -/
structure InParts (belongs : ι → κ → Prop) (σ : κ → Option β) (part : ι → κ → Option β) : Prop where
  here : ∀ i k, belongs i k → part i k = σ k
  elsewhere : ∀ i k, ¬ belongs i k → part i k = none

theorem InParts.empty : InParts belongs (fun _ => none) fun _ (_ : κ) => (none : Option β) :=
  ⟨fun _ _ _ => rfl, fun _ _ _ => rfl⟩

/-- **A change of the map.** -/
theorem InParts.update [DecidableEq ι] [DecidableEq κ] (h : InParts belongs σ part)
    (hu : ∀ i j k, belongs i k → belongs j k → i = j) {i : ι} {k : κ} (hk : belongs i k)
    (v : Option β) :
    InParts belongs (Function.update σ k v)
      (Function.update part i (Function.update (part i) k v)) where
  here j l hl := by
    by_cases hj : j = i
    · subst hj
      rw [Function.update_self]
      by_cases hlk : l = k
      · subst hlk
        rw [Function.update_self, Function.update_self]
      · rw [Function.update_of_ne hlk, Function.update_of_ne hlk, h.here j l hl]
    · -- the key belongs to no other place
      have hlk : l ≠ k := fun hlk => hj (hu j i k (hlk ▸ hl) hk)
      rw [Function.update_of_ne hj, Function.update_of_ne hlk, h.here j l hl]
  elsewhere j l hl := by
    by_cases hj : j = i
    · subst hj
      have hlk : l ≠ k := fun hlk => hl (hlk ▸ hk)
      rw [Function.update_self, Function.update_of_ne hlk, h.elsewhere j l hl]
    · rw [Function.update_of_ne hj, h.elsewhere j l hl]

end Sharding
