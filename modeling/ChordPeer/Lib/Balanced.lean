/-
  Balanced maps — maps between finite types that take every value equally often.

  * `Balanced f`; `Balanced.card_mem`: then as large a share of the arguments
    leads into a set of values as the set is of all values;
  * `Balanced.bijective`, `Balanced.comp`, `Balanced.snd`, `Balanced.family`: how
    such maps are put together.
-/
import Mathlib.SetTheory.Cardinal.Finite
import Mathlib.Data.Fintype.BigOperators
import Mathlib.Algebra.BigOperators.Ring.Finset
import Mathlib.Algebra.Group.Action.Defs
import Mathlib.Data.FinEnum

namespace Counting

theorem nat_card_finEnum (α : Type*) [FinEnum α] : Nat.card α = FinEnum.card α := by
  rw [Nat.card_eq_fintype_card, FinEnum.card_eq_fintypeCard]

variable {α β γ : Type*} [Finite α] [Finite β] [Finite γ]

omit [Finite α] [Finite β] in
/-- Every value is taken equally often. -/
def Balanced (f : α → β) : Prop := ∀ b, Nat.card {a // f a = b} * Nat.card β = Nat.card α

/-- The arguments that lead into a set. -/
theorem Balanced.card_mem {f : α → β} (hf : Balanced f) (S : Set β) :
    Nat.card {a // f a ∈ S} * Nat.card β = Nat.card S * Nat.card α := by
  classical
  have := Fintype.ofFinite S
  let e : (Σ b : S, {a // f a = b}) ≃ {a // f a ∈ S} :=
    Equiv.sigmaSubtypeFiberEquivSubtype f fun _ => Iff.rfl
  have hsum : Nat.card {a // f a ∈ S} = ∑ b : S, Nat.card {a // f a = b} := by
    rw [← Nat.card_congr e, Nat.card_sigma]
  rw [hsum, Finset.sum_mul, Finset.sum_congr rfl fun (b : S) _ => hf b, Finset.sum_const,
    Finset.card_univ, Nat.card_eq_fintype_card (α := S), smul_eq_mul]

omit [Finite α] [Finite β] in
theorem Balanced.bijective {f : α → β} (hf : Function.Bijective f) : Balanced f := by
  intro b
  have hone : Nat.card {a // f a = b} = 1 := by
    obtain ⟨a, ha, hunique⟩ := hf.existsUnique b
    refine Nat.card_eq_one_iff_unique.2 ⟨⟨fun x y => Subtype.ext ?_⟩, ⟨a, ha⟩⟩
    rw [hunique x x.2, hunique y y.2]
  rw [hone, Nat.one_mul, Nat.card_congr (Equiv.ofBijective f hf)]

omit [Finite γ] in
theorem Balanced.comp {f : α → β} {g : β → γ} [Nonempty β] (hg : Balanced g) (hf : Balanced f) :
    Balanced (g ∘ f) := by
  intro c
  have hmem := hf.card_mem {b | g b = c}
  have hc : Nat.card {b | g b = c} * Nat.card γ = Nat.card β := hg c
  have hpos : 0 < Nat.card β := Nat.card_pos
  refine Nat.eq_of_mul_eq_mul_right hpos ?_
  calc Nat.card {a // (g ∘ f) a = c} * Nat.card γ * Nat.card β
      = Nat.card {a // f a ∈ {b | g b = c}} * Nat.card β * Nat.card γ := Nat.mul_right_comm _ _ _
    _ = Nat.card {b | g b = c} * Nat.card γ * Nat.card α := by rw [hmem, Nat.mul_right_comm]
    _ = Nat.card α * Nat.card β := by rw [hc, Nat.mul_comm]

omit [Finite α] [Finite β] in
theorem Balanced.snd : Balanced (Prod.snd : α × β → β) := by
  intro b
  let e : {p : α × β // p.2 = b} ≃ α :=
    ⟨fun p => p.1.1, fun a => ⟨(a, b), rfl⟩, fun p => Subtype.ext (Prod.ext rfl p.2.symm), fun _ => rfl⟩
  rw [Nat.card_congr e, Nat.card_prod]

omit [Finite β] in
/-- A map of two arguments that is balanced in the second. -/
theorem Balanced.family {f : γ → α → β} (hf : ∀ c, Balanced (f c)) :
    Balanced fun p : γ × α => f p.1 p.2 := by
  have := Fintype.ofFinite γ
  intro b
  have e : {p : γ × α // f p.1 p.2 = b} ≃ Σ c, {a // f c a = b} :=
    Equiv.subtypeProdEquivSigmaSubtype fun c a => f c a = b
  rw [Nat.card_congr e, Nat.card_sigma, Finset.sum_mul, Finset.sum_congr rfl fun c _ => hf c b,
    Finset.sum_const, Finset.card_univ, Nat.card_prod, Nat.card_eq_fintype_card (α := γ), smul_eq_mul]

end Counting
