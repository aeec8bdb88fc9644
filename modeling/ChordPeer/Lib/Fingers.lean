/-
  Fingers — the ids at powers of two ahead of an id, on a ring of `2 ^ w`.

  * `fingers`: those for a list of exponents; the exponent `w` is the id itself;
  * `Halves`: the ids that must be asked so that one of them leaves less than
    half of a distance, none twice and not the own one;
  * `halves_fingers_iff`: which exponents do.
-/
import Mathlib.Algebra.Group.Nat.Defs
import Mathlib.Data.Nat.Log
import Mathlib.Data.List.Nodup

namespace Fingers

variable {w : ℕ} {id : BitVec w} {ks : List ℕ} {d j k : ℕ}

/-- The ids that are `2 ^ k` ahead. -/
def fingers (id : BitVec w) (ks : List ℕ) : List (BitVec w) :=
  ks.map fun k => id + BitVec.ofNat w (2 ^ k)

/-- What must be asked to halve the distance `d`. -/
structure Halves (id : BitVec w) (asked : List (BitVec w)) (d : ℕ) : Prop where
  finger : ∃ k, 2 ^ k ≤ d ∧ d < 2 ^ (k + 1) ∧ id + BitVec.ofNat w (2 ^ k) ∈ asked
  nodup : asked.Nodup
  own : id ∉ asked

theorem ofNat_pow_eq_zero (hk : k ≤ w) : BitVec.ofNat w (2 ^ k) = 0#w ↔ k = w := by
  rw [← BitVec.toNat_inj, BitVec.toNat_ofNat, BitVec.toNat_ofNat, Nat.zero_mod]
  constructor
  · intro h
    rcases Nat.lt_or_eq_of_le hk with hlt | rfl
    · rw [Nat.mod_eq_of_lt (Nat.pow_lt_pow_right Nat.one_lt_two hlt)] at h
      exact absurd h (Nat.pow_pos Nat.two_pos).ne'
    · rfl
  · rintro rfl
    exact Nat.mod_self _

theorem ofNat_pow_inj (hj : j ≤ w) (hk : k ≤ w) :
    BitVec.ofNat w (2 ^ j) = BitVec.ofNat w (2 ^ k) ↔ j = k := by
  refine ⟨fun h => ?_, fun h => by rw [h]⟩
  rcases Nat.lt_or_eq_of_le hj with hj' | rfl
  · rcases Nat.lt_or_eq_of_le hk with hk' | rfl
    · rw [← BitVec.toNat_inj, BitVec.toNat_ofNat, BitVec.toNat_ofNat,
        Nat.mod_eq_of_lt (Nat.pow_lt_pow_right Nat.one_lt_two hj'),
        Nat.mod_eq_of_lt (Nat.pow_lt_pow_right Nat.one_lt_two hk')] at h
      exact Nat.pow_right_injective le_rfl h
    · rw [(ofNat_pow_eq_zero hk).2 rfl] at h
      exact (ofNat_pow_eq_zero hj).1 h
  · rw [(ofNat_pow_eq_zero hj).2 rfl] at h
    exact ((ofNat_pow_eq_zero hk).1 h.symm).symm

section
variable (id) (hks : ∀ k ∈ ks, k ≤ w)
include hks

theorem mem_fingers (hk : k ≤ w) : id + BitVec.ofNat w (2 ^ k) ∈ fingers id ks ↔ k ∈ ks := by
  simp only [fingers, List.mem_map, BitVec.add_right_inj]
  constructor
  · rintro ⟨j, hj, h⟩
    rwa [← (ofNat_pow_inj (hks j hj) hk).1 h]
  · intro h
    exact ⟨k, h, rfl⟩

theorem nodup_fingers : (fingers id ks).Nodup ↔ ks.Nodup := by
  refine ⟨List.Nodup.of_map _, fun h => h.map_on fun j hj k hk he => ?_⟩
  exact (ofNat_pow_inj (hks j hj) (hks k hk)).1 ((BitVec.add_right_inj id).1 he)

theorem own_mem_fingers : id ∈ fingers id ks ↔ w ∈ ks := by
  have h := mem_fingers id hks le_rfl
  rwa [(ofNat_pow_eq_zero le_rfl).2 rfl, BitVec.add_zero] at h

/-- The finger for a distance is the one at its highest power of two. -/
theorem finger_mem_iff (hd : d ≠ 0) (hlt : d < 2 ^ w) :
    (∃ k, 2 ^ k ≤ d ∧ d < 2 ^ (k + 1) ∧ id + BitVec.ofNat w (2 ^ k) ∈ fingers id ks) ↔
      Nat.log 2 d ∈ ks := by
  have hle : ∀ k, 2 ^ k ≤ d → k ≤ w := fun k hk =>
    ((Nat.pow_lt_pow_iff_right Nat.one_lt_two).1 (hk.trans_lt hlt)).le
  constructor
  · rintro ⟨k, hk, hk', hmem⟩
    rw [Nat.log_eq_of_pow_le_of_lt_pow hk hk']
    exact (mem_fingers id hks (hle k hk)).1 hmem
  · intro h
    have hpow := Nat.pow_log_le_self 2 hd
    exact ⟨_, hpow, Nat.lt_pow_succ_log_self Nat.one_lt_two d,
      (mem_fingers id hks (hle _ hpow)).2 h⟩

/-- Which exponents halve a distance. -/
theorem halves_fingers_iff (hd : d ≠ 0) (hlt : d < 2 ^ w) :
    Halves id (fingers id ks) d ↔ Nat.log 2 d ∈ ks ∧ ks.Nodup ∧ w ∉ ks := by
  rw [← finger_mem_iff id hks hd hlt, ← nodup_fingers id hks,
    ← own_mem_fingers id hks]
  exact ⟨fun h => ⟨h.finger, h.nodup, h.own⟩, fun h => ⟨h.1, h.2.1, h.2.2⟩⟩

end

end Fingers
