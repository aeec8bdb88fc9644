/-
  Interleavings — packets that do not disturb each other.

  * `Interleaves ls as`: the list `as` is made up of the lists `ls t`, each in
    its order;
  * `Passive`: packets that leave the nodes as they are, and of which only such
    packets come;
  * `Passive.run_iff`: a run on several lots of passive packets is an
    interleaving of runs on each lot alone, and any interleaving of such runs is
    a run.
-/
import Mathlib.Algebra.BigOperators.Group.Finset.Piecewise
import Mathlib.Algebra.Order.Group.Multiset
import ChordPeer.Lib.MessagePassing

namespace MessagePassing

/-! ## Lists -/

section
variable {κ α : Type*} [DecidableEq κ]

inductive Interleaves : (κ → List α) → List α → Prop where
  | nil : Interleaves (fun _ => []) []
  | cons {ls as} (t : κ) (a : α) (h : Interleaves ls as) :
      Interleaves (Function.update ls t (a :: ls t)) (a :: as)

variable [Fintype κ]

/-- A sum in which one place changes. -/
theorem sum_apply_update {γ M : Type*} [AddCommMonoid M] (f : κ → γ → M) (l : κ → γ) (t : κ) (s : γ) :
    ∑ u, f u (Function.update l t s u) = f t s + ∑ u ∈ Finset.univ \ {t}, f u (l u) := by
  have hfun : (fun u => f u (Function.update l t s u)) =
      Function.update (fun u => f u (l u)) t (f t s) :=
    funext fun u => Function.apply_update f l t s u
  rw [hfun, Finset.sum_update_of_mem (Finset.mem_univ t)]

theorem sum_split {M : Type*} [AddCommMonoid M] (f : κ → M) (t : κ) :
    ∑ u, f u = f t + ∑ u ∈ Finset.univ \ {t}, f u :=
  Finset.sum_eq_add_sum_sdiff_singleton_of_mem (Finset.mem_univ t) f

theorem sum_length_update (ls : κ → List α) (t : κ) (a : α) :
    ∑ u, (Function.update ls t (a :: ls t) u).length = ∑ u, (ls u).length + 1 := by
  rw [sum_apply_update (fun _ => List.length) ls, sum_split (fun u => (ls u).length) t, List.length_cons]
  omega

theorem Interleaves.length {ls : κ → List α} {as : List α} (h : Interleaves ls as) :
    as.length = ∑ t, (ls t).length := by
  induction h with
  | nil => simp
  | cons t a _ ih => rw [List.length_cons, ih, sum_length_update]

theorem exists_interleaves (ls : κ → List α) : ∃ as, Interleaves ls as := by
  generalize hn : ∑ t, (ls t).length = n
  induction n generalizing ls with
  | zero =>
    have hls : ls = fun _ => [] := by
      funext t
      exact List.length_eq_zero_iff.1 (Finset.sum_eq_zero_iff.1 hn t (Finset.mem_univ t))
    exact ⟨[], hls ▸ .nil⟩
  | succ n ih =>
    obtain ⟨t, -, ht⟩ : ∃ t ∈ Finset.univ, (ls t).length ≠ 0 :=
      Finset.exists_ne_zero_of_sum_ne_zero (by rw [hn]; exact Nat.succ_ne_zero n)
    obtain ⟨a, l, hl⟩ := List.exists_cons_of_length_pos (Nat.pos_of_ne_zero ht)
    -- without its first element
    have hls : Function.update (Function.update ls t l) t (a :: Function.update ls t l t) = ls := by
      rw [Function.update_idem, Function.update_self, ← hl, Function.update_eq_self]
    have hsum := sum_length_update (Function.update ls t l) t a
    rw [hls, hn] at hsum
    obtain ⟨as, has⟩ := ih (Function.update ls t l) (by omega)
    exact ⟨a :: as, hls ▸ .cons t a has⟩

end

/-! ## Runs -/

variable {ι σ π : Type*} [DecidableEq ι] {S : System ι σ π}

theorem Run.of_nil {C C' : Config ι σ π} (h : Run S C [] C') : C' = C := by
  cases h
  rfl

/-- A delivery that leaves the node as it is. -/
theorem Step.unchanged {node : ι → σ} {i : ι} {p : π} {out : List π}
    (h : S.handles i (node i) p (node i) out) (rest : Multiset π) :
    Step S ⟨node, p ::ₘ rest⟩ (.deliver i p out) ⟨node, ↑out + rest⟩ := by
  have hstep : Step S ⟨node, p ::ₘ rest⟩ (.deliver i p out)
      ⟨Function.update node i (node i), ↑out + rest⟩ := .deliver h
  rwa [Function.update_eq_self] at hstep

/-- With the nodes in the states `node`, the packets `P` leave them so, and only
    packets `P` come of them. -/
structure Passive (S : System ι σ π) (node : ι → σ) (P : π → Prop) : Prop where
  enters : ∀ p, ¬ S.enters p
  state : ∀ {i p s out}, P p → S.handles i (node i) p s out → s = node i
  sends : ∀ {i p s out}, P p → S.handles i (node i) p s out → ∀ q ∈ out, P q

section
variable {node : ι → σ} {P : π → Prop} (hP : Passive S node P)
include hP

/-- A step on passive packets is a delivery. -/
theorem Passive.step {flight : Multiset π} (hf : ∀ p ∈ flight, P p) {a : Act ι π}
    {C : Config ι σ π} (h : Step S ⟨node, flight⟩ a C) : ∃ i p out rest,
      a = .deliver i p out ∧ flight = p ::ₘ rest ∧ C = ⟨node, ↑out + rest⟩ ∧
        (∀ q ∈ (↑out + rest : Multiset π), P q) ∧ S.handles i (node i) p (node i) out := by
  generalize hC : (⟨node, flight⟩ : Config ι σ π) = C₀ at h
  cases h with
  | enter h => exact absurd h (hP.enters _)
  | @deliver node' rest i p s out h =>
    obtain ⟨rfl, rfl⟩ := Config.mk.inj hC
    have hp := hf p (Multiset.mem_cons_self p rest)
    obtain rfl := hP.state hp h
    refine ⟨i, p, out, rest, rfl, rfl, by rw [Function.update_eq_self], fun q hq => ?_, h⟩
    rcases Multiset.mem_add.1 hq with hq | hq
    · exact hP.sends hp h q hq
    · exact hf q (Multiset.mem_cons_of_mem hq)

theorem Passive.flight {flight : Multiset π} (hf : ∀ p ∈ flight, P p) {as : List (Act ι π)}
    {C : Config ι σ π} (h : Run S ⟨node, flight⟩ as C) : ∀ p ∈ C.flight, P p := by
  generalize hC : (⟨node, flight⟩ : Config ι σ π) = C₀ at h
  induction h generalizing flight with
  | nil =>
    subst hC
    exact hf
  | cons hs _ ih =>
    subst hC
    obtain ⟨i, p, out, rest, -, -, rfl, hall, -⟩ := hP.step hf hs
    exact ih hall rfl

variable {κ : Type*} [DecidableEq κ] [Fintype κ] {F : κ → Multiset π}

theorem Passive.interleaves (hF : ∀ t, ∀ p ∈ F t, P p) {as : List (Act ι π)} {C : Config ι σ π}
    (h : Run S ⟨node, ∑ t, F t⟩ as C) : ∃ (ls : κ → List (Act ι π)) (F' : κ → Multiset π),
      Interleaves ls as ∧ (∀ t, Run S ⟨node, F t⟩ (ls t) ⟨node, F' t⟩) ∧ C = ⟨node, ∑ t, F' t⟩ := by
  generalize hC : (⟨node, ∑ t, F t⟩ : Config ι σ π) = C₀ at h
  induction h generalizing F with
  | nil => exact ⟨_, F, .nil, fun _ => .nil, hC.symm⟩
  | @cons _ a C' as C h _ ih =>
    subst hC
    have hall : ∀ p ∈ ∑ t, F t, P p := fun p hp => by
      obtain ⟨t, -, hp⟩ := Multiset.mem_sum.1 hp
      exact hF t p hp
    obtain ⟨i, p, out, rest, rfl, hflight, rfl, -, hh⟩ := hP.step hall h
    -- the lot that the packet is of
    obtain ⟨t, -, hp⟩ := Multiset.mem_sum.1 (hflight ▸ Multiset.mem_cons_self p rest :
      p ∈ ∑ t, F t)
    obtain ⟨r, hr⟩ := Multiset.exists_cons_of_mem hp
    have hrest : rest = r + ∑ u ∈ Finset.univ \ {t}, F u := by
      rw [sum_split F t, hr, Multiset.cons_add,
        Multiset.cons_inj_right] at hflight
      exact hflight.symm
    have hsum : ∑ u, Function.update F t (↑out + r) u = ↑out + rest := by
      rw [sum_apply_update fun _ A => A, hrest, add_assoc]
    have hF' : ∀ u, ∀ q ∈ Function.update F t (↑out + r) u, P q := fun u q hq => by
      by_cases hu : u = t
      · subst hu
        rw [Function.update_self] at hq
        rcases Multiset.mem_add.1 hq with hq | hq
        · exact hP.sends (hF u p hp) hh q hq
        · exact hF u q (hr ▸ Multiset.mem_cons_of_mem hq)
      · rw [Function.update_of_ne hu] at hq
        exact hF u q hq
    obtain ⟨ls, F', hls, hruns, hC⟩ := ih hF' (by rw [hsum])
    refine ⟨_, F', .cons t _ hls, fun u => ?_, hC⟩
    have hrun := hruns u
    by_cases hu : u = t
    · subst hu
      rw [Function.update_self] at hrun ⊢
      rw [hr]
      exact .cons (Step.unchanged hh r) hrun
    · rw [Function.update_of_ne hu] at hrun ⊢
      exact hrun

theorem Passive.run_of_interleaves (hF : ∀ t, ∀ p ∈ F t, P p) {ls : κ → List (Act ι π)}
    {as : List (Act ι π)} (h : Interleaves ls as) {F' : κ → Multiset π}
    (hruns : ∀ t, Run S ⟨node, F t⟩ (ls t) ⟨node, F' t⟩) :
    Run S ⟨node, ∑ t, F t⟩ as ⟨node, ∑ t, F' t⟩ := by
  induction h generalizing F with
  | nil =>
    have hFF' : F = F' := by
      funext t
      exact (congrArg Config.flight (hruns t).of_nil).symm
    rw [hFF']
    exact .nil
  | @cons ls as t a _ ih =>
    have ht := hruns t
    rw [Function.update_self] at ht
    cases ht with
    | cons hstep hrest =>
      obtain ⟨i, p, out, r, rfl, hr, rfl, hout, hh⟩ := hP.step (hF t) hstep
      have hsum : ∑ u, F u = p ::ₘ (r + ∑ u ∈ Finset.univ \ {t}, F u) := by
        rw [sum_split F t, hr, Multiset.cons_add]
      have hsum' : ∑ u, Function.update F t (↑out + r) u =
          ↑out + (r + ∑ u ∈ Finset.univ \ {t}, F u) := by
        rw [sum_apply_update fun _ A => A, add_assoc]
      rw [hsum]
      refine .cons (Step.unchanged hh _) ?_
      rw [← hsum']
      refine ih (fun u q hq => ?_) fun u => ?_
      · by_cases hu : u = t
        · subst hu
          rw [Function.update_self] at hq
          exact hout q hq
        · rw [Function.update_of_ne hu] at hq
          exact hF u q hq
      · by_cases hu : u = t
        · subst hu
          rw [Function.update_self]
          exact hrest
        · have hrun := hruns u
          rw [Function.update_of_ne hu] at hrun ⊢
          exact hrun

/-- **Passive packets do not disturb each other.** -/
theorem Passive.run_iff (hF : ∀ t, ∀ p ∈ F t, P p) {as : List (Act ι π)} {C : Config ι σ π} :
    Run S ⟨node, ∑ t, F t⟩ as C ↔ ∃ (ls : κ → List (Act ι π)) (F' : κ → Multiset π),
      Interleaves ls as ∧ (∀ t, Run S ⟨node, F t⟩ (ls t) ⟨node, F' t⟩) ∧ C = ⟨node, ∑ t, F' t⟩ := by
  constructor
  · exact hP.interleaves hF
  · rintro ⟨ls, F', hls, hruns, rfl⟩
    exact hP.run_of_interleaves hF hls hruns

end

end MessagePassing
