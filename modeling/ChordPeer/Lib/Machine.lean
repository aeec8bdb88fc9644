/-
  Machines — step functions with output and step relations, and their runs.

  * `run`: the outputs of a list of inputs, if every step is defined;
  * `Simulation.run`: where one step of the second machine does what one step
    of the first does, so do runs over inputs that correspond one to one;
  * `Trace`: the runs of a step relation; `Trace.invariant`, `Trace.acts`: what
    every step keeps holds throughout, and so does what it shows of its label;
    `Trace.exists_change`: the first step after which something holds;
    `Trace.always_iff`: what a step keeps under a condition only.
-/
import Mathlib.Data.List.Forall2

namespace Machine

variable {σ ι ο τ κ ω : Type*}

/-- The last state and the outputs of a run. -/
def run (step : σ → ι → Option (σ × ο)) : σ → List ι → Option (σ × List ο)
  | s, [] => some (s, [])
  | s, i :: is =>
    match step s i with
    | none => none
    | some (s', o) => (run step s' is).map fun r => (r.1, o :: r.2)

theorem run_cons {step : σ → ι → Option (σ × ο)} {s : σ} {i : ι} {is : List ι} {r : σ × List ο} :
    run step s (i :: is) = some r ↔
      ∃ s' o os, step s i = some (s', o) ∧ run step s' is = some (r.1, os) ∧ r.2 = o :: os := by
  rw [run]
  cases hs : step s i with
  | none => simp
  | some p =>
    obtain ⟨s', o⟩ := p
    simp only [Option.map_eq_some_iff, Option.some.injEq, Prod.mk.injEq]
    constructor
    · rintro ⟨q, hq, rfl⟩
      exact ⟨s', o, q.2, ⟨rfl, rfl⟩, hq, rfl⟩
    · rintro ⟨s'', o', os, ⟨rfl, rfl⟩, hr, ho⟩
      exact ⟨_, hr, by rw [← ho]⟩

theorem run_length {step : σ → ι → Option (σ × ο)} {s : σ} {is : List ι} {r : σ × List ο}
    (h : run step s is = some r) : r.2.length = is.length := by
  induction is generalizing s r with
  | nil =>
    cases h
    rfl
  | cons i is ih =>
    obtain ⟨s', o, os, -, hr, ho⟩ := run_cons.1 h
    rw [ho, List.length_cons, List.length_cons, ih hr]

/-- Every step of the first machine is one of the second, on inputs and with
    outputs that correspond. -/
structure Simulation (step : σ → ι → Option (σ × ο)) (step' : τ → κ → Option (τ × ω))
    (R : σ → τ → Prop) (I : ι → κ → Prop) (O : ο → ω → Prop) : Prop where
  step : ∀ {s t i j s' o}, R s t → I i j → step s i = some (s', o) →
    ∃ t' w, step' t j = some (t', w) ∧ R s' t' ∧ O o w

theorem Simulation.run {step : σ → ι → Option (σ × ο)} {step' : τ → κ → Option (τ × ω)}
    {R : σ → τ → Prop} {I : ι → κ → Prop} {O : ο → ω → Prop} (h : Simulation step step' R I O)
    {s : σ} {t : τ} {is : List ι} {js : List κ} {r : σ × List ο} (hst : R s t)
    (hij : List.Forall₂ I is js) (hr : Machine.run step s is = some r) :
    ∃ r', Machine.run step' t js = some r' ∧ R r.1 r'.1 ∧ List.Forall₂ O r.2 r'.2 := by
  induction hij generalizing s t r with
  | nil =>
    cases hr
    exact ⟨_, rfl, hst, .nil⟩
  | cons hi _ ih =>
    obtain ⟨s', o, os, hs, hr', ho⟩ := run_cons.1 hr
    obtain ⟨t', w, ht, hst', hw⟩ := h.step hst hi hs
    obtain ⟨r', hrun, hR, hO⟩ := ih hst' hr'
    exact ⟨(r'.1, w :: r'.2), run_cons.2 ⟨t', w, r'.2, ht, hrun, rfl⟩, hR, by
      rw [ho]
      exact .cons hw hO⟩

/-! ## Step relations -/

section
variable {α : Type*} {step : σ → α → σ → Prop}

/-- A run and the labels of its steps. -/
inductive Trace (step : σ → α → σ → Prop) : σ → List α → σ → Prop where
  | nil {s} : Trace step s [] s
  | cons {s a s' as s''} (h : step s a s') (hs : Trace step s' as s'') : Trace step s (a :: as) s''

theorem Trace.snoc {s s' s'' : σ} {as : List α} {a : α} (h : Trace step s as s')
    (ha : step s' a s'') : Trace step s (as ++ [a]) s'' := by
  induction h with
  | nil => exact .cons ha .nil
  | cons hb _ ih => exact .cons hb (ih ha)

/-- What every step keeps, and what it shows of its label meanwhile. -/
theorem Trace.acts {I : σ → Prop} {Q : α → Prop}
    (hI : ∀ s a s', I s → step s a s' → I s' ∧ Q a) {s s' : σ} {as : List α} (hs : I s)
    (h : Trace step s as s') : I s' ∧ ∀ a ∈ as, Q a := by
  induction h with
  | nil => exact ⟨hs, fun a ha => absurd ha List.not_mem_nil⟩
  | cons ha _ ih =>
    obtain ⟨hI', hQ⟩ := hI _ _ _ hs ha
    obtain ⟨hI'', hQs⟩ := ih hI'
    exact ⟨hI'', List.forall_mem_cons.2 ⟨hQ, hQs⟩⟩

theorem Trace.invariant {I : σ → Prop} (hI : ∀ s a s', I s → step s a s' → I s') {s s' : σ}
    {as : List α} (hs : I s) (h : Trace step s as s') : I s' :=
  (h.acts (Q := fun _ => True) (fun s a s' hs ha => ⟨hI s a s' hs ha, trivial⟩) hs).1

/-- What the steps with labels of a list keep. -/
theorem Trace.invariant_mem {I : σ → Prop} {s s' : σ} {as : List α}
    (hI : ∀ a ∈ as, ∀ s s', I s → step s a s' → I s') (hs : I s) (h : Trace step s as s') : I s' := by
  induction h with
  | nil => exact hs
  | @cons s a s' as _ ha _ ih =>
    refine ih (fun b hb => hI b (List.mem_cons_of_mem a hb)) ?_
    exact hI a List.mem_cons_self s s' hs ha

/-- What does not hold at first and holds at the end, some step has brought about. -/
theorem Trace.exists_change {P : σ → Prop} {s s' : σ} {as : List α} (h : Trace step s as s')
    (hs : ¬ P s) (hs' : P s') : ∃ bs a cs t t', as = bs ++ a :: cs ∧ Trace step s bs t ∧ ¬ P t ∧
      step t a t' ∧ P t' ∧ Trace step t' cs s' := by
  induction h with
  | nil => exact absurd hs' hs
  | @cons s a t as s' ha hr ih =>
    by_cases ht : P t
    · exact ⟨[], a, as, s, t, rfl, .nil, hs, ha, ht, hr⟩
    · obtain ⟨bs, b, cs, u, u', rfl, hu, hnu, hb, hpu, hcs⟩ := ih ht hs'
      exact ⟨a :: bs, b, cs, u, u', rfl, .cons ha hu, hnu, hb, hpu, hcs⟩

/-- A property that a step keeps exactly when `Q` holds of it holds all along
    the runs over `as` exactly when `Q` holds of every step in them. -/
theorem Trace.always_iff {J I : σ → Prop} {Q : σ → α → Prop}
    (hJ : ∀ s a s', J s → step s a s' → J s')
    (hI : ∀ s a s', J s → I s → step s a s' → (I s' ↔ Q s a)) {s : σ} (hj : J s) (hi : I s)
    (as : List α) :
    (∀ bs t, bs <+: as → Trace step s bs t → I t) ↔
      ∀ bs a t t', bs ++ [a] <+: as → Trace step s bs t → step t a t' → Q t a := by
  constructor
  · intro h bs a t t' hp hr ha
    have hbs : bs <+: as := (List.prefix_append bs [a]).trans hp
    exact (hI t a t' (hr.invariant hJ hj) (h bs t hbs hr) ha).1 (h _ t' hp (hr.snoc ha))
  · intro h bs t hp hr
    induction hr generalizing as with
    | nil => exact hi
    | @cons s a s' bs t ha _ ih =>
      obtain ⟨cs, rfl⟩ := hp
      have hi' : I s' := (hI s a s' hj hi ha).2 (h [] a s s' ⟨bs ++ cs, by simp⟩ .nil ha)
      refine ih (hJ s a s' hj ha) hi' (bs ++ cs) (fun ds b u u' hd hu hb => ?_)
        (List.prefix_append bs cs)
      exact h (a :: ds) b u u' (by simpa using hd) (.cons ha hu) hb

end

end Machine
