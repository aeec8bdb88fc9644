/-
  First in, first out — what a queue gives, whatever it is made of.

  * `Op`, `appended`, `popped`: the operations of a queue, what they put in and
    how much they take out;
  * `Impl`: something with these operations; `Impl.run`: operations one after
    the other, up to a fault;
  * `Admitted`, `IsFifo`: nothing is read from an empty queue, and at every
    point of the run the implementation does what a queue does;
  * `Admitted.cases`: operations on an empty queue start with an append;
    `isFifo_iff_of_lost`: an implementation that is still empty after that is
    no queue for them.
-/
import Mathlib.Data.List.Infix

namespace Fifo

/-- An operation.  One that reads is given what its variable held before. -/
inductive Op (α : Type*) where
  | append (a : α)
  | pop (x : α)
  | peek (x : α)
  deriving DecidableEq

section
variable {α τ ε : Type*}

/-- The operations that read the oldest element. -/
def Op.Reads : Op α → Prop
  | .append _ => False
  | .pop _ | .peek _ => True

/-- The elements put in, the oldest first. -/
def appended : List (Op α) → List α
  | [] => []
  | .append a :: ops => a :: appended ops
  | .pop _ :: ops | .peek _ :: ops => appended ops

/-- How many elements were taken out. -/
def popped : List (Op α) → ℕ
  | [] => 0
  | .pop _ :: ops => popped ops + 1
  | .append _ :: ops | .peek _ :: ops => popped ops

/-- An implementation; an operation that reads also gives what it read. -/
structure Impl (α τ ε : Type*) where
  empty : τ
  exec : τ → Op α → Except ε (τ × Option α)
  is_empty : τ → Bool

/-- The operations one after the other. -/
def Impl.run (Q : Impl α τ ε) : τ → List (Op α) → Except ε τ
  | s, [] => .ok s
  | s, op :: ops => match Q.exec s op with
    | .ok (s', _) => Q.run s' ops
    | .error e => .error e

/-- An operation reads only where there is something left, by count or because
    `is_empty` says so; of a queue that is right the two are the same. -/
def Admitted (Q : Impl α τ ε) (ops : List (Op α)) : Prop :=
  ∀ done op rest, ops = done ++ op :: rest → op.Reads →
    popped done < (appended done).length ∨
      ∀ s, Q.run Q.empty done = .ok s → Q.is_empty s = false

/-- At every point of the operations `ops`, the implementation has done what a
    queue does. -/
structure IsFifo (Q : Impl α τ ε) (ops : List (Op α)) : Prop where
  faultless : ∀ done, done <+: ops → ∃ s, Q.run Q.empty done = .ok s
  is_empty : ∀ done s, done <+: ops → Q.run Q.empty done = .ok s →
    (Q.is_empty s = true ↔ popped done = (appended done).length)
  oldest : ∀ done op s s' read, done ++ [op] <+: ops → op.Reads →
    Q.run Q.empty done = .ok s → Q.exec s op = .ok (s', read) →
    read.isSome ∧ read = (appended done)[popped done]?

variable {Q : Impl α τ ε} {ops : List (Op α)}

theorem Impl.run_singleton {s s' : τ} {op : Op α} :
    Q.run s [op] = .ok s' ↔ ∃ read, Q.exec s op = .ok (s', read) := by
  rw [Impl.run]
  cases h : Q.exec s op with
  | error e => simp
  | ok r =>
    obtain ⟨s'', read⟩ := r
    simp [Impl.run]

/-- Nothing can be read from an empty queue, so the first operation appends. -/
theorem Admitted.cases (h : Admitted Q ops) (he : Q.is_empty Q.empty = true) :
    ops = [] ∨ ∃ a rest, ops = .append a :: rest := by
  cases ops with
  | nil => exact .inl rfl
  | cons op rest =>
    have hread : ¬ op.Reads := by
      intro hop
      rcases h [] op rest rfl hop with hlt | hs
      · exact absurd hlt (Nat.lt_irrefl 0)
      · rw [hs Q.empty rfl] at he
        cases he
    cases op with
    | append a => exact .inr ⟨a, rest, rfl⟩
    | pop x | peek x => exact absurd trivial hread

theorem isFifo_nil (he : Q.is_empty Q.empty = true) : IsFifo Q [] where
  faultless := by
    intro done hd
    obtain rfl := List.prefix_nil.1 hd
    exact ⟨Q.empty, rfl⟩
  is_empty := by
    intro done s hd hr
    obtain rfl := List.prefix_nil.1 hd
    cases hr
    exact ⟨fun _ => rfl, fun _ => he⟩
  oldest := by
    intro done op s s' read hd
    exact absurd (List.prefix_nil.1 hd) (by simp)

/-- After the first append a queue is not empty. -/
theorem IsFifo.append {a : α} {rest : List (Op α)} (h : IsFifo Q (.append a :: rest)) :
    ∃ s read, Q.exec Q.empty (.append a) = .ok (s, read) ∧ Q.is_empty s = false := by
  have hd : [Op.append a] <+: .append a :: rest := ⟨rest, rfl⟩
  obtain ⟨s, hs⟩ := h.faultless _ hd
  obtain ⟨read, hread⟩ := Impl.run_singleton.1 hs
  refine ⟨s, read, hread, Bool.eq_false_iff.2 fun hemp => ?_⟩
  have hcount := (h.is_empty _ s hd hs).1 hemp
  exact absurd hcount (by simp [popped, appended])

/-- An implementation that loses the first element that is appended. -/
theorem isFifo_iff_of_lost (he : Q.is_empty Q.empty = true)
    (hlost : ∀ a s read, Q.exec Q.empty (.append a) = .ok (s, read) → Q.is_empty s = true)
    (h : Admitted Q ops) : IsFifo Q ops ↔ ∀ a, .append a ∉ ops := by
  rcases h.cases he with rfl | ⟨a, rest, rfl⟩
  · exact ⟨fun _ _ => List.not_mem_nil, fun _ => isFifo_nil he⟩
  · constructor
    · intro hq
      obtain ⟨s, read, hread, hemp⟩ := hq.append
      rw [hlost a s read hread] at hemp
      cases hemp
    · intro hno
      exact absurd List.mem_cons_self (hno a)

end

end Fifo
