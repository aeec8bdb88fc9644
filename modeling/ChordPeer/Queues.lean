/-
  The queue macros of `helper/wulkanat/queue.h`, compared with a queue.

  * `Queue.macros`: the operations as the macros define them;
    `Queue.bodies`: the same with every body run once, as the blocks behind
    `while (0)` read;
  * `macros_run`: no macro changes the queue, whatever is done to it;
  * `macros_isFifo_iff`: so what `QUEUE` declares is a queue only as long as
    nothing is appended; `bodies_isFifo_iff`: with the bodies run it would be
    no better.
-/
import ChordPeer.Process
import ChordPeer.Lib.Fifo

namespace ChordPeer

namespace Queue
variable {α : Type}

/-- The macros, on a queue as `QUEUE` declares it. -/
def macros : Fifo.Impl α (Queue α) Fault where
  empty := .empty
  exec queue
    | .append data_ptr => do
      return (← queue.queue_append data_ptr, none)
    | .pop data_ptr => do
      let (queue, data_ptr) ← queue.queue_pop data_ptr
      return (queue, some data_ptr)
    | .peek data_ptr => do
      return (queue, some (← queue.queue_peek data_ptr))
  is_empty := queue_is_empty

/-- The same with the bodies run. -/
def bodies : Fifo.Impl α (Queue α) Fault where
  empty := .empty
  exec queue
    | .append data_ptr => do
      return (← queue_append_body data_ptr queue, none)
    | .pop data_ptr => do
      let (queue, data_ptr) ← queue_pop_body (queue, data_ptr)
      return (queue, some data_ptr)
    | .peek data_ptr => do
      return (queue, some (← queue_peek_body queue data_ptr))
  is_empty := queue_is_empty

/-- The variable of an operation that reads stays as it was. -/
theorem macros_exec (queue : Queue α) (op : Fifo.Op α) :
    ∃ read, macros.exec queue op = .ok (queue, read) := by
  cases op <;> exact ⟨_, rfl⟩

/-- No operation changes the queue. -/
theorem macros_run (queue : Queue α) (ops : List (Fifo.Op α)) :
    macros.run queue ops = .ok queue := by
  induction ops with
  | nil => rfl
  | cons op ops ih =>
    obtain ⟨read, hread⟩ := macros_exec queue op
    rw [Fifo.Impl.run, hread]
    exact ih

theorem macros_condition {ops : List (Fifo.Op α)} (h : Fifo.Admitted macros ops) :
    Fifo.IsFifo macros ops ↔ ∀ a, .append a ∉ ops := by
  refine Fifo.isFifo_iff_of_lost rfl (fun a s read hs => ?_) h
  cases hs
  rfl

/-- **The queue macros.**  No operation faults, and none changes the queue, so
    it is one for operations that append nothing. -/
theorem macros_isFifo_iff {ops : List (Fifo.Op α)} (h : Fifo.Admitted macros ops) :
    macros.run .empty ops = .ok .empty ∧
      (Fifo.IsFifo macros ops ↔ ∀ a, .append a ∉ ops) :=
  ⟨macros_run .empty ops, macros_condition h⟩

/-- An element that is put in and taken out again. -/
def append_pop : List (Fifo.Op ℕ) := [.append 7, .pop 0]

theorem append_pop_admitted : Fifo.Admitted macros append_pop := by
  intro done op rest h hop
  cases done with
  | nil =>
    cases h
    exact absurd hop id
  | cons op' done =>
    obtain ⟨rfl, hrest⟩ := List.cons.inj h
    cases done with
    | nil => exact .inl Nat.zero_lt_one
    | cons op'' done =>
      have hlen := congrArg List.length hrest
      simp at hlen

theorem macros_isFifo_iff_append_pop : macros.run .empty append_pop = .ok .empty ∧
    (Fifo.IsFifo macros append_pop ↔ ∀ a, .append a ∉ append_pop) :=
  macros_isFifo_iff append_pop_admitted

/-- The element is not there after it was put in. -/
theorem not_macros_isFifo : ¬ ∀ ops : List (Fifo.Op ℕ), Fifo.Admitted macros ops →
    Fifo.IsFifo macros ops := by
  intro h
  exact (macros_condition append_pop_admitted).1 (h _ append_pop_admitted) 7 List.mem_cons_self

/-- The blocks behind `while (0)` would not do either: the first append reads
    through `last`, which is `NULL` then. -/
theorem bodies_isFifo_iff {ops : List (Fifo.Op α)} (h : Fifo.Admitted bodies ops) :
    Fifo.IsFifo bodies ops ↔ ∀ a, .append a ∉ ops := by
  have hnull : ∀ a : α, bodies.exec .empty (.append a) = .error .queueNode := fun _ => rfl
  refine Fifo.isFifo_iff_of_lost rfl (fun a s read hs => ?_) h
  cases (hnull a).symm.trans hs

end Queue

end ChordPeer
