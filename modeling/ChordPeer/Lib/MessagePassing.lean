/-
  Message passing — nodes that take one packet at a time, change their state
  and send packets, and the packets in flight between them, in no order.

  * `Step`, `Run`: a packet comes from outside, or a node takes one that is in
    flight; a run keeps the list of what happened;
  * `Run.invariant`, `Run.invariant_local`: what every step keeps holds
    throughout a run; for a property of each node and one of each packet it is
    enough to look at one node taking one packet;
  * `Takes`: what happens to a packet is determined.  A run on a single such
    packet starts with it (`Run.takes`), and a packet passed on from node to
    node goes along the chain (`run_relays`, `Run.relays`, `relays_takes`).
-/
import Mathlib.Data.Multiset.AddSub
import Mathlib.Logic.Function.Iterate

namespace MessagePassing

variable {ι σ π : Type*} [DecidableEq ι]

structure System (ι σ π : Type*) where
  /-- node `i` in a state may take a packet: its next state and what it sends -/
  handles : ι → σ → π → σ → List π → Prop
  /-- packets that may come from outside -/
  enters : π → Prop

structure Config (ι σ π : Type*) where
  node : ι → σ
  flight : Multiset π

inductive Act (ι π : Type*) where
  | enter (p : π)
  | deliver (i : ι) (p : π) (out : List π)

inductive Step (S : System ι σ π) : Config ι σ π → Act ι π → Config ι σ π → Prop where
  | enter {node flight p} (h : S.enters p) :
      Step S ⟨node, flight⟩ (.enter p) ⟨node, p ::ₘ flight⟩
  | deliver {node flight i p s out} (h : S.handles i (node i) p s out) :
      Step S ⟨node, p ::ₘ flight⟩ (.deliver i p out) ⟨Function.update node i s, ↑out + flight⟩

/-- A run and what happened in it. -/
inductive Run (S : System ι σ π) : Config ι σ π → List (Act ι π) → Config ι σ π → Prop where
  | nil {C} : Run S C [] C
  | cons {C a C' as C''} (h : Step S C a C') (hs : Run S C' as C'') : Run S C (a :: as) C''

variable {S : System ι σ π}

theorem Run.append {C C' C'' : Config ι σ π} {as bs : List (Act ι π)} (h : Run S C as C')
    (h' : Run S C' bs C'') : Run S C (as ++ bs) C'' := by
  induction h with
  | nil => exact h'
  | cons hs _ ih => exact .cons hs (ih h')

/-- With more that nodes may do there are no fewer runs. -/
theorem Run.mono {S' : System ι σ π} {C C' : Config ι σ π} {as : List (Act ι π)}
    (h : Run S C as C') (hin : ∀ p, S.enters p → S'.enters p)
    (hh : ∀ i s p s' out, S.handles i s p s' out → S'.handles i s p s' out) : Run S' C as C' := by
  induction h with
  | nil => exact .nil
  | cons hs _ ih =>
    cases hs with
    | enter he => exact .cons (.enter (hin _ he)) ih
    | deliver hd => exact .cons (.deliver (hh _ _ _ _ _ hd)) ih

/-- Where every run of less than `k` steps can go on, one of `k` steps is there. -/
theorem exists_run_length {C : Config ι σ π} {k : ℕ}
    (h : ∀ as C', Run S C as C' → as.length < k → ∃ a C'', Step S C' a C'') :
    ∃ as C', Run S C as C' ∧ as.length = k := by
  induction k with
  | zero => exact ⟨[], C, .nil, rfl⟩
  | succ k ih =>
    obtain ⟨as, C', hr, hlen⟩ := ih fun as C' hr hlt => h as C' hr (Nat.lt_succ_of_lt hlt)
    obtain ⟨a, C'', hs⟩ := h as C' hr (by omega)
    exact ⟨as ++ [a], C'', hr.append (.cons hs .nil), by rw [List.length_append, hlen]; rfl⟩

/-! ## Invariants -/

/-- What every step keeps holds throughout a run. -/
theorem Run.invariant {I : Config ι σ π → Prop} (hI : ∀ C a C', I C → Step S C a C' → I C')
    {C C' : Config ι σ π} {as : List (Act ι π)} (hC : I C) (hr : Run S C as C') : I C' := by
  induction hr with
  | nil => exact hC
  | cons h _ ih => exact ih (hI _ _ _ hC h)

/-- Every node and every packet in flight as it should be. -/
structure Locally (P : ι → σ → Prop) (Q : π → Prop) (C : Config ι σ π) : Prop where
  node : ∀ i, P i (C.node i)
  flight : ∀ p ∈ C.flight, Q p

section
variable {P : ι → σ → Prop} {Q : π → Prop}

theorem Step.locally (hin : ∀ p, S.enters p → Q p)
    (htake : ∀ i s p s' out, P i s → Q p → S.handles i s p s' out → P i s' ∧ ∀ q ∈ out, Q q)
    {C C' : Config ι σ π} {a : Act ι π} (hC : Locally P Q C) (h : Step S C a C') :
    Locally P Q C' := by
  cases h with
  | enter h => exact ⟨hC.node, fun q hq => (Multiset.mem_cons.1 hq).elim (· ▸ hin _ h) (hC.flight q)⟩
  | @deliver node flight i p s out h =>
    obtain ⟨hs, hout⟩ := htake i _ p s out (hC.node i) (hC.flight p (Multiset.mem_cons_self _ _)) h
    refine ⟨fun j => ?_, fun q hq => ?_⟩
    · by_cases hj : j = i
      · subst hj
        simpa using hs
      · simpa [hj] using hC.node j
    · rcases Multiset.mem_add.1 hq with hq | hq
      · exact hout q hq
      · exact hC.flight q (Multiset.mem_cons_of_mem hq)

/-- A property of each node and one of each packet: it is enough to look at
    one node taking one packet. -/
theorem Run.invariant_local (hin : ∀ p, S.enters p → Q p)
    (htake : ∀ i s p s' out, P i s → Q p → S.handles i s p s' out → P i s' ∧ ∀ q ∈ out, Q q)
    {C C' : Config ι σ π} {as : List (Act ι π)} (hC : Locally P Q C) (hr : Run S C as C') :
    Locally P Q C' :=
  hr.invariant (fun _ _ _ hC h => h.locally hin htake hC) hC

end

/-! ## Packets whose fate is determined -/

/-- With the nodes in the states `node`, only node `i` takes `p`; then its
    state is `s` and it has sent `out`. -/
structure Takes (S : System ι σ π) (node : ι → σ) (p : π) (i : ι) (s : σ) (out : List π) : Prop where
  handles : S.handles i (node i) p s out
  only : ∀ j s' out', S.handles j (node j) p s' out' → j = i ∧ s' = s ∧ out' = out

/-- No node ever takes `p`. -/
def Inert (S : System ι σ π) (p : π) : Prop := ∀ i s s' out, ¬ S.handles i s p s' out

section
variable (hS : ∀ p, ¬ S.enters p) {node : ι → σ} {rest : Multiset π} (hrest : ∀ q ∈ rest, Inert S q)
include hS hrest

theorem Step.takes {p : π} {i : ι} {s : σ} {out : List π} (ht : Takes S node p i s out)
    {a : Act ι π} {C : Config ι σ π} (h : Step S ⟨node, p ::ₘ rest⟩ a C) :
    a = .deliver i p out ∧ C = ⟨Function.update node i s, ↑out + rest⟩ := by
  generalize hC : (⟨node, p ::ₘ rest⟩ : Config ι σ π) = C₀ at h
  cases h with
  | enter h => exact absurd h (hS _)
  | @deliver node' flight j q s' out' h =>
    obtain ⟨rfl, hf⟩ : node = node' ∧ p ::ₘ rest = q ::ₘ flight := by
      simpa using hC
    rcases Multiset.mem_cons.1 (hf ▸ Multiset.mem_cons_self q flight : q ∈ p ::ₘ rest) with rfl | hq
    · obtain ⟨rfl, rfl, rfl⟩ := ht.only _ _ _ h
      rw [Multiset.cons_inj_right] at hf
      exact ⟨rfl, by rw [hf]⟩
    · exact absurd h (hrest q hq _ _ _ _)

/-- A run on a single packet whose fate is determined starts with it. -/
theorem Run.takes {p : π} {i : ι} {s : σ} {out : List π} (ht : Takes S node p i s out)
    {as : List (Act ι π)} {C : Config ι σ π} (h : Run S ⟨node, p ::ₘ rest⟩ as C) :
    (as = [] ∧ C = ⟨node, p ::ₘ rest⟩) ∨
      ∃ as', as = .deliver i p out :: as' ∧ Run S ⟨Function.update node i s, ↑out + rest⟩ as' C := by
  cases h with
  | nil => exact .inl ⟨rfl, rfl⟩
  | @cons _ a C' as' _ h hs =>
    obtain ⟨rfl, rfl⟩ := h.takes hS hrest ht
    exact .inr ⟨as', rfl, hs⟩

/-- Nothing happens where no packet can be taken. -/
theorem Run.inert {as : List (Act ι π)} {C : Config ι σ π} (h : Run S ⟨node, rest⟩ as C) :
    as = [] ∧ C = ⟨node, rest⟩ := by
  generalize hC : (⟨node, rest⟩ : Config ι σ π) = C₀ at h
  cases h with
  | nil => exact ⟨rfl, rfl⟩
  | cons h hs =>
    cases h with
    | enter h => exact absurd h (hS _)
    | @deliver node' flight j q s' out' h =>
      have hf : rest = q ::ₘ flight := (Config.mk.inj hC).2
      exact absurd h (hrest q (hf ▸ Multiset.mem_cons_self q flight) _ _ _ _)

end

/-! ## Packets passed on from node to node -/

/-- `k` times a packet is passed on unchanged, from `i` to `next i` and so on;
    `pk j` is the packet on its way to `j`. -/
def relays (next : ι → ι) (pk : ι → π) : ι → ℕ → List (Act ι π)
  | _, 0 => []
  | i, k + 1 => .deliver i (pk i) [pk (next i)] :: relays next pk (next i) k

omit [DecidableEq ι] in
@[simp] theorem relays_length (next : ι → ι) (pk : ι → π) (i : ι) (k : ℕ) :
    (relays next pk i k).length = k := by
  induction k generalizing i with
  | zero => rfl
  | succ k ih => simp [relays, ih]

omit [DecidableEq ι] in
theorem relays_add (next : ι → ι) (pk : ι → π) (i : ι) (j k : ℕ) :
    relays next pk i (j + k) = relays next pk i j ++ relays next pk (next^[j] i) k := by
  induction j generalizing i with
  | zero => simp [relays]
  | succ j ih =>
    rw [Nat.add_right_comm, relays, relays, ih, Function.iterate_succ_apply, List.cons_append]

omit [DecidableEq ι] in
theorem relays_le (next : ι → ι) (pk : ι → π) (i : ι) {j k : ℕ} (h : j ≤ k) :
    relays next pk i j <+: relays next pk i k := by
  obtain ⟨l, rfl⟩ := Nat.exists_eq_add_of_le h
  rw [relays_add]
  exact List.prefix_append _ _

section
variable {node : ι → σ} {next : ι → ι} {pk : ι → π} {i : ι} {k : ℕ}
  (hpass : ∀ j < k, Takes S node (pk (next^[j] i)) (next^[j] i) (node (next^[j] i))
    [pk (next^[j + 1] i)])
include hpass

/-- Nodes that pass a packet on can do so all along the chain. -/
theorem run_relays (rest : Multiset π) : Run S ⟨node, pk i ::ₘ rest⟩ (relays next pk i k)
    ⟨node, pk (next^[k] i) ::ₘ rest⟩ := by
  induction k generalizing i with
  | zero => exact .nil
  | succ k ih =>
    have h : Step S ⟨node, pk i ::ₘ rest⟩ (.deliver i (pk i) [pk (next i)])
        ⟨Function.update node i (node i), ([pk (next i)] : Multiset π) + rest⟩ :=
      .deliver (hpass 0 (Nat.succ_pos k)).handles
    rw [Function.update_eq_self, Multiset.coe_singleton, Multiset.singleton_add] at h
    exact .cons h (ih fun j hj => hpass (j + 1) (Nat.succ_lt_succ hj))

/-- And nothing else can happen until its end is reached. -/
theorem Run.relays (hS : ∀ p, ¬ S.enters p) {rest : Multiset π} (hrest : ∀ q ∈ rest, Inert S q)
    {as : List (Act ι π)} {C : Config ι σ π} (h : Run S ⟨node, pk i ::ₘ rest⟩ as C) :
    (∃ j < k, as = relays next pk i j ∧ C = ⟨node, pk (next^[j] i) ::ₘ rest⟩) ∨
      ∃ as', as = MessagePassing.relays next pk i k ++ as' ∧
        Run S ⟨node, pk (next^[k] i) ::ₘ rest⟩ as' C := by
  induction k generalizing i as with
  | zero => exact .inr ⟨as, rfl, h⟩
  | succ k ih =>
    rcases h.takes hS hrest (hpass 0 (Nat.succ_pos k)) with ⟨rfl, rfl⟩ | ⟨as', rfl, h'⟩
    · exact .inl ⟨0, Nat.succ_pos k, rfl, rfl⟩
    · simp only [Function.iterate_zero, id_eq, Function.update_eq_self, Multiset.coe_singleton,
        Multiset.singleton_add] at h'
      rcases ih (fun j hj => hpass (j + 1) (Nat.succ_lt_succ hj)) h' with
        ⟨j, hj, rfl, rfl⟩ | ⟨as'', rfl, h''⟩
      · exact .inl ⟨j + 1, Nat.succ_lt_succ hj, rfl, rfl⟩
      · exact .inr ⟨as'', rfl, h''⟩

section
variable (hS : ∀ p, ¬ S.enters p) {rest : Multiset π} (hrest : ∀ q ∈ rest, Inert S q) {s : σ}
  {out : List π} (hend : Takes S node (pk (next^[k] i)) (next^[k] i) s out)
  (hout : ∀ q ∈ out, Inert S q)
include hS hrest hend hout

/-- A packet that is passed on until a node takes it, and then leaves nothing
    that can be taken: it is on its way, or it has been taken. -/
theorem Run.relays_takes {as : List (Act ι π)} {C : Config ι σ π}
    (h : Run S ⟨node, pk i ::ₘ rest⟩ as C) :
    (∃ j ≤ k, as = MessagePassing.relays next pk i j ∧ C = ⟨node, pk (next^[j] i) ::ₘ rest⟩) ∨
      as = MessagePassing.relays next pk i k ++ [.deliver (next^[k] i) (pk (next^[k] i)) out] ∧
        C = ⟨Function.update node (next^[k] i) s, ↑out + rest⟩ := by
  rcases h.relays hpass hS hrest with ⟨j, hj, rfl, rfl⟩ | ⟨as', rfl, h'⟩
  · exact .inl ⟨j, hj.le, rfl, rfl⟩
  · rcases h'.takes hS hrest hend with ⟨rfl, rfl⟩ | ⟨as'', rfl, h''⟩
    · exact .inl ⟨k, le_rfl, List.append_nil _, rfl⟩
    · have hin : ∀ q ∈ (↑out + rest : Multiset π), Inert S q := fun q hq =>
        (Multiset.mem_add.1 hq).elim (hout q) (hrest q)
      obtain ⟨rfl, rfl⟩ := h''.inert hS hin
      exact .inr ⟨rfl, rfl⟩

/-- So the whole run is determined. -/
theorem relays_takes :
    let log := relays next pk i k ++ [.deliver (next^[k] i) (pk (next^[k] i)) out]
    Run S ⟨node, pk i ::ₘ rest⟩ log ⟨Function.update node (next^[k] i) s, ↑out + rest⟩ ∧
      ∀ as C, Run S ⟨node, pk i ::ₘ rest⟩ as C → as <+: log := by
  refine ⟨(run_relays hpass rest).append (.cons (.deliver hend.handles) .nil), fun as C h => ?_⟩
  rcases h.relays_takes hpass hS hrest hend hout with ⟨j, hj, rfl, -⟩ | ⟨rfl, -⟩
  · exact (relays_le _ _ _ hj).trans (List.prefix_append _ _)
  · exact List.prefix_refl _

/-- And it can be brought to its end from wherever it is. -/
theorem Run.relays_completes {as : List (Act ι π)} {C : Config ι σ π}
    (h : Run S ⟨node, pk i ::ₘ rest⟩ as C) : ∃ bs,
      Run S C bs ⟨Function.update node (next^[k] i) s, ↑out + rest⟩ ∧ as.length + bs.length = k + 1 := by
  rcases h.relays_takes hpass hS hrest hend hout with ⟨j, hj, rfl, rfl⟩ | ⟨rfl, rfl⟩
  · obtain ⟨l, rfl⟩ := Nat.exists_eq_add_of_le hj
    have hahead : ∀ x, next^[x] (next^[j] i) = next^[j + x] i := fun x => by
      rw [← Function.iterate_add_apply, Nat.add_comm]
    have hpass' : ∀ x < l, Takes S node (pk (next^[x] (next^[j] i))) (next^[x] (next^[j] i))
        (node (next^[x] (next^[j] i))) [pk (next^[x + 1] (next^[j] i))] := fun x hx => by
      rw [hahead, hahead]
      exact hpass (j + x) (Nat.add_lt_add_left hx j)
    have hrun := run_relays hpass' rest
    rw [hahead] at hrun
    refine ⟨_, hrun.append (.cons (.deliver hend.handles) .nil), ?_⟩
    rw [List.length_append, relays_length, relays_length, List.length_singleton, Nat.add_assoc]
  · refine ⟨[], .nil, ?_⟩
    rw [List.length_append, relays_length, List.length_singleton, List.length_nil]

end

end

end MessagePassing
