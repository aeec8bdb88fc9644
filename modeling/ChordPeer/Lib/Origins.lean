/-
  Where the packets of a run come from.

  * `Run.entered`: a run is one of the system into which only those packets come
    from outside that did so in the run;
  * `Run.flight_card`: where each packet leads to one packet at most, those in
    flight are as many as came in, less those of which nothing came.
-/
import Mathlib.Data.List.Count
import ChordPeer.Lib.MessagePassing

namespace MessagePassing

variable {ι σ π : Type*} [DecidableEq ι] {S : System ι σ π} {C C' : Config ι σ π}
  {as : List (Act ι π)}

/-! ## What has come in -/

/-- The system `S` into which only the packets `E` come. -/
def System.entering (S : System ι σ π) (E : π → Prop) : System ι σ π := { S with enters := E }

theorem Run.entering (h : Run S C as C') {E : π → Prop} (hE : ∀ p, S.enters p → .enter p ∈ as → E p) :
    Run (S.entering E) C as C' := by
  induction h with
  | nil => exact .nil
  | cons hs _ ih =>
    have hrest := ih fun p hp hmem => hE p hp (List.mem_cons_of_mem _ hmem)
    cases hs with
    | enter he => exact .cons (.enter (hE _ he List.mem_cons_self)) hrest
    | deliver hd => exact .cons (.deliver hd) hrest

/-- Only what came in, came in. -/
theorem Run.entered (h : Run S C as C') :
    Run (S.entering fun p => S.enters p ∧ .enter p ∈ as) C as C' :=
  h.entering fun _ hp hmem => ⟨hp, hmem⟩

/-! ## How many packets there are -/

def Act.isEnter : Act ι π → Bool
  | .enter _ => true
  | .deliver _ _ _ => false

/-- A packet of which nothing comes. -/
def Act.isLast : Act ι π → Bool
  | .enter _ => false
  | .deliver _ _ out => out.isEmpty

/-- Where each packet leads to one at most. -/
theorem Run.flight_card {I : Config ι σ π → Prop} (hI : ∀ C a C', I C → Step S C a C' → I C')
    (hone : ∀ C i p out C', I C → Step S C (.deliver i p out) C' → out.length ≤ 1) (hC : I C)
    (h : Run S C as C') : C'.flight.card + as.countP Act.isLast = C.flight.card + as.countP Act.isEnter := by
  induction h with
  | nil => rfl
  | @cons C a C' as C'' hs _ ih =>
    have hih := ih (hI _ _ _ hC hs)
    rw [List.countP_cons, List.countP_cons]
    cases hs with
    | enter =>
      simp only [Act.isLast, Act.isEnter, Multiset.card_cons] at hih ⊢
      simp only [Bool.false_eq_true, if_false, if_true]
      omega
    | @deliver node flight i p s out hd =>
      have hlen := hone _ _ _ _ _ hC (.deliver hd)
      simp only [Act.isLast, Act.isEnter, Multiset.card_cons, Multiset.card_add,
        Multiset.coe_card] at hih ⊢
      cases out with
      | nil =>
        simp only [List.isEmpty_nil, List.length_nil, Bool.false_eq_true, if_false, if_true] at hih ⊢
        omega
      | cons q out =>
        simp only [List.isEmpty_cons, List.length_cons, Bool.false_eq_true, if_false] at hih hlen ⊢
        omega

end MessagePassing
