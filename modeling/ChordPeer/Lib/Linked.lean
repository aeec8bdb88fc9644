/-
  Doubly linked lists — nodes that each know the one before and the one after.

  * `Links`: where the two links of every node lead; `set_prev`, `set_next`
    write one of them;
  * `Segment L a l b`: the links lead along the nodes `l`, which have `a` before
    them and `b` behind; `Chain L l`: nothing before and nothing behind;
  * `push`, `append`, `unlink`: the writes that add a node in front, add one
    behind and take one out; `Chain.push`, `Chain.append`, `Chain.unlink`: they
    do so.
-/
import Mathlib.Data.List.Nodup
import Mathlib.Logic.Function.Basic

namespace Linked

variable {α : Type*} [DecidableEq α]

/-- Where the links of each node lead. -/
@[ext] structure Links (α : Type*) where
  prev : α → Option α
  next : α → Option α

namespace Links

def set_prev (L : Links α) (x : α) (p : Option α) : Links α :=
  { L with prev := Function.update L.prev x p }

def set_next (L : Links α) (x : α) (p : Option α) : Links α :=
  { L with next := Function.update L.next x p }

/-- The link of a node that may not be there. -/
def set_prev? (L : Links α) (x : Option α) (p : Option α) : Links α :=
  x.elim L fun x => L.set_prev x p

def set_next? (L : Links α) (x : Option α) (p : Option α) : Links α :=
  x.elim L fun x => L.set_next x p

/-- A new node in front of `head`. -/
def push (L : Links α) (head : Option α) (x : α) : Links α :=
  ((L.set_prev x none).set_next x head).set_prev? head (some x)

/-- A new node behind `tail`. -/
def append (L : Links α) (tail x : α) : Links α :=
  ((L.set_next x none).set_prev x (some tail)).set_next tail (some x)

/-- The nodes on both sides of `x` are linked with each other. -/
def unlink (L : Links α) (x : α) : Links α :=
  (L.set_next? (L.prev x) (L.next x)).set_prev? (L.next x) (L.prev x)

end Links

/-! ## Segments -/

omit [DecidableEq α] in
/-- The links lead along `l`, from behind `a` to before `b`. -/
def Segment (L : Links α) : Option α → List α → Option α → Prop
  | _, [], _ => True
  | a, x :: l, b => L.prev x = a ∧ L.next x = l.head?.or b ∧ Segment L (some x) l b

/-- The links lead along `l`, and nowhere else. -/
def Chain (L : Links α) (l : List α) : Prop := Segment L none l none

section
variable {L L' : Links α} {a b : Option α} {l l₁ l₂ : List α} {x : α}

omit [DecidableEq α]

theorem Segment.nil : Segment L a [] b := trivial

theorem Chain.nil : Chain L [] := trivial

theorem segment_append :
    Segment L a (l₁ ++ l₂) b ↔
      Segment L a l₁ (l₂.head?.or b) ∧ Segment L (l₁.getLast?.or a) l₂ b := by
  induction l₁ generalizing a with
  | nil => simp [Segment]
  | cons x l₁ ih =>
    have hlast : (x :: l₁).getLast?.or a = l₁.getLast?.or (some x) := by
      cases l₁ with
      | nil => rfl
      | cons y l₁ => simp [List.getLast?_cons]
    have hhead : (l₁ ++ l₂).head?.or b = l₁.head?.or (l₂.head?.or b) := by
      cases l₁ <;> simp
    simp only [List.cons_append, Segment, ih, hlast, hhead, and_assoc]

/-- Only the links of the nodes matter. -/
theorem Segment.congr (h : Segment L a l b)
    (hl : ∀ x ∈ l, L'.prev x = L.prev x ∧ L'.next x = L.next x) : Segment L' a l b := by
  induction l generalizing a with
  | nil => trivial
  | cons x l ih =>
    obtain ⟨hp, hn, h⟩ := h
    obtain ⟨⟨hp', hn'⟩, hl⟩ := List.forall_mem_cons.1 hl
    exact ⟨hp'.trans hp, hn'.trans hn, ih h hl⟩

theorem Chain.congr (h : Chain L l)
    (hl : ∀ x ∈ l, L'.prev x = L.prev x ∧ L'.next x = L.next x) : Chain L' l :=
  Segment.congr h hl

/-- The neighbours of a node. -/
theorem Chain.mid (h : Chain L (l₁ ++ x :: l₂)) :
    L.prev x = l₁.getLast? ∧ L.next x = l₂.head? := by
  obtain ⟨-, hp, hn, -⟩ := segment_append.1 h
  rw [Option.or_none] at hp hn
  exact ⟨hp, hn⟩

end

/-! ## Writes -/

section
variable {L : Links α} {a b : Option α} {l l₁ l₂ : List α} {x y t : α}

theorem Links.set_prev_self (L : Links α) (x : α) : L.set_prev x (L.prev x) = L := by
  simp [Links.set_prev]

theorem Links.set_next_self (L : Links α) (x : α) : L.set_next x (L.next x) = L := by
  simp [Links.set_next]

theorem Links.set_prev_of_ne (h : y ≠ x) (p : Option α) :
    (L.set_prev x p).prev y = L.prev y ∧ (L.set_prev x p).next y = L.next y :=
  ⟨Function.update_of_ne h _ _, rfl⟩

theorem Links.set_next_of_ne (h : y ≠ x) (p : Option α) :
    (L.set_next x p).prev y = L.prev y ∧ (L.set_next x p).next y = L.next y :=
  ⟨rfl, Function.update_of_ne h _ _⟩

/-- Another node before a segment. -/
theorem Segment.set_prev (h : Segment L a l b) (hn : l.Nodup) (p : Option α) :
    Segment (L.set_prev? l.head? p) p l b := by
  cases l with
  | nil => trivial
  | cons x l =>
    obtain ⟨-, hnext, h⟩ := h
    have hx : x ∉ l := (List.nodup_cons.1 hn).1
    refine ⟨Function.update_self _ _ _, hnext, h.congr fun y hy => ?_⟩
    exact Links.set_prev_of_ne (ne_of_mem_of_not_mem hy hx) p

/-- Another node behind a segment. -/
theorem Segment.set_next (h : Segment L a l b) (hn : l.Nodup) (p : Option α) :
    Segment (L.set_next? l.getLast? p) a l p := by
  rcases l.eq_nil_or_concat with rfl | ⟨l, x, rfl⟩
  · trivial
  · rw [List.concat_eq_append] at h hn ⊢
    obtain ⟨h₁, hprev, -, -⟩ := segment_append.1 h
    have hx : x ∉ l := fun hx => (List.nodup_append.1 hn).2.2 x hx x (List.mem_singleton_self x) rfl
    rw [List.getLast?_concat]
    refine segment_append.2 ⟨h₁.congr fun y hy => ?_, hprev, Function.update_self _ _ _, trivial⟩
    exact Links.set_next_of_ne (ne_of_mem_of_not_mem hy hx) p

/-- **A node in front.** -/
theorem Chain.push (h : Chain L l) (hn : l.Nodup) (hx : x ∉ l) :
    Chain (L.push l.head? x) (x :: l) := by
  -- the links of `x` itself
  have hlinks : ∀ y ∈ l, ((L.set_prev x none).set_next x l.head?).prev y = L.prev y ∧
      ((L.set_prev x none).set_next x l.head?).next y = L.next y := by
    intro y hy
    have hne : y ≠ x := ne_of_mem_of_not_mem hy hx
    exact ⟨Function.update_of_ne hne _ _, Function.update_of_ne hne _ _⟩
  have htail : Segment (L.push l.head? x) (some x) l none :=
    Segment.set_prev (h.congr hlinks) hn (some x)
  have hself : (L.push l.head? x).prev x = none ∧ (L.push l.head? x).next x = l.head? := by
    cases l with
    | nil => exact ⟨Function.update_self _ _ _, Function.update_self _ _ _⟩
    | cons y l =>
      have hne : x ≠ y := fun hxy => hx (hxy ▸ List.mem_cons_self)
      refine ⟨?_, Function.update_self _ _ _⟩
      exact (Function.update_of_ne hne _ _).trans (Function.update_self _ _ _)
  refine ⟨hself.1, ?_, htail⟩
  rw [hself.2, Option.or_none]

/-- **A node behind.** -/
theorem Chain.append (h : Chain L l) (hn : l.Nodup) (hx : x ∉ l) (ht : l.getLast? = some t) :
    Chain (L.append t x) (l ++ [x]) := by
  have hlinks : ∀ y ∈ l, ((L.set_next x none).set_prev x (some t)).prev y = L.prev y ∧
      ((L.set_next x none).set_prev x (some t)).next y = L.next y := by
    intro y hy
    have hne : y ≠ x := ne_of_mem_of_not_mem hy hx
    exact ⟨Function.update_of_ne hne _ _, Function.update_of_ne hne _ _⟩
  have hbefore : Segment (L.append t x) none l (some x) := by
    have hset := Segment.set_next (h.congr hlinks) hn (some x)
    rw [ht] at hset
    exact hset
  have hne : x ≠ t := fun hxt => hx (hxt ▸ List.mem_of_getLast? ht)
  refine segment_append.2 ⟨hbefore, ?_, ?_, trivial⟩
  · rw [ht]
    exact Function.update_self _ _ _
  · exact (Function.update_of_ne hne _ _).trans (Function.update_self _ _ _)

/-- **A node less.** -/
theorem Chain.unlink (h : Chain L (l₁ ++ x :: l₂)) (hn : (l₁ ++ x :: l₂).Nodup) :
    Chain (L.unlink x) (l₁ ++ l₂) := by
  obtain ⟨hprev, hnext⟩ := h.mid
  obtain ⟨h₁, -, -, h₂⟩ := segment_append.1 h
  obtain ⟨hn₁, hn₂, hdisj⟩ := List.nodup_append.1 hn
  have hn₂ : l₂.Nodup := (List.nodup_cons.1 hn₂).2
  have hdisj : ∀ y ∈ l₁, ∀ z ∈ l₂, y ≠ z := fun y hy z hz =>
    hdisj y hy z (List.mem_cons_of_mem x hz)
  rw [Links.unlink, hprev, hnext]
  -- the part before now ends at the part behind, and that one starts after it
  have h₁' : Segment (L.set_next? l₁.getLast? l₂.head?) none l₁ l₂.head? := h₁.set_next hn₁ _
  have h₂' : Segment (L.set_next? l₁.getLast? l₂.head?) (some x) l₂ none := by
    refine h₂.congr fun y hy => ?_
    cases hlast : l₁.getLast? with
    | none => exact ⟨rfl, rfl⟩
    | some t => exact Links.set_next_of_ne (hdisj t (List.mem_of_getLast? hlast) y hy).symm _
  refine segment_append.2 ⟨?_, ?_⟩
  · rw [Option.or_none]
    refine h₁'.congr fun y hy => ?_
    cases hhead : l₂.head? with
    | none => exact ⟨rfl, rfl⟩
    | some z => exact Links.set_prev_of_ne (hdisj y hy z (List.mem_of_head? hhead)) _
  · rw [Option.or_none]
    exact h₂'.set_prev hn₂ _

end

/-! ## Nodes that a write leaves alone -/

section
variable {L : Links α} {l₁ l₂ : List α} {x y : α}

theorem Links.push_of_ne {head : Option α} (hx : y ≠ x) (hh : head ≠ some y) :
    (L.push head x).prev y = L.prev y ∧ (L.push head x).next y = L.next y := by
  refine ⟨?_, ?_⟩
  · cases head with
    | none => exact Function.update_of_ne hx _ _
    | some z =>
      have hz : y ≠ z := fun hyz => hh (congrArg some hyz.symm)
      exact (Function.update_of_ne hz _ _).trans (Function.update_of_ne hx _ _)
  · cases head <;> exact Function.update_of_ne hx _ _

theorem Links.unlink_of_ne (hp : L.prev x ≠ some y) (hn : L.next x ≠ some y) :
    (L.unlink x).prev y = L.prev y ∧ (L.unlink x).next y = L.next y := by
  rw [Links.unlink]
  cases hprev : L.prev x <;> cases hnext : L.next x
  · exact ⟨rfl, rfl⟩
  · next z => exact Links.set_prev_of_ne (fun h => hn (by rw [hnext, h])) _
  · next z => exact Links.set_next_of_ne (fun h => hp (by rw [hprev, h])) _
  · next z w =>
    have hz : y ≠ z := fun h => hp (by rw [hprev, h])
    have hw : y ≠ w := fun h => hn (by rw [hnext, h])
    exact ⟨Function.update_of_ne hw _ _, Function.update_of_ne hz _ _⟩

end

end Linked
