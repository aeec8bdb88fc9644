/-
  Keyed lists — a list of records as a finite map from a key of the record,
  for tables that find, append, change and remove records by key.

  * `find`, `update`, `erase` act on the first record with a key;
  * `find_concat`, `find_update`, `find_erase`: what a lookup sees after each;
  * `NodupKeys`: no key occurs twice; every operation keeps it.
-/
import Mathlib.Data.List.Nodup

namespace KeyedList

variable {κ ε : Type*} [DecidableEq κ] (key : ε → κ)

/-- The first record with key `k`. -/
def find (l : List ε) (k : κ) : Option ε := l.find? fun e => key e = k

/-- Change the first record with key `k`. -/
def update (f : ε → ε) : List ε → κ → List ε
  | [], _ => []
  | e :: l, k => if key e = k then f e :: l else e :: update f l k

/-- Remove the first record with key `k`. -/
def erase (l : List ε) (k : κ) : List ε := l.eraseP fun e => key e = k

/-- No key occurs twice. -/
def NodupKeys (l : List ε) : Prop := (l.map key).Nodup

variable {key}

theorem find_key {l : List ε} {k : κ} {e : ε} (h : find key l k = some e) : key e = k := by
  simpa using List.find?_some h

theorem find_eq_none {l : List ε} {k : κ} : find key l k = none ↔ ∀ e ∈ l, key e ≠ k := by
  simp [find]

theorem find_cons (e : ε) (l : List ε) (k : κ) :
    find key (e :: l) k = if key e = k then some e else find key l k := by
  by_cases h : key e = k <;> simp [find, h]

/-- With no key twice, a record is found under its key. -/
theorem NodupKeys.find_mem {l : List ε} (h : NodupKeys key l) {e : ε} (he : e ∈ l) :
    find key l (key e) = some e := by
  induction l with
  | nil => cases he
  | cons x l ih =>
    rw [NodupKeys, List.map_cons, List.nodup_cons] at h
    rw [find_cons]
    rcases List.mem_cons.1 he with rfl | he
    · exact if_pos rfl
    · have hne : key x ≠ key e := fun hx => h.1 (hx ▸ List.mem_map_of_mem he)
      rw [if_neg hne]
      exact ih h.2 he

/-- A record with a new key, appended, is found under its key and no other. -/
theorem find_concat {l : List ε} {e : ε} (h : find key l (key e) = none) (k : κ) :
    find key (l ++ [e]) k = if key e = k then some e else find key l k := by
  by_cases hk : key e = k
  · subst hk
    have h' : List.find? (fun x => decide (key x = key e)) l = none := h
    simp [find, List.find?_append, h']
  · simp [find, List.find?_append, hk]

theorem find_update {f : ε → ε} (hf : ∀ e, key (f e) = key e) (l : List ε) (k k' : κ) :
    find key (update key f l k) k' =
      if k = k' then (find key l k).map f else find key l k' := by
  induction l with
  | nil => simp [update, find]
  | cons e l ih =>
    by_cases he : key e = k
    · subst he
      by_cases hk : key e = k'
      · simp [update, find_cons, hf, hk]
      · simp [update, find_cons, hf, hk]
    · by_cases hk : k = k'
      · subst hk
        simpa [update, find_cons, he] using ih
      · simp only [update, he, if_false, find_cons, ih, hk]

/-- Changing a record that was appended. -/
theorem update_concat {f : ε → ε} {l : List ε} {e : ε} (h : find key l (key e) = none) :
    update key f (l ++ [e]) (key e) = l ++ [f e] := by
  induction l with
  | nil => simp [update]
  | cons x l ih =>
    rw [find_eq_none] at h
    obtain ⟨hx, hl⟩ := List.forall_mem_cons.1 h
    simp only [List.cons_append, update, hx, if_false]
    rw [ih (find_eq_none.2 hl)]

theorem keys_update {f : ε → ε} (hf : ∀ e, key (f e) = key e) (l : List ε) (k : κ) :
    (update key f l k).map key = l.map key := by
  induction l with
  | nil => rfl
  | cons e l ih =>
    by_cases he : key e = k
    · simp [update, he, hf]
    · simp [update, he, ih]

/-- The records of an updated list. -/
theorem mem_update {f : ε → ε} {l : List ε} {k : κ} {e : ε} (h : e ∈ update key f l k) :
    e ∈ l ∨ ∃ e', key e' = k ∧ e = f e' := by
  induction l with
  | nil => cases h
  | cons x l ih =>
    rw [update] at h
    split at h
    · next hx =>
      rcases List.mem_cons.1 h with rfl | h
      · exact .inr ⟨x, hx, rfl⟩
      · exact .inl (List.mem_cons_of_mem x h)
    · rcases List.mem_cons.1 h with rfl | h
      · exact .inl List.mem_cons_self
      · rcases ih h with h | h
        · exact .inl (List.mem_cons_of_mem x h)
        · exact .inr h

/-- Changing a record and the record that it stands for. -/
theorem map_update {κ' ε' : Type*} [DecidableEq κ'] {key' : ε' → κ'} {f : ε → ε} {f' : ε' → ε'}
    {g g' : ε → ε'} {k : κ} {k' : κ'} {l : List ε} (hk : ∀ e ∈ l, key e = k ↔ key' (g e) = k')
    (hf : ∀ e ∈ l, key e = k → g' (f e) = f' (g e)) (hg : ∀ e ∈ l, g' e = g e) :
    (update key f l k).map g' = update key' f' (l.map g) k' := by
  induction l with
  | nil => rfl
  | cons e l ih =>
    have hl : l.map g' = l.map g := List.map_congr_left fun x hx => hg x (List.mem_cons_of_mem e hx)
    by_cases he : key e = k
    · have he' : key' (g e) = k' := (hk e List.mem_cons_self).1 he
      simp [update, he, he', hl, hf e List.mem_cons_self he]
    · have he' : ¬ key' (g e) = k' := fun h => he ((hk e List.mem_cons_self).2 h)
      simp only [update, he, he', if_false, List.map_cons, hg e List.mem_cons_self]
      rw [ih (fun x hx => hk x (List.mem_cons_of_mem e hx))
        (fun x hx => hf x (List.mem_cons_of_mem e hx)) fun x hx => hg x (List.mem_cons_of_mem e hx)]

/-- Changing one of the records that are read off a memory. -/
theorem map_function_update {α : Type*} [DecidableEq α] {g : α → ε} {l : List α} {p : α}
    (hn : l.Nodup) (hk : ∀ q ∈ l, key (g q) = key (g p) → q = p) (f : ε → ε) :
    l.map (Function.update g p (f (g p))) = update key f (l.map g) (key (g p)) := by
  induction l with
  | nil => rfl
  | cons q l ih =>
    obtain ⟨hq, hk⟩ := List.forall_mem_cons.1 hk
    obtain ⟨hql, hn⟩ := List.nodup_cons.1 hn
    rw [List.map_cons, List.map_cons, update]
    by_cases hqp : q = p
    · subst hqp
      have hrest : l.map (Function.update g q (f (g q))) = l.map g := List.map_congr_left fun r hr =>
        Function.update_of_ne (ne_of_mem_of_not_mem hr hql) _ _
      rw [if_pos rfl, Function.update_self, hrest]
    · rw [if_neg fun h => hqp (hq h), Function.update_of_ne hqp, ih hn hk]

/-- Removing a record and the record that it stands for. -/
theorem map_erase {κ' ε' : Type*} [DecidableEq κ'] {key' : ε' → κ'} {g : ε → ε'} {k : κ} {k' : κ'}
    {l : List ε} (hk : ∀ e ∈ l, key e = k ↔ key' (g e) = k') :
    (erase key l k).map g = erase key' (l.map g) k' := by
  induction l with
  | nil => rfl
  | cons e l ih =>
    by_cases he : key e = k
    · have he' : key' (g e) = k' := (hk e List.mem_cons_self).1 he
      simp [erase, he, he']
    · have he' : ¬ key' (g e) = k' := fun h => he ((hk e List.mem_cons_self).2 h)
      have hrest := ih fun x hx => hk x (List.mem_cons_of_mem e hx)
      simp only [erase] at hrest
      simp [erase, he, he', hrest]

/-- The records of an updated list, with no key twice. -/
theorem mem_update_of_mem {f : ε → ε} {l : List ε} (h : NodupKeys key l) {e : ε} (he : e ∈ l)
    {x : ε} (hx : x ∈ update key f l (key e)) : x ∈ l ∨ x = f e := by
  induction l with
  | nil => cases hx
  | cons y l ih =>
    obtain ⟨hy, hl⟩ := List.nodup_cons.1 h
    rw [update] at hx
    split at hx
    · next hye =>
      -- `e` is the first record with its key
      have hey : e = y := by
        rcases List.mem_cons.1 he with rfl | he
        · rfl
        · exact absurd (List.mem_map_of_mem he) (hye ▸ hy)
      rcases List.mem_cons.1 hx with rfl | hx
      · exact .inr (by rw [hey])
      · exact .inl (List.mem_cons_of_mem y hx)
    · next hye =>
      have hel : e ∈ l := by
        rcases List.mem_cons.1 he with rfl | he
        · exact absurd rfl hye
        · exact he
      rcases List.mem_cons.1 hx with rfl | hx
      · exact .inl List.mem_cons_self
      · exact (ih hl hel hx).imp_left (List.mem_cons_of_mem y)

theorem NodupKeys.update {f : ε → ε} (hf : ∀ e, key (f e) = key e) {l : List ε}
    (h : NodupKeys key l) (k : κ) : NodupKeys key (update key f l k) := by
  rw [NodupKeys, keys_update hf]
  exact h

/-! The records with other keys. -/

theorem filter_update {f : ε → ε} (hf : ∀ e, key (f e) = key e) (l : List ε) (k : κ) :
    (update key f l k).filter (fun e => key e ≠ k) = l.filter fun e => key e ≠ k := by
  induction l with
  | nil => rfl
  | cons e l ih =>
    rw [update]
    split
    · next he => simp [hf, he]
    · next he => simp only [List.filter_cons, ih]

theorem filter_erase (l : List ε) (k : κ) :
    (erase key l k).filter (fun e => key e ≠ k) = l.filter fun e => key e ≠ k := by
  induction l with
  | nil => rfl
  | cons e l ih =>
    by_cases he : key e = k
    · simp [erase, he]
    · have hcons : erase key (e :: l) k = e :: erase key l k := by simp [erase, he]
      rw [hcons, List.filter_cons, List.filter_cons, ih]

/-- A lookup sees the records with its key only. -/
theorem find_eq_of_filter {l l' : List ε} {k k' : κ} (hk : k' ≠ k)
    (h : l'.filter (fun e => key e ≠ k) = l.filter fun e => key e ≠ k) :
    find key l' k' = find key l k' := by
  have hfind : ∀ l : List ε, find key l k' = find key (l.filter fun e => key e ≠ k) k' := by
    intro l
    rw [find, find, List.find?_filter]
    refine congrArg (List.find? · l) (funext fun e => ?_)
    by_cases he : key e = k'
    · simp [he, hk]
    · simp [he]
  rw [hfind l', hfind l, h]

theorem NodupKeys.concat {l : List ε} {e : ε} (h : NodupKeys key l)
    (he : find key l (key e) = none) : NodupKeys key (l ++ [e]) := by
  rw [find_eq_none] at he
  rw [NodupKeys, List.map_append, List.map_singleton]
  refine List.Nodup.append h (List.nodup_singleton _) ?_
  simpa [List.disjoint_singleton] using he

theorem NodupKeys.erase {l : List ε} (h : NodupKeys key l) (k : κ) : NodupKeys key (erase key l k) :=
  h.sublist (List.eraseP_sublist.map key)

theorem find_erase {l : List ε} (h : NodupKeys key l) (k k' : κ) :
    find key (erase key l k) k' = if k = k' then none else find key l k' := by
  induction l with
  | nil => simp [erase, find]
  | cons e l ih =>
    have hl : NodupKeys key l := (List.nodup_cons.1 h).2
    by_cases he : key e = k
    · subst he
      have hnone : find key l (key e) = none := find_eq_none.2 fun x hx hk =>
        (List.nodup_cons.1 h).1 (hk ▸ List.mem_map_of_mem hx)
      by_cases hk : key e = k'
      · subst hk
        simpa [erase] using hnone
      · simp [erase, find_cons, hk]
    · have hcons : erase key (e :: l) k = e :: erase key l k := by simp [erase, he]
      rw [hcons, find_cons, find_cons, ih hl]
      by_cases hk : k = k'
      · subst hk
        simp [he]
      · simp [hk]

end KeyedList
