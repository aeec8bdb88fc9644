/-
  The chains of the buckets.

  * `Buckets hh bs num S`: the elements `S` are in the chains that start at the
    buckets `bs`, each in the one that its hash value belongs to among `num`;
  * `Buckets.add`, `Buckets.del`: an element more, an element less;
  * `Buckets.find`: a search along a chain finds what is there;
  * `Buckets.expand`: with twice as many buckets, every element is in its new
    one.
-/
import ChordPeer.Uthash
import ChordPeer.Lib.Linked
import Mathlib.Data.List.Perm.Basic
import Mathlib.Data.Set.Insert

namespace ChordPeer

namespace Uthash

open Linked

/-! ## Links -/

/-- The links of one kind that the handles have. -/
def links (pr nx : UT_hash_handle → Option ℕ) (hh : Handles) : Links ℕ where
  prev p := (hh p).bind pr
  next p := (hh p).bind nx

/-- From one element to the one that was added next. -/
abbrev app (hh : Handles) : Links ℕ := links UT_hash_handle.prev UT_hash_handle.next hh

/-- Along the chain of a bucket. -/
abbrev bkt (hh : Handles) : Links ℕ := links UT_hash_handle.hh_prev UT_hash_handle.hh_next hh

/-- What the links leave of a handle. -/
def UT_hash_handle.hashed (h : UT_hash_handle) : List UInt8 × ℕ × UInt32 := (h.key, h.keylen, h.hashv)

/-- The same handles but for their links. -/
def Relinked (hh hh' : Handles) : Prop :=
  ∀ p, (hh' p).map UT_hash_handle.hashed = (hh p).map UT_hash_handle.hashed

section
variable {hh hh' hh'' : Handles} {p q : ℕ} {h h' : UT_hash_handle}
  {pr nx : UT_hash_handle → Option ℕ}

theorem links_update (p : ℕ) (h : UT_hash_handle) :
    links pr nx (Function.update hh p (some h)) =
      ((links pr nx hh).set_prev p (pr h)).set_next p (nx h) := by
  ext q : 2
  · by_cases hq : q = p
    · subst hq
      simp [links, Links.set_prev, Links.set_next]
    · simp [links, Links.set_prev, Links.set_next, hq]
  · by_cases hq : q = p
    · subst hq
      simp [links, Links.set_prev, Links.set_next]
    · simp [links, Links.set_prev, Links.set_next, hq]

theorem links_update_prev (hp : hh p = some h) (hn : nx h' = nx h) :
    links pr nx (Function.update hh p (some h')) = (links pr nx hh).set_prev p (pr h') := by
  have hself : nx h' = ((links pr nx hh).set_prev p (pr h')).next p := by
    rw [hn]
    simp [links, Links.set_prev, hp]
  rw [links_update, hself, Links.set_next_self]

theorem links_update_next (hp : hh p = some h) (hv : pr h' = pr h) :
    links pr nx (Function.update hh p (some h')) = (links pr nx hh).set_next p (nx h') := by
  have hself : pr h' = (links pr nx hh).prev p := by
    rw [hv]
    simp [links, hp]
  rw [links_update, hself, Links.set_prev_self]

theorem links_update_same (hp : hh p = some h) (hv : pr h' = pr h) (hn : nx h' = nx h) :
    links pr nx (Function.update hh p (some h')) = links pr nx hh := by
  have hself : nx h' = (links pr nx hh).next p := by
    rw [hn]
    simp [links, hp]
  rw [links_update_next hp hv, hself, Links.set_next_self]

theorem Relinked.refl (hh : Handles) : Relinked hh hh := fun _ => rfl

theorem Relinked.trans (h : Relinked hh hh') (h' : Relinked hh' hh'') : Relinked hh hh'' :=
  fun p => (h' p).trans (h p)

theorem Relinked.update (hp : hh p = some h) (hl : h'.hashed = h.hashed) :
    Relinked hh (Function.update hh p (some h')) := by
  intro q
  by_cases hq : q = p
  · subst hq
    simp [hp, hl]
  · simp [hq]

theorem Relinked.isSome (h : Relinked hh hh') (hp : (hh p).isSome) : (hh' p).isSome := by
  have hmap := h p
  obtain ⟨e, he⟩ := Option.isSome_iff_exists.1 hp
  rw [he] at hmap
  obtain ⟨e', he', -⟩ := Option.map_eq_some_iff.1 hmap
  rw [he']
  rfl

theorem deref_eq (hp : hh p = some h) : hh.deref (some p) = .ok h := by
  rw [Handles.deref, hp]

theorem assign_eq (hp : hh p = some h) (f : UT_hash_handle → UT_hash_handle) :
    hh.assign (some p) f = .ok (Function.update hh p (some (f h))) := by
  rw [Handles.assign, hp]

/-- An assignment to the links `next` of one kind leaves the other kind alone. -/
theorem assign?_next (hh : Handles) (pr nx pr' nx' : UT_hash_handle → Option ℕ) {x v : Option ℕ}
    {f : UT_hash_handle → UT_hash_handle} (hx : ∀ y, x = some y → (hh y).isSome)
    (hv : ∀ h, pr (f h) = pr h) (hn : ∀ h, nx (f h) = v) (hv' : ∀ h, pr' (f h) = pr' h)
    (hn' : ∀ h, nx' (f h) = nx' h) (hl : ∀ h, (f h).hashed = h.hashed) :
    ∃ hh', hh.assign? x f = .ok hh' ∧ links pr nx hh' = (links pr nx hh).set_next? x v ∧
      links pr' nx' hh' = links pr' nx' hh ∧ Relinked hh hh' := by
  cases x with
  | none => exact ⟨hh, rfl, rfl, rfl, .refl hh⟩
  | some y =>
    obtain ⟨d, hd⟩ := Option.isSome_iff_exists.1 (hx y rfl)
    refine ⟨_, assign_eq hd f, ?_, links_update_same hd (hv' d) (hn' d), .update hd (hl d)⟩
    rw [links_update_next hd (hv d), hn]
    rfl

theorem assign?_prev (hh : Handles) (pr nx pr' nx' : UT_hash_handle → Option ℕ) {x v : Option ℕ}
    {f : UT_hash_handle → UT_hash_handle} (hx : ∀ y, x = some y → (hh y).isSome)
    (hv : ∀ h, pr (f h) = v) (hn : ∀ h, nx (f h) = nx h) (hv' : ∀ h, pr' (f h) = pr' h)
    (hn' : ∀ h, nx' (f h) = nx' h) (hl : ∀ h, (f h).hashed = h.hashed) :
    ∃ hh', hh.assign? x f = .ok hh' ∧ links pr nx hh' = (links pr nx hh).set_prev? x v ∧
      links pr' nx' hh' = links pr' nx' hh ∧ Relinked hh hh' := by
  cases x with
  | none => exact ⟨hh, rfl, rfl, rfl, .refl hh⟩
  | some y =>
    obtain ⟨d, hd⟩ := Option.isSome_iff_exists.1 (hx y rfl)
    refine ⟨_, assign_eq hd f, ?_, links_update_same hd (hv' d) (hn' d), .update hd (hl d)⟩
    rw [links_update_prev hd (hn d), hv]
    rfl

/-- **A handle in front of a chain.** -/
theorem add_front_eq {x : ℕ} {head : Option ℕ} (hx : (hh x).isSome)
    (hhead : ∀ y, head = some y → (hh y).isSome) :
    ∃ hh', add_front hh head x = .ok hh' ∧ bkt hh' = (bkt hh).push head x ∧ app hh' = app hh ∧
      Relinked hh hh' := by
  obtain ⟨e, he⟩ := Option.isSome_iff_exists.1 hx
  let e' : UT_hash_handle := { e with hh_prev := none, hh_next := head }
  let hh₁ : Handles := Function.update hh x (some e')
  have h₁ : hh.assign (some x) (fun h => { h with hh_prev := none, hh_next := head }) = .ok hh₁ :=
    assign_eq he _
  have hbkt₁ : bkt hh₁ = ((bkt hh).set_prev x none).set_next x head := links_update x e'
  have happ₁ : app hh₁ = app hh := links_update_same he rfl rfl
  have hrel₁ : Relinked hh hh₁ := Relinked.update he rfl
  obtain ⟨hh₂, h₂, hbkt₂, happ₂, hrel₂⟩ :=
    assign?_prev hh₁ UT_hash_handle.hh_prev UT_hash_handle.hh_next UT_hash_handle.prev
      UT_hash_handle.next (v := some x)
      (f := fun h => { h with hh_prev := some x }) (fun y hy => hrel₁.isSome (hhead y hy))
      (fun _ => rfl) (fun _ => rfl) (fun _ => rfl) (fun _ => rfl) fun _ => rfl
  refine ⟨hh₂, ?_, ?_, happ₂.trans happ₁, hrel₁.trans hrel₂⟩
  · unfold add_front
    rw [h₁]
    exact h₂
  · exact hbkt₂.trans (congrArg (Links.set_prev? · head (some x)) hbkt₁)

end

/-! ## Buckets -/

/-- The number of the bucket that an element belongs to. -/
def slot (hh : Handles) (num : UInt32) (p : ℕ) : Option ℕ :=
  (hh p).map fun h => HASH_TO_BKT h.hashv num

/-- The chain `l` of bucket `j`. -/
structure Bucket (hh : Handles) (num : UInt32) (S : Set ℕ) (j : ℕ) (b : UT_hash_bucket)
    (l : List ℕ) : Prop where
  chain : Chain (bkt hh) l
  nodup : l.Nodup
  head : b.hh_head = l.head?
  count : b.count = UInt32.ofNat l.length
  mem : ∀ p, p ∈ l ↔ p ∈ S ∧ slot hh num p = some j

/-- The elements `S` in their chains. -/
def Buckets (hh : Handles) (bs : List UT_hash_bucket) (num : UInt32) (S : Set ℕ) : Prop :=
  ∀ j b, bs[j]? = some b → ∃ l, Bucket hh num S j b l

section
variable {hh hh' : Handles} {bs : List UT_hash_bucket} {num : UInt32} {S : Set ℕ} {j p q : ℕ}
  {b : UT_hash_bucket} {l : List ℕ}

theorem HASH_TO_BKT_lt (hashv : UInt32) (hn : num ≠ 0) : HASH_TO_BKT hashv num < num.toNat := by
  have hpos : 0 < num.toNat := by
    rw [Nat.pos_iff_ne_zero]
    exact fun h => hn (UInt32.toNat_inj.1 h)
  have hsub : (num - 1).toNat = num.toNat - 1 := by
    rw [UInt32.toNat_sub_of_le]
    · rfl
    · rw [UInt32.le_iff_toNat_le]
      exact hpos
  have hle : HASH_TO_BKT hashv num ≤ (num - 1).toNat := by
    rw [HASH_TO_BKT, UInt32.toNat_and]
    exact Nat.and_le_right
  omega

theorem Relinked.slot (h : Relinked hh hh') (num : UInt32) (p : ℕ) :
    slot hh' num p = slot hh num p := by
  have hhash : ∀ hh : Handles, Uthash.slot hh num p =
      ((hh p).map UT_hash_handle.hashed).map fun x => HASH_TO_BKT x.2.2 num := by
    intro hh
    rw [Uthash.slot, Option.map_map]
    rfl
  rw [hhash, hhash, h p]

theorem Bucket.live (h : Bucket hh num S j b l) (hp : p ∈ l) : (hh p).isSome := by
  obtain ⟨e, he, -⟩ := Option.map_eq_some_iff.1 ((h.mem p).1 hp).2
  rw [he]
  rfl

/-- The chains are still there where their links and the labels are. -/
theorem Bucket.congr (h : Bucket hh num S j b l) (hrel : Relinked hh hh')
    (hl : ∀ p ∈ l, (bkt hh').prev p = (bkt hh).prev p ∧ (bkt hh').next p = (bkt hh).next p) :
    Bucket hh' num S j b l where
  chain := h.chain.congr hl
  nodup := h.nodup
  head := h.head
  count := h.count
  mem p := by rw [h.mem, hrel.slot]

theorem Buckets.congr (h : Buckets hh bs num S) (hrel : Relinked hh hh') (hb : bkt hh' = bkt hh) :
    Buckets hh' bs num S := by
  intro j b hj
  obtain ⟨l, hl⟩ := h j b hj
  exact ⟨l, hl.congr hrel fun p _ => by rw [hb]; exact ⟨rfl, rfl⟩⟩

theorem Buckets.empty (hh : Handles) (num : UInt32) (n : ℕ) :
    Buckets hh (List.replicate n ⟨none, 0, 0⟩) num ∅ := by
  intro j b hj
  obtain rfl := (List.mem_replicate.1 (List.mem_of_getElem? hj)).2
  refine ⟨[], .nil, List.nodup_nil, rfl, rfl, fun p => ?_⟩
  exact ⟨fun hp => absurd hp List.not_mem_nil, fun hp => hp.1.elim⟩

/-- Two elements in different buckets are different. -/
theorem Bucket.disjoint {i : ℕ} {b' : UT_hash_bucket} {l' : List ℕ} (h : Bucket hh num S j b l)
    (h' : Bucket hh num S i b' l') (hij : i ≠ j) (hp : p ∈ l) : p ∉ l' := by
  intro hp'
  have hj := ((h.mem p).1 hp).2
  rw [((h'.mem p).1 hp').2] at hj
  exact hij (Option.some.inj hj)

/-- **An element more.** -/
theorem Buckets.add (h : Buckets hh bs num S) (hb : bs[j]? = some b) (hp : p ∉ S)
    (hslot : slot hh num p = some j) (b' : UT_hash_bucket) (hhead : b'.hh_head = some p)
    (hcount : b'.count = b.count + 1) :
    ∃ hh', add_front hh b.hh_head p = .ok hh' ∧ Buckets hh' (bs.set j b') num (insert p S) ∧
      app hh' = app hh ∧ Relinked hh hh' ∧ ∀ q, q ∉ insert p S →
        (bkt hh').prev q = (bkt hh).prev q ∧ (bkt hh').next q = (bkt hh).next q := by
  obtain ⟨l, hl⟩ := h j b hb
  have hpl : p ∉ l := fun hpl => hp ((hl.mem p).1 hpl).1
  have hlive : (hh p).isSome := by
    obtain ⟨e, he, -⟩ := Option.map_eq_some_iff.1 hslot
    rw [he]
    rfl
  have hheadmem : ∀ y, b.hh_head = some y → y ∈ l := fun y hy => by
    rw [hl.head] at hy
    exact List.mem_of_head? hy
  obtain ⟨hh', hadd, hbkt, happ, hrel⟩ :=
    add_front_eq hlive fun y hy => hl.live (hheadmem y hy)
  -- what is neither the new element nor the old head keeps its links
  have hkeep : ∀ q, q ≠ p → q ∉ l →
      (bkt hh').prev q = (bkt hh).prev q ∧ (bkt hh').next q = (bkt hh).next q := by
    intro q hqp hql
    rw [hbkt]
    exact Links.push_of_ne hqp fun hy => hql (hheadmem q hy)
  refine ⟨hh', hadd, ?_, happ, hrel, fun q hq => ?_⟩
  · intro i c hc
    by_cases hij : i = j
    · subst hij
      have hi : i < bs.length := (List.getElem?_eq_some_iff.1 hb).1
      rw [List.getElem?_set_self hi] at hc
      cases hc
      refine ⟨p :: l, ?_, List.nodup_cons.2 ⟨hpl, hl.nodup⟩, hhead, ?_, fun q => ?_⟩
      · rw [hbkt, hl.head]
        exact hl.chain.push hl.nodup hpl
      · rw [hcount, hl.count, List.length_cons, UInt32.ofNat_add]
        rfl
      · rw [List.mem_cons, Set.mem_insert_iff, hl.mem, hrel.slot]
        constructor
        · rintro (rfl | ⟨hq, hqs⟩)
          · exact ⟨.inl rfl, hslot⟩
          · exact ⟨.inr hq, hqs⟩
        · rintro ⟨rfl | hq, hqs⟩
          · exact .inl rfl
          · exact .inr ⟨hq, hqs⟩
    · rw [List.getElem?_set_ne (Ne.symm hij)] at hc
      obtain ⟨l', hl'⟩ := h i c hc
      have hl'' : Bucket hh' num S i c l' := hl'.congr hrel fun q hq => by
        refine hkeep q (fun hqp => hp ?_) (hl'.disjoint hl (Ne.symm hij) hq)
        exact hqp ▸ ((hl'.mem q).1 hq).1
      refine ⟨l', hl''.chain, hl''.nodup, hl''.head, hl''.count, fun q => ?_⟩
      rw [hl''.mem, Set.mem_insert_iff]
      constructor
      · exact fun hq => ⟨.inr hq.1, hq.2⟩
      · rintro ⟨rfl | hq, hqs⟩
        · rw [hrel.slot, hslot] at hqs
          exact absurd (Option.some.inj hqs).symm hij
        · exact ⟨hq, hqs⟩
  · rw [Set.mem_insert_iff, not_or] at hq
    exact hkeep q hq.1 fun hql => hq.2 ((hl.mem q).1 hql).1

end

/-! ## An element less -/

section
variable {hh : Handles} {bs : List UT_hash_bucket} {num : UInt32} {S : Set ℕ} {j p : ℕ}
  {b : UT_hash_bucket}

/-- The head of a chain without one of its nodes. -/
theorem head?_unlink {l₁ l₂ : List ℕ} (hn : (l₁ ++ p :: l₂).Nodup) :
    (if (l₁ ++ p :: l₂).head? = some p then l₂.head? else (l₁ ++ p :: l₂).head?) =
      (l₁ ++ l₂).head? := by
  cases l₁ with
  | nil => simp
  | cons y l₁ =>
    have hy : y ≠ p := by
      rintro rfl
      simp at hn
    simp [hy]

/-- **An element less.** -/
theorem Buckets.del (h : Buckets hh bs num S) (hb : bs[j]? = some b) (hp : p ∈ S)
    (hslot : slot hh num p = some j) :
    ∃ hh' bs', HASH_DEL_IN_BKT hh bs j p = .ok (hh', bs') ∧ bs'.length = bs.length ∧
      Buckets hh' bs' num (S \ {p}) ∧ app hh' = app hh ∧ Relinked hh hh' := by
  obtain ⟨l, hl⟩ := h j b hb
  obtain ⟨l₁, l₂, rfl⟩ := List.append_of_mem ((hl.mem p).2 ⟨hp, hslot⟩)
  obtain ⟨d, hd⟩ := Option.isSome_iff_exists.1 (hl.live (p := p) (by simp))
  obtain ⟨hprev, hnext⟩ := hl.chain.mid
  have hdprev : d.hh_prev = l₁.getLast? := by
    rw [← hprev]
    simp [links, hd]
  have hdnext : d.hh_next = l₂.head? := by
    rw [← hnext]
    simp [links, hd]
  have hmem₁ : ∀ y, d.hh_prev = some y → y ∈ l₁ ++ p :: l₂ := fun y hy => by
    rw [hdprev] at hy
    exact List.mem_append_left _ (List.mem_of_getLast? hy)
  have hmem₂ : ∀ y, d.hh_next = some y → y ∈ l₁ ++ p :: l₂ := fun y hy => by
    rw [hdnext] at hy
    exact List.mem_append_right _ (List.mem_cons_of_mem p (List.mem_of_head? hy))
  obtain ⟨hh₁, h₁, hbkt₁, happ₁, hrel₁⟩ :=
    assign?_next hh UT_hash_handle.hh_prev UT_hash_handle.hh_next UT_hash_handle.prev
      UT_hash_handle.next (v := d.hh_next)
      (f := fun h => { h with hh_next := d.hh_next }) (fun y hy => hl.live (hmem₁ y hy))
      (fun _ => rfl) (fun _ => rfl) (fun _ => rfl) (fun _ => rfl) fun _ => rfl
  obtain ⟨hh₂, h₂, hbkt₂, happ₂, hrel₂⟩ :=
    assign?_prev hh₁ UT_hash_handle.hh_prev UT_hash_handle.hh_next UT_hash_handle.prev
      UT_hash_handle.next (v := d.hh_prev)
      (f := fun h => { h with hh_prev := d.hh_prev })
      (fun y hy => hrel₁.isSome (hl.live (hmem₂ y hy)))
      (fun _ => rfl) (fun _ => rfl) (fun _ => rfl) (fun _ => rfl) fun _ => rfl
  have hrel : Relinked hh hh₂ := hrel₁.trans hrel₂
  have hbkt : bkt hh₂ = (bkt hh).unlink p := by
    rw [bkt, hbkt₂, hbkt₁, Links.unlink, hprev, hnext, hdprev, hdnext]
  let b' : UT_hash_bucket := { b with
    count := b.count - 1, hh_head := if b.hh_head = some p then d.hh_next else b.hh_head }
  have hj : j < bs.length := (List.getElem?_eq_some_iff.1 hb).1
  refine ⟨hh₂, bs.set j b', ?_, List.length_set, ?_, happ₂.trans happ₁, hrel⟩
  · simp only [HASH_DEL_IN_BKT, bucket, hb, deref_eq hd, h₁, h₂, bind, Except.bind, pure, Except.pure, b']
  intro i c hc
  by_cases hij : i = j
  · subst hij
    rw [List.getElem?_set_self hj] at hc
    cases hc
    refine ⟨l₁ ++ l₂, ?_, hl.nodup.sublist (by simp), ?_, ?_, fun q => ?_⟩
    · rw [hbkt]
      exact hl.chain.unlink hl.nodup
    · show (if b.hh_head = some p then d.hh_next else b.hh_head) = _
      rw [hdnext, hl.head]
      exact head?_unlink hl.nodup
    · show b.count - 1 = _
      have hlen : (l₁ ++ p :: l₂).length = (l₁ ++ l₂).length + 1 := by
        simp only [List.length_append, List.length_cons]
        omega
      rw [hl.count, hlen, UInt32.ofNat_add]
      exact UInt32.add_sub_cancel _ _
    · have hpn : p ∉ l₁ ++ l₂ := (List.nodup_middle.1 hl.nodup |> List.nodup_cons.1).1
      have hq : q ∈ l₁ ++ l₂ ↔ q ∈ l₁ ++ p :: l₂ ∧ q ≠ p := by
        constructor
        · intro hq
          refine ⟨?_, ne_of_mem_of_not_mem hq hpn⟩
          rcases List.mem_append.1 hq with hq | hq
          · exact List.mem_append_left _ hq
          · exact List.mem_append_right _ (List.mem_cons_of_mem p hq)
        · rintro ⟨hq, hqp⟩
          rcases List.mem_append.1 hq with hq | hq
          · exact List.mem_append_left _ hq
          · exact List.mem_append_right _ ((List.mem_cons.1 hq).resolve_left hqp)
      rw [hq, hl.mem, hrel.slot, Set.mem_sdiff, Set.mem_singleton_iff]
      tauto
  · rw [List.getElem?_set_ne (Ne.symm hij)] at hc
    obtain ⟨l', hl'⟩ := h i c hc
    have hl'' : Bucket hh₂ num S i c l' := hl'.congr hrel fun q hq => by
      rw [hbkt]
      have hql := hl'.disjoint hl (Ne.symm hij) hq
      refine Links.unlink_of_ne ?_ ?_
      · rw [hprev, ← hdprev]
        exact fun h => hql (hmem₁ q h)
      · rw [hnext, ← hdnext]
        exact fun h => hql (hmem₂ q h)
    refine ⟨l', hl''.chain, hl''.nodup, hl''.head, hl''.count, fun q => ?_⟩
    rw [hl''.mem, Set.mem_sdiff, Set.mem_singleton_iff]
    constructor
    · rintro ⟨hq, hqs⟩
      refine ⟨⟨hq, ?_⟩, hqs⟩
      rintro rfl
      rw [hrel.slot, hslot] at hqs
      exact hij (Option.some.inj hqs).symm
    · exact fun hq => ⟨hq.1.1, hq.2⟩

end

/-! ## A search -/

/-- What `HASH_FIND_IN_BKT` compares. -/
def UT_hash_handle.matches_key (keyptr : List UInt8) (hashval : UInt32) (h : UT_hash_handle) : Bool :=
  h.hashv = hashval ∧ h.keylen = keyptr.length ∧ h.key = keyptr

/-- **The search along a chain** ends, and finds the first handle that matches. -/
theorem find_segment {hh : Handles} {keyptr : List UInt8} {hashval : UInt32} {fuel : ℕ}
    {a : Option ℕ} {l : List ℕ} (h : Segment (bkt hh) a l none) (hlive : ∀ p ∈ l, (hh p).isSome)
    (hf : l.length ≤ fuel) : HASH_FIND_IN_BKT hh keyptr hashval fuel l.head? =
      .ok (l.find? fun p => (hh p).any (UT_hash_handle.matches_key keyptr hashval)) := by
  induction l generalizing a fuel with
  | nil => cases fuel <;> rfl
  | cons p l ih =>
    obtain ⟨fuel, rfl⟩ := Nat.exists_eq_succ_of_ne_zero (by simp at hf; omega : fuel ≠ 0)
    obtain ⟨hp, hl⟩ := List.forall_mem_cons.1 hlive
    obtain ⟨e, he⟩ := Option.isSome_iff_exists.1 hp
    obtain ⟨-, hnext, h⟩ := h
    have hnext : e.hh_next = l.head? := by
      rw [← Option.or_none (o := l.head?), ← hnext]
      simp [links, he]
    rw [List.head?_cons, HASH_FIND_IN_BKT, deref_eq he, List.find?_cons, he, Option.any_some]
    by_cases hm : e.matches_key keyptr hashval = true
    · rw [hm]
      exact if_pos (of_decide_eq_true hm)
    · rw [Bool.eq_false_iff.2 hm]
      refine (if_neg fun hc => hm (decide_eq_true hc)).trans ?_
      rw [hnext]
      exact ih h hl (by simpa using hf)

/-! ## Twice as many buckets -/

/-- The elements `done` are in their new buckets; the links of the others are
    as they were. -/
structure Moved (hh : Handles) (num : UInt32) (x : Expansion) (done : Set ℕ) : Prop where
  buckets : Buckets x.handles x.new_buckets num done
  length : x.new_buckets.length = num.toNat
  app : app x.handles = app hh
  relinked : Relinked hh x.handles
  rest : ∀ q, q ∉ done →
    (bkt x.handles).prev q = (bkt hh).prev q ∧ (bkt x.handles).next q = (bkt hh).next q

section
variable {hh : Handles} {num ideal : UInt32} {x : Expansion} {done : Set ℕ} {p : ℕ}

/-- A moved element has the label it had. -/
theorem Moved.hashv (h : Moved hh num x done) {e e' : UT_hash_handle} (he : hh p = some e)
    (he' : x.handles p = some e') : e'.hashv = e.hashv := by
  have hmap := h.relinked p
  rw [he, he'] at hmap
  exact congrArg (·.2.2) (Option.some.inj hmap)

/-- **One item.** -/
theorem Moved.item (h : Moved hh num x done) (hn : num ≠ 0) (hp : p ∉ done) {e : UT_hash_handle}
    (he : hh p = some e) (ideal : UInt32) :
    ∃ x', expand_item num ideal x p e.hashv = .ok x' ∧ Moved hh num x' (insert p done) := by
  have hlt : HASH_TO_BKT e.hashv num < x.new_buckets.length := by
    rw [h.length]
    exact HASH_TO_BKT_lt e.hashv hn
  have hb := List.getElem?_eq_getElem hlt
  generalize x.new_buckets[HASH_TO_BKT e.hashv num] = b at hb
  have hslot : slot x.handles num p = some (HASH_TO_BKT e.hashv num) := by
    rw [h.relinked.slot, slot, he]
    rfl
  let b' : UT_hash_bucket := { expand_count ideal b with hh_head := some p }
  have hcount : b'.count = b.count + 1 ∧ (expand_count ideal b).hh_head = b.hh_head := by
    simp only [b', expand_count]
    split <;> exact ⟨rfl, rfl⟩
  obtain ⟨hh', hadd, hbk, happ, hrel, hrest⟩ := h.buckets.add hb hp hslot b' rfl hcount.1
  refine ⟨⟨hh', x.new_buckets.set (HASH_TO_BKT e.hashv num) b',
    if (expand_count ideal b).count > ideal then x.nonideal_items + 1 else x.nonideal_items⟩,
    ?_, ?_⟩
  · simp only [expand_item, bucket, hb, hcount.2, hadd, bind, Except.bind, pure, Except.pure, b']
  · refine ⟨hbk, ?_, happ.trans h.app, h.relinked.trans hrel, fun q hq => ?_⟩
    · exact List.length_set.trans h.length
    · obtain ⟨hprev, hnext⟩ := h.rest q fun hqd => hq (Set.mem_insert_of_mem p hqd)
      obtain ⟨hprev', hnext'⟩ := hrest q hq
      exact ⟨hprev'.trans hprev, hnext'.trans hnext⟩

/-- **One chain.** -/
theorem Moved.chain (h : Moved hh num x done) (hn : num ≠ 0) {a : Option ℕ} {l : List ℕ}
    (hs : Segment (bkt hh) a l none) (hnodup : l.Nodup)
    (hl : ∀ p ∈ l, (hh p).isSome ∧ p ∉ done) {fuel : ℕ} (hf : l.length ≤ fuel) (ideal : UInt32) :
    ∃ x', expand_chain num ideal fuel l.head? x = .ok x' ∧
      Moved hh num x' (done ∪ {p | p ∈ l}) := by
  induction l generalizing a x done fuel with
  | nil =>
    refine ⟨x, by cases fuel <;> rfl, ?_⟩
    have hset : done ∪ {p | p ∈ ([] : List ℕ)} = done := by simp
    rw [hset]
    exact h
  | cons p l ih =>
    obtain ⟨fuel, rfl⟩ := Nat.exists_eq_succ_of_ne_zero (by simp at hf; omega : fuel ≠ 0)
    obtain ⟨⟨hlive, hp⟩, hl⟩ := List.forall_mem_cons.1 hl
    obtain ⟨hpl, hnodup⟩ := List.nodup_cons.1 hnodup
    obtain ⟨-, hnext, hs⟩ := hs
    obtain ⟨e, he⟩ := Option.isSome_iff_exists.1 hlive
    obtain ⟨e', he'⟩ := Option.isSome_iff_exists.1 (h.relinked.isSome hlive)
    -- the element is not moved yet, and so its links are those of the old chain
    have hnext' : e'.hh_next = l.head? := by
      have hold := (h.rest p hp).2
      rw [hnext, Option.or_none] at hold
      rw [← hold]
      simp [links, he']
    obtain ⟨x₁, h₁, hmoved⟩ := h.item hn hp he ideal
    have hl' : ∀ q ∈ l, (hh q).isSome ∧ q ∉ insert p done := fun q hq => by
      refine ⟨(hl q hq).1, fun hqd => ?_⟩
      rcases hqd with rfl | hqd
      · exact hpl hq
      · exact (hl q hq).2 hqd
    obtain ⟨x₂, h₂, hmoved₂⟩ := ih hmoved hs hnodup hl' (by simpa using hf)
    refine ⟨x₂, ?_, ?_⟩
    · rw [List.head?_cons, expand_chain, deref_eq he']
      show expand_item num ideal x p e'.hashv >>= _ = _
      rw [h.hashv he he', h₁]
      show expand_chain num ideal fuel e'.hh_next x₁ = _
      rw [hnext', h₂]
    · have hset : done ∪ {q | q ∈ p :: l} = insert p done ∪ {q | q ∈ l} := by
        ext q
        simp only [Set.mem_union, Set.mem_ofPred_eq, List.mem_cons, Set.mem_insert_iff]
        tauto
      rw [hset]
      exact hmoved₂

/-- A list without repetition of numbers below `n`. -/
theorem length_le_of_lt {l : List ℕ} {n : ℕ} (hn : l.Nodup) (hl : ∀ p ∈ l, p < n) :
    l.length ≤ n := by
  have hsub : l ⊆ List.range n := fun p hp => List.mem_range.2 (hl p hp)
  have hle := (List.subperm_of_subset hn hsub).length_le
  rwa [List.length_range] at hle

/-- **All chains**, the first `n` here. -/
theorem Moved.loop {s : Hash} {tbl : UT_hash_table} {S : Set ℕ}
    (h : Buckets s.handles tbl.buckets tbl.num_buckets S)
    (hd : (tbl.num_buckets * 2).toNat = 2 * tbl.num_buckets.toNat) (hn : tbl.num_buckets * 2 ≠ 0)
    (hS : ∀ p ∈ S, p < s.allocated) (ideal : UInt32) {n : ℕ} (hlen : n ≤ tbl.buckets.length) :
    ∃ x, expand_loop s tbl ideal n = .ok x ∧ Moved s.handles (tbl.num_buckets * 2) x
      {p | p ∈ S ∧ ∃ j < n, slot s.handles tbl.num_buckets p = some j} := by
  induction n with
  | zero =>
    refine ⟨_, rfl, ?_, ?_, rfl, .refl _, fun q _ => ⟨rfl, rfl⟩⟩
    · have hset : {p | p ∈ S ∧ ∃ j < 0, slot s.handles tbl.num_buckets p = some j} = ∅ := by simp
      rw [hset]
      exact Buckets.empty _ _ _
    · exact List.length_replicate.trans hd.symm
  | succ n ih =>
    obtain ⟨x, hx, hmoved⟩ := ih (Nat.le_of_succ_le hlen)
    have hb := List.getElem?_eq_getElem (Nat.lt_of_succ_le hlen)
    generalize tbl.buckets[n] = b at hb
    obtain ⟨l, hl⟩ := h n b hb
    have hnew : ∀ p ∈ l, (s.handles p).isSome ∧
        p ∉ {p | p ∈ S ∧ ∃ j < n, slot s.handles tbl.num_buckets p = some j} := by
      refine fun p hp => ⟨hl.live hp, ?_⟩
      rintro ⟨-, j, hj, hjs⟩
      rw [((hl.mem p).1 hp).2] at hjs
      exact absurd (Option.some.inj hjs) hj.ne'
    have hfuel := length_le_of_lt hl.nodup fun p hp => hS p ((hl.mem p).1 hp).1
    obtain ⟨x', hx', hmoved'⟩ := hmoved.chain hn hl.chain hl.nodup hnew hfuel ideal
    refine ⟨x', ?_, ?_⟩
    · rw [expand_loop] at hx ⊢
      rw [List.range_succ, List.foldlM_append, hx]
      simp only [List.foldlM_cons, List.foldlM_nil, bucket, hb, hl.head, hx', bind, Except.bind, pure,
        Except.pure]
    · have hset : {p | p ∈ S ∧ ∃ j < n + 1, slot s.handles tbl.num_buckets p = some j} =
          {p | p ∈ S ∧ ∃ j < n, slot s.handles tbl.num_buckets p = some j} ∪ {p | p ∈ l} := by
        ext p
        simp only [Set.mem_union, Set.mem_ofPred_eq, hl.mem, Nat.lt_succ_iff_lt_or_eq]
        constructor
        · rintro ⟨hp, j, hj | rfl, hjs⟩
          · exact .inl ⟨hp, j, hj, hjs⟩
          · exact .inr ⟨hp, hjs⟩
        · rintro (⟨hp, j, hj, hjs⟩ | ⟨hp, hjs⟩)
          · exact ⟨hp, j, .inl hj, hjs⟩
          · exact ⟨hp, n, .inr rfl, hjs⟩
      rw [hset]
      exact hmoved'

end

end Uthash

end ChordPeer
