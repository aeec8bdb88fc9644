/-
  Peers that start in a circle: each is given the address of the next one, in
  the order of their ids, and sends it a join before any of them has neighbours.

  Between a peer and the one after it there is first the join, then the notify
  that answers it, and then nothing (`Link`); these stages tell the state of
  every peer and the messages in flight (`linked_step`).

  * `startup_forms_ring`: in whatever order the messages are handled, they are
    two for each peer, and then the ring is consistent.  What cannot be handled
    is a notify at a peer that has not handled its join, on which it faults.

  This is about what the handler makes of every message that comes.  `main`
  calls it for one message only, as `get_new_connection` closes the listening
  socket; what comes of that is `processes_form_ring_iff`.
-/
import Mathlib.Algebra.Order.BigOperators.Group.Finset
import ChordPeer.Stabilizing
import ChordPeer.Lib.Interleaving

namespace ChordPeer

open Cyclic MessagePassing PeerProtocol

/-! ## How peers start -/

/-- The message that a peer with a join address sends when it starts. -/
def PeerInfo.join_packet (i : PeerInfo) : Option Packet :=
  i.join.map fun j => ⟨j.addr, (join_request .zero i.this).wire⟩

/-- `join`, called with the join address and the own record over a zero stack,
    sends it. -/
theorem join_run {env : Env} (hs : env.stack = .zero) {s : Proc} {j : Peer}
    (hj : s.globals.peer_info.join = some j) :
    ∃ p, s.globals.peer_info.join_packet = some p ∧
      (join env j.addr s.globals.peer_info.this).run s = .ok ((), s.sent env p) := by
  refine ⟨_, by rw [PeerInfo.join_packet, hj]; rfl, ?_⟩
  rw [join, send_peerProtocol_run, hs]

section
variable {n : ℕ} [NeZero n]

/-- The `join` record of `main`: an address. -/
def Peer.only_addr (q : Peer) : Peer := { Peer.zero with ip := q.ip, port := q.port }

/-- A neighbour record that a message filled in. -/
def Peer.record (q : Peer) : Peer := { Peer.zero with ip := q.ip, port := q.port, id := q.id }

theorem Peer.record_names (q : Peer) : q.record.Names q := ⟨rfl, rfl, rfl⟩

/-- What there is between a peer and the one after it. -/
inductive Link where
  /-- the join of the peer -/
  | joining
  /-- the notify that answers it -/
  | answered
  | linked
  deriving DecidableEq

/-- The messages handled. -/
def Link.handled : Link → ℕ
  | joining => 0
  | answered => 1
  | linked => 2

variable (p : Fin n → Peer)

/-- The messages in flight between the peer `i` and the next one. -/
def Link.flight (i : Fin n) : Link → Multiset Packet
  | joining => {⟨(p (i + 1)).addr, (join_request .zero (p i)).wire⟩}
  | answered => {⟨(p i).addr, (notify_request .zero (p (i + 1))).wire⟩}
  | linked => 0

/-- The neighbours of the peer `i`. -/
def link_info (l : Fin n → Link) (i : Fin n) : PeerInfo :=
  let prev := if l (i - 1) = .joining then none else some (p (i - 1)).record
  ⟨p i, if l i = .linked then some (p (i + 1)).record else prev, prev,
    some (p (i + 1)).only_addr⟩

/-- The network at some stage. -/
def linking (l : Fin n → Link) : Config (Fin n) Globals Packet where
  node i := .start (link_info p l i)
  flight := ∑ i, (l i).flight p i

/-- The peers before any message. -/
def started (i : Fin n) : Globals := .start ⟨p i, none, none, some (p (i + 1)).only_addr⟩

theorem linking_joining : linking p (fun _ => .joining) =
    ⟨started p, ∑ i, {⟨(p (i + 1)).addr, (join_request .zero (p i)).wire⟩}⟩ := rfl

/-- The joins that are in flight then are those that the peers send. -/
theorem started_join_packet (i : Fin n) : (started p i).peer_info.join_packet =
    some ⟨(p (i + 1)).addr, (join_request .zero (p i)).wire⟩ := rfl

/-! ## One message -/

/-- What can be handled next. -/
inductive LinkStep (l : Fin n → Link) : (Fin n → Link) → Prop where
  | join (i : Fin n) (h : l i = .joining) : LinkStep l (Function.update l i .answered)
  | notify (i : Fin n) (h : l i = .answered) (hj : l (i - 1) ≠ .joining) :
      LinkStep l (Function.update l i .linked)

/-- A peer handles no notify before a join. -/
def Ordered (l : Fin n → Link) : Prop := ∀ i, l i = .linked → l (i - 1) ≠ .joining

variable {p} {l l' : Fin n → Link}

theorem LinkStep.ordered (h : LinkStep l l') (hl : Ordered l) : Ordered l' := by
  intro j hj
  cases h with
  | join i h =>
    by_cases hji : j = i
    · rw [hji, Function.update_self] at hj
      cases hj
    · rw [Function.update_of_ne hji] at hj
      by_cases hp : j - 1 = i
      · rw [hp, Function.update_self]
        exact Link.noConfusion
      · rw [Function.update_of_ne hp]
        exact hl j hj
  | notify i h hpred =>
    by_cases hp : j - 1 = i
    · rw [hp, Function.update_self]
      exact Link.noConfusion
    · rw [Function.update_of_ne hp]
      by_cases hji : j = i
      · exact hji ▸ hpred
      · rw [Function.update_of_ne hji] at hj
        exact hl j hj

theorem LinkStep.handled (h : LinkStep l l') : ∑ i, (l' i).handled = ∑ i, (l i).handled + 1 := by
  cases h with
  | join i h | notify i h =>
    rw [sum_apply_update (fun _ => Link.handled), sum_split (fun u => (l u).handled) i, h]
    simp only [Link.handled]
    omega

/-- The neighbours depend on the links to both sides. -/
theorem link_info_congr {j : Fin n} (hnext : l j = .linked ↔ l' j = .linked)
    (hprev : l (j - 1) = .joining ↔ l' (j - 1) = .joining) : link_info p l j = link_info p l' j := by
  simp only [link_info, hnext, hprev]

theorem link_info_next_none {j : Fin n} (hj : l (j - 1) = .joining) (hlinked : l j ≠ .linked) :
    (link_info p l j).next = none := by
  show (if l j = .linked then _ else if l (j - 1) = .joining then none else _) = none
  rw [if_neg hlinked, if_pos hj]

/-- The messages in flight when one link changes. -/
theorem linking_flight (i : Fin n) (s : Link) : (linking p (Function.update l i s)).flight =
    s.flight p i + ∑ u ∈ Finset.univ \ {i}, (l u).flight p u :=
  sum_apply_update (Link.flight p) l i s

variable (hn : 2 ≤ n) (ha : Function.Injective fun i => (p i).addr) (hl : Ordered l)
  (hash : List UInt8 → UInt32)

include ha hl in
/-- A peer without neighbours handles a join. -/
theorem takes_started_join {i : Fin n} (h : l i = .joining) :
    Takes (closed_ring hash zeroed (started p)) (linking p l).node
      ⟨(p (i + 1)).addr, (join_request .zero (p i)).wire⟩ (i + 1)
      (.start { link_info p l (i + 1) with next := some (p i).record, prev := some (p i).record })
      [⟨(p i).addr, (notify_request .zero (p (i + 1))).wire⟩] := by
  have hm : Message JOIN_MESSAGE (join_request .zero (p i)).wire := join_request_message _
  have hparse : parse (join_request .zero (p i)).wire = join_request .zero (p i) :=
    parse_wire (join_request_masked _)
  have hi : l (i + 1 - 1) = .joining := by rw [add_sub_cancel_right, h]
  have hnone : ((linking p l).node (i + 1)).peer_info.next = none :=
    link_info_next_none hi fun hlinked => hl _ hlinked hi
  refine takes_peer (G := (linking p l).node) ha (Set.singleton_nonempty _) hm (by decide)
    fun stack hs => ?_
  rw [step_join_alone stack hm hnone, hparse, Set.mem_singleton_iff.1 hs]
  rfl

include ha in
/-- A peer that has handled its join handles a notify. -/
theorem takes_started_notify {i : Fin n} (hj : l (i - 1) ≠ .joining) :
    Takes (closed_ring hash zeroed (started p)) (linking p l).node
      ⟨(p i).addr, (notify_request .zero (p (i + 1))).wire⟩ i
      (.start { link_info p l i with next := some (p (i + 1)).record }) [] := by
  have hm : Message NOTIFY_MESSAGE (notify_request .zero (p (i + 1))).wire := notify_request_message _
  have hparse : parse (notify_request .zero (p (i + 1))).wire = notify_request .zero (p (i + 1)) :=
    parse_wire (notify_request_masked _)
  obtain ⟨q, hq⟩ : ∃ q : Peer, ((linking p l).node i).peer_info.next = some q.record := by
    show ∃ q : Peer, (if l i = .linked then _ else if l (i - 1) = .joining then none else _) =
      some q.record
    rw [if_neg hj]
    split
    · exact ⟨_, rfl⟩
    · exact ⟨_, rfl⟩
  refine takes_peer (G := (linking p l).node) ha (Set.singleton_nonempty _) hm (by decide)
    fun stack hs => ?_
  rw [step_notify stack hm hq, hparse]
  rfl

include ha in
/-- One that has not faults on it. -/
theorem started_notify_stuck {i : Fin n} (hj : l (i - 1) = .joining) (hlinked : l i ≠ .linked)
    (j : Fin n) (s : Globals) (out : List Packet) :
    ¬ (closed_ring hash zeroed (started p)).handles j ((linking p l).node j)
      ⟨(p i).addr, (notify_request .zero (p (i + 1))).wire⟩ s out := by
  rintro ⟨hd, hh⟩
  obtain rfl : i = j := ha hd
  have hm : Message NOTIFY_MESSAGE (notify_request .zero (p (i + 1))).wire := notify_request_message _
  have hnone : ((linking p l).node i).peer_info.next = none := link_info_next_none hj hlinked
  obtain ⟨stack, -, info, hstep, -⟩ := (handles_message hm (by decide)).1 hh
  rw [step_notify_alone stack hm hnone] at hstep
  cases hstep

include hn hl in
/-- The network after a join. -/
theorem linking_join {i : Fin n} (h : l i = .joining) :
    (⟨Function.update (linking p l).node (i + 1)
        (.start { link_info p l (i + 1) with next := some (p i).record, prev := some (p i).record }),
      {⟨(p i).addr, (notify_request .zero (p (i + 1))).wire⟩} +
        ∑ u ∈ Finset.univ \ {i}, (l u).flight p u⟩ : Config (Fin n) Globals Packet) =
      linking p (Function.update l i .answered) := by
  have hself : i + 1 ≠ i := add_one_ne hn i
  have hflight := linking_flight (p := p) (l := l) i .answered
  have hnode : Function.update (linking p l).node (i + 1)
      (.start { link_info p l (i + 1) with next := some (p i).record, prev := some (p i).record }) =
      (linking p (Function.update l i .answered)).node := by
    funext j
    by_cases hji : j = i + 1
    · subst hji
      have hlinked : l (i + 1) ≠ .linked := fun hlinked =>
        hl _ hlinked (by rw [add_sub_cancel_right, h])
      rw [Function.update_self]
      show _ = Globals.start (link_info p (Function.update l i .answered) (i + 1))
      simp only [link_info, Function.update_of_ne hself, hlinked, add_sub_cancel_right,
        Function.update_self, if_false, reduceCtorEq]
    · rw [Function.update_of_ne hji]
      show Globals.start (link_info p l j) = Globals.start (link_info p _ j)
      have hpred : j - 1 ≠ i := fun hp => hji (by rw [← hp, sub_add_cancel])
      refine congrArg Globals.start (link_info_congr ?_ (by rw [Function.update_of_ne hpred]))
      by_cases hi : j = i
      · rw [hi, Function.update_self, h]
        simp only [reduceCtorEq]
      · rw [Function.update_of_ne hi]
  rw [hnode]
  exact congrArg (Config.mk _) hflight.symm

include hn in
/-- The network after a notify. -/
theorem linking_notify {i : Fin n} (h : l i = .answered) :
    (⟨Function.update (linking p l).node i
        (.start { link_info p l i with next := some (p (i + 1)).record }),
      0 + ∑ u ∈ Finset.univ \ {i}, (l u).flight p u⟩ : Config (Fin n) Globals Packet) =
      linking p (Function.update l i .linked) := by
  have hself : i - 1 ≠ i := sub_one_ne hn i
  have hflight := linking_flight (p := p) (l := l) i .linked
  have hnode : Function.update (linking p l).node i
      (.start { link_info p l i with next := some (p (i + 1)).record }) =
      (linking p (Function.update l i .linked)).node := by
    funext j
    by_cases hji : j = i
    · subst hji
      rw [Function.update_self]
      show _ = Globals.start (link_info p (Function.update l j .linked) j)
      simp only [link_info, Function.update_self, Function.update_of_ne hself, if_true]
    · rw [Function.update_of_ne hji]
      show Globals.start (link_info p l j) = Globals.start (link_info p _ j)
      refine congrArg Globals.start (link_info_congr (by rw [Function.update_of_ne hji]) ?_)
      by_cases hp : j - 1 = i
      · rw [hp, Function.update_self, h]
        simp only [reduceCtorEq]
      · rw [Function.update_of_ne hp]
  rw [hnode]
  exact congrArg (Config.mk _) hflight.symm

/-! ## All messages -/

/-- What can be handled is a join, or a notify at a peer that has handled its join. -/
theorem linked_step (hn : 2 ≤ n) (ha : Function.Injective fun i => (p i).addr) (hl : Ordered l)
    {a : Act (Fin n) Packet} {C : Config (Fin n) Globals Packet}
    (h : Step (closed_ring hash zeroed (started p)) (linking p l) a C) :
    ∃ l', LinkStep l l' ∧ C = linking p l' := by
  generalize hC : linking p l = C₀ at h
  cases h with
  | enter h => exact absurd h id
  | @deliver node flight j q s out h =>
    obtain ⟨rfl, hflight⟩ := Config.mk.inj hC
    have hmem : q ∈ ∑ i, (l i).flight p i := hflight ▸ Multiset.mem_cons_self q flight
    obtain ⟨i, -, hq⟩ := Multiset.mem_sum.1 hmem
    rw [sum_split (fun i => (l i).flight p i) i] at hflight
    cases hi : l i with
    | linked =>
      rw [hi] at hq
      exact absurd hq (Multiset.notMem_zero q)
    | joining =>
      rw [hi] at hq hflight
      obtain rfl := Multiset.mem_singleton.1 hq
      obtain ⟨rfl, rfl, rfl⟩ := (takes_started_join ha hl hash hi).only _ _ _ h
      obtain rfl := (Multiset.cons_inj_right _).1 hflight
      exact ⟨_, .join i hi, linking_join hn hl hi⟩
    | answered =>
      rw [hi] at hq hflight
      obtain rfl := Multiset.mem_singleton.1 hq
      by_cases hj : l (i - 1) = .joining
      · exact absurd h (started_notify_stuck ha hash hj (by rw [hi]; exact Link.noConfusion) _ _ _)
      · obtain ⟨rfl, rfl, rfl⟩ := (takes_started_notify ha hash hj).only _ _ _ h
        obtain rfl := (Multiset.cons_inj_right _).1 hflight
        exact ⟨_, .notify _ hi hj, linking_notify hn hi⟩

theorem LinkStep.step (hn : 2 ≤ n) (ha : Function.Injective fun i => (p i).addr) (hl : Ordered l)
    (h : LinkStep l l') :
    ∃ a, Step (closed_ring hash zeroed (started p)) (linking p l) a (linking p l') := by
  have hflight : ∀ i, linking p l = ⟨(linking p l).node, (l i).flight p i +
      ∑ u ∈ Finset.univ \ {i}, (l u).flight p u⟩ := fun i =>
    congrArg (Config.mk _) (sum_split (fun i => (l i).flight p i) i)
  cases h with
  | join i hi =>
    rw [hflight i, hi, ← linking_join hn hl hi]
    exact ⟨_, .deliver (takes_started_join ha hl hash hi).handles⟩
  | notify i hi hj =>
    rw [hflight i, hi, ← linking_notify hn hi]
    exact ⟨_, .deliver (takes_started_notify ha hash hj).handles⟩

/-- Unless all links are there, something can be handled. -/
theorem exists_linkStep (h : ∃ i, l i ≠ .linked) : ∃ l', LinkStep l l' := by
  by_cases hj : ∃ i, l i = .joining
  · obtain ⟨i, hi⟩ := hj
    exact ⟨_, .join i hi⟩
  · obtain ⟨i, hi⟩ := h
    cases hli : l i with
    | joining => exact absurd ⟨i, hli⟩ hj
    | linked => exact absurd hli hi
    | answered => exact ⟨_, .notify i hli fun hpred => hj ⟨_, hpred⟩⟩

/-- Every run goes through such stages, one message a step. -/
theorem linking_run (hn : 2 ≤ n) (ha : Function.Injective fun i => (p i).addr) (hl : Ordered l)
    {as : List (Act (Fin n) Packet)} {C : Config (Fin n) Globals Packet}
    (h : Run (closed_ring hash zeroed (started p)) (linking p l) as C) :
    ∃ l', Ordered l' ∧ C = linking p l' ∧ ∑ i, (l' i).handled = ∑ i, (l i).handled + as.length := by
  generalize hC : linking p l = C₀ at h
  induction h generalizing l with
  | nil => exact ⟨l, hl, hC.symm, rfl⟩
  | cons hs _ ih =>
    subst hC
    obtain ⟨l₁, hstep, rfl⟩ := linked_step hash hn ha hl hs
    obtain ⟨l', hl', hC, hsum⟩ := ih (hstep.ordered hl) rfl
    refine ⟨l', hl', hC, ?_⟩
    rw [hsum, hstep.handled, List.length_cons]
    omega

theorem Link.handled_le (s : Link) : s.handled ≤ 2 := by
  cases s <;> simp [Link.handled]

omit [NeZero n] in
theorem handled_all : (∑ i, (l i).handled = 2 * n) ↔ ∀ i, l i = .linked := by
  constructor
  · intro h i
    by_contra hi
    have hlt : ∑ j, (l j).handled < ∑ _j : Fin n, 2 := by
      refine Finset.sum_lt_sum (fun j _ => (l j).handled_le) ⟨i, Finset.mem_univ i, ?_⟩
      cases hli : l i with
      | linked => exact absurd hli hi
      | joining | answered => simp [Link.handled]
    rw [h, Finset.sum_const, Finset.card_univ, Fintype.card_fin, nsmul_eq_mul, Nat.cast_id, Nat.mul_comm] at hlt
    exact lt_irrefl _ hlt
  · intro h
    simp only [h, Link.handled, Finset.sum_const, Finset.card_univ, Fintype.card_fin, nsmul_eq_mul, Nat.cast_id,
      Nat.mul_comm]

/-- What cannot be handled is a notify at a peer without neighbours. -/
theorem linking_stuck (ha : Function.Injective fun i => (p i).addr) (hl : Ordered l) {q : Packet}
    (hq : q ∈ (linking p l).flight) :
    (∃ i g out, (closed_ring hash zeroed (started p)).handles i ((linking p l).node i) q g out) ∨
      Message NOTIFY_MESSAGE q.data ∧
        ∃ i, q.dest = (p i).addr ∧ ((linking p l).node i).peer_info.next = none := by
  obtain ⟨i, -, hq⟩ := Multiset.mem_sum.1 (show q ∈ ∑ i, (l i).flight p i from hq)
  cases hi : l i with
  | linked =>
    rw [hi] at hq
    exact absurd hq (Multiset.notMem_zero q)
  | joining =>
    rw [hi] at hq
    obtain rfl := Multiset.mem_singleton.1 hq
    exact .inl ⟨_, _, _, (takes_started_join ha hl hash hi).handles⟩
  | answered =>
    rw [hi] at hq
    obtain rfl := Multiset.mem_singleton.1 hq
    by_cases hj : l (i - 1) = .joining
    · exact .inr ⟨notify_request_message _, i, rfl, link_info_next_none hj (by rw [hi]; exact Link.noConfusion)⟩
    · exact .inl ⟨_, _, _, (takes_started_notify ha hash hj).handles⟩

/-- The ring when all messages are handled. -/
theorem linked_consistent (hn : 2 ≤ n) (hid : ∀ i j, i < j → (p i).id < (p j).id)
    (ha : Function.Injective fun i => (p i).addr) (h : ∀ i, l i = .linked) :
    Consistent fun i => ((linking p l).node i).peer_info where
  two_le := hn
  ids i j hij := UInt16.lt_iff_toNat_lt.1 (hid i j hij)
  addrs := ha
  next i := by
    refine ⟨(p (i + 1)).record, ?_, Peer.record_names _⟩
    show (if l i = .linked then some (p (i + 1)).record else _) = _
    rw [if_pos (h i)]
  prev i := by
    refine ⟨(p (i - 1)).record, ?_, Peer.record_names _⟩
    show (if l (i - 1) = .joining then none else some (p (i - 1)).record) = _
    rw [if_neg (by rw [h]; exact Link.noConfusion)]

/-- As long as a message is left that can be handled, and when none is. -/
theorem linking_progress (hn : 2 ≤ n) (hid : ∀ i j, i < j → (p i).id < (p j).id)
    (ha : Function.Injective fun i => (p i).addr) (hl : Ordered l) :
    ∑ i, (l i).handled ≤ 2 * n ∧
      (∑ i, (l i).handled < 2 * n →
        ∃ a C', Step (closed_ring hash zeroed (started p)) (linking p l) a C') ∧
      (∑ i, (l i).handled = 2 * n →
        (Consistent fun i => ((linking p l).node i).peer_info) ∧ (linking p l).flight = 0) := by
  have hle : ∑ i, (l i).handled ≤ 2 * n := by
    have hsum := Finset.sum_le_card_nsmul Finset.univ (fun i => (l i).handled) 2
      fun i _ => (l i).handled_le
    rwa [Finset.card_univ, Fintype.card_fin, nsmul_eq_mul, Nat.cast_id, Nat.mul_comm] at hsum
  refine ⟨hle, fun hlt => ?_, fun hall => ?_⟩
  · obtain ⟨i, hi⟩ : ∃ i, l i ≠ .linked := by
      by_contra hno
      have hall := handled_all.2 fun i => not_not.1 fun hi => hno ⟨i, hi⟩
      omega
    obtain ⟨l', hstep⟩ := exists_linkStep ⟨i, hi⟩
    obtain ⟨a, ha'⟩ := hstep.step hash hn ha hl
    exact ⟨a, _, ha'⟩
  · have hlinked := handled_all.1 hall
    refine ⟨linked_consistent hn hid ha hlinked, ?_⟩
    show ∑ i, (l i).flight p i = 0
    refine Finset.sum_eq_zero fun i _ => ?_
    rw [hlinked i]
    rfl

/-- A run from the start, by the links that there are then. -/
theorem started_run (hn : 2 ≤ n) (ha : Function.Injective fun i => (p i).addr)
    {as : List (Act (Fin n) Packet)} {C : Config (Fin n) Globals Packet}
    (h : Run (closed_ring hash zeroed (started p))
      ⟨started p, ∑ i, {⟨(p (i + 1)).addr, (join_request .zero (p i)).wire⟩}⟩ as C) :
    ∃ l, Ordered l ∧ C = linking p l ∧ ∑ i, (l i).handled = as.length := by
  have h0 : ∑ _i : Fin n, Link.joining.handled = 0 := Finset.sum_const_zero
  have hl : Ordered fun _ : Fin n => Link.joining := fun i hi => Link.noConfusion hi
  obtain ⟨l, hl', hC, hsum⟩ := linking_run hash hn ha hl (by rw [linking_joining]; exact h)
  rw [h0, Nat.zero_add] at hsum
  exact ⟨l, hl', hC, hsum⟩

end

/-- **Starting in a circle.**  Two or more peers, in the order of their ids,
    each with the address of the next one as its join address: in whatever order
    their handlers are given the messages, at most two for each peer are, and as
    long as they are fewer another one can be; then the ring is consistent, and
    nothing is left in flight.  A message that cannot be handled is a notify at a
    peer that has no neighbours yet. -/
theorem startup_forms_ring {n : ℕ} [NeZero n] (hash : List UInt8 → UInt32) {p : Fin n → Peer}
    (hn : 2 ≤ n) (hid : ∀ i j, i < j → (p i).id < (p j).id)
    (ha : Function.Injective fun i => (p i).addr) {as : List (Act (Fin n) Packet)}
    {C : Config (Fin n) Globals Packet}
    (h : Run (closed_ring hash zeroed (started p))
      ⟨started p, ∑ i, {⟨(p (i + 1)).addr, (join_request .zero (p i)).wire⟩}⟩ as C) :
    as.length ≤ 2 * n ∧
      (as.length < 2 * n → ∃ a C', Step (closed_ring hash zeroed (started p)) C a C') ∧
      (as.length = 2 * n → (Consistent fun i => (C.node i).peer_info) ∧ C.flight = 0) ∧
      ∀ q ∈ C.flight,
        (∃ i g out, (closed_ring hash zeroed (started p)).handles i (C.node i) q g out) ∨
          Message NOTIFY_MESSAGE q.data ∧
            ∃ i, q.dest = (p i).addr ∧ (C.node i).peer_info.next = none := by
  obtain ⟨l, hl, rfl, hsum⟩ := started_run hash hn ha h
  rw [← hsum]
  obtain ⟨hle, hlt, hall⟩ := linking_progress hash hn hid ha hl
  exact ⟨hle, hlt, hall, fun q hq => linking_stuck hash ha hl hq⟩

/-- The two peers come to the end, with four messages. -/
theorem startup_forms_ring_two_peers : ∃ as C, Run (closed_ring HASH_JEN zeroed (started two_peers))
      ⟨started two_peers,
        ∑ i, {⟨(two_peers (i + 1)).addr, (join_request .zero (two_peers i)).wire⟩}⟩ as C ∧
    as.length = 4 ∧ (Consistent fun i => (C.node i).peer_info) ∧ C.flight = 0 := by
  obtain ⟨as, C, hrun, hlen⟩ := exists_run_length (k := 4) fun as C hrun hlt =>
    (startup_forms_ring (p := two_peers) HASH_JEN le_rfl (by decide) (by decide) hrun).2.1 hlt
  exact ⟨as, C, hrun, hlen,
    (startup_forms_ring (p := two_peers) HASH_JEN le_rfl (by decide) (by decide) hrun).2.2.1 hlen⟩

end ChordPeer
