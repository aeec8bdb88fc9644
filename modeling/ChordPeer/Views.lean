/-
  Two views of one boundary — a peer forwards a request because of its own
  `next`, and the next peer serves it because of its own `prev`; joins change
  the two at different times.

  * `neighbour_cases`: what a peer with both neighbours can do on a join, a
    notify or a stabilize;
  * `forwarded_served`: in every state that such messages lead to from a
    consistent ring, a request forwarded to a member of the ring is served
    there if and only if its hash is above the `prev` of that member.  Until
    the member has taken a join this is so, and also where joins are those that
    `join` sends, but only because no record ever changes then.
-/
import ChordPeer.Joining

namespace ChordPeer

open Cyclic MessagePassing PeerProtocol

/-- A message by which neighbour records change. -/
inductive NeighbourMessage (m : List UInt8) : Prop where
  | join (h : Message JOIN_MESSAGE m)
  | notify (h : Message NOTIFY_MESSAGE m)
  | stabilize (h : Message STABILIZE_MESSAGE m)

/-- What a peer with the neighbours `nx` and `pv` can do on such a message. -/
inductive NeighbourStep (g : Globals) (nx pv : Peer) (m : List UInt8) :
    Globals → List Packet → Prop where
  | accept (hm : Message JOIN_MESSAGE m) (h : g.peer_info.owns (parse m).hashId = true) :
      NeighbourStep g nx pv m (g.with_prev (parse m))
        [⟨(parse m).node, (notify_request .zero g.peer_info.this).wire⟩]
  | forward (hm : Message JOIN_MESSAGE m) (h : g.peer_info.owns (parse m).hashId = false) :
      NeighbourStep g nx pv m g [⟨nx.addr, m⟩]
  | notify (hm : Message NOTIFY_MESSAGE m) : NeighbourStep g nx pv m (g.with_next (parse m)) []
  | stabilize_prev (hm : Message STABILIZE_MESSAGE m) (h : (parse m).nodeId = pv.id)
      (hb : g.peer_info.this.is_base = 0) :
      NeighbourStep g nx pv m g [⟨nx.addr, (stabilize_request .zero g.peer_info.this).wire⟩]
  | stabilize_other (hm : Message STABILIZE_MESSAGE m)
      (h : ¬ ((parse m).nodeId = pv.id ∧ g.peer_info.this.is_base = 0)) :
      NeighbourStep g nx pv m g [⟨(parse m).node, (notify_request .zero pv).wire⟩]

section
variable {hash : List UInt8 → UInt32} {g g' : Globals} {nx pv : Peer} {m : List UInt8}
  {out : List Packet}

/-- **Neighbour messages, case by case.** -/
theorem neighbour_cases (hn : g.peer_info.next = some nx) (hv : g.peer_info.prev = some pv)
    (hm : NeighbourMessage m) (h : Handles hash zeroed g m g' out) :
    NeighbourStep g nx pv m g' out := by
  cases hm with
  | join hm =>
    have hstep := step_join .zero hm hn hv
    cases ho : g.peer_info.owns (parse m).hashId with
    | true =>
      rw [ho] at hstep
      obtain ⟨rfl, rfl⟩ := (handles_unique hm (by decide) hstep).1 h
      have hg : g.with_prev (parse m) = { g with peer_info := { g.peer_info with
          prev := some (pv.assign (parse m)) } } := by
        simp [Globals.with_prev, hv]
      rw [← hg]
      exact .accept hm ho
    | false =>
      rw [ho] at hstep
      obtain ⟨rfl, rfl⟩ := (handles_unique hm (by decide) hstep).1 h
      exact .forward hm ho
  | notify hm =>
    obtain ⟨rfl, rfl⟩ := (handles_unique hm (by decide) (step_notify .zero hm hn)).1 h
    have hg : g.with_next (parse m) = { g with peer_info := { g.peer_info with
        next := some (nx.assign (parse m)) } } := by
      simp [Globals.with_next, hn]
    rw [← hg]
    exact .notify hm
  | stabilize hm =>
    by_cases hp : (parse m).nodeId = pv.id ∧ g.peer_info.this.is_base = 0
    · obtain ⟨rfl, rfl⟩ :=
        (handles_unique hm (by decide) (step_stabilize_prev .zero hm hn hv hp.1 hp.2)).1 h
      exact .stabilize_prev hm hp.1 hp.2
    · obtain ⟨rfl, rfl⟩ :=
        (handles_unique hm (by decide) (step_stabilize_other .zero hm hv hp)).1 h
      exact .stabilize_other hm hp

/-- A step keeps both neighbours set and this peer's own record, and sends
    messages of the same kind. -/
theorem NeighbourStep.kept (hn : g.peer_info.next = some nx) (hv : g.peer_info.prev = some pv)
    (h : NeighbourStep g nx pv m g' out) :
    g'.peer_info.next.isSome ∧ g'.peer_info.prev.isSome ∧
      g'.peer_info.this = g.peer_info.this ∧ ∀ q ∈ out, NeighbourMessage q.data := by
  cases h with
  | accept hm =>
    refine ⟨by simp [Globals.with_prev, hn], by simp [Globals.with_prev, hv], rfl, ?_⟩
    simpa using .notify (notify_request_message _)
  | forward hm => exact ⟨by simp [hn], by simp [hv], rfl, by simpa using .join hm⟩
  | notify hm => exact ⟨by simp [Globals.with_next, hn], by simp [Globals.with_next, hv], rfl, by simp⟩
  | stabilize_prev hm =>
    refine ⟨by simp [hn], by simp [hv], rfl, ?_⟩
    simpa using .stabilize (stabilize_request_message _)
  | stabilize_other hm =>
    refine ⟨by simp [hn], by simp [hv], rfl, ?_⟩
    simpa using .notify (notify_request_message _)

/-- Only a join changes `prev`. -/
theorem NeighbourStep.prev (hno : ¬ Message JOIN_MESSAGE m) (h : NeighbourStep g nx pv m g' out) :
    g'.peer_info.prev = g.peer_info.prev := by
  cases h with
  | accept hm => exact absurd hm hno
  | forward => rfl
  | notify => rfl
  | stabilize_prev => rfl
  | stabilize_other => rfl

end

/-! ## Runs of neighbour messages -/

section
variable {n : ℕ} (hash : List UInt8 → UInt32) (G : Fin n → Globals)

/-- The network of the peers `G`, where any such message may come from outside. -/
def neighbour_ring : System (Fin n) Globals Packet :=
  ring hash zeroed (fun i => (G i).addr) fun p => NeighbourMessage p.data

/-- Both neighbours are set and the peer's own record is its first one. -/
structure Settled (i : Fin n) (g : Globals) : Prop where
  next : g.peer_info.next.isSome
  prev : g.peer_info.prev.isSome
  this : g.peer_info.this = (G i).peer_info.this

variable {hash G}

theorem settled_step {i : Fin n} {g g' : Globals} {p : Packet} {out : List Packet}
    (hg : Settled G i g) (hp : NeighbourMessage p.data)
    (h : (neighbour_ring hash G).handles i g p g' out) :
    Settled G i g' ∧ ∀ q ∈ out, NeighbourMessage q.data := by
  obtain ⟨nx, hn⟩ := Option.isSome_iff_exists.1 hg.next
  obtain ⟨pv, hv⟩ := Option.isSome_iff_exists.1 hg.prev
  obtain ⟨h₁, h₂, h₃, h₄⟩ := (neighbour_cases hn hv hp h.2).kept hn hv
  exact ⟨⟨h₁, h₂, h₃.trans hg.this⟩, h₄⟩

theorem settled_run {C C' : Config (Fin n) Globals Packet} {as : List (Act (Fin n) Packet)}
    (hC : Locally (Settled G) (fun p : Packet => NeighbourMessage p.data) C)
    (h : Run (neighbour_ring hash G) C as C') :
    Locally (Settled G) (fun p : Packet => NeighbourMessage p.data) C' :=
  h.invariant_local (fun _ hp => hp) (fun _ _ _ _ _ => settled_step) hC

/-- A peer that takes no join keeps its `prev`. -/
theorem prev_kept {C C' : Config (Fin n) Globals Packet} {as : List (Act (Fin n) Packet)}
    (hC : Locally (Settled G) (fun p : Packet => NeighbourMessage p.data) C)
    (h : Run (neighbour_ring hash G) C as C') {s : Fin n}
    (hno : ∀ p out, .deliver s p out ∈ as → ¬ Message JOIN_MESSAGE p.data) :
    (C'.node s).peer_info.prev = (C.node s).peer_info.prev := by
  induction h with
  | nil => rfl
  | cons hstep _ ih =>
    have hC' := hstep.locally (fun _ hp => hp) (fun _ _ _ _ _ => settled_step) hC
    rw [ih hC' fun p out hin => hno p out (List.mem_cons_of_mem _ hin)]
    cases hstep with
    | enter => rfl
    | @deliver node flight i p g' out h =>
      by_cases hs : s = i
      · subst hs
        obtain ⟨nx, hn⟩ := Option.isSome_iff_exists.1 (hC.node s).next
        obtain ⟨pv, hv⟩ := Option.isSome_iff_exists.1 (hC.node s).prev
        have hp := hC.flight p (Multiset.mem_cons_self _ _)
        simpa using (neighbour_cases hn hv hp h.2).prev (hno p out List.mem_cons_self)
      · simp [hs]

variable [NeZero n]

/-- The messages that `join` sends for a new peer, and `stabilize` for a member
    of the ring. -/
inductive SentMessage (G : Fin n → Globals) : Packet → Prop where
  | join (i : Fin n) (j : Globals) : SentMessage G (packet_to G (join_message j) i)
  | stabilize (i : Fin n) :
      SentMessage G (packet_to G (stabilize_request .zero (G i).peer_info.this).wire (i + 1))

theorem settled_start (hc : Consistent fun i => (G i).peer_info) (i : Fin n) : Settled G i (G i) := by
  obtain ⟨nx, hn, -⟩ := hc.next i
  obtain ⟨pv, hv, -⟩ := hc.prev i
  exact ⟨by simp [hn], by simp [hv], rfl⟩

/-- On these the peers of a consistent ring stay as they are, and send only
    more of them. -/
theorem sent_step (hc : Consistent fun i => (G i).peer_info)
    (hb : ∀ i, (G i).peer_info.this.is_base = 0) {i : Fin n} {g' : Globals} {p : Packet}
    {out : List Packet} (hp : SentMessage G p) (hd : p.dest = (G i).addr)
    (h : Handles hash zeroed (G i) p.data g' out) :
    g' = G i ∧ ∀ q ∈ out, SentMessage G q := by
  obtain ⟨nx, hn, hnx⟩ := hc.next i
  obtain ⟨pv, hv, hpv⟩ := hc.prev i
  have haddr : nx.addr = (G (i + 1)).addr := hnx.addr
  cases hp with
  | join k j =>
    have hno : (G i).peer_info.owns (parse (join_message j)).hashId = false := by
      rw [join_message_parse]
      exact owns_zero _
    have hstep := step_join .zero (join_message_kind j) hn hv
    rw [hno] at hstep
    obtain ⟨rfl, rfl⟩ := (handles_unique (join_message_kind j) (by decide) hstep).1 h
    refine ⟨rfl, fun q hq => ?_⟩
    obtain rfl : q = packet_to G (join_message j) (i + 1) := by
      simpa [packet_to, haddr] using hq
    exact .join (i + 1) j
  | stabilize k =>
    obtain rfl : k + 1 = i := hc.addrs hd
    have hid : (parse (stabilize_request .zero (G k).peer_info.this).wire).nodeId = pv.id := by
      rw [parse_wire (stabilize_request_masked _), hpv.id, add_sub_cancel_right]
      rfl
    have hm := stabilize_request_message (G k).peer_info.this
    obtain ⟨rfl, rfl⟩ :=
      (handles_unique hm (by decide) (step_stabilize_prev .zero hm hn hv hid (hb _))).1 h
    refine ⟨rfl, fun q hq => ?_⟩
    obtain rfl : q = packet_to G (stabilize_request .zero (G (k + 1)).peer_info.this).wire
        (k + 1 + 1) := by
      simpa [packet_to, haddr] using hq
    exact .stabilize (k + 1)

/-- **Forwarded requests.** -/
theorem forwarded_served (hc : Consistent fun i => (G i).peer_info) (hash : List UInt8 → UInt32) :
    (∀ as C, Run (neighbour_ring hash G) ⟨G, 0⟩ as C → ∀ p s h,
      (C.node p).peer_info.owns h = false → (C.node p).peer_info.next_owns h = true →
      Points (C.node p).peer_info.next (C.node s).peer_info.this →
        ∃ pv, (C.node s).peer_info.prev = some pv ∧
          ((C.node s).peer_info.owns h = true ↔ pv.id < h) ∧
          (s = p + 1 → (∀ pk out, .deliver s pk out ∈ as → ¬ Message JOIN_MESSAGE pk.data) →
            (C.node s).peer_info.owns h = true)) ∧
    ((∀ i, (G i).peer_info.this.is_base = 0) →
      ∀ as C, Run (ring hash zeroed (fun i => (G i).addr) (SentMessage G)) ⟨G, 0⟩ as C →
        C.node = G ∧ ∀ p h,
          (C.node p).peer_info.owns h = false → (C.node p).peer_info.next_owns h = true →
            ∃ s, Points (C.node p).peer_info.next (C.node s).peer_info.this ∧
              (C.node s).peer_info.owns h = true) := by
  constructor
  · intro as C hrun p s h _ hfwd hpoints
    have h0 : Locally (Settled G) (fun p : Packet => NeighbourMessage p.data) ⟨G, 0⟩ :=
      ⟨settled_start hc, by simp⟩
    have hC := settled_run h0 hrun
    obtain ⟨pv, hv⟩ := Option.isSome_iff_exists.1 (hC.node s).prev
    obtain ⟨nx, hn, hnx⟩ := hpoints
    have hbetween : (C.node p).peer_info.this.id.toNat < h.toNat ∧
        h.toNat < (C.node s).peer_info.this.id.toNat := by
      rw [PeerInfo.next_owns, hn] at hfwd
      rw [← hnx.id]
      exact id_is_between_iff.1 hfwd
    have hiff : (C.node s).peer_info.owns h = true ↔ pv.id < h := by
      rw [PeerInfo.owns, hv, UInt16.lt_iff_toNat_lt]
      exact id_is_between_iff.trans (and_iff_left hbetween.2)
    refine ⟨pv, hv, hiff, fun hs hno => hiff.2 ?_⟩
    -- `prev` of the next peer still names `p`
    obtain ⟨q, hq, hqp⟩ := hc.prev s
    have hpv : pv = q := by
      have := (prev_kept h0 hrun hno).symm.trans hv
      exact Option.some.inj (this.symm.trans hq)
    subst hs
    rw [add_sub_cancel_right] at hqp
    rw [UInt16.lt_iff_toNat_lt, hpv, hqp.id, ← (hC.node p).this]
    exact hbetween.1
  · intro hb as C hrun
    have htake : ∀ i g q g' out, g = G i → SentMessage G q →
        (ring hash zeroed (fun i => (G i).addr) (SentMessage G)).handles i g q g' out →
        g' = G i ∧ ∀ q ∈ out, SentMessage G q := by
      rintro i g q g' out rfl hq hh
      exact sent_step hc hb hq hh.1 hh.2
    have h0 : Locally (fun i g => g = G i) (SentMessage G) ⟨G, 0⟩ := ⟨fun _ => rfl, by simp⟩
    have hC := hrun.invariant_local (fun _ hp => hp) htake h0
    refine ⟨funext hC.node, fun p h _ hfwd => ?_⟩
    rw [hC.node p] at hfwd ⊢
    refine ⟨p + 1, ?_, ?_⟩
    · rw [hC.node (p + 1)]
      exact hc.next p
    · rw [hC.node (p + 1), ← hc.next_owns p h]
      exact hfwd

end

/-- The two peers after the second one took the join of a node between them. -/
def two_peers_joined : Config (Fin 2) Globals Packet where
  node := second_changed fun g => g.with_prev (parse join_50)
  flight := {⟨(parse join_50).node, (notify_request .zero peer_100).wire⟩}

theorem two_peers_joined_run : Run (neighbour_ring HASH_JEN two_peers_ring) ⟨two_peers_ring, 0⟩
    [.enter (packet_to two_peers_ring join_50 1), .deliver 1 (packet_to two_peers_ring join_50 1)
      [⟨(parse join_50).node, (notify_request .zero peer_100).wire⟩]] two_peers_joined := by
  have h₁ : Step (neighbour_ring HASH_JEN two_peers_ring) ⟨two_peers_ring, 0⟩
      (.enter (packet_to two_peers_ring join_50 1)) _ := .enter (.join join_50_message)
  have hown : (two_peers_ring 1).peer_info.owns (parse join_50).hashId = true := by decide
  have hh : (neighbour_ring HASH_JEN two_peers_ring).handles 1 (two_peers_ring 1)
      (packet_to two_peers_ring join_50 1) ((two_peers_ring 1).with_prev (parse join_50))
      [⟨(parse join_50).node, (notify_request .zero peer_100).wire⟩] :=
    (takes_join_accept two_peers_consistent join_50_message HASH_JEN hown).handles
  have h₂ : Step (neighbour_ring HASH_JEN two_peers_ring)
      ⟨two_peers_ring, packet_to two_peers_ring join_50 1 ::ₘ 0⟩ _ two_peers_joined :=
    .deliver hh
  exact .cons h₁ (.cons h₂ .nil)

theorem forwarded_served_two_peers : (two_peers_joined.node 1).peer_info.owns 70 = true := by
  obtain ⟨pv, hv, hiff, -⟩ := (forwarded_served (G := two_peers_ring) two_peers_consistent
    HASH_JEN).1 _ _ two_peers_joined_run 0 1 70 (by decide) (by decide) ⟨peer_100, rfl, rfl, rfl, rfl⟩
  obtain rfl : peer_10.assign (parse join_50) = pv := Option.some.inj hv
  exact hiff.2 (by decide)

/-- The first peer still forwards the request 30, which the second one no
    longer serves. -/
theorem not_forwarded_served : ¬ ∀ (n : ℕ) (_ : NeZero n) (hash : List UInt8 → UInt32)
    (G : Fin n → Globals), Consistent (fun i => (G i).peer_info) →
    ∀ as C, Run (neighbour_ring hash G) ⟨G, 0⟩ as C → ∀ p s h,
      (C.node p).peer_info.owns h = false → (C.node p).peer_info.next_owns h = true →
      Points (C.node p).peer_info.next (C.node s).peer_info.this →
      (C.node s).peer_info.owns h = true := by
  intro hall
  have h := hall 2 inferInstance HASH_JEN two_peers_ring two_peers_consistent _ _
    two_peers_joined_run 0 1 30 (by decide) (by decide) ⟨peer_100, rfl, rfl, rfl, rfl⟩
  revert h
  decide

end ChordPeer
