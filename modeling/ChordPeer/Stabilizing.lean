/-
  Stabilizing a consistent ring — peers that send stabilize messages to their
  next peer, and what the handlers make of them.

  A peer that gets a stabilize from the one its `prev` names passes it on in
  its own name, unless its `is_base` is set; then it answers with a notify.

  * `stabilize_keeps_ring`: with no `is_base` set nothing else ever happens,
    and every neighbour record stays as it is;
  * `round_rests_iff`: so a round of stabilize messages comes to rest exactly
    when some peer has `is_base` set, which `main` never does.
-/
import ChordPeer.Joining
import ChordPeer.Lib.Machine

namespace ChordPeer

open Cyclic MessagePassing PeerProtocol

/-- The message of a peer that stabilizes. -/
def PeerInfo.stabilize_packet (i : PeerInfo) : Option Packet :=
  i.next.map fun nx => ⟨nx.addr, (stabilize_request .zero i.this).wire⟩

/-- `stabilize`, called with the next peer and the own record over a zero stack,
    sends it. -/
theorem stabilize_run {env : Env} (hs : env.stack = .zero) {s : Proc} {nx : Peer}
    (hn : s.globals.peer_info.next = some nx) :
    ∃ p, s.globals.peer_info.stabilize_packet = some p ∧
      (stabilize env nx.ip nx.port s.globals.peer_info.this).run s = .ok ((), s.sent env p) := by
  refine ⟨_, by rw [PeerInfo.stabilize_packet, hn]; rfl, ?_⟩
  rw [stabilize, send_peerProtocol_run, hs]
  rfl

/-! ## One stabilize message -/

section
variable {n : ℕ} [NeZero n]

/-- The stabilize message to peer `i` from the peer before it. -/
def stabilize_to (G : Fin n → Globals) (i : Fin n) : Packet :=
  packet_to G (stabilize_request .zero (G (i - 1)).peer_info.this).wire i

variable {G : Fin n → Globals} (hc : Consistent fun i => (G i).peer_info)
include hc

/-- In a consistent ring a peer stabilizes at the one after it. -/
theorem stabilize_packet_eq (i : Fin n) :
    (G i).peer_info.stabilize_packet = some (stabilize_to G (i + 1)) := by
  obtain ⟨nx, hn, hnx⟩ := hc.next i
  have haddr : nx.addr = (G (i + 1)).addr := hnx.addr
  rw [PeerInfo.stabilize_packet, hn, stabilize_to, packet_to, add_sub_cancel_right, ← haddr]
  rfl

omit hc in
/-- What a stabilize message looks like to its receiver. -/
theorem stabilize_to_parse (G : Fin n → Globals) (i : Fin n) : Message STABILIZE_MESSAGE (stabilize_to G i).data ∧
    parse (stabilize_to G i).data = stabilize_request .zero (G (i - 1)).peer_info.this :=
  ⟨stabilize_request_message _, parse_wire (stabilize_request_masked _)⟩

variable (hash : List UInt8 → UInt32)

/-- A peer that is no base passes it on. -/
theorem takes_stabilize {i : Fin n} (hb : (G i).peer_info.this.is_base = 0) :
    Takes (closed_ring hash zeroed G) G (stabilize_to G i) i (G i) [stabilize_to G (i + 1)] := by
  obtain ⟨hm, hp⟩ := stabilize_to_parse G i
  obtain ⟨nx, hn, -⟩ := hc.next i
  obtain ⟨pv, hv, hpv⟩ := hc.prev i
  have hid : (parse (stabilize_to G i).data).nodeId = pv.id := by
    rw [hp]
    exact hpv.id.symm
  have hnext := stabilize_packet_eq hc i
  rw [PeerInfo.stabilize_packet, hn, Option.map_some, Option.some.injEq] at hnext
  refine takes_peer hc.addrs (Set.singleton_nonempty _) hm (by decide) fun stack hs => ?_
  rw [step_stabilize_prev stack hm hn hv hid hb, Set.mem_singleton_iff.1 hs, hnext]

/-- A base answers it with a notify that names the sender. -/
theorem takes_stabilize_base {i : Fin n} (hb : (G i).peer_info.this.is_base ≠ 0) :
    ∃ pv : Peer, pv.Names (G (i - 1)).peer_info.this ∧
      Takes (closed_ring hash zeroed G) G (stabilize_to G i) i (G i)
        [packet_to G (notify_request .zero pv).wire (i - 1)] := by
  obtain ⟨hm, hp⟩ := stabilize_to_parse G i
  obtain ⟨pv, hv, hpv⟩ := hc.prev i
  refine ⟨pv, hpv, takes_peer hc.addrs (Set.singleton_nonempty _) hm (by decide) fun stack hs => ?_⟩
  rw [step_stabilize_other stack hm hv fun h => hb h.2, Set.mem_singleton_iff.1 hs, hp]
  rfl

/-- And the notify ends the round. -/
theorem takes_notify (p : Peer) (i : Fin n) :
    ∃ g, Takes (closed_ring hash zeroed G) G (packet_to G (notify_request .zero p).wire i) i g [] := by
  have hm := notify_request_message p
  obtain ⟨nx, hn, -⟩ := hc.next i
  exact ⟨_, takes_peer hc.addrs (Set.singleton_nonempty _) hm (by decide) fun stack _ =>
    step_notify stack hm hn⟩

end

/-! ## Runs in which peers stabilize -/

inductive RingAct (n : ℕ) where
  /-- peer `i` sends a stabilize message to its next peer -/
  | stabilize (i : Fin n)
  | handle (a : Act (Fin n) Packet)

/-- What may happen in the ring: a peer stabilizes, by the records it has then,
    or a peer handles a message in flight. -/
inductive RingStep {n : ℕ} (hash : List UInt8 → UInt32) (G : Fin n → Globals) :
    Config (Fin n) Globals Packet → RingAct n → Config (Fin n) Globals Packet → Prop where
  | stabilize {node flight i p} (h : (node i).peer_info.stabilize_packet = some p) :
      RingStep hash G ⟨node, flight⟩ (.stabilize i) ⟨node, p ::ₘ flight⟩
  | handle {C a C'} (h : Step (closed_ring hash zeroed G) C a C') : RingStep hash G C (.handle a) C'

/-- No notify is sent. -/
def RingAct.Quiet {n : ℕ} : RingAct n → Prop
  | .handle (.deliver _ _ out) => ∀ q ∈ out, (parse q.data).notify = 0
  | _ => True

section
variable {n : ℕ} [NeZero n] {G : Fin n → Globals}

/-- The records of all peers as at the start, and in flight stabilize messages
    of peers to the next one. -/
structure Stabilizing (G : Fin n → Globals) (C : Config (Fin n) Globals Packet) : Prop where
  node : C.node = G
  flight : ∀ p ∈ C.flight, ∃ i, p = stabilize_to G i

theorem RingStep.stabilizing {hash : List UInt8 → UInt32}
    (hc : Consistent fun i => (G i).peer_info) (hb : ∀ i, (G i).peer_info.this.is_base = 0)
    {C C' : Config (Fin n) Globals Packet} {a : RingAct n} (hC : Stabilizing G C)
    (h : RingStep hash G C a C') : Stabilizing G C' ∧ a.Quiet := by
  obtain ⟨hnode, hflight⟩ := hC
  cases h with
  | @stabilize node flight i p h =>
    obtain rfl : node = G := hnode
    rw [stabilize_packet_eq hc, Option.some.injEq] at h
    refine ⟨⟨rfl, fun q hq => ?_⟩, trivial⟩
    rcases Multiset.mem_cons.1 hq with rfl | hq
    · exact ⟨i + 1, h.symm⟩
    · exact hflight q hq
  | handle h =>
    cases h with
    | enter h => exact absurd h id
    | @deliver node flight j p s out h =>
      obtain rfl : node = G := hnode
      obtain ⟨i, rfl⟩ := hflight p (Multiset.mem_cons_self _ _)
      obtain ⟨rfl, rfl, rfl⟩ := (takes_stabilize hc hash (hb i)).only _ _ _ h
      refine ⟨⟨Function.update_eq_self _ _, fun q hq => ?_⟩, fun q hq => ?_⟩
      · rcases Multiset.mem_add.1 hq with hq | hq
        · exact ⟨j + 1, List.mem_singleton.1 hq⟩
        · exact hflight q (Multiset.mem_cons_of_mem hq)
      · obtain rfl : q = stabilize_to node (j + 1) := List.mem_singleton.1 hq
        rw [(stabilize_to_parse node (j + 1)).2]
        rfl

theorem two_peers_no_base : ∀ i, (two_peers_ring i).peer_info.this.is_base = 0
  | 0 => rfl
  | 1 => rfl

/-- **Stabilizing leaves a consistent ring alone.** -/
theorem stabilize_keeps_ring (hash : List UInt8 → UInt32)
    (hc : Consistent fun i => (G i).peer_info) (hb : ∀ i, (G i).peer_info.this.is_base = 0)
    {C : Config (Fin n) Globals Packet} {as : List (RingAct n)}
    (h : Machine.Trace (RingStep hash G) ⟨G, 0⟩ as C) :
    C.node = G ∧ (∀ a ∈ as, a.Quiet) ∧
      ∀ p ∈ C.flight, Message STABILIZE_MESSAGE p.data ∧ ∃ i, p.dest = (G (i + 1)).addr ∧
        (parse p.data).nodeId = (G i).peer_info.this.id ∧ (parse p.data).node = (G i).addr := by
  have h0 : Stabilizing G ⟨G, 0⟩ := ⟨rfl, fun p hp => absurd hp (Multiset.notMem_zero p)⟩
  obtain ⟨⟨hnode, hflight⟩, hquiet⟩ :=
    h.acts (I := Stabilizing G) (fun _ _ _ hC hs => hs.stabilizing hc hb hC) h0
  refine ⟨hnode, hquiet, fun p hp => ?_⟩
  obtain ⟨i, rfl⟩ := hflight p hp
  obtain ⟨hm, hparse⟩ := stabilize_to_parse G i
  refine ⟨hm, i - 1, by rw [sub_add_cancel]; rfl, ?_, ?_⟩
  · rw [hparse]
    rfl
  · rw [hparse]
    rfl

/-- The second of two peers handles the message of the first, and passes it on. -/
theorem stabilize_keeps_ring_two_peers : ∃ C,
    Machine.Trace (RingStep HASH_JEN two_peers_ring) ⟨two_peers_ring, 0⟩
      [.stabilize 0, .handle (.deliver 1 (stabilize_to two_peers_ring 1) [stabilize_to two_peers_ring 0])]
      C ∧
    C.node = two_peers_ring ∧ C.flight = {stabilize_to two_peers_ring 0} ∧
      ∀ p ∈ C.flight, Message STABILIZE_MESSAGE p.data := by
  have htakes := takes_stabilize two_peers_consistent HASH_JEN (two_peers_no_base 1)
  have hsend : RingStep HASH_JEN two_peers_ring ⟨two_peers_ring, 0⟩ (.stabilize 0)
      ⟨two_peers_ring, stabilize_to two_peers_ring 1 ::ₘ 0⟩ := .stabilize rfl
  have hhandle : RingStep HASH_JEN two_peers_ring
      ⟨two_peers_ring, stabilize_to two_peers_ring 1 ::ₘ 0⟩
      (.handle (.deliver 1 (stabilize_to two_peers_ring 1) [stabilize_to two_peers_ring 0]))
      ⟨Function.update two_peers_ring 1 (two_peers_ring 1), ↑[stabilize_to two_peers_ring 0] + 0⟩ :=
    .handle (.deliver htakes.handles)
  have hrun := Machine.Trace.cons hsend (.cons hhandle .nil)
  obtain ⟨hnode, -, hflight⟩ :=
    stabilize_keeps_ring HASH_JEN two_peers_consistent two_peers_no_base hrun
  exact ⟨_, hrun, hnode, rfl, fun p hp => (hflight p hp).1⟩

/-! ## A round -/

section
variable (hc : Consistent fun i => (G i).peer_info) (hash : List UInt8 → UInt32)
include hc

/-- The peers up to the first base pass a stabilize message on. -/
theorem round_passed {i : Fin n} {k : ℕ}
    (hk : ∀ j < k, (G ((· + 1)^[j] i)).peer_info.this.is_base = 0) :
    ∀ j < k, Takes (closed_ring hash zeroed G) G (stabilize_to G ((· + 1)^[j] i))
      ((· + 1)^[j] i) (G ((· + 1)^[j] i)) [stabilize_to G ((· + 1)^[j + 1] i)] := by
  intro j hj
  rw [Function.iterate_succ_apply']
  exact takes_stabilize hc hash (hk j hj)

/-- With a base in the ring a round ends there, with a notify. -/
theorem round_ends {b : Fin n} (hb : (G b).peer_info.this.is_base ≠ 0) {i : Fin n}
    {as : List (Act (Fin n) Packet)} {C : Config (Fin n) Globals Packet}
    (h : Run (closed_ring hash zeroed G) ⟨G, stabilize_to G i ::ₘ 0⟩ as C) :
    as.length ≤ n + 1 := by
  have hS : ∀ p, ¬ (closed_ring hash zeroed G).enters p := fun _ h => h
  have h0 : ∀ q ∈ (0 : Multiset Packet), Inert (closed_ring hash zeroed G) q := by simp
  -- the first base that the message comes to
  have hex : ∃ k, (G ((· + 1)^[k] i)).peer_info.this.is_base ≠ 0 :=
    ⟨hops i b, by rw [ahead_hops]; exact hb⟩
  obtain ⟨k, hk, hmin, hle⟩ : ∃ k, (G ((· + 1)^[k] i)).peer_info.this.is_base ≠ 0 ∧
      (∀ j < k, (G ((· + 1)^[j] i)).peer_info.this.is_base = 0) ∧ k ≤ hops i b :=
    ⟨Nat.find hex, Nat.find_spec hex, fun j hj => not_not.1 (Nat.find_min hex hj),
      Nat.find_min' hex (by rw [ahead_hops]; exact hb)⟩
  have hkn : k < n := hle.trans_lt (hops_lt i b)
  have hpass := round_passed hc hash hmin
  rcases Run.relays hpass hS h0 h with ⟨j, hj, rfl, -⟩ | ⟨as', rfl, hbase⟩
  · rw [relays_length]
    omega
  rw [List.length_append, relays_length]
  -- it answers, and the answer is taken
  obtain ⟨pv, -, hans⟩ := takes_stabilize_base hc hash hk
  rcases hbase.takes hS h0 hans with ⟨rfl, -⟩ | ⟨as', rfl, hanswer⟩
  · simp only [List.length_nil]
    omega
  rw [Function.update_eq_self] at hanswer
  obtain ⟨g, hnotify⟩ := takes_notify hc hash pv ((· + 1)^[k] i - 1)
  rcases hanswer.takes hS h0 hnotify with ⟨rfl, -⟩ | ⟨as', rfl, hrest⟩
  · simp only [List.length_cons, List.length_nil]
    omega
  obtain ⟨rfl, -⟩ := hrest.inert hS h0
  simp only [List.length_cons, List.length_nil]
  omega

/-- Without one it goes on for ever. -/
theorem round_goes_on (hb : ∀ j, (G j).peer_info.this.is_base = 0) {frames : Set PeerProtocol}
    (hf : PeerProtocol.zero ∈ frames) (i : Fin n) (k : ℕ) :
    ∃ as C, Run (closed_ring hash frames G) ⟨G, stabilize_to G i ::ₘ 0⟩ as C ∧ as.length = k := by
  have hrun := run_relays (round_passed hc hash (i := i) (k := k) fun j _ => hb _) 0
  have hhandles : ∀ j g p g' out, (closed_ring hash zeroed G).handles j g p g' out →
      (closed_ring hash frames G).handles j g p g' out := by
    rintro j g p g' out ⟨hd, env, rest, sock, kernel, s', ha, hs, hrest⟩
    rw [Set.mem_singleton_iff] at hs
    exact ⟨hd, env, rest, sock, kernel, s', ha, hs ▸ hf, hrest⟩
  exact ⟨_, _, hrun.mono (fun _ h => h) hhandles, relays_length _ _ _ _⟩

end

/-- **When a round comes to rest.**  The messages that a stabilize of peer `i`
    causes are at most `n + 1`, itself included, exactly when some peer is a
    base; if none is, every number of messages is reached, whatever else the
    stacks of the senders may hold. -/
theorem round_rests_iff (hash : List UInt8 → UInt32) (hc : Consistent fun i => (G i).peer_info)
    (i : Fin n) :
    ((∀ as C, Run (closed_ring hash zeroed G) ⟨G, {stabilize_to G (i + 1)}⟩ as C →
        as.length ≤ n + 1) ↔ ∃ j, (G j).peer_info.this.is_base ≠ 0) ∧
    ((∀ j, (G j).peer_info.this.is_base = 0) → ∀ frames, PeerProtocol.zero ∈ frames → ∀ k,
      ∃ as C, Run (closed_ring hash frames G) ⟨G, {stabilize_to G (i + 1)}⟩ as C ∧
        as.length = k) := by
  refine ⟨⟨fun h => ?_, ?_⟩, fun hb frames hf k => round_goes_on hc hash hb hf _ k⟩
  · by_contra hno
    have hb : ∀ j, (G j).peer_info.this.is_base = 0 := fun j => not_not.1 fun hj => hno ⟨j, hj⟩
    obtain ⟨as, C, hrun, hlen⟩ := round_goes_on hc hash hb (Set.mem_singleton _) (i + 1) (n + 2)
    have := h as C hrun
    omega
  · rintro ⟨b, hb⟩ as C h
    exact round_ends hc hash hb h

theorem round_rests_iff_two_peers :
    ¬ ∀ as C, Run (closed_ring HASH_JEN zeroed two_peers_ring)
      ⟨two_peers_ring, {stabilize_to two_peers_ring 1}⟩ as C → as.length ≤ 3 := by
  intro h
  obtain ⟨j, hj⟩ := (round_rests_iff HASH_JEN two_peers_consistent 0).1.1 h
  exact hj (two_peers_no_base j)

/-- A round in a ring as `main` sets it up takes more than `n + 1` messages. -/
theorem not_round_rests : ¬ ∀ (n : ℕ) (_ : NeZero n) (G : Fin n → Globals) (i : Fin n),
    (Consistent fun j => (G j).peer_info) →
    (∀ j, (G j).peer_info.this.is_base = 0 ∧ (G j).peer_info.this.next_finger = none) →
    ∀ as C, Run (closed_ring HASH_JEN zeroed G) ⟨G, {stabilize_to G (i + 1)}⟩ as C →
      as.length ≤ n + 1 := by
  intro h
  have hmain : ∀ j, (two_peers_ring j).peer_info.this.is_base = 0 ∧
      (two_peers_ring j).peer_info.this.next_finger = none
    | 0 => ⟨rfl, rfl⟩
    | 1 => ⟨rfl, rfl⟩
  obtain ⟨as, C, hrun, hlen⟩ := round_goes_on two_peers_consistent HASH_JEN two_peers_no_base
    (Set.mem_singleton _) (0 + 1) 4
  have hshort := h 2 inferInstance two_peers_ring 0 two_peers_consistent hmain as C hrun
  omega

end

end ChordPeer
