/-
  Where what the peers hold comes from, whatever messages are handled where and
  in which order.

  * `stored_was_sent`: an element of a store has the key and the value of a
    `SET` that came in from a client;
  * `members_only`: where the messages that come in name peers of the network,
    whatever else they are, so do all neighbour records and all messages in
    flight, and nothing is sent anywhere else.
-/
import ChordPeer.Codec
import ChordPeer.Handling
import ChordPeer.Ownership
import ChordPeer.Addresses
import ChordPeer.Joining

namespace ChordPeer

open CBytes MessagePassing PeerProtocol

/-! ## What a message brings into a store -/

section
variable {t t' : HashTable} {d : ClientProtocol} {out : List (List UInt8)}

/-- Nothing is stored but by a `SET`. -/
theorem respond_updates_reads (hs : d.set = 0) (h : respond_updates t d = .ok (t', out)) :
    ∀ e ∈ t', e ∈ t := by
  simp only [respond_updates, hs, ne_eq, not_true_eq_false, if_false] at h
  intro e he
  split at h
  · split at h
    · cases h
    · next hd =>
      cases h
      exact HashTable.mem_delete_element hd he
  · cases h
    exact he

theorem respond_reads (hs : d.set = 0) (h : respond t d = .ok (t', out)) : ∀ e ∈ t', e ∈ t := by
  unfold respond at h
  split at h
  · split at h
    · cases h
      exact fun _ he => he
    · dsimp only at h
      split at h
      · cases h
      · next hu =>
        cases h
        exact respond_updates_reads (d := found_element d _) hs hu
  · exact respond_updates_reads hs h

end

/-- The message is a `SET` of the element. -/
structure Sets (m : List UInt8) (e : HashElement) : Prop where
  client : (PeerProtocol.parse m).control = 0
  set : (ClientProtocol.parse m).set ≠ 0
  key : e.key = (ClientProtocol.parse m).key
  value : e.value = (ClientProtocol.parse m).value
  value_length : e.value_length = (ClientProtocol.parse m).value_length

/-! ## What a peer sends -/

/-- The message names the peer. -/
structure PeerProtocol.Names (d : PeerProtocol) (q : Peer) : Prop where
  id : d.nodeId = q.id
  ip : d.nodeIp = q.ip
  port : d.nodePort = q.port

theorem PeerProtocol.Names.node {d : PeerProtocol} {q : Peer} (h : d.Names q) : d.node = q.addr := by
  rw [PeerProtocol.node, Peer.addr, h.ip, h.port]

theorem PeerProtocol.Names.wire {d : PeerProtocol} {q : Peer} (h : d.Names q) :
    (parse d.wire).Names q := by
  obtain ⟨-, hid, hip, hport⟩ := parse_wire_numbers d
  exact ⟨hid.trans h.id, hip.trans h.ip, hport.trans h.port⟩

/-- Whatever the other flags are. -/
theorem wire_control {d : PeerProtocol} (hc : d.control = CONTROL_BIT) :
    (parse d.wire).control ≠ 0 := by
  have hflags : d.flags &&& CONTROL_BIT = CONTROL_BIT := by
    simp only [flags, hc, UInt8.or_assoc]
    exact or_and_absorb CONTROL_BIT _
  rw [parse, wire, decode_peerProtocol_ofList, hflags]
  show CONTROL_BIT ≠ 0
  decide

section
variable {stack d : PeerProtocol} {i i' : PeerInfo} {raw : List UInt8} {out : List Packet}
  {p : Packet} {q : Peer}

/-- A peer passes a message on, or makes one that names itself or a neighbour. -/
theorem step_sends (h : Peer.step stack i d raw = .ok (i', out)) (hp : p ∈ out) :
    p.data = raw ∨ ∃ e : PeerProtocol, p.data = e.wire ∧ e.control = CONTROL_BIT ∧
      (i.this.next_finger = none → ∃ q, e.Names q ∧ (q = i.this ∨ i.Neighbour q)) := by
  cases Peer.step_inv h with
  | ignored | notify | stabilize_first => exact absurd hp List.not_mem_nil
  | fingers _ _ hf =>
    obtain ⟨k, -, rfl⟩ := List.mem_map.1 hp
    refine .inr ⟨_, rfl, rfl, fun hnone => ?_⟩
    rw [hnone] at hf
    cases hf
  | join_passed | lookup_passed =>
    rw [List.mem_singleton.1 hp]
    exact .inl rfl
  | join_first | join_taken | stabilize_passed =>
    rw [List.mem_singleton.1 hp]
    exact .inr ⟨_, rfl, rfl, fun _ => ⟨_, ⟨rfl, rfl, rfl⟩, .inl rfl⟩⟩
  | stabilize_answered _ hv =>
    rw [List.mem_singleton.1 hp]
    exact .inr ⟨_, rfl, rfl, fun _ => ⟨_, ⟨rfl, rfl, rfl⟩, .inr (.inr hv)⟩⟩
  | lookup_found _ hn =>
    rw [List.mem_singleton.1 hp]
    exact .inr ⟨_, rfl, rfl, fun _ => ⟨_, ⟨rfl, rfl, rfl⟩, .inr (.inl hn)⟩⟩

/-- A neighbour record that is new names what the message names. -/
theorem InfoStep.names (h : InfoStep i d i') (hq : i'.Neighbour q) : d.Names q ∨ i.Neighbour q := by
  cases h with
  | none => exact .inr hq
  | both =>
    rcases hq with hq | hq <;> cases hq <;> exact .inl ⟨rfl, rfl, rfl⟩
  | prev | prev_new =>
    rcases hq with hq | hq
    · exact .inr (.inl hq)
    · cases hq
      exact .inl ⟨rfl, rfl, rfl⟩
  | next =>
    rcases hq with hq | hq
    · cases hq
      exact .inl ⟨rfl, rfl, rfl⟩
    · exact .inr (.inr hq)

end

section
variable {hash : List UInt8 → UInt32} {frames : Set PeerProtocol} {g g' : Globals} {m : List UInt8}
  {out : List Packet}

/-- An element that is new is that of the message. -/
theorem PacketStep.elements
    (h : PacketStep hash frames g m (PeerProtocol.parse m) (ClientProtocol.parse m) g' out)
    {e : HashElement} (he : e ∈ g'.hash_table_head) : e ∈ g.hash_table_head ∨ Sets m e := by
  cases h with
  | peer | forward | drop => exact .inl he
  | own hc _ hr =>
    by_cases hs : (ClientProtocol.parse m).set = 0
    · exact .inl (respond_reads hs hr e he)
    · rcases respond_mem hr he with he | rfl
      · exact .inl he
      · exact .inr ⟨hc, hs, rfl, rfl, rfl⟩

/-- A request that is sent is the one that came. -/
theorem PacketStep.sends (hm : WellFormedMessage m)
    (h : PacketStep hash frames g m (PeerProtocol.parse m) (ClientProtocol.parse m) g' out)
    {q : Packet} (hq : q ∈ out) : WellFormedMessage q.data ∧
      ((PeerProtocol.parse q.data).control = 0 → q.data = m) := by
  cases h with
  | peer hc _ h =>
    rcases step_sends h hq with hraw | ⟨e, he, hcontrol, -⟩
    · rw [hraw]
      exact ⟨hm, fun _ => rfl⟩
    · rw [he]
      exact ⟨.peer rfl (wire_control hcontrol), fun h0 => absurd h0 (wire_control hcontrol)⟩
  | own | drop => exact absurd hq List.not_mem_nil
  | forward =>
    rw [List.mem_singleton.1 hq]
    exact ⟨hm, fun _ => rfl⟩

end

/-! ## Stores -/

section
variable {n : ℕ} {hash : List UInt8 → UInt32} {frames : Set PeerProtocol} {addr : Fin n → Addr}
  {G : Fin n → Globals}

/-- **What is stored was sent.**  Any well-formed messages come in, joins,
    notifies and stabilizes among them: in every state each element of a store
    has the key and the value that a client sent with a `SET`. -/
theorem stored_was_sent (hempty : ∀ i, (G i).hash_table_head = []) {as : List (Act (Fin n) Packet)}
    {C : Config (Fin n) Globals Packet}
    (h : Run (ring hash frames addr fun p => WellFormedMessage p.data) ⟨G, 0⟩ as C) (i : Fin n)
    {e : HashElement} (he : e ∈ (C.node i).hash_table_head) :
    ∃ p, .enter p ∈ as ∧ Sets p.data e := by
  let Came : List UInt8 → Prop := fun m => ∃ p, .enter p ∈ as ∧ p.data = m
  have hall : Locally (fun _ g => ∀ e ∈ g.hash_table_head, ∃ p, .enter p ∈ as ∧ Sets p.data e)
      (fun q => WellFormedMessage q.data ∧ ((PeerProtocol.parse q.data).control = 0 → Came q.data))
      C := by
    refine h.entered.invariant_local (fun p hp => ⟨hp.1, fun _ => ⟨p, hp.2, rfl⟩⟩) ?_
      ⟨fun i e he => ?_, fun p hp => absurd hp (Multiset.notMem_zero p)⟩
    · rintro i g p g' out hg ⟨hm, hcame⟩ ⟨-, hh⟩
      have hstep := hh.cases_wellFormed hm
      refine ⟨fun e he => ?_, fun q hq => ?_⟩
      · rcases hstep.elements he with he | hs
        · exact hg e he
        · obtain ⟨p', hp', hdata⟩ := hcame hs.client
          exact ⟨p', hp', hdata ▸ hs⟩
      · obtain ⟨hwf, hsame⟩ := hstep.sends hm hq
        refine ⟨hwf, fun h0 => ?_⟩
        have hdata := hsame h0
        rw [hdata] at h0 ⊢
        exact hcame h0
    · rw [hempty i] at he
      cases he
  exact hall.node i e he

end

/-- The key that the second peer stores. -/
theorem stored_was_sent_two_peers : ∃ as C, Run (ring (fun _ => 50) {.zero}
      (fun i => (two_peers_ring i).addr) fun p => WellFormedMessage p.data) ⟨two_peers_ring, 0⟩ as C ∧
    ∃ p, .enter p ∈ as ∧ Sets p.data ⟨[0x6b], [0x76], 1⟩ := by
  have hh : Handles (fun _ => 50) {.zero} (two_peers_ring 1) set_request
      { two_peers_ring 1 with hash_table_head := [⟨[0x6b], [0x76], 1⟩] } [] :=
    handles_own (by decide) (by decide) (by decide) rfl (Set.singleton_nonempty _)
  have hrun : Run (ring (fun _ => 50) {.zero} (fun i => (two_peers_ring i).addr)
      fun p => WellFormedMessage p.data) ⟨two_peers_ring, 0⟩
      [.enter (packet_to two_peers_ring set_request 1),
        .deliver 1 (packet_to two_peers_ring set_request 1) []] two_peers_stored :=
    .cons (.enter set_request_keeps.wellFormed) (.cons (.deliver ⟨rfl, hh⟩) .nil)
  exact ⟨_, _, hrun, stored_was_sent (fun _ => rfl) hrun 1 List.mem_cons_self⟩

/-! ## Names -/

section
variable {n : ℕ} {G : Fin n → Globals}

/-- The record names a peer of the network. -/
def IsMember (G : Fin n → Globals) (q : Peer) : Prop := ∃ i, q.Names (G i).peer_info.this

/-- A peer as at the start but for its neighbours, and these are peers of the
    network. -/
structure Known (G : Fin n → Globals) (i : Fin n) (g : Globals) : Prop where
  this : g.peer_info.this = (G i).peer_info.this
  neighbours : ∀ q, g.peer_info.Neighbour q → IsMember G q

/-- A message to a peer of the network, that names one if it is no request. -/
structure Internal (G : Fin n → Globals) (p : Packet) : Prop where
  wellFormed : WellFormedMessage p.data
  dest : ∃ i, p.dest = (G i).addr
  names : (PeerProtocol.parse p.data).control ≠ 0 →
    ∃ i, (PeerProtocol.parse p.data).Names (G i).peer_info.this

theorem IsMember.of_names {d : PeerProtocol} {q : Peer} (hd : ∃ i, d.Names (G i).peer_info.this)
    (hq : d.Names q) : IsMember G q := by
  obtain ⟨i, hi⟩ := hd
  exact ⟨i, hq.id.symm.trans hi.id, hq.ip.symm.trans hi.ip, hq.port.symm.trans hi.port⟩

theorem IsMember.addr {q : Peer} (h : IsMember G q) : ∃ i, q.addr = (G i).addr := by
  obtain ⟨i, hi⟩ := h
  exact ⟨i, hi.addr⟩

theorem IsMember.named {d : PeerProtocol} {q : Peer} (h : IsMember G q) (hd : d.Names q) :
    ∃ i, d.Names (G i).peer_info.this := by
  obtain ⟨i, hi⟩ := h
  exact ⟨i, hd.id.trans hi.id, hd.ip.trans hi.ip, hd.port.trans hi.port⟩

/-- One message. -/
theorem PacketStep.known {hash : List UInt8 → UInt32} {frames : Set PeerProtocol} {i : Fin n}
    {g g' : Globals} {p : Packet} {out : List Packet}
    (hf : (G i).peer_info.this.next_finger = none) (hg : Known G i g) (hp : Internal G p)
    (h : PacketStep hash frames g p.data (PeerProtocol.parse p.data) (ClientProtocol.parse p.data)
      g' out) : Known G i g' ∧ ∀ q ∈ out, Internal G q := by
  have hthis := h.this
  refine ⟨⟨hthis.trans hg.this, ?_⟩, fun q hq => ⟨(h.sends hp.wellFormed hq).1, ?_, ?_⟩⟩
  · cases h with
    | peer hc _ h =>
      intro q hq
      rcases (Peer.step_cases h).names hq with hd | hq
      · exact .of_names (hp.names hc) hd
      · exact hg.neighbours q hq
    | own | forward | drop => exact hg.neighbours
  · cases h with
    | peer hc _ h =>
      rcases step_reached h hq with hd | ⟨nx, hn, hd⟩
      · obtain ⟨j, hj⟩ := hp.names hc
        exact ⟨j, hd.trans hj.node⟩
      · obtain ⟨j, hj⟩ := (hg.neighbours nx (.inl hn)).addr
        exact ⟨j, hd.trans hj⟩
    | own | drop => exact absurd hq List.not_mem_nil
    | forward _ hn =>
      rw [List.mem_singleton.1 hq]
      exact (hg.neighbours _ (.inl hn)).addr
  · intro hcontrol
    cases h with
    | peer hc _ h =>
      rcases step_sends h hq with hraw | ⟨e, he, -, hnames⟩
      · rw [hraw]
        exact hp.names hc
      · rw [he]
        obtain ⟨q, hq, hself | hneighbour⟩ := hnames (by rw [hg.this]; exact hf)
        · refine ⟨i, PeerProtocol.Names.wire ?_⟩
          rw [← hg.this, ← hself]
          exact hq
        · exact (hg.neighbours q hneighbour).named hq.wire
    | own | drop => exact absurd hq List.not_mem_nil
    | forward hc =>
      rw [List.mem_singleton.1 hq] at hcontrol
      exact absurd hc hcontrol

/-- **The network keeps to itself.**  The messages that come in are requests,
    or name peers of the network; their flags and hashes are any, and so is what
    the stacks of the senders hold.  Then in every state the neighbours of each
    peer are peers of the network, and the messages in flight go to such peers
    and name such peers. -/
theorem members_only {hash : List UInt8 → UInt32} {frames : Set PeerProtocol}
    (hf : ∀ i, (G i).peer_info.this.next_finger = none)
    (hG : ∀ i q, (G i).peer_info.Neighbour q → IsMember G q) {as : List (Act (Fin n) Packet)}
    {C : Config (Fin n) Globals Packet}
    (h : Run (ring hash frames (fun i => (G i).addr) (Internal G)) ⟨G, 0⟩ as C) :
    (∀ i q, (C.node i).peer_info.Neighbour q → IsMember G q) ∧ ∀ p ∈ C.flight, Internal G p := by
  have hall : Locally (Known G) (Internal G) C := by
    refine h.invariant_local (fun _ hp => hp) ?_
      ⟨fun i => ⟨rfl, hG i⟩, fun p hp => absurd hp (Multiset.notMem_zero p)⟩
    rintro i g p g' out hg hp ⟨-, hh⟩
    exact (hh.cases_wellFormed hp.wellFormed).known (hf i) hg hp
  exact ⟨fun i => (hall.node i).neighbours, hall.flight⟩

end

/-- The two peers without neighbours. -/
def lone_peers (i : Fin 2) : Globals := .start ⟨two_peers i, none, none, none⟩

/-- The join of the second peer. -/
def join_100 : List UInt8 := (join_request .zero peer_100).wire

theorem members_only_two_peers : ∃ as C, Run (ring HASH_JEN {.zero} (fun i => (lone_peers i).addr)
      (Internal lone_peers)) ⟨lone_peers, 0⟩ as C ∧ (C.node 0).peer_info.next.isSome ∧
    ∀ q, (C.node 0).peer_info.Neighbour q → IsMember lone_peers q := by
  have hm : Message JOIN_MESSAGE join_100 := ⟨by decide, by decide⟩
  have hin : Internal lone_peers (packet_to lone_peers join_100 0) :=
    ⟨.peer hm.length (by decide), ⟨0, rfl⟩, fun _ => ⟨1, by decide, by decide, by decide⟩⟩
  have hstep : Handles HASH_JEN {.zero} (lone_peers 0) join_100 _ _ :=
    (handles_message hm (by decide)).2 ⟨.zero, rfl, _, step_join_alone .zero hm rfl, rfl⟩
  have hrun : Run (ring HASH_JEN {.zero} (fun i => (lone_peers i).addr) (Internal lone_peers))
      ⟨lone_peers, 0⟩ [_, _] _ := .cons (.enter hin) (.cons (.deliver ⟨rfl, hstep⟩) .nil)
  have hf : ∀ i, (lone_peers i).peer_info.this.next_finger = none
    | 0 => rfl
    | 1 => rfl
  have hG : ∀ i q, (lone_peers i).peer_info.Neighbour q → IsMember lone_peers q := by
    rintro i q (hq | hq) <;> cases hq
  exact ⟨_, _, hrun, rfl, (members_only hf hG hrun).1 0⟩

end ChordPeer
