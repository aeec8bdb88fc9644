/-
  What a peer of the network does with a packet, case by case.

  * `PacketStep`: it is a message between peers, or a request that the peer
    answers from its store, forwards to its next peer, or keeps;
    `Handles.cases`, `Handles.cases_wellFormed`: nothing else can happen;
  * `messages_balance`: so in every run there are as many packets in flight as
    came in, less those of which nothing came, whatever their bytes are.
-/
import ChordPeer.Routing
import ChordPeer.Lib.Origins

namespace ChordPeer

open CBytes MessagePassing PeerProtocol

/-- What can be done with the message `m`, decoded as `dp` and as `dc`: the new
    globals and what goes to other peers. -/
inductive PacketStep (hash : List UInt8 → UInt32) (frames : Set PeerProtocol) (g : Globals)
    (m : List UInt8) (dp : PeerProtocol) (dc : ClientProtocol) : Globals → List Packet → Prop where
  | peer {stack i out} (hc : dp.control ≠ 0) (hs : stack ∈ frames)
      (h : Peer.step stack g.peer_info dp m = .ok (i, out)) :
      PacketStep hash frames g m dp dc { g with peer_info := i } out
  | own {t o} (hc : dp.control = 0) (ho : g.peer_info.owns (get_hash_value hash dc.key) = true)
      (hr : respond g.hash_table_head dc = .ok (t, o)) :
      PacketStep hash frames g m dp dc { g with hash_table_head := t } []
  | forward {nx} (hc : dp.control = 0) (hn : g.peer_info.next = some nx)
      (hb : g.peer_info.next_owns (get_hash_value hash dc.key) = true) :
      PacketStep hash frames g m dp dc g [⟨nx.addr, m⟩]
  | drop (hc : dp.control = 0) : PacketStep hash frames g m dp dc g []

section
variable {hash : List UInt8 → UInt32} {frames : Set PeerProtocol} {g g' : Globals} {m : List UInt8}
  {out : List Packet}

/-- Every connection comes about. -/
theorem filter_accepts {env : Env} (ha : ∀ a, env.accepts a = true) (out : List Packet) :
    out.filter (fun p => env.accepts p.dest) = out :=
  List.filter_eq_self.2 fun p _ => ha p.dest

/-- A request on the process, as the network sees it. -/
theorem ClientStep.packetStep {env : Env} {kernel : Kernel} {s' : Proc} {sock : Socket}
    {dp : PeerProtocol} {dc : ClientProtocol} (hc : dp.control = 0) (hp : sock.peer = none)
    (ht : kernel.trace = []) (ha : ∀ a, env.accepts a = true)
    (h : ClientStep env ⟨g, kernel⟩ dc m (get_hash_value hash dc.key) sock s') :
    PacketStep hash frames g m dp dc s'.globals (packets s'.kernel.trace) := by
  cases h with
  | own ho hr =>
    rw [packets_answered hp]
    show PacketStep hash frames g m dp dc _ (packets kernel.trace)
    rw [ht]
    exact .own hc ho hr
  | forward _ hn hb =>
    rw [packets_forwarded hp, filter_accepts ha, Proc.emitted_globals, Proc.withHeap,
      Proc.sent_globals]
    show PacketStep hash frames g m dp dc g (packets kernel.trace ++ _)
    rw [ht]
    exact .forward hc hn hb
  | drop =>
    show PacketStep hash frames g m dp dc g (packets kernel.trace)
    rw [ht]
    exact .drop hc

theorem Peer.step_packetStep {env : Env} {kernel : Kernel} {i : PeerInfo} {dp : PeerProtocol}
    (dc : ClientProtocol) (hc : dp.control ≠ 0) (hs : env.stack ∈ frames) (ht : kernel.trace = [])
    (ha : ∀ a, env.accepts a = true) (h : Peer.step env.stack g.peer_info dp m = .ok (i, out)) :
    let s' := (Proc.withInfo ⟨g, kernel⟩ i).sentAll env out
    PacketStep hash frames g m dp dc s'.globals (packets s'.kernel.trace) := by
  intro s'
  rw [Proc.sentAll_globals, Proc.packets_sentAll, filter_accepts ha]
  show PacketStep hash frames g m dp dc _ (packets kernel.trace ++ out)
  rw [ht]
  exact .peer hc hs h

/-- **Any packet.**  What the memory behind it holds may matter. -/
theorem Handles.cases (h : Handles hash frames g m g' out) : ∃ rest,
    PacketStep hash frames g m (decode_peerProtocol (Mem.ofList m rest))
      (decode_clientProtocol (Mem.ofList m rest)) g' out := by
  obtain ⟨env, rest, sock, kernel, s', ha, hs, hsock, ht, hr, rfl, rfl⟩ := h
  refine ⟨rest, ?_⟩
  have hstep : ArrivalStep hash ⟨g, kernel⟩ ⟨m, rest, sock, env⟩ s' := arrival_cases hsock.fd hr
  cases hstep with
  | peer hc h => exact Peer.step_packetStep _ (bne_iff_ne.1 hc) hs ht ha h
  | client hc h => exact h.packetStep (bne_eq_false_iff_eq.1 hc) hsock.peer ht ha

/-- **A well-formed packet.** -/
theorem Handles.cases_wellFormed (hm : WellFormedMessage m) (h : Handles hash frames g m g' out) :
    PacketStep hash frames g m (PeerProtocol.parse m) (ClientProtocol.parse m) g' out := by
  obtain ⟨env, rest, sock, kernel, s', ha, hs, hsock, ht, hr, rfl, rfl⟩ := h
  cases handler_cases hm hsock.fd hr with
  | peer hc h => exact Peer.step_packetStep _ hc hs ht ha h
  | client hc h => exact h.packetStep (bne_eq_false_iff_eq.1 hc) hsock.peer ht ha

/-! ## How many messages there are -/

/-- Without fingers a message leads to one at most. -/
theorem step_sends_one {stack d : PeerProtocol} {i i' : PeerInfo} {raw : List UInt8}
    (hf : i.this.next_finger = none) (h : Peer.step stack i d raw = .ok (i', out)) :
    out.length ≤ 1 := by
  cases Peer.step_inv h with
  | fingers _ _ hsome =>
    rw [hf] at hsome
    cases hsome
  | ignored | notify | stabilize_first => exact Nat.zero_le 1
  | join_first | join_taken | join_passed | stabilize_passed | stabilize_answered | lookup_found
  | lookup_passed => exact le_rfl

theorem PacketStep.this {dp : PeerProtocol} {dc : ClientProtocol}
    (h : PacketStep hash frames g m dp dc g' out) : g'.peer_info.this = g.peer_info.this := by
  cases h with
  | peer _ _ h => exact (Peer.step_cases h).this
  | own | forward | drop => rfl

theorem PacketStep.sends_one {dp : PeerProtocol} {dc : ClientProtocol}
    (hf : g.peer_info.this.next_finger = none) (h : PacketStep hash frames g m dp dc g' out) :
    out.length ≤ 1 := by
  cases h with
  | peer _ _ h => exact step_sends_one hf h
  | own | drop => exact Nat.zero_le 1
  | forward => exact le_rfl

end

/-- **No message is multiplied.**  Whatever bytes come in, at whatever peers and
    in whatever order they are handled: the messages in flight are those that
    were there and those that came in, less those of which nothing came. -/
theorem messages_balance {n : ℕ} {hash : List UInt8 → UInt32} {frames : Set PeerProtocol}
    {addr : Fin n → Addr} {enters : Packet → Prop} {G : Fin n → Globals} {flight : Multiset Packet}
    (hf : ∀ i, (G i).peer_info.this.next_finger = none) {as : List (Act (Fin n) Packet)}
    {C : Config (Fin n) Globals Packet}
    (h : Run (ring hash frames addr enters) ⟨G, flight⟩ as C) :
    C.flight.card + as.countP Act.isLast = flight.card + as.countP Act.isEnter := by
  let P : Fin n → Globals → Prop := fun _ g => g.peer_info.this.next_finger = none
  have htake : ∀ i g p g' out, P i g → True →
      (ring hash frames addr enters).handles i g p g' out → P i g' ∧ ∀ q ∈ out, True := by
    rintro i g p g' out hg - ⟨-, hh⟩
    obtain ⟨rest, hstep⟩ := hh.cases
    exact ⟨(congrArg Peer.next_finger hstep.this).trans hg, fun _ _ => trivial⟩
  refine h.flight_card (fun C a C' hC hs => hs.locally (fun _ _ => trivial) htake hC)
    (fun C i p out C' hC hs => ?_) ⟨hf, fun _ _ => trivial⟩
  cases hs with
  | deliver hh =>
    obtain ⟨rest, hstep⟩ := hh.2.cases
    exact hstep.sends_one (hC.node _)

/-- The first peer answers a lookup. -/
theorem messages_balance_two_peers : ∃ as C,
    Run (closed_ring HASH_JEN Set.univ two_peers_ring)
      ⟨two_peers_ring, packet_to two_peers_ring lookup_50 0 ::ₘ 0⟩ as C ∧ as ≠ [] ∧
      C.flight.card + as.countP Act.isLast = 1 + as.countP Act.isEnter := by
  have hrun : Run (closed_ring HASH_JEN Set.univ two_peers_ring)
      ⟨two_peers_ring, packet_to two_peers_ring lookup_50 0 ::ₘ 0⟩ [_] _ :=
    .cons (.deliver (takes_lookup two_peers_consistent lookup_50_message HASH_JEN 0).handles) .nil
  have hf : ∀ i, (two_peers_ring i).peer_info.this.next_finger = none
    | 0 => rfl
    | 1 => rfl
  exact ⟨_, _, hrun, List.cons_ne_nil _ _, messages_balance hf hrun⟩

end ChordPeer
