/-
  Which peer a hash belongs to, and how a lookup finds it.

  * `owner_unique_iff`: exactly one peer of a consistent ring finds a hash
    between its own id and the one before, if and only if the hash is between
    two ids of the ring and equal to none.  `in_range` is strict on both sides
    and does not wrap, so nothing else has an owner;
  * `lookup_routing`: a lookup for such a hash is forwarded unchanged to the
    peer before the owner, which answers it; any other lookup circles for ever;
  * `asker_answered_iff`: the answer goes to the owner, not to the peer that
    asked.
-/
import ChordPeer.Ring

namespace ChordPeer

open Cyclic MessagePassing

/-! ## Owners -/

section
variable {n : ℕ} [NeZero n] {R : Fin n → PeerInfo}

/-- **The owner of a hash.** -/
theorem owner_unique_iff (hc : Consistent R) (h : UInt16) :
    (∃! i, (R i).owns h = true) ↔
      (∃ i, (R i).this.id < h) ∧ (∃ i, h < (R i).this.id) ∧ ∀ i, (R i).this.id ≠ h := by
  have hgap := exists_gap_iff (x := h.toNat) hc.ids
  simp only [UInt16.lt_iff_toNat_lt, ne_eq, ← UInt16.toNat_inj]
  rw [← hgap]
  constructor
  · rintro ⟨i, hi, -⟩
    exact ⟨i, hc.owns_iff.1 hi⟩
  · rintro ⟨i, hi⟩
    exact ⟨i, hc.owns_iff.2 hi, fun j hj => hc.owns_unique hj (hc.owns_iff.2 hi)⟩

end

def peer_10 : Peer := ⟨0x7f000001, 4000, 10, 0, none⟩

def peer_100 : Peer := ⟨0x7f000001, 4001, 100, 0, none⟩

/-- Two peers with the ids 10 and 100. -/
def two_peers : Fin 2 → Peer
  | 0 => peer_10
  | 1 => peer_100

theorem two_peers_consistent : Consistent (circle two_peers) :=
  circle_consistent (by decide) (by decide) (by decide)

theorem owner_unique_iff_two_peers :
    (∃! i, (circle two_peers i).owns 50 = true) ↔
      (∃ i, (circle two_peers i).this.id < 50) ∧ (∃ i, 50 < (circle two_peers i).this.id) ∧
        ∀ i, (circle two_peers i).this.id ≠ 50 :=
  owner_unique_iff two_peers_consistent 50

/-- A hash above the largest id belongs to no peer. -/
theorem no_owner_above : ¬ ∀ (n : ℕ) (_ : NeZero n) (R : Fin n → PeerInfo) (h : UInt16),
    Consistent R → ∃! i, (R i).owns h = true := by
  intro hall
  obtain ⟨i, hi, -⟩ := hall 2 inferInstance (circle two_peers) 200 two_peers_consistent
  revert i
  decide

/-! ## Lookups -/

/-- The answer to a lookup for `h` that names `p`. -/
def PeerProtocol.reply_for (h : UInt16) (p : Peer) : PeerProtocol where
  control := CONTROL_BIT
  finger := 0
  fack := 0
  join := 0
  notify := 0
  stabilize := 0
  reply := REPLY_BIT
  lookup := 0
  hashId := h
  nodeId := p.id
  nodeIp := p.ip
  nodePort := p.port

theorem reply_for_masked (h : UInt16) (p : Peer) : (PeerProtocol.reply_for h p).Masked :=
  ⟨.inr rfl, .inl rfl, .inl rfl, .inl rfl, .inl rfl, .inl rfl, .inr rfl, .inl rfl⟩

theorem reply_for_message (h : UInt16) (p : Peer) :
    PeerProtocol.Message REPLY_MESSAGE (PeerProtocol.reply_for h p).wire :=
  PeerProtocol.wire_message (by
    simp only [PeerProtocol.flags, PeerProtocol.reply_for]
    decide)

open PeerProtocol in
/-- The handler on a lookup message. -/
theorem step_lookup {m : List UInt8} (hm : Message LOOKUP_MESSAGE m) (stack : PeerProtocol)
    {i : PeerInfo} {nx : Peer} (hn : i.next = some nx) :
    Peer.step stack i (parse m) m = .ok (i,
      if i.next_owns (parse m).hashId then [⟨nx.addr, (reply_for (parse m).hashId nx).wire⟩]
      else [⟨nx.addr, m⟩]) := by
  obtain ⟨-, hfi, hfa, hj, hnt, hs, -⟩ := hm.flags
  have hans : found_lookup (parse m) nx = reply_for (parse m).hashId nx := by
    simp only [found_lookup, reply_for, hfi, hfa, hj, hnt, hs]
    rfl
  rw [step_of_lookup stack i m hm, Peer.on_lookup, hn, PeerInfo.next_owns, hn]
  simp only [hans]
  by_cases hb : id_is_between (parse m).hashId nx i.this = true <;> simp [hb]

section
variable {n : ℕ} [NeZero n] {G : Fin n → Globals} (hc : Consistent fun i => (G i).peer_info) {m : List UInt8}
  (hm : PeerProtocol.Message LOOKUP_MESSAGE m)
include hc hm

/-- What a peer of a consistent ring does on a lookup. -/
theorem takes_lookup (hash : List UInt8 → UInt32) (i : Fin n) :
    Takes (closed_ring hash Set.univ G) G (packet_to G m i) i (G i)
      [packet_to G (if (G (i + 1)).peer_info.owns (PeerProtocol.parse m).hashId then
        (PeerProtocol.reply_for (PeerProtocol.parse m).hashId (G (i + 1)).peer_info.this).wire
        else m) (i + 1)] := by
  obtain ⟨nx, hn, hnx⟩ := hc.next i
  have hstep := fun stack => step_lookup hm stack hn
  have haddr : nx.addr = (G (i + 1)).addr := hnx.addr
  have hans : PeerProtocol.reply_for (PeerProtocol.parse m).hashId nx =
      PeerProtocol.reply_for (PeerProtocol.parse m).hashId (G (i + 1)).peer_info.this := by
    simp only [PeerProtocol.reply_for, hnx.id, hnx.ip, hnx.port]
  have hown := hc.next_owns i (PeerProtocol.parse m).hashId
  simp only [haddr, hans, hown, ← apply_ite (fun d => [(⟨(G (i + 1)).addr, d⟩ : Packet)])] at hstep
  exact takes_peer hc.addrs Set.univ_nonempty hm (by decide) fun stack _ => hstep stack

/-- A lookup for a hash of no peer in between is forwarded `k` times. -/
theorem lookup_passed (hash : List UInt8 → UInt32) (start : Fin n) {k : ℕ}
    (hk : ∀ j < k, (G ((· + 1)^[j] start + 1)).peer_info.owns (PeerProtocol.parse m).hashId = false) :
    ∀ j < k, Takes (closed_ring hash Set.univ G) G (packet_to G m ((· + 1)^[j] start)) ((· + 1)^[j] start)
      (G ((· + 1)^[j] start)) [packet_to G m ((· + 1)^[j + 1] start)] := by
  intro j hj
  have h := takes_lookup hc hm hash ((· + 1)^[j] start)
  rw [hk j hj] at h
  rw [Function.iterate_succ_apply']
  simpa using h

/-- Before the owner nobody finds the hash at the next peer, and the peer just
    before it answers. -/
theorem lookup_answered (hash : List UInt8 → UInt32) (start : Fin n) {r : Fin n}
    (hr : (G r).peer_info.owns (PeerProtocol.parse m).hashId = true) :
    (∀ j < hops start (r - 1),
      Takes (closed_ring hash Set.univ G) G (packet_to G m ((· + 1)^[j] start)) ((· + 1)^[j] start)
        (G ((· + 1)^[j] start)) [packet_to G m ((· + 1)^[j + 1] start)]) ∧
    Takes (closed_ring hash Set.univ G) G (packet_to G m (r - 1)) (r - 1) (G (r - 1))
      [packet_to G (PeerProtocol.reply_for (PeerProtocol.parse m).hashId
        (G r).peer_info.this).wire r] := by
  refine ⟨lookup_passed hc hm hash start fun j hj => ?_, ?_⟩
  · by_contra h
    have hj' := hc.owns_unique (Bool.eq_true_of_not_eq_false h) hr
    exact ahead_ne hj (eq_sub_of_add_eq hj')
  · have h := takes_lookup hc hm hash (r - 1)
    rw [sub_add_cancel, hr] at h
    exact h

/-- **Lookup routing.** -/
theorem lookup_routing (hash : List UInt8 → UInt32) (start : Fin n) :
    (∀ r, (G r).peer_info.owns (PeerProtocol.parse m).hashId = true →
      ∃ k ≤ n - 1, ∃ a, (· + 1)^[k] start = r - 1 ∧ PeerProtocol.Message REPLY_MESSAGE a ∧
        PeerProtocol.parse a =
          PeerProtocol.reply_for (PeerProtocol.parse m).hashId (G r).peer_info.this ∧
        let log := forwards G m start k ++ [.deliver (r - 1) (packet_to G m (r - 1)) [packet_to G a r]]
        Run (closed_ring hash Set.univ G) ⟨G, {packet_to G m start}⟩ log ⟨G, {packet_to G a r}⟩ ∧
        ∀ as C, Run (closed_ring hash Set.univ G) ⟨G, {packet_to G m start}⟩ as C → as <+: log) ∧
    ((∀ r, (G r).peer_info.owns (PeerProtocol.parse m).hashId = false) →
      ∀ as C, Run (closed_ring hash Set.univ G) ⟨G, {packet_to G m start}⟩ as C →
        as = forwards G m start as.length) := by
  have hS : ∀ p, ¬ (closed_ring hash Set.univ G).enters p := fun _ h => h
  have hrest : ∀ q ∈ (0 : Multiset Packet), Inert (closed_ring hash Set.univ G) q := by simp
  constructor
  · intro r hr
    let a := (PeerProtocol.reply_for (PeerProtocol.parse m).hashId (G r).peer_info.this).wire
    have hend : (· + 1)^[hops start (r - 1)] start = r - 1 := ahead_hops start (r - 1)
    obtain ⟨hpass, hans⟩ := lookup_answered hc hm hash start hr
    have ha : PeerProtocol.Message REPLY_MESSAGE a := reply_for_message _ _
    rw [← hend] at hans
    have hrun := relays_takes hpass hS hrest hans fun q hq => by
      obtain rfl : q = packet_to G a r := by simpa using hq
      exact inert_reply ha
    rw [hend, Function.update_eq_self] at hrun
    exact ⟨hops start (r - 1), Nat.le_sub_one_of_lt (hops_lt _ _), a, hend, ha,
      PeerProtocol.parse_wire (reply_for_masked _ _), hrun⟩
  · intro hno as C h
    have hpass := lookup_passed hc hm hash start (k := as.length + 1) fun j _ => hno _
    rcases Run.relays hpass hS hrest h with ⟨j, -, rfl, -⟩ | ⟨as', has, -⟩
    · simp [forwards]
    · have := congrArg List.length has
      rw [List.length_append, relays_length] at this
      omega

/-- In a run on a lookup for a hash of peer `r`, the lookup is on its way or
    the answer is, and that goes to `r`. -/
theorem lookup_flight (hash : List UInt8 → UInt32) (start : Fin n) {r : Fin n}
    (hr : (G r).peer_info.owns (PeerProtocol.parse m).hashId = true)
    {as : List (Act (Fin n) Packet)} {C : Config (Fin n) Globals Packet}
    (h : Run (closed_ring hash Set.univ G) ⟨G, packet_to G m start ::ₘ 0⟩ as C) :
    (∃ i, C.flight = {packet_to G m i}) ∨ C.flight = {packet_to G
      (PeerProtocol.reply_for (PeerProtocol.parse m).hashId (G r).peer_info.this).wire r} := by
  obtain ⟨hpass, hans⟩ := lookup_answered hc hm hash start hr
  rw [← ahead_hops start (r - 1)] at hans
  have hrest : ∀ q ∈ (0 : Multiset Packet), Inert (closed_ring hash Set.univ G) q := by simp
  rcases h.relays_takes hpass (fun _ h => h) hrest hans fun q hq => by
    obtain rfl := List.mem_singleton.1 hq
    exact inert_reply (reply_for_message _ _) with ⟨j, -, -, rfl⟩ | ⟨-, rfl⟩
  · exact .inl ⟨_, rfl⟩
  · exact .inr rfl

end

/-- The two peers, before any message. -/
def two_peers_ring (i : Fin 2) : Globals := .start (circle two_peers i)

/-- The two peers with the second one changed. -/
def second_changed (f : Globals → Globals) : Fin 2 → Globals :=
  Function.update two_peers_ring 1 (f (two_peers_ring 1))

/-- A lookup for 50 by the second peer, as `next_job_in_queue` makes it. -/
def lookup_50 : List UInt8 := (make_peerProtocol .zero false true 50 (two_peers 1)).wire

theorem lookup_50_message : PeerProtocol.Message LOOKUP_MESSAGE lookup_50 := ⟨by decide, by decide⟩

theorem lookup_routing_two_peers :
    ∃ k ≤ 1, ∃ a, (· + 1)^[k] (1 : Fin 2) = 0 ∧ PeerProtocol.Message REPLY_MESSAGE a ∧
      PeerProtocol.parse a = PeerProtocol.reply_for 50 (two_peers 1) := by
  obtain ⟨k, hk, a, hend, ha, hparse, -⟩ := (lookup_routing (G := two_peers_ring)
    two_peers_consistent lookup_50_message HASH_JEN 1).1 1 (by decide)
  refine ⟨k, hk, a, hend, ha, ?_⟩
  rw [hparse]
  decide

/-! ## Where the answer goes -/

open PeerProtocol in
/-- On the lookup `m` a peer with the next peer `nx` sends one message, a reply
    that names `nx`, to the address that the lookup carries. -/
def AnswersAsker (hash : List UInt8 → UInt32) (g : Globals) (nx : Peer) (m : List UInt8) : Prop :=
  (∃ g' out, Handles hash Set.univ g m g' out) ∧
    ∀ g' out, Handles hash Set.univ g m g' out → ∃ a, out = [⟨(parse m).node, a⟩] ∧
      Message REPLY_MESSAGE a ∧ (parse a).nodeId = nx.id ∧ (parse a).node = nx.addr

/-- A lookup that starts at the peer `start` is answered, and the answer is on
    its way to the peer `j` and to no other. -/
def ReachesAsker {n : ℕ} (hash : List UInt8 → UInt32) (G : Fin n → Globals) (m : List UInt8)
    (start j : Fin n) : Prop :=
  (∃ as C a, Run (closed_ring hash Set.univ G) ⟨G, {packet_to G m start}⟩ as C ∧ a ∈ C.flight ∧
    PeerProtocol.Message REPLY_MESSAGE a.data) ∧
  ∀ as C, Run (closed_ring hash Set.univ G) ⟨G, {packet_to G m start}⟩ as C →
    ∀ a ∈ C.flight, PeerProtocol.Message REPLY_MESSAGE a.data → a.dest = (G j).addr

section
variable {m : List UInt8} (hm : PeerProtocol.Message LOOKUP_MESSAGE m) (hash : List UInt8 → UInt32)
include hm

theorem handles_lookup {g : Globals} {nx : Peer} (hn : g.peer_info.next = some nx)
    (ho : g.peer_info.next_owns (PeerProtocol.parse m).hashId = true) {g' : Globals}
    {out : List Packet} : Handles hash Set.univ g m g' out ↔
      g' = g ∧ out = [⟨nx.addr, (PeerProtocol.reply_for (PeerProtocol.parse m).hashId nx).wire⟩] := by
  rw [handles_message hm (by decide)]
  constructor
  · rintro ⟨stack, -, i, hstep, rfl⟩
    rw [step_lookup hm stack hn, ho] at hstep
    cases hstep
    exact ⟨rfl, rfl⟩
  · rintro ⟨rfl, rfl⟩
    refine ⟨.zero, trivial, g'.peer_info, ?_, rfl⟩
    rw [step_lookup hm .zero hn, ho]
    rfl

theorem answersAsker_iff {g : Globals} {nx : Peer} (hn : g.peer_info.next = some nx)
    (ho : g.peer_info.next_owns (PeerProtocol.parse m).hashId = true) :
    AnswersAsker hash g nx m ↔ (PeerProtocol.parse m).node = nx.addr := by
  have hh : ∀ g' out, Handles hash Set.univ g m g' out ↔ g' = g ∧
      out = [⟨nx.addr, (PeerProtocol.reply_for (PeerProtocol.parse m).hashId nx).wire⟩] :=
    fun _ _ => handles_lookup hm hash hn ho
  have hparse := PeerProtocol.parse_wire (reply_for_masked (PeerProtocol.parse m).hashId nx)
  constructor
  · rintro ⟨-, h⟩
    obtain ⟨a, ha, -⟩ := h g _ ((hh _ _).2 ⟨rfl, rfl⟩)
    exact (Packet.mk.inj (List.cons.inj ha).1).1.symm
  · intro hnode
    refine ⟨⟨g, _, (hh _ _).2 ⟨rfl, rfl⟩⟩, fun g' out h => ?_⟩
    obtain ⟨-, rfl⟩ := (hh g' out).1 h
    refine ⟨_, by rw [hnode], reply_for_message _ _, ?_, ?_⟩ <;>
    · rw [hparse]
      rfl

theorem reachesAsker_iff {n : ℕ} [NeZero n] {G : Fin n → Globals}
    (hc : Consistent fun i => (G i).peer_info) (start j : Fin n) {r : Fin n}
    (hr : (G r).peer_info.owns (PeerProtocol.parse m).hashId = true) :
    ReachesAsker hash G m start j ↔ j = r := by
  have hans := reply_for_message (PeerProtocol.parse m).hashId (G r).peer_info.this
  -- the run that ends with the answer
  obtain ⟨as, C, hrun, hC⟩ : ∃ as C, Run (closed_ring hash Set.univ G)
      ⟨G, packet_to G m start ::ₘ 0⟩ as C ∧ C.flight = {packet_to G
        (PeerProtocol.reply_for (PeerProtocol.parse m).hashId (G r).peer_info.this).wire r} := by
    obtain ⟨hpass, hlast⟩ := lookup_answered hc hm hash start hr
    rw [← ahead_hops start (r - 1)] at hlast
    exact ⟨_, _, (run_relays hpass 0).append (.cons (.deliver hlast.handles) .nil), rfl⟩
  constructor
  · rintro ⟨-, h⟩
    have hdest := h as C hrun _ (by rw [hC]; exact Multiset.mem_singleton_self _) hans
    exact hc.addrs hdest.symm
  · rintro rfl
    refine ⟨⟨as, C, _, hrun, by rw [hC]; exact Multiset.mem_singleton_self _, hans⟩, ?_⟩
    intro as C h a ha hmsg
    rcases lookup_flight hc hm hash start hr h with ⟨i, hC⟩ | hC
    · rw [hC, Multiset.mem_singleton] at ha
      obtain rfl := ha
      exact absurd (hmsg.header_unique hm) (by decide)
    · rw [hC, Multiset.mem_singleton] at ha
      obtain rfl := ha
      rfl

end

/-- **Who gets the answer to a lookup.**  The peer that answers sends it to the
    next peer, which is the peer that the answer names; so it reaches the one
    who asked exactly when that peer itself is responsible. -/
theorem asker_answered_iff (hash : List UInt8 → UInt32) {m : List UInt8}
    (hm : PeerProtocol.Message LOOKUP_MESSAGE m) :
    (∀ g nx, g.peer_info.next = some nx →
      g.peer_info.next_owns (PeerProtocol.parse m).hashId = true →
      (AnswersAsker hash g nx m ↔ (PeerProtocol.parse m).node = nx.addr)) ∧
    (∀ (n : ℕ) (_ : NeZero n) (G : Fin n → Globals), (Consistent fun i => (G i).peer_info) →
      ∀ start j r, (PeerProtocol.parse m).node = (G j).addr →
        (G r).peer_info.owns (PeerProtocol.parse m).hashId = true →
        (ReachesAsker hash G m start j ↔ j = r)) :=
  ⟨fun _ _ hn ho => answersAsker_iff hm hash hn ho,
    fun _ _ _ hc start j _ _ hr => reachesAsker_iff hm hash hc start j hr⟩

/-- A lookup for 50 by a third peer. -/
def lookup_50_third : List UInt8 :=
  (make_peerProtocol .zero false true 50 ⟨0x7f000001, 4002, 200, 0, none⟩).wire

theorem lookup_50_third_message : PeerProtocol.Message LOOKUP_MESSAGE lookup_50_third :=
  ⟨by decide, by decide⟩

theorem asker_answered_iff_two_peers :
    ¬ AnswersAsker HASH_JEN (two_peers_ring 0) peer_100 lookup_50_third ∧
      ReachesAsker HASH_JEN two_peers_ring lookup_50 0 1 := by
  constructor
  · intro h
    have hnode := ((asker_answered_iff HASH_JEN lookup_50_third_message).1 (two_peers_ring 0)
      peer_100 rfl (by decide)).1 h
    exact absurd hnode (by decide)
  · exact ((asker_answered_iff HASH_JEN lookup_50_message).2 2 inferInstance two_peers_ring
      two_peers_consistent 0 1 1 (by decide) (by decide)).2 rfl

/-- The peer with id 10 sends the answer for a third peer to its next peer. -/
theorem not_answersAsker :
    ¬ ∀ (g : Globals) (nx : Peer) (m : List UInt8), g.peer_info.next = some nx →
      PeerProtocol.Message LOOKUP_MESSAGE m →
      g.peer_info.next_owns (PeerProtocol.parse m).hashId = true → AnswersAsker HASH_JEN g nx m := by
  intro h
  have ha := h (two_peers_ring 0) peer_100 lookup_50_third rfl lookup_50_third_message (by decide)
  have hnode := (answersAsker_iff lookup_50_third_message HASH_JEN rfl (by decide)).1 ha
  exact absurd hnode (by decide)

end ChordPeer
