/-
  Joining a ring — what the handlers of `join`, `notify` and `stabilize`
  messages do to the neighbour records of several peers.

  * `step_join`, `step_notify`, `step_stabilize`: the handlers, each on its own
    kind of message;
  * `join_routing`: a join whose hash belongs to peer `r` of a consistent ring
    reaches `r`, and the next stabilize of the peer before `r` brings the new
    node into that peer's `next`.
-/
import ChordPeer.Routing

namespace ChordPeer

open Cyclic MessagePassing PeerProtocol

/-! ## The handlers on one kind of message -/

section
variable {m : List UInt8} {i : PeerInfo} {nx pv : Peer} (stack : PeerProtocol)

theorem step_join (hm : Message JOIN_MESSAGE m) (hn : i.next = some nx) (hv : i.prev = some pv) :
    Peer.step stack i (parse m) m = .ok (if i.owns (parse m).hashId then
      ({ i with prev := some (pv.assign (parse m)) },
        [⟨(parse m).node, (notify_request stack i.this).wire⟩])
      else (i, [⟨nx.addr, m⟩])) := by
  rw [step_of_join stack i m hm, Peer.on_join, PeerInfo.owns, hn, hv]
  exact (apply_ite Except.ok _ _ _).symm

/-- A peer without neighbours takes the new node for both. -/
theorem step_join_alone (hm : Message JOIN_MESSAGE m) (hn : i.next = none) :
    Peer.step stack i (parse m) m = .ok ({ i with
      next := some (Peer.zero.assign (parse m)), prev := some (Peer.zero.assign (parse m)) },
      [⟨(parse m).node, (notify_request stack i.this).wire⟩]) := by
  rw [step_of_join stack i m hm, Peer.on_join, hn]

theorem step_notify (hm : Message NOTIFY_MESSAGE m) (hn : i.next = some nx) :
    Peer.step stack i (parse m) m = .ok ({ i with next := some (nx.assign (parse m)) }, []) := by
  rw [step_of_notify stack i m hm, Peer.on_notify, hn]

/-- The record that a notify should fill is not there before a first join. -/
theorem step_notify_alone (hm : Message NOTIFY_MESSAGE m) (hn : i.next = none) :
    Peer.step stack i (parse m) m = .error .nullNext := by
  rw [step_of_notify stack i m hm, Peer.on_notify, hn]

/-- A stabilize from the peer that `prev` names goes on to the next peer. -/
theorem step_stabilize_prev (hm : Message STABILIZE_MESSAGE m) (hn : i.next = some nx)
    (hv : i.prev = some pv) (hid : (parse m).nodeId = pv.id) (hb : i.this.is_base = 0) :
    Peer.step stack i (parse m) m =
      .ok (i, [⟨nx.addr, (stabilize_request stack i.this).wire⟩]) := by
  rw [step_of_stabilize stack i m hm, Peer.on_stabilize, hv, hn]
  exact if_pos ⟨hid, hb⟩

/-- Any other sender is told what `prev` names. -/
theorem step_stabilize_other (hm : Message STABILIZE_MESSAGE m) (hv : i.prev = some pv)
    (hne : ¬ ((parse m).nodeId = pv.id ∧ i.this.is_base = 0)) :
    Peer.step stack i (parse m) m =
      .ok (i, [⟨(parse m).node, (notify_request stack pv).wire⟩]) := by
  rw [step_of_stabilize stack i m hm, Peer.on_stabilize, hv]
  exact if_neg hne

end

/-! ## The messages, with the fields that the senders leave unset zero -/

theorem join_request_masked (p : Peer) : (join_request .zero p).Masked :=
  ⟨.inr rfl, .inl rfl, .inl rfl, .inr rfl, .inl rfl, .inl rfl, .inl rfl, .inl rfl⟩

theorem notify_request_masked (p : Peer) : (notify_request .zero p).Masked :=
  ⟨.inr rfl, .inl rfl, .inl rfl, .inl rfl, .inr rfl, .inl rfl, .inl rfl, .inl rfl⟩

theorem stabilize_request_masked (p : Peer) : (stabilize_request .zero p).Masked :=
  ⟨.inr rfl, .inl rfl, .inl rfl, .inl rfl, .inl rfl, .inr rfl, .inl rfl, .inl rfl⟩

theorem join_request_message (p : Peer) : Message JOIN_MESSAGE (join_request .zero p).wire :=
  wire_message (by
    simp only [flags, join_request, PeerProtocol.zero]
    decide)

theorem notify_request_message (p : Peer) : Message NOTIFY_MESSAGE (notify_request .zero p).wire :=
  wire_message (by
    simp only [flags, notify_request, PeerProtocol.zero]
    decide)

theorem stabilize_request_message (p : Peer) :
    Message STABILIZE_MESSAGE (stabilize_request .zero p).wire :=
  wire_message (by
    simp only [flags, stabilize_request, PeerProtocol.zero]
    decide)

/-! ## A join on its way around a ring -/

/-- The node of a message in the `prev` record. -/
def Globals.with_prev (g : Globals) (d : PeerProtocol) : Globals :=
  { g with peer_info := { g.peer_info with prev := g.peer_info.prev.map (·.assign d) } }

/-- The node of a message in the `next` record. -/
def Globals.with_next (g : Globals) (d : PeerProtocol) : Globals :=
  { g with peer_info := { g.peer_info with next := g.peer_info.next.map (·.assign d) } }

/-- The connections and the message fields as the senders set them: the fields
    they leave unset are zero. -/
abbrev zeroed : Set PeerProtocol := {.zero}

section
variable {n : ℕ} [NeZero n] {G : Fin n → Globals} (hc : Consistent fun i => (G i).peer_info)
  {m : List UInt8} (hm : Message JOIN_MESSAGE m) (hash : List UInt8 → UInt32)
include hc

include hm in
/-- A peer that does not own the hash of a join forwards it. -/
theorem takes_join_forward {i : Fin n} (hi : (G i).peer_info.owns (parse m).hashId = false) :
    Takes (closed_ring hash zeroed G) G (packet_to G m i) i (G i) [packet_to G m (i + 1)] := by
  obtain ⟨nx, hn, hnx⟩ := hc.next i
  obtain ⟨pv, hv, -⟩ := hc.prev i
  have haddr : nx.addr = (G (i + 1)).addr := hnx.addr
  have hstep : ∀ stack ∈ zeroed, Peer.step stack (G i).peer_info (parse m) m =
      .ok ((G i).peer_info, [packet_to G m (i + 1)]) := fun stack _ => by
    rw [step_join stack hm hn hv, hi, haddr]
    rfl
  exact takes_peer hc.addrs (Set.singleton_nonempty _) hm (by decide) hstep

include hm in
/-- The owner takes the new node for `prev`, and tells it so. -/
theorem takes_join_accept {r : Fin n} (hr : (G r).peer_info.owns (parse m).hashId = true) :
    Takes (closed_ring hash zeroed G) G (packet_to G m r) r ((G r).with_prev (parse m))
      [⟨(parse m).node, (notify_request .zero (G r).peer_info.this).wire⟩] := by
  obtain ⟨nx, hn, -⟩ := hc.next r
  obtain ⟨pv, hv, -⟩ := hc.prev r
  have hstep : ∀ stack ∈ zeroed, Peer.step stack (G r).peer_info (parse m) m =
      .ok (((G r).with_prev (parse m)).peer_info,
        [⟨(parse m).node, (notify_request .zero (G r).peer_info.this).wire⟩]) := fun stack hs => by
    rw [step_join stack hm hn hv, hr, Set.mem_singleton_iff.1 hs, Globals.with_prev, hv]
    rfl
  exact takes_peer hc.addrs (Set.singleton_nonempty _) hm (by decide) hstep

/-- After the join, the stabilize of the peer before `r` is answered with the
    new node, which that peer takes for `next`. -/
theorem join_repaired {r : Fin n} (hid : ∀ i, (G i).peer_info.this.id ≠ (parse m).nodeId)
    {rest : Multiset Packet} (hrest : ∀ q ∈ rest, Inert (closed_ring hash zeroed G) q) :
    let S := closed_ring hash zeroed G
    let stab := (stabilize_request .zero (G (r - 1)).peer_info.this).wire
    let joined := Function.update G r ((G r).with_prev (parse m))
    let repaired := Function.update joined (r - 1) ((G (r - 1)).with_next (parse m))
    ∃ b, Message NOTIFY_MESSAGE b ∧ (parse b).nodeId = (parse m).nodeId ∧
      (parse b).node = (parse m).node ∧
      let log := [.deliver r (packet_to G stab r) [packet_to G b (r - 1)],
        .deliver (r - 1) (packet_to G b (r - 1)) []]
      Run S ⟨joined, packet_to G stab r ::ₘ rest⟩ log ⟨repaired, rest⟩ ∧
        ∀ as C, Run S ⟨joined, packet_to G stab r ::ₘ rest⟩ as C → as <+: log := by
  intro S stab joined repaired
  obtain ⟨pv, hv, -⟩ := hc.prev r
  obtain ⟨nx, hn, -⟩ := hc.next (r - 1)
  have hS : ∀ p, ¬ S.enters p := fun _ h => h
  have hne : r - 1 ≠ r := sub_one_ne hc.two_le r
  have hstab : Message STABILIZE_MESSAGE stab := stabilize_request_message _
  have hstabp : parse stab = stabilize_request .zero (G (r - 1)).peer_info.this :=
    parse_wire (stabilize_request_masked _)
  let b := (notify_request .zero (pv.assign (parse m))).wire
  have hb : Message NOTIFY_MESSAGE b := notify_request_message _
  have hbp : parse b = notify_request .zero (pv.assign (parse m)) :=
    parse_wire (notify_request_masked _)
  have hjr : (joined r).peer_info.prev = some (pv.assign (parse m)) := by
    simp [joined, Globals.with_prev, hv]
  have hjp : joined (r - 1) = G (r - 1) := by simp [joined, hne]
  -- `r` answers with its new `prev`
  have h₁ : Takes S joined (packet_to G stab r) r (joined r) [packet_to G b (r - 1)] := by
    have hstep : ∀ stack ∈ zeroed, Peer.step stack (joined r).peer_info (parse stab) stab =
        .ok ((joined r).peer_info, [packet_to G b (r - 1)]) := fun stack hs => by
      have hother : ¬ ((parse stab).nodeId = (pv.assign (parse m)).id ∧
          (joined r).peer_info.this.is_base = 0) := by
        rw [hstabp]
        exact fun h => hid (r - 1) h.1
      rw [step_stabilize_other stack hstab hjr hother, Set.mem_singleton_iff.1 hs, hstabp]
      rfl
    exact takes_peer hc.addrs (Set.singleton_nonempty _) hstab (by decide) hstep
  -- and the peer before it takes that for `next`
  have h₂ : Takes S joined (packet_to G b (r - 1)) (r - 1) ((G (r - 1)).with_next (parse m)) [] := by
    have hstep : ∀ stack ∈ zeroed, Peer.step stack (joined (r - 1)).peer_info (parse b) b =
        .ok (((G (r - 1)).with_next (parse m)).peer_info, []) := fun stack _ => by
      rw [hjp, step_notify stack hb hn, hbp, Globals.with_next, hn]
      rfl
    have h : Takes S joined (packet_to G b (r - 1)) (r - 1) _ [] :=
      takes_peer hc.addrs (Set.singleton_nonempty _) hb (by decide) hstep
    rw [hjp] at h
    exact h
  refine ⟨b, hb, by rw [hbp]; rfl, by rw [hbp]; rfl, ?_, fun as C h => ?_⟩
  · have s₁ : Step S ⟨joined, packet_to G stab r ::ₘ rest⟩ _ _ := .deliver h₁.handles
    have s₂ : Step S ⟨joined, packet_to G b (r - 1) ::ₘ rest⟩ _ _ := .deliver h₂.handles
    rw [Function.update_eq_self] at s₁
    exact .cons s₁ (.cons (by simpa using s₂) .nil)
  · rcases h.takes hS hrest h₁ with ⟨rfl, -⟩ | ⟨as', rfl, h'⟩
    · exact List.nil_prefix
    · rw [Function.update_eq_self] at h'
      have h' : Run S ⟨joined, packet_to G b (r - 1) ::ₘ rest⟩ as' C := h'
      rcases h'.takes hS hrest h₂ with ⟨rfl, -⟩ | ⟨as'', rfl, h''⟩
      · exact ⟨_, rfl⟩
      · obtain ⟨rfl, -⟩ := h''.inert hS (by simpa using hrest)
        exact List.prefix_refl _

include hm in
/-- **Join routing and predecessor repair.** -/
theorem join_routing {r : Fin n} (hr : (G r).peer_info.owns (parse m).hashId = true)
    (hid : ∀ i, (G i).peer_info.this.id ≠ (parse m).nodeId)
    (haddr : ∀ i, (G i).addr ≠ (parse m).node) (entry : Fin n) :
    let S := closed_ring hash zeroed G
    let a := (notify_request .zero (G r).peer_info.this).wire
    let stab := (stabilize_request .zero (G (r - 1)).peer_info.this).wire
    let joined := Function.update G r ((G r).with_prev (parse m))
    let repaired := Function.update joined (r - 1) ((G (r - 1)).with_next (parse m))
    ∃ k ≤ n - 1, ∃ b, (· + 1)^[k] entry = r ∧ Message NOTIFY_MESSAGE b ∧
      (parse b).nodeId = (parse m).nodeId ∧ (parse b).node = (parse m).node ∧
      (let log := forwards G m entry k ++ [.deliver r (packet_to G m r) [⟨(parse m).node, a⟩]]
       Run S ⟨G, {packet_to G m entry}⟩ log ⟨joined, {⟨(parse m).node, a⟩}⟩ ∧
        ∀ as C, Run S ⟨G, {packet_to G m entry}⟩ as C → as <+: log) ∧
      let log := [.deliver r (packet_to G stab r) [packet_to G b (r - 1)],
        .deliver (r - 1) (packet_to G b (r - 1)) []]
      Run S ⟨joined, packet_to G stab r ::ₘ {⟨(parse m).node, a⟩}⟩ log
          ⟨repaired, {⟨(parse m).node, a⟩}⟩ ∧
        ∀ as C, Run S ⟨joined, packet_to G stab r ::ₘ {⟨(parse m).node, a⟩}⟩ as C →
          as <+: log := by
  intro S a stab joined repaired
  have hS : ∀ p, ¬ S.enters p := fun _ h => h
  have hnew : Inert S ⟨(parse m).node, a⟩ := inert_elsewhere fun i h => haddr i h.symm
  have hend : (· + 1)^[hops entry r] entry = r := ahead_hops entry r
  -- on the way
  have hpass : ∀ j < hops entry r, Takes S G (packet_to G m ((· + 1)^[j] entry))
      ((· + 1)^[j] entry) (G ((· + 1)^[j] entry)) [packet_to G m ((· + 1)^[j + 1] entry)] := by
    intro j hj
    rw [Function.iterate_succ_apply']
    exact takes_join_forward hc hm hash (Bool.eq_false_iff.2 fun h =>
      ahead_ne hj (hc.owns_unique h hr))
  have hacc : Takes S G (packet_to G m ((· + 1)^[hops entry r] entry)) ((· + 1)^[hops entry r] entry)
      ((G r).with_prev (parse m)) [⟨(parse m).node, a⟩] := by
    rw [hend]
    exact takes_join_accept hc hm hash hr
  have h0 : ∀ q ∈ (0 : Multiset Packet), Inert S q := by simp
  have hrun := relays_takes hpass hS h0 hacc (by simpa using hnew)
  rw [hend] at hrun
  have hrest : ∀ q ∈ ({⟨(parse m).node, a⟩} : Multiset Packet), Inert S q := by simpa using hnew
  obtain ⟨b, hb, hbid, hbnode, hrepair⟩ := join_repaired hc hash (r := r) hid hrest
  exact ⟨hops entry r, Nat.le_sub_one_of_lt (hops_lt _ _), b, hend, hb, hbid, hbnode, hrun, hrepair⟩

end

/-- A join of a node with the id 50, placed by that id. -/
def join_50 : List UInt8 := { join_request .zero ⟨0x7f000001, 4002, 50, 0, none⟩ with hashId := 50 }.wire

theorem join_50_message : Message JOIN_MESSAGE join_50 := ⟨by decide, by decide⟩

theorem join_50_wellFormed : WellFormedMessage join_50 := .peer join_50_message.length (by decide)

theorem join_routing_two_peers : ∃ as C,
    Run (closed_ring HASH_JEN zeroed two_peers_ring) ⟨two_peers_ring, {packet_to two_peers_ring join_50 0}⟩
      as C ∧ C.node = Function.update two_peers_ring 1 ((two_peers_ring 1).with_prev (parse join_50)) := by
  obtain ⟨k, -, b, -, -, -, -, ⟨hrun, -⟩, -⟩ := join_routing (G := two_peers_ring)
    two_peers_consistent join_50_message HASH_JEN (r := 1) (by decide) (by decide) (by decide) 0
  exact ⟨_, _, hrun, rfl⟩

/-! ## The join that `join` sends -/

/-- The message that `main` has `join` send. -/
def join_message (j : Globals) : List UInt8 := (join_request .zero j.peer_info.this).wire

/-- `a` takes the join of `j` and answers it with the notify `nt`. -/
def Accepts (hash : List UInt8 → UInt32) (j a a' : Globals) (nt : Packet) : Prop :=
  Handles hash zeroed a (join_message j) a' [nt] ∧ Message NOTIFY_MESSAGE nt.data

/-- A record that names a peer is set. -/
def Points (record : Option Peer) (p : Peer) : Prop := ∃ q, record = some q ∧ q.Names p

/-- Whenever `a` accepts the join of `j`, the two become neighbours once `j`
    has handled the notify, and `j` takes the next stabilize for its `prev`. -/
def BecomesMember (hash : List UInt8 → UInt32) (j a : Globals) : Prop :=
  ∀ a' nt, Accepts hash j a a' nt → nt.dest = j.addr ∧ ∃ j', Handles hash zeroed j nt.data j' [] ∧
    Points j'.peer_info.next a.peer_info.this ∧ Points a'.peer_info.prev j.peer_info.this ∧
    (a.peer_info.next = none → Points a'.peer_info.next j.peer_info.this) ∧
    ∀ q : Peer, ∃ j'' out, Handles hash zeroed j' (stabilize_request .zero q).wire j'' out ∧
      Points j''.peer_info.prev q

/-- No neighbours yet: as `main` starts a peer. -/
structure Alone (g : Globals) : Prop where
  next : g.peer_info.next = none
  prev : g.peer_info.prev = none

/-- A member of some consistent ring. -/
def Member (g : Globals) : Prop :=
  ∃ (n : ℕ) (_ : NeZero n) (G : Fin n → Globals) (i : Fin n),
    Consistent (fun j => (G j).peer_info) ∧ g = G i

theorem join_message_parse (j : Globals) :
    parse (join_message j) = join_request .zero j.peer_info.this :=
  parse_wire (join_request_masked _)

theorem join_message_kind (j : Globals) : Message JOIN_MESSAGE (join_message j) :=
  join_request_message _

section
variable {hash : List UInt8 → UInt32} {g g' : Globals} {b : UInt8} {m : List UInt8}
  {out out' : List Packet} (hm : Message b m) (hb : b &&& CONTROL_BIT ≠ 0)
include hm hb

theorem handles_zeroed : Handles hash zeroed g m g' out ↔ ∃ info,
    Peer.step .zero g.peer_info (parse m) m = .ok (info, out) ∧ g' = { g with peer_info := info } := by
  rw [handles_message hm hb]
  constructor
  · rintro ⟨stack, hs, h⟩
    obtain rfl := Set.mem_singleton_iff.1 hs
    exact h
  · intro h
    exact ⟨.zero, rfl, h⟩

theorem handles_unique {info : PeerInfo}
    (hstep : Peer.step .zero g.peer_info (parse m) m = .ok (info, out)) :
    Handles hash zeroed g m g' out' ↔ g' = { g with peer_info := info } ∧ out' = out := by
  rw [handles_zeroed hm hb]
  constructor
  · rintro ⟨info', hstep', rfl⟩
    cases hstep.symm.trans hstep'
    exact ⟨rfl, rfl⟩
  · rintro ⟨rfl, rfl⟩
    exact ⟨info, hstep, rfl⟩

theorem not_handles {f : Fault} (hstep : Peer.step .zero g.peer_info (parse m) m = .error f) :
    ¬ Handles hash zeroed g m g' out := by
  rw [handles_zeroed hm hb]
  rintro ⟨info', hstep', rfl⟩
  cases hstep.symm.trans hstep'

end

/-- No peer ever finds the hash zero its own. -/
theorem owns_zero (i : PeerInfo) : i.owns 0 = false := by
  cases hv : i.prev with
  | none => simp [PeerInfo.owns, hv]
  | some pv => simp [PeerInfo.owns, hv, id_is_between, in_range]

/-- The hash of the join is zero. -/
theorem member_not_accepts {hash : List UInt8 → UInt32} {j a a' : Globals} {nt : Packet}
    (ha : Member a) : ¬ Accepts hash j a a' nt := by
  rintro ⟨hh, hnt⟩
  obtain ⟨n, hn0, G, i, hc, rfl⟩ := ha
  obtain ⟨nx, hn, -⟩ := hc.next i
  obtain ⟨pv, hv, -⟩ := hc.prev i
  have hno : (G i).peer_info.owns (parse (join_message j)).hashId = false := by
    rw [join_message_parse]
    exact owns_zero _
  have hstep := step_join .zero (join_message_kind j) hn hv
  rw [hno] at hstep
  obtain ⟨-, hout⟩ := (handles_unique (join_message_kind j) (by decide) hstep).1 hh
  obtain rfl : nt = ⟨nx.addr, join_message j⟩ := by simpa using hout
  exact absurd (hnt.header_unique (join_message_kind j)) (by decide)

/-- A peer without neighbours accepts every join. -/
theorem alone_accepts {hash : List UInt8 → UInt32} {j a a' : Globals} {nt : Packet}
    (ha : Alone a) : Accepts hash j a a' nt ↔
      a' = { a with peer_info := { a.peer_info with
        next := some (Peer.zero.assign (parse (join_message j)))
        prev := some (Peer.zero.assign (parse (join_message j))) } } ∧
      nt = ⟨(parse (join_message j)).node, (notify_request .zero a.peer_info.this).wire⟩ := by
  have hstep := step_join_alone .zero (join_message_kind j) ha.next
  constructor
  · rintro ⟨hh, -⟩
    obtain ⟨rfl, hout⟩ := (handles_unique (join_message_kind j) (by decide) hstep).1 hh
    exact ⟨rfl, by simpa using hout⟩
  · rintro ⟨rfl, rfl⟩
    exact ⟨(handles_unique (join_message_kind j) (by decide) hstep).2 ⟨rfl, rfl⟩,
      notify_request_message _⟩

/-- But the new peer has no `next` record that the notify could fill. -/
theorem alone_notify_faults {hash : List UInt8 → UInt32} {j a a' : Globals} {nt : Packet}
    (hj : Alone j) (ha : Alone a) (h : Accepts hash j a a' nt) (j' : Globals) (out : List Packet) :
    ¬ Handles hash zeroed j nt.data j' out := by
  obtain ⟨-, rfl⟩ := (alone_accepts ha).1 h
  have hnt := notify_request_message a.peer_info.this
  exact not_handles hnt (by decide) (step_notify_alone .zero hnt hj.next)

/-- **Joining.**  A member of a ring never accepts the join of a new peer.  A
    peer without neighbours does, and then the new peer faults on its notify. -/
theorem becomesMember_iff (hash : List UInt8 → UInt32) {j a : Globals} (hj : Alone j)
    (ha : Alone a ∨ Member a) :
    (BecomesMember hash j a ↔ a.peer_info.next.isSome) ∧
      ((∃ a' nt, Accepts hash j a a' nt) ↔ a.peer_info.next = none) ∧
      ∀ a' nt, Accepts hash j a a' nt → ∀ j' out, ¬ Handles hash zeroed j nt.data j' out := by
  rcases ha with ha | ha
  · have hfault : ∀ a' nt, Accepts hash j a a' nt → ∀ j' out, ¬ Handles hash zeroed j nt.data j' out :=
      fun _ _ h => alone_notify_faults hj ha h
    have hacc : ∃ a' nt, Accepts hash j a a' nt := ⟨_, _, (alone_accepts ha).2 ⟨rfl, rfl⟩⟩
    refine ⟨⟨fun h => ?_, fun h => ?_⟩, ⟨fun _ => ha.next, fun _ => hacc⟩, hfault⟩
    · obtain ⟨a', nt, hacc⟩ := hacc
      obtain ⟨-, j', hh, -⟩ := h a' nt hacc
      exact absurd hh (hfault a' nt hacc j' [])
    · simp [ha.next] at h
  · have hno : ∀ a' nt, ¬ Accepts hash j a a' nt := fun _ _ => member_not_accepts ha
    have hnext : a.peer_info.next.isSome := by
      obtain ⟨n, _, G, i, hc, rfl⟩ := ha
      obtain ⟨nx, hn, -⟩ := hc.next i
      rw [hn]
      rfl
    refine ⟨⟨fun _ => hnext, fun _ a' nt h => absurd h (hno a' nt)⟩, ⟨?_, ?_⟩,
      fun a' nt h => absurd h (hno a' nt)⟩
    · rintro ⟨a', nt, h⟩
      exact absurd h (hno a' nt)
    · intro h
      simp [h] at hnext

/-- A new peer and the first peer of a ring to be, before any message. -/
def new_peer : Globals :=
  .start ⟨⟨0x7f000001, 4002, 50, 0, none⟩, none, none, some ⟨0x7f000001, 4000, 0, 0, none⟩⟩

def base_peer : Globals := .start ⟨peer_10, none, none, none⟩

theorem becomesMember_iff_base_peer :
    BecomesMember HASH_JEN new_peer base_peer ↔ base_peer.peer_info.next.isSome :=
  (becomesMember_iff HASH_JEN ⟨rfl, rfl⟩ (.inl ⟨rfl, rfl⟩)).1

/-- The first peer of a ring cannot be joined. -/
theorem not_becomesMember : ¬ ∀ (hash : List UInt8 → UInt32) (j a : Globals), Alone j →
    Alone a ∨ Member a → j.peer_info.this.id ≠ a.peer_info.this.id → j.addr ≠ a.addr →
    BecomesMember hash j a := by
  intro h
  have hj : Alone new_peer := ⟨rfl, rfl⟩
  have ha : Alone base_peer := ⟨rfl, rfl⟩
  have hacc : Accepts HASH_JEN new_peer base_peer _ _ := (alone_accepts ha).2 ⟨rfl, rfl⟩
  obtain ⟨-, j', hh, -⟩ := h HASH_JEN new_peer base_peer hj (.inl ha) (by decide) (by decide) _ _ hacc
  exact alone_notify_faults hj ha hacc j' [] hh

end ChordPeer
