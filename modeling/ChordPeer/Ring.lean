/-
  Rings of peers — when the neighbour records of `n` peers fit together, and
  the network that their message handlers make up.

  * `Consistent R`: the peers `R i`, in the order of their ids, name each other
    around; `Consistent.owns_iff`, `Consistent.next_owns`: which hashes
    `id_is_between` gives to a peer, and to the next one;
  * `Handles`: a peer takes a message when its handler comes to its end on it,
    over connections that come about; `ring` is the network of the peers.
    `handles_peer`: on messages between peers, `Peer.step` says what happens.
-/
import ChordPeer.Steps
import ChordPeer.Lib.Cyclic
import ChordPeer.Lib.MessagePassing

namespace ChordPeer

open CBytes Cyclic MessagePassing

/-! ## Consistent rings -/

/-- The record `p` names the peer `q`. -/
structure Peer.Names (p q : Peer) : Prop where
  id : p.id = q.id
  ip : p.ip = q.ip
  port : p.port = q.port

theorem Peer.Names.addr {p q : Peer} (h : p.Names q) : p.addr = q.addr := by
  rw [Peer.addr, Peer.addr, h.ip, h.port]

/-- **A consistent ring**: the peers in increasing order of their ids, each
    with the one after it as `next` and the one before it as `prev`. -/
structure Consistent {n : ℕ} [NeZero n] (R : Fin n → PeerInfo) : Prop where
  two_le : 2 ≤ n
  ids : StrictMono fun i => (R i).this.id.toNat
  addrs : Function.Injective fun i => (R i).this.addr
  next : ∀ i, ∃ p, (R i).next = some p ∧ p.Names (R (i + 1)).this
  prev : ∀ i, ∃ p, (R i).prev = some p ∧ p.Names (R (i - 1)).this

section
variable {n : ℕ} [NeZero n] {R : Fin n → PeerInfo}

/-- The peers `p` around a ring. -/
def circle (p : Fin n → Peer) (i : Fin n) : PeerInfo := ⟨p i, some (p (i + 1)), some (p (i - 1)), none⟩

/-- Any two or more peers with increasing ids and different addresses make a
    consistent ring. -/
theorem circle_consistent {p : Fin n → Peer} (hn : 2 ≤ n) (hid : ∀ i j, i < j → (p i).id < (p j).id)
    (ha : ∀ i j, (p i).addr = (p j).addr → i = j) : Consistent (circle p) where
  two_le := hn
  ids i j h := UInt16.lt_iff_toNat_lt.1 (hid i j h)
  addrs i j h := ha i j h
  next _ := ⟨_, rfl, rfl, rfl, rfl⟩
  prev _ := ⟨_, rfl, rfl, rfl, rfl⟩

/-- A hash is a peer's exactly when it lies in the gap before its id. -/
theorem Consistent.owns_iff (hc : Consistent R) {i : Fin n} {h : UInt16} :
    (R i).owns h = true ↔ Gap (fun j => (R j).this.id.toNat) i h.toNat := by
  obtain ⟨p, hp, hn⟩ := hc.prev i
  simp only [PeerInfo.owns, hp, id_is_between_iff, hn.id, Gap]

/-- What a peer finds of the next one is what the next one finds of itself. -/
theorem Consistent.next_owns (hc : Consistent R) (i : Fin n) (h : UInt16) :
    (R i).next_owns h = (R (i + 1)).owns h := by
  obtain ⟨p, hp, hn⟩ := hc.next i
  obtain ⟨q, hq, hm⟩ := hc.prev (i + 1)
  rw [add_sub_cancel_right] at hm
  simp only [PeerInfo.next_owns, PeerInfo.owns, hp, hq, id_is_between, hn.id, hm.id]

theorem Consistent.owns_unique (hc : Consistent R) {i j : Fin n} {h : UInt16}
    (hi : (R i).owns h = true) (hj : (R j).owns h = true) : i = j :=
  (hc.owns_iff.1 hi).unique hc.ids (hc.owns_iff.1 hj)

end

/-! ## The network -/

/-- `PeerProtocol` with every field zero. -/
def PeerProtocol.zero : PeerProtocol := ⟨0, 0, 0, 0, 0, 0, 0, 0, 0, 0, 0, 0⟩

instance : Inhabited PeerProtocol := ⟨.zero⟩

/-- A peer with the globals `g` takes the message `m`: its handler, called with
    it, comes to its end.  Every connection comes about, and what the stack
    holds where a sender declares its message is one of `frames`. -/
def Handles (hash : List UInt8 → UInt32) (frames : Set PeerProtocol) (g : Globals)
    (m : List UInt8) (g' : Globals) (out : List Packet) : Prop :=
  ∃ (env : Env) (rest : Mem) (sock : Socket) (kernel : Kernel) (s' : Proc),
    (∀ a, env.accepts a = true) ∧ env.stack ∈ frames ∧ sock.Accepted ∧ kernel.trace = [] ∧
      (receive_handler hash env (.of m rest) sock).run ⟨g, kernel⟩ = .ok ((), s') ∧
      g' = s'.globals ∧ out = packets s'.kernel.trace

/-- The network of `n` peers at the addresses `addr`.  A message for an address
    reaches the peer there whole; `enters` are the messages from outside. -/
def ring {n : ℕ} (hash : List UInt8 → UInt32) (frames : Set PeerProtocol) (addr : Fin n → Addr)
    (enters : Packet → Prop) : System (Fin n) Globals Packet where
  handles i g p g' out := p.dest = addr i ∧ Handles hash frames g p.data g' out
  enters := enters

/-- The address at which a peer listens. -/
def Globals.addr (g : Globals) : Addr := g.peer_info.this.addr

/-- The network of the peers `G` alone. -/
def closed_ring {n : ℕ} (hash : List UInt8 → UInt32) (frames : Set PeerProtocol)
    (G : Fin n → Globals) : System (Fin n) Globals Packet :=
  ring hash frames (fun i => (G i).addr) fun _ => False

/-- The message `m` on its way to peer `i`. -/
def packet_to {n : ℕ} (G : Fin n → Globals) (m : List UInt8) (i : Fin n) : Packet := ⟨(G i).addr, m⟩

/-- `k` times a message is forwarded unchanged, first by peer `i`. -/
def forwards {n : ℕ} [NeZero n] (G : Fin n → Globals) (m : List UInt8) (i : Fin n) (k : ℕ) :
    List (Act (Fin n) Packet) :=
  relays (· + 1) (packet_to G m) i k

section
variable {hash : List UInt8 → UInt32} {frames : Set PeerProtocol} {g g' : Globals} {m : List UInt8}
  {out : List Packet}

/-- An environment in which every connection comes about.  The stack ends
    behind the `struct Response`. -/
def Env.reliable (stack : PeerProtocol) : Env where
  accepts _ := true
  recvs _ := []
  stack := stack
  image := List.replicate SIZEOF_RESPONSE 0
  image_size := List.length_replicate.ge
  junk _ := 0

/-- **Messages between peers.** -/
theorem handles_peer (hlen : m.length = peerProtocolCalculateSize)
    (hp : (PeerProtocol.parse m).control ≠ 0) :
    Handles hash frames g m g' out ↔ ∃ stack ∈ frames, ∃ i,
      Peer.step stack g.peer_info (PeerProtocol.parse m) m = .ok (i, out) ∧
        g' = { g with peer_info := i } := by
  constructor
  · rintro ⟨env, rest, sock, kernel, s', ha, hs, -, ht, hr, rfl, rfl⟩
    rw [receive_handler_message hash hlen hp] at hr
    cases hstep : Peer.step env.stack g.peer_info (PeerProtocol.parse m) m with
    | error f => simp [hstep, Proc.after] at hr
    | ok r =>
      obtain ⟨i, o⟩ := r
      obtain rfl : (Proc.withInfo ⟨g, kernel⟩ i).sentAll env o = s' := by
        simpa [hstep, Proc.after] using hr
      refine ⟨env.stack, hs, i, ?_, by simp [Proc.withInfo]⟩
      rw [hstep, Proc.packets_sentAll]
      simp [Proc.withInfo, ht, ha, packets]
  · rintro ⟨stack, hs, i, hstep, rfl⟩
    have hr := receive_handler_message hash hlen hp (.reliable stack) (fun _ => 0)
      ⟨3, none⟩ ⟨g, .fresh⟩
    rw [show (Env.reliable stack).stack = stack from rfl, hstep] at hr
    refine ⟨.reliable stack, fun _ => 0, ⟨3, none⟩, .fresh, _, fun _ => rfl, hs,
      accepted_socket, rfl, hr, by simp [Proc.withInfo], ?_⟩
    rw [Proc.packets_sentAll]
    simp [Proc.withInfo, Kernel.fresh, Env.reliable, packets]

theorem handles_message {b : UInt8} (hm : PeerProtocol.Message b m) (hb : b &&& CONTROL_BIT ≠ 0) :
    Handles hash frames g m g' out ↔ ∃ stack ∈ frames, ∃ i,
      Peer.step stack g.peer_info (PeerProtocol.parse m) m = .ok (i, out) ∧
        g' = { g with peer_info := i } :=
  handles_peer hm.length (by rw [hm.flags.1]; exact hb)

end

section
variable {n : ℕ} {hash : List UInt8 → UInt32} {frames : Set PeerProtocol} {addr : Fin n → Addr}
  {enters : Packet → Prop}

/-- A message between peers on which all frames make the handler do the same is
    taken by the peer it is addressed to, in this one way. -/
theorem takes_peer (hinj : Function.Injective addr) (hne : frames.Nonempty) {G : Fin n → Globals}
    {i : Fin n} {b : UInt8} {m : List UInt8} (hm : PeerProtocol.Message b m)
    (hb : b &&& CONTROL_BIT ≠ 0) {info : PeerInfo} {out : List Packet}
    (hstep : ∀ stack ∈ frames,
      Peer.step stack (G i).peer_info (PeerProtocol.parse m) m = .ok (info, out)) :
    Takes (ring hash frames addr enters) G ⟨addr i, m⟩ i { G i with peer_info := info } out where
  handles := by
    obtain ⟨stack, hs⟩ := hne
    exact ⟨rfl, (handles_message hm hb).2 ⟨stack, hs, info, hstep stack hs, rfl⟩⟩
  only j g' out' h := by
    obtain ⟨hj, hh⟩ := h
    obtain rfl : i = j := hinj hj
    obtain ⟨stack, hs, info', hstep', rfl⟩ := (handles_message hm hb).1 hh
    rw [hstep stack hs] at hstep'
    cases hstep'
    exact ⟨rfl, rfl, rfl⟩

theorem inert_elsewhere {p : Packet} (h : ∀ i, p.dest ≠ addr i) :
    Inert (ring hash frames addr enters) p := fun i _ _ _ hh => h i hh.1

/-- The handler faults on a reply, so that no peer takes one. -/
theorem inert_reply {p : Packet} (hm : PeerProtocol.Message REPLY_MESSAGE p.data) :
    Inert (ring hash frames addr enters) p := by
  rintro i g g' out ⟨-, hh⟩
  obtain ⟨stack, -, info, hstep, -⟩ := (handles_message hm (by decide)).1 hh
  rw [step_of_reply stack _ _ hm] at hstep
  cases hstep

end

end ChordPeer
