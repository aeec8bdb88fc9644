/-
  Requests for keys that belong neither to a peer nor to its next one.

  Such a request is to wait, with its socket, until a lookup has told which
  peer to ask; then it is sent there and the answer relayed.

  * `Follows`: a run over requests and replies that does this, first come first
    served;
  * `request_run`, `reply_run`: what the handler does instead: it forgets the
    request, and a reply makes it read through `NULL`;
  * `reachable_queues`: so nothing ever waits, and
    `follows_iff`: no run but the one without arrivals does what it should.
-/
import ChordPeer.Ownership
import ChordPeer.Neighbours

namespace ChordPeer

open CBytes PeerProtocol

/-! ## What should be done -/

/-- The nodes of a queue from `p` on hold the elements `l`. -/
inductive Queue.HoldsFrom {α : Type} (q : Queue α) : Option ℕ → List α → Prop where
  | nil : HoldsFrom q none []
  | cons {i : ℕ} {nx : Option ℕ} {a : α} {l : List α} (h : q.nodes[i]? = some (some ⟨nx, a⟩))
      (ht : HoldsFrom q nx l) : HoldsFrom q (some i) (a :: l)

/-- A queue holds the elements `l`, the oldest first. -/
def Queue.Holds {α : Type} (q : Queue α) (l : List α) : Prop := q.HoldsFrom q.first l

theorem Queue.HoldsFrom.unique {α : Type} {q : Queue α} {p : Option ℕ} {l l' : List α}
    (h : q.HoldsFrom p l) (h' : q.HoldsFrom p l') : l = l' := by
  induction h generalizing l' with
  | nil =>
    cases h'
    rfl
  | cons hi _ ih =>
    cases h' with
    | cons hi' ht' =>
      cases hi.symm.trans hi'
      rw [ih ht']

/-- A request that waits, with the socket for its answer. -/
structure Pending where
  request : List UInt8
  sock : Socket

/-- The two queues hold the requests that wait. -/
structure Stored (g : Globals) (ps : List Pending) : Prop where
  requests : g.client_requests.Holds (ps.map fun p => some p.request)
  sockets : g.sockets.Holds (ps.map Pending.sock)

theorem Stored.length_eq {g : Globals} {ps ps' : List Pending} (h : Stored g ps)
    (h' : Stored g ps') : ps.length = ps'.length := by
  simpa using congrArg List.length (h.sockets.unique h'.sockets)

/-- A complete lookup for the key of a request, from the peer with the records `i`. -/
structure LookupFor (hash : List UInt8 → UInt32) (i : PeerInfo) (p : Pending) (l : List UInt8) :
    Prop where
  length : l.length = peerProtocolCalculateSize
  control : (parse l).control ≠ 0
  lookup : (parse l).lookup ≠ 0
  hashId : (parse l).hashId = get_hash_value hash (ClientProtocol.parse p.request).key
  nodeId : (parse l).nodeId = i.this.id
  node : (parse l).node = i.this.addr

/-- The lookup for the oldest of the requests that wait goes to the next peer. -/
def Asks (hash : List UInt8 → UInt32) (i : PeerInfo) : List Pending → List Packet → Prop
  | [], out => out = []
  | p :: _, out => ∃ nx l, i.next = some nx ∧ out = [⟨nx.addr, l⟩] ∧ LookupFor hash i p l

/-- A run over requests and replies in which the requests `ps` wait at first:
    none is lost, answered twice or taken for another. -/
inductive Follows (hash : List UInt8 → UInt32) : Proc → List Pending → List Arrival → Prop where
  | nil {s : Proc} {ps : List Pending} : Follows hash s ps []
  /-- a request is stored; if it is the only one, its lookup starts -/
  | request {s s' : Proc} {ps : List Pending} {a : Arrival} {as : List Arrival} {out : List Packet}
      (hm : a.Request) (hr : (a.handle hash).run s = .ok ((), s'))
      (hst : Stored s'.globals (ps ++ [⟨a.message, a.sock⟩]))
      (hp : packets s'.kernel.trace = packets s.kernel.trace ++ out)
      (hout : if ps = [] then Asks hash s.globals.peer_info [⟨a.message, a.sock⟩] out else out = [])
      (h : Follows hash s' (ps ++ [⟨a.message, a.sock⟩]) as) : Follows hash s ps (a :: as)
  /-- the oldest request is sent to the peer that the reply names, its answer
      relayed, and the next lookup started -/
  | reply {s s' : Proc} {p : Pending} {ps : List Pending} {a : Arrival} {as : List Arrival}
      {out : List Packet} (hm : Message REPLY_MESSAGE a.message)
      (hr : (a.handle hash).run s = .ok ((), s')) (hst : Stored s'.globals ps)
      (hp : packets s'.kernel.trace =
        packets s.kernel.trace ++ ⟨(parse a.message).node, p.request⟩ :: out)
      (hout : Asks hash s.globals.peer_info ps out)
      (hans : ∀ response hlen, a.env.recvs ⟨s.kernel.fds, some (parse a.message).node⟩ =
          [.received response hlen] → response.length < BUFFER_SIZE →
        answers p.sock s'.kernel.trace = answers p.sock s.kernel.trace ++ [response])
      (h : Follows hash s' ps as) : Follows hash s (p :: ps) (a :: as)
  /-- a reply that nobody waits for changes nothing -/
  | reply_none {s s' : Proc} {a : Arrival} {as : List Arrival}
      (hm : Message REPLY_MESSAGE a.message) (hr : (a.handle hash).run s = .ok ((), s'))
      (hg : s'.globals = s.globals) (ht : s'.kernel.trace = s.kernel.trace)
      (h : Follows hash s' [] as) : Follows hash s [] (a :: as)

/-! ## What is done -/

/-- A request for a key of neither this peer nor the next one, or a reply. -/
inductive Concerns (hash : List UInt8 → UInt32) (i : PeerInfo) (a : Arrival) : Prop where
  | request (hm : a.Request) (hs : a.sock.Accepted)
      (ho : i.owns (get_hash_value hash (ClientProtocol.parse a.message).key) = false)
      (hn : i.next_owns (get_hash_value hash (ClientProtocol.parse a.message).key) = false)
  | reply (hm : Message REPLY_MESSAGE a.message)

section
variable {hash : List UInt8 → UInt32} {s : Proc} {a : Arrival}

theorem Arrival.Request.not_reply (hm : a.Request) : ¬ Message REPLY_MESSAGE a.message := by
  intro h
  have hp := h.isPeerProtocol fun _ => 0
  rw [hm.client] at hp
  revert hp
  decide

/-- The request is forgotten, unless copying it runs over the end of the stack. -/
theorem request_run (hm : a.Request) {nx pv : Peer} (hnx : s.globals.peer_info.next = some nx)
    (hpv : s.globals.peer_info.prev = some pv)
    (ho : s.globals.peer_info.owns
      (get_hash_value hash (ClientProtocol.parse a.message).key) = false)
    (hn : s.globals.peer_info.next_owns
      (get_hash_value hash (ClientProtocol.parse a.message).key) = false) :
    (a.handle hash).run s =
      if a.message.length ≤ a.env.image.length then .ok ((), s) else .error (.fault .stack) := by
  exact receive_handler_unserved hash hm.wellFormed hm.client hnx hpv ho hn a.env a.rest a.sock

theorem request_ok {s' : Proc} (hm : a.Request) (hc : Concerns hash s.globals.peer_info a)
    {nx pv : Peer} (hnx : s.globals.peer_info.next = some nx)
    (hpv : s.globals.peer_info.prev = some pv) (hr : (a.handle hash).run s = .ok ((), s')) :
    s' = s := by
  cases hc with
  | request _ _ ho hn =>
    rw [request_run hm hnx hpv ho hn] at hr
    split at hr <;> cases hr
    rfl
  | reply hm' => exact absurd hm' hm.not_reply

/-- A reply makes the handler decode the request that `queue_pop` did not give. -/
theorem reply_run (hm : Message REPLY_MESSAGE a.message) :
    (a.handle hash).run s = .error (.fault .nullRequest) := by
  rw [Arrival.handle, receive_handler_message hash hm.length (by rw [hm.flags.1]; decide),
    step_of_reply _ _ _ hm]
  rfl

/-- No message changes the queues. -/
theorem ArrivalStep.queues {s' : Proc} (h : ArrivalStep hash s a s') :
    s'.globals.client_requests = s.globals.client_requests ∧
      s'.globals.sockets = s.globals.sockets := by
  cases h with
  | peer =>
    rw [Proc.sentAll_globals]
    exact ⟨rfl, rfl⟩
  | client _ h =>
    rcases h.globals with ⟨t, out, -, -, hg⟩ | hg
    · rw [hg]
      exact ⟨rfl, rfl⟩
    · rw [hg]
      exact ⟨rfl, rfl⟩

/-- **Nothing ever waits**, whatever messages a peer has handled. -/
theorem reachable_queues {g : Globals} (hg : Reachable hash g) :
    g.client_requests = .empty ∧ g.sockets = .empty := by
  induction hg with
  | main => exact ⟨rfl, rfl⟩
  | @handle g hg m hm env rest sock hs kernel s' hr ih =>
    have h : ArrivalStep hash ⟨g, kernel⟩ ⟨m, rest, sock, env⟩ s' := arrival_cases hs.fd hr
    exact ⟨h.queues.1.trans ih.1, h.queues.2.trans ih.2⟩

/-- **Pending requests.** -/
theorem follows_iff {ps : List Pending} {as : List Arrival}
    (hnext : s.globals.peer_info.next.isSome) (hprev : s.globals.peer_info.prev.isSome)
    (hps : Stored s.globals ps) (ha : ∀ a ∈ as, Concerns hash s.globals.peer_info a) :
    Follows hash s ps as ↔ as = [] := by
  obtain ⟨nx, hnx⟩ := Option.isSome_iff_exists.1 hnext
  obtain ⟨pv, hpv⟩ := Option.isSome_iff_exists.1 hprev
  constructor
  · intro h
    cases h with
    | nil => rfl
    | request hm hr hst =>
      obtain rfl := request_ok hm (ha _ List.mem_cons_self) hnx hpv hr
      exact absurd (hps.length_eq hst) (by simp)
    | reply hm hr =>
      rw [reply_run hm] at hr
      cases hr
    | reply_none hm hr =>
      rw [reply_run hm] at hr
      cases hr
  · rintro rfl
    exact .nil

end

/-- The request for the key `6b`, whose hash is above both ids, at the first of
    two peers. -/
def arrival_6b : Arrival := ⟨set_request, fun _ => 0, ⟨4, none⟩, .reliable .zero⟩

theorem arrival_6b_concerns : Concerns HASH_JEN (two_peers_ring 0).peer_info arrival_6b :=
  .request ⟨by decide, by decide⟩ ⟨by decide, rfl⟩ (by decide) (by decide)

theorem stored_nil (i : PeerInfo) : Stored (.start i) [] := ⟨.nil, .nil⟩

theorem follows_iff_two_peers :
    Follows HASH_JEN ⟨two_peers_ring 0, .fresh⟩ [] [arrival_6b] ↔ [arrival_6b] = [] :=
  follows_iff rfl rfl (stored_nil _) (by
    intro a ha
    rw [List.mem_singleton.1 ha]
    exact arrival_6b_concerns)

/-- The request is not stored. -/
theorem not_follows : ¬ ∀ (hash : List UInt8 → UInt32) (s : Proc) (ps : List Pending)
    (as : List Arrival), s.globals.peer_info.next.isSome → s.globals.peer_info.prev.isSome →
    Stored s.globals ps → (∀ a ∈ as, Concerns hash s.globals.peer_info a) → Follows hash s ps as := by
  intro h
  have hf := h HASH_JEN ⟨two_peers_ring 0, .fresh⟩ [] [arrival_6b] rfl rfl (stored_nil _) (by
    intro a ha
    rw [List.mem_singleton.1 ha]
    exact arrival_6b_concerns)
  cases hf with
  | request hm hr hst =>
    obtain rfl := request_ok hm arrival_6b_concerns rfl rfl hr
    exact absurd ((stored_nil _).length_eq hst) (by simp)
  | reply_none hm hr =>
    rw [reply_run hm] at hr
    cases hr

end ChordPeer
