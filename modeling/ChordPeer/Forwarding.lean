/-
  A request forwarded to the next peer, compared with the same request sent
  there directly.

  * `Delivered`: what comes of a client message at a peer: the globals of all
    peers and the answers on the client's socket.  Where the handler asks
    another peer, what that one answers is what `recv` brings;
  * `delivered_own`, `delivered_next`: at the peer a key belongs to, and at the
    one before;
  * `forwarded_as_direct`: it makes no difference at which of the two.
-/
import ChordPeer.Receiving
import ChordPeer.Reference
import ChordPeer.Ownership

namespace ChordPeer

open CBytes Cyclic

/-- One `recv` that brings exactly `data`. -/
def RecvResult.Whole (r : RecvResult) (data : List UInt8) : Prop :=
  ∃ h, r = .received data h

/-- The message `m` of a client handled at peer `i`, with the globals of all
    peers afterwards and what was sent on the client's socket.  Messages and
    answers are received as they were sent. -/
inductive Delivered {n : ℕ} (hash : List UInt8 → UInt32) (G : Fin n → Globals) :
    Fin n → List UInt8 → (Fin n → Globals) → List (List UInt8) → Prop where
  /-- no other peer is asked -/
  | here {i : Fin n} {m : List UInt8} {env : Env} {rest : Mem} {sock : Socket} {kernel : Kernel}
      {s' : Proc} (ha : ∀ a, env.accepts a = true) (hs : sock.Accepted) (ht : kernel.trace = [])
      (hr : (receive_handler hash env (.of m rest) sock).run ⟨G i, kernel⟩ = .ok ((), s'))
      (hp : packets s'.kernel.trace = []) :
      Delivered hash G i m (Function.update G i s'.globals) (answers sock s'.kernel.trace)
  /-- peer `j` is sent `data`, over the first connection that is made -/
  | relayed {i j : Fin n} {m data : List UInt8} {env : Env} {rest : Mem} {sock : Socket}
      {kernel : Kernel} {s' : Proc} {G' : Fin n → Globals} {replies : List (List UInt8)}
      (ha : ∀ a, env.accepts a = true) (hs : sock.Accepted) (ht : kernel.trace = [])
      (hr : (receive_handler hash env (.of m rest) sock).run ⟨G i, kernel⟩ = .ok ((), s'))
      (hp : packets s'.kernel.trace = [⟨(G j).addr, data⟩])
      (hd : Delivered hash G j data G' replies)
      (hrecv : List.Forall₂ RecvResult.Whole (env.recvs ⟨kernel.fds, some (G j).addr⟩) replies) :
      Delivered hash G i m (Function.update G' i s'.globals) (answers sock s'.kernel.trace)

theorem answers_answered (s : Proc) (sock : Socket) (out : List (List UInt8)) :
    answers sock (s.answered sock out).kernel.trace = answers sock s.kernel.trace ++ out := by
  simp [Proc.answered, Proc.emitted, answers]

/-- What the next peer is sent, and then the client. -/
theorem packets_relayed {env : Env} {s : Proc} {p : Packet} {sock : Socket}
    (ha : env.accepts p.dest = true) (hs : sock.peer = none) (heap : Heap) (data : List UInt8) :
    packets (((s.sent env p).withHeap heap).emitted [.send sock data]).kernel.trace =
      packets s.kernel.trace ++ [p] := by
  rw [packets_forwarded hs]
  simp [ha]

theorem answers_relayed {env : Env} {s : Proc} {p : Packet} {sock : Socket} (hs : sock.peer = none)
    (heap : Heap) (data : List UInt8) :
    answers sock (((s.sent env p).withHeap heap).emitted [.send sock data]).kernel.trace =
      answers sock s.kernel.trace ++ [data] := by
  have h := answers_answered ((s.sent env p).withHeap heap) sock [data]
  rw [Proc.answered, List.map_singleton] at h
  have hne : ∀ fd a, (⟨fd, some a⟩ : Socket) ≠ sock := by
    rintro fd a rfl
    cases hs
  rw [h, Proc.withHeap, Proc.sent]
  split
  · simp [answers, hne]
  · rfl

section
variable {n : ℕ} {hash : List UInt8 → UInt32} {G : Fin n → Globals} {m : List UInt8}
  (hm : ClientProtocol.WellFormed m) (hc : isPeerProtocol (Mem.ofList m fun _ => 0) = false)
  {t : HashTable} {a : List UInt8}
include hm hc

/-- **At the peer a key belongs to**, the request is answered from the store. -/
theorem delivered_own {i : Fin n}
    (ho : (G i).peer_info.owns (get_hash_value hash (ClientProtocol.parse m).key) = true)
    (hr : respond (G i).hash_table_head (ClientProtocol.parse m) = .ok (t, [a]))
    {G' : Fin n → Globals} {out : List (List UInt8)} :
    Delivered hash G i m G' out ↔
      G' = Function.update G i { G i with hash_table_head := t } ∧ out = [a] := by
  have hrun : ∀ env rest sock kernel, Socket.Accepted sock →
      (receive_handler hash env (.of m rest) sock).run ⟨G i, kernel⟩ =
        .ok ((), (Proc.withTable ⟨G i, kernel⟩ t).answered sock [a]) := by
    intro env rest sock kernel hs
    have h : (receive_handler hash env (.of m rest) sock).run ⟨G i, kernel⟩ = _ :=
      receive_handler_own hash (hm.isPeerProtocol hc rest) hs.fd (by rw [key_hash_of hm]; exact ho)
    rw [Received.of, hm.decode] at h
    exact h.trans (by rw [hr]; rfl)
  constructor
  · intro hd
    cases hd with
    | here ha hs ht hr' hp =>
      rw [hrun _ _ _ _ hs] at hr'
      cases hr'
      rw [answers_answered]
      exact ⟨rfl, by simp [Proc.withTable, ht, answers]⟩
    | relayed ha hs ht hr' hp =>
      rw [hrun _ _ _ _ hs] at hr'
      cases hr'
      rw [packets_answered hs.peer, Proc.withTable, ht] at hp
      cases hp
  · rintro ⟨rfl, rfl⟩
    have h := Delivered.here (fun _ => rfl) accepted_socket rfl
      (hrun (.reliable .zero) (fun _ => 0) _ .fresh accepted_socket) (by
        rw [packets_answered rfl]
        rfl)
    rw [answers_answered] at h
    exact h

/-- The peer before sends the message on and waits for the answer. -/
theorem receive_handler_next [NeZero n] (hring : Consistent fun i => (G i).peer_info) {i : Fin n}
    (hid : (G i).peer_info.this.id < get_hash_value hash (ClientProtocol.parse m).key)
    (ho : (G (i + 1)).peer_info.owns (get_hash_value hash (ClientProtocol.parse m).key) = true)
    {env : Env} (ha : ∀ a, env.accepts a = true) (rest : Mem) (sock : Socket) (kernel : Kernel) :
    (receive_handler hash env (.of m rest) sock).run ⟨G i, kernel⟩ =
      (redirect env ⟨kernel.fds, some (G (i + 1)).addr⟩ sock).run
        (Proc.sent env ⟨G i, kernel⟩ ⟨(G (i + 1)).addr, m⟩) >>= fun r => .ok ((), r.2) := by
  obtain ⟨nx, hn, hnx⟩ := hring.next i
  have haddr : nx.addr = (G (i + 1)).addr := hnx.addr
  have hb : id_is_between (get_hash_value hash (ClientProtocol.parse m).key) nx
      (G i).peer_info.this = true := by
    have h := (hring.next_owns i (get_hash_value hash (ClientProtocol.parse m).key)).trans ho
    rwa [PeerInfo.next_owns, hn] at h
  -- the own id is not above the hash, so `prev` is not read
  have hown : (id_is_between_ptr ((Received.of m rest).key_hash hash) this prev).run ⟨G i, kernel⟩ =
      .ok (false, ⟨G i, kernel⟩) :=
    id_is_between_ptr_run_left (this_run _) (by rw [key_hash_of hm]; exact UInt16.lt_asymm hid)
  have h : (receive_handler hash env (.of m rest) sock).run ⟨G i, kernel⟩ = _ :=
    receive_handler_other hash (hm.isPeerProtocol hc rest) sock hown
  rw [key_hash_of hm, Received.of_bytes] at h
  simpa only [hn, hb, if_true, Proc.connection, ha, haddr] using h

/-- Whatever comes back, the next peer is sent the message and nobody else. -/
theorem sent_to_next [NeZero n] (hring : Consistent fun i => (G i).peer_info) {i : Fin n}
    (hid : (G i).peer_info.this.id < get_hash_value hash (ClientProtocol.parse m).key)
    (ho : (G (i + 1)).peer_info.owns (get_hash_value hash (ClientProtocol.parse m).key) = true)
    {env : Env} {rest : Mem} {sock : Socket} {kernel : Kernel} {s' : Proc}
    (ha : ∀ a, env.accepts a = true) (hs : sock.Accepted) (ht : kernel.trace = [])
    (hr : (receive_handler hash env (.of m rest) sock).run ⟨G i, kernel⟩ = .ok ((), s')) :
    packets s'.kernel.trace = [⟨(G (i + 1)).addr, m⟩] := by
  rw [receive_handler_next hm hc hring hid ho ha, bind_eq_ok] at hr
  obtain ⟨r, hred, hs'⟩ := hr
  cases hs'
  obtain ⟨heap, data, hs'⟩ := redirect_ok hs.fd hred
  rw [hs', packets_relayed (ha _) hs.peer, ht]
  rfl

/-- What one `recv` brings from there whole is what the client is sent. -/
theorem answered_by_next [NeZero n] (hring : Consistent fun i => (G i).peer_info) {i : Fin n}
    (hid : (G i).peer_info.this.id < get_hash_value hash (ClientProtocol.parse m).key)
    (ho : (G (i + 1)).peer_info.owns (get_hash_value hash (ClientProtocol.parse m).key) = true)
    {env : Env} {sock : Socket} {kernel : Kernel} (ha : ∀ a, env.accepts a = true)
    (hs : sock.Accepted) (ht : kernel.trace = []) {h : a.length ≤ BUFFER_SIZE}
    (hlen : a.length < BUFFER_SIZE)
    (hrecv : env.recvs ⟨kernel.fds, some (G (i + 1)).addr⟩ = [.received a h]) (rest : Mem) :
    ∃ s', (receive_handler hash env (.of m rest) sock).run ⟨G i, kernel⟩ = .ok ((), s') ∧
      s'.globals = G i ∧ answers sock s'.kernel.trace = [a] := by
  obtain ⟨heap, hred⟩ := redirect_run hrecv hlen hs.fd
    (Proc.sent env ⟨G i, kernel⟩ ⟨(G (i + 1)).addr, m⟩)
  have hrun := receive_handler_next hm hc hring hid ho ha rest sock kernel
  rw [hred] at hrun
  refine ⟨_, hrun, by simp [Proc.withHeap], ?_⟩
  change answers sock (((Proc.sent env ⟨G i, kernel⟩ _).withHeap heap).emitted _).kernel.trace = [a]
  rw [answers_relayed hs.peer, ht]
  rfl

/-- **At the peer before**, what that one would do is done there, and its answer
    relayed. -/
theorem delivered_next [NeZero n] (hring : Consistent fun i => (G i).peer_info) {i : Fin n}
    (hid : (G i).peer_info.this.id < get_hash_value hash (ClientProtocol.parse m).key)
    (ho : (G (i + 1)).peer_info.owns (get_hash_value hash (ClientProtocol.parse m).key) = true)
    (hr : respond (G (i + 1)).hash_table_head (ClientProtocol.parse m) = .ok (t, [a]))
    (hlen : a.length < BUFFER_SIZE) {G' : Fin n → Globals} {out : List (List UInt8)} :
    Delivered hash G i m G' out ↔
      G' = Function.update G (i + 1) { G (i + 1) with hash_table_head := t } ∧ out = [a] := by
  have hself : Function.update (Function.update G (i + 1) { G (i + 1) with hash_table_head := t }) i
      (G i) = Function.update G (i + 1) { G (i + 1) with hash_table_head := t } := by
    rw [Function.update_eq_self_iff, Function.update_of_ne (add_one_ne hring.two_le i).symm]
  constructor
  · intro hd
    cases hd with
    | here ha hs ht hr' hp =>
      rw [sent_to_next hm hc hring hid ho ha hs ht hr'] at hp
      cases hp
    | @relayed _ j _ data env rest sock kernel s' G' replies ha hs ht hr' hp hd hrecv =>
      rw [sent_to_next hm hc hring hid ho ha hs ht hr'] at hp
      obtain ⟨hj, rfl⟩ : (G (i + 1)).addr = (G j).addr ∧ m = data := by simpa using hp
      obtain rfl : i + 1 = j := hring.addrs hj
      obtain ⟨rfl, rfl⟩ := (delivered_own hm hc ho hr).1 hd
      obtain ⟨r, rs, ⟨h, rfl⟩, hnil, hrecvs⟩ := List.forall₂_cons_right_iff.1 hrecv
      rw [List.forall₂_nil_right_iff.1 hnil] at hrecvs
      obtain ⟨s₁, hr₁, hg, hans⟩ := answered_by_next hm hc hring hid ho ha hs ht hlen hrecvs rest
      cases hr'.symm.trans hr₁
      rw [hg, hself]
      exact ⟨rfl, hans⟩
  · rintro ⟨rfl, rfl⟩
    let env : Env := { Env.reliable .zero with recvs := fun _ => [.received a hlen.le] }
    have ha : ∀ a, env.accepts a = true := fun _ => rfl
    have ht : Kernel.fresh.trace = [] := rfl
    obtain ⟨s₁, hr₁, hg, hans⟩ :=
      answered_by_next hm hc hring hid ho ha accepted_socket ht hlen rfl fun _ => 0
    have h := Delivered.relayed ha accepted_socket ht hr₁
      (sent_to_next hm hc hring hid ho ha accepted_socket ht hr₁)
      ((delivered_own hm hc ho hr).2 ⟨rfl, rfl⟩) (.cons ⟨hlen.le, rfl⟩ .nil)
    rwa [hg, hself, hans] at h

/-- **Forwarding agrees with the local path.**  For a key between a peer and
    the next one, each answer short enough for one `recv`. -/
theorem forwarded_as_direct [NeZero n] (hring : Consistent fun i => (G i).peer_info)
    (hone : (ClientProtocol.parse m).OneOperation) {i : Fin n}
    (hlo : (G i).peer_info.this.id < get_hash_value hash (ClientProtocol.parse m).key)
    (hhi : get_hash_value hash (ClientProtocol.parse m).key < (G (i + 1)).peer_info.this.id)
    (hdel : (ClientProtocol.parse m).delete ≠ 0 →
      ((G (i + 1)).hash_table_head.get (ClientProtocol.parse m).key).isSome)
    (hlen : ∀ G' out, Delivered hash G (i + 1) m G' out → ∀ a ∈ out, a.length < BUFFER_SIZE) :
    ∃ t a, (∀ G' out, Delivered hash G i m G' out ↔
        G' = Function.update G (i + 1) { G (i + 1) with hash_table_head := t } ∧ out = [a]) ∧
      ∀ G' out, Delivered hash G (i + 1) m G' out ↔
        G' = Function.update G (i + 1) { G (i + 1) with hash_table_head := t } ∧ out = [a] := by
  have ho : (G (i + 1)).peer_info.owns (get_hash_value hash (ClientProtocol.parse m).key) = true := by
    obtain ⟨pv, hpv, hnames⟩ := hring.prev (i + 1)
    rw [add_sub_cancel_right] at hnames
    rw [PeerInfo.owns, hpv, id_is_between_iff, hnames.id]
    exact ⟨UInt16.lt_iff_toNat_lt.1 hlo, UInt16.lt_iff_toNat_lt.1 hhi⟩
  obtain ⟨t, a, hr⟩ := respond_single hone hdel
  have ha : a.length < BUFFER_SIZE :=
    hlen _ _ ((delivered_own hm hc ho hr).2 ⟨rfl, rfl⟩) a List.mem_cons_self
  exact ⟨t, a, fun _ _ => delivered_next hm hc hring hlo ho hr ha,
    fun _ _ => delivered_own hm hc ho hr⟩

end

theorem forwarded_as_direct_two_peers : ∃ t a,
    (∀ G' out, Delivered (fun _ => 50) two_peers_ring 0 set_request G' out ↔
      G' = Function.update two_peers_ring 1 { two_peers_ring 1 with hash_table_head := t } ∧
        out = [a]) ∧
    ∀ G' out, Delivered (fun _ => 50) two_peers_ring 1 set_request G' out ↔
      G' = Function.update two_peers_ring 1 { two_peers_ring 1 with hash_table_head := t } ∧
        out = [a] := by
  have hm : ClientProtocol.WellFormed set_request := by decide
  have hc : isPeerProtocol (Mem.ofList set_request fun _ => 0) = false := by decide
  refine forwarded_as_direct hm hc two_peers_consistent (by decide) (i := 0) (by decide) (by decide)
    (fun h => absurd (by decide) h) fun G' out hd => ?_
  have hr : respond (two_peers_ring 1).hash_table_head (ClientProtocol.parse set_request) =
      .ok ([⟨[0x6b], [0x76], 1⟩], [acknowledge SET_BIT]) := rfl
  rw [((delivered_own hm hc (by decide) hr).1 hd).2]
  decide

end ChordPeer
