/-
  Which keys the peers of a ring hold as long as the ring does not change.

  * `respond_mem`: a request brings no element into a table but its own;
    `handles_ownKeys`: so a message that changes no neighbour record leaves a
    peer with keys that belong to it;
  * `stores_disjoint`: in every state that client messages, and messages
    between peers other than joins, notifies and stabilizes, lead to from a
    consistent ring with empty stores, each peer holds keys between the id
    before its own and its own, and so no key is held twice.
-/
import ChordPeer.Routing

namespace ChordPeer

open CBytes MessagePassing PeerProtocol

/-! ## Elements of a table -/

section
variable {t t' : HashTable} {d : ClientProtocol} {out : List (List UInt8)}

theorem respond_updates_mem (h : respond_updates t d = .ok (t', out)) {e : HashElement}
    (he : e ∈ t') : e ∈ t ∨ e = ⟨d.key, d.value, d.value_length⟩ := by
  -- the table after the `SET` part
  have hset : ∀ e ∈ (if d.set ≠ 0 then t.set d.key d.value d.value_length else t),
      e ∈ t ∨ e = ⟨d.key, d.value, d.value_length⟩ := by
    intro e he
    split at he
    · exact HashTable.mem_set he
    · exact .inl he
  unfold respond_updates at h
  dsimp only at h
  split at h
  · split at h
    · cases h
    · next hd =>
      cases h
      exact hset e (HashTable.mem_delete_element hd he)
  · cases h
    exact hset e he

/-- A request brings no element into a table but its own. -/
theorem respond_mem (h : respond t d = .ok (t', out)) {e : HashElement} (he : e ∈ t') :
    e ∈ t ∨ e = ⟨d.key, d.value, d.value_length⟩ := by
  unfold respond at h
  split at h
  · split at h
    · cases h
      exact .inl he
    · next element hg =>
      dsimp only at h
      split at h
      · cases h
      · next hu =>
        cases h
        -- with `GET`, what a `SET` in the same request stores is there already
        rcases respond_updates_mem hu he with he | rfl
        · exact .inl he
        · have hk : element.key = d.key := KeyedList.find_key hg
          refine .inl ?_
          show (⟨d.key, element.value, element.value_length⟩ : HashElement) ∈ t
          rw [← hk]
          exact List.mem_of_find?_eq_some hg
  · exact respond_updates_mem h he

end

/-! ## One message -/

/-- A well-formed message that is no join, notify or stabilize. -/
structure KeepsNeighbours (m : List UInt8) : Prop where
  wellFormed : WellFormedMessage m
  kept : (parse m).control ≠ 0 →
    (parse m).join = 0 ∧ (parse m).notify = 0 ∧ (parse m).stabilize = 0

section
variable {hash : List UInt8 → UInt32} {frames : Set PeerProtocol} {g g' : Globals} {m : List UInt8}
  {out : List Packet}

theorem step_keepsNeighbours {stack d : PeerProtocol} {i i' : PeerInfo} {raw : List UInt8}
    (hj : d.join = 0) (hn : d.notify = 0) (hs : d.stabilize = 0)
    (h : Peer.step stack i d raw = .ok (i', out)) : i' = i := by
  cases Peer.step_inv h with
  | ignored | fingers | join_passed | stabilize_passed | stabilize_answered | lookup_found
  | lookup_passed => rfl
  | join_first hd | join_taken hd => exact absurd hj (dispatch_flag hd (by simp))
  | notify hd => exact absurd hn (dispatch_flag hd (by simp))
  | stabilize_first hd => exact absurd hs (dispatch_flag hd (by simp))

/-- A request of this peer's that can be answered is handled. -/
theorem handles_own (hm : ClientProtocol.WellFormed m)
    (hc : isPeerProtocol (Mem.ofList m fun _ => 0) = false)
    (ho : g.peer_info.owns (get_hash_value hash (ClientProtocol.parse m).key) = true)
    {t : HashTable} {o : List (List UInt8)}
    (hr : respond g.hash_table_head (ClientProtocol.parse m) = .ok (t, o)) (hne : frames.Nonempty) :
    Handles hash frames g m { g with hash_table_head := t } [] := by
  obtain ⟨stack, hs⟩ := hne
  rw [← key_hash_of hm hash fun _ => 0] at ho
  have hrun : (receive_handler hash (.reliable stack) (.of m fun _ => 0) ⟨3, none⟩).run ⟨g, .fresh⟩ =
      _ := receive_handler_own hash (hm.isPeerProtocol hc fun _ => 0) accepted_socket.fd ho
  rw [Received.of, hm.decode] at hrun
  refine ⟨.reliable stack, fun _ => 0, ⟨3, none⟩, .fresh,
    (Proc.withTable ⟨g, .fresh⟩ t).answered ⟨3, none⟩ o, fun _ => rfl, hs, accepted_socket, rfl,
    hrun.trans (by rw [hr]; rfl), rfl, ?_⟩
  rw [packets_answered rfl]
  rfl

/-- Every key in the store of a peer is its own. -/
def OwnKeys (hash : List UInt8 → UInt32) (g : Globals) : Prop :=
  ∀ e ∈ g.hash_table_head, g.peer_info.owns (get_hash_value hash e.key) = true

/-- A request changes no neighbour record, and no key comes to a peer that it
    does not belong to. -/
theorem ClientStep.ownKeys {env : Env} {s s' : Proc} {d : ClientProtocol} {bytes : List UInt8}
    {sock : Socket} (h : ClientStep env s d bytes (get_hash_value hash d.key) sock s')
    (hs : OwnKeys hash s.globals) :
    s'.globals.peer_info = s.globals.peer_info ∧ OwnKeys hash s'.globals := by
  rcases h.globals with ⟨t, out, ho, hr, hg⟩ | hg
  · rw [hg]
    refine ⟨rfl, ?_⟩
    intro e he
    rcases respond_mem hr he with he | rfl
    · exact hs e he
    · exact ho
  · rw [hg]
    exact ⟨rfl, hs⟩

/-- **One message** that keeps the neighbours keeps the keys where they belong. -/
theorem handles_ownKeys (hm : KeepsNeighbours m) (h : Handles hash frames g m g' out)
    (hg : OwnKeys hash g) : g'.peer_info = g.peer_info ∧ OwnKeys hash g' := by
  obtain ⟨env, rest, sock, kernel, s', -, -, hs, -, hr, rfl, -⟩ := h
  cases handler_cases hm.wellFormed hs.fd hr with
  | peer hc hstep =>
    obtain ⟨hj, hn, hst⟩ := hm.kept hc
    obtain rfl := step_keepsNeighbours hj hn hst hstep
    rw [Proc.sentAll_globals]
    exact ⟨rfl, hg⟩
  | client hc h => exact h.ownKeys hg

end

/-! ## Runs -/

section
variable {n : ℕ} (hash : List UInt8 → UInt32) (frames : Set PeerProtocol) (G : Fin n → Globals)

/-- The network of the peers `G` where any message may come from outside, and
    those that could change a neighbour record are not handled. -/
def fixed_ring : System (Fin n) Globals Packet where
  handles i g p g' out := KeepsNeighbours p.data ∧
    (ring hash frames (fun i => (G i).addr) fun _ => True).handles i g p g' out
  enters _ := True

variable {hash frames G}

theorem fixed_ring_run (hempty : ∀ i, (G i).hash_table_head = []) {as : List (Act (Fin n) Packet)}
    {C : Config (Fin n) Globals Packet} (h : Run (fixed_ring hash frames G) ⟨G, 0⟩ as C) (i : Fin n) :
    (C.node i).peer_info = (G i).peer_info ∧ OwnKeys hash (C.node i) := by
  refine (h.invariant_local (P := fun i g => g.peer_info = (G i).peer_info ∧ OwnKeys hash g)
    (Q := fun _ => True) (fun _ _ => trivial) ?_ ⟨fun i => ⟨rfl, ?_⟩, fun _ _ => trivial⟩).node i
  · rintro i g p g' out ⟨hi, hg⟩ - ⟨hm, -, hh⟩
    obtain ⟨hi', hg'⟩ := handles_ownKeys hm hh hg
    exact ⟨⟨hi'.trans hi, hg'⟩, fun _ _ => trivial⟩
  · intro e he
    rw [hempty i] at he
    cases he

/-- **No key is stored at two peers.** -/
theorem stores_disjoint [NeZero n] (hc : Consistent fun i => (G i).peer_info)
    (hempty : ∀ i, (G i).hash_table_head = []) {as : List (Act (Fin n) Packet)}
    {C : Config (Fin n) Globals Packet} (hrun : Run (fixed_ring hash frames G) ⟨G, 0⟩ as C) :
    (∀ i, ∀ e ∈ (C.node i).hash_table_head, ∃ pv, (C.node i).peer_info.prev = some pv ∧
      pv.id < get_hash_value hash e.key ∧
      get_hash_value hash e.key < (C.node i).peer_info.this.id) ∧
    ∀ i j, i ≠ j → ∀ e ∈ (C.node i).hash_table_head, ∀ e' ∈ (C.node j).hash_table_head,
      e.key ≠ e'.key := by
  constructor
  · intro i e he
    have ho := (fixed_ring_run hempty hrun i).2 e he
    obtain ⟨pv, hv⟩ := PeerInfo.owns_prev ho
    rw [PeerInfo.owns, hv, id_is_between_iff] at ho
    exact ⟨pv, hv, UInt16.lt_iff_toNat_lt.2 ho.1, UInt16.lt_iff_toNat_lt.2 ho.2⟩
  · intro i j hij e he e' he' hk
    obtain ⟨hi, ho⟩ := fixed_ring_run hempty hrun i
    obtain ⟨hj, ho'⟩ := fixed_ring_run hempty hrun j
    have h₁ := ho e he
    have h₂ := ho' e' he'
    rw [hi] at h₁
    rw [hj, ← hk] at h₂
    exact hij (hc.owns_unique h₁ h₂)

end

/-- `SET` of the key `6b` to the value `76`. -/
def set_request : List UInt8 := [SET_BIT, 0, 1, 0, 0, 0, 1, 0x6b, 0x76]

theorem set_request_keeps : KeepsNeighbours set_request :=
  ⟨.client (by decide) (by decide), fun h => absurd rfl h⟩

/-- The two peers after the second one stored the key. -/
def two_peers_stored : Config (Fin 2) Globals Packet where
  node := second_changed fun g => { g with hash_table_head := [⟨[0x6b], [0x76], 1⟩] }
  flight := 0

theorem two_peers_stored_run : Run (fixed_ring (fun _ => 50) {.zero} two_peers_ring)
    ⟨two_peers_ring, 0⟩ [.enter (packet_to two_peers_ring set_request 1),
      .deliver 1 (packet_to two_peers_ring set_request 1) []] two_peers_stored := by
  have hh : Handles (fun _ => 50) {.zero} (two_peers_ring 1) set_request
      { two_peers_ring 1 with hash_table_head := [⟨[0x6b], [0x76], 1⟩] } [] :=
    handles_own (by decide) (by decide) (by decide) rfl (Set.singleton_nonempty _)
  exact .cons (.enter trivial) (.cons (.deliver ⟨set_request_keeps, rfl, hh⟩) .nil)

theorem stores_disjoint_two_peers : ∃ pv, (two_peers_stored.node 1).peer_info.prev = some pv ∧
    pv.id < 50 ∧ 50 < (two_peers_stored.node 1).peer_info.this.id :=
  (stores_disjoint two_peers_consistent (fun _ => rfl) two_peers_stored_run).1 1
    ⟨[0x6b], [0x76], 1⟩ List.mem_cons_self

end ChordPeer
