/-
  Which keys a peer holds while its neighbours change.

  A join that a peer takes moves its `prev` up to the new node; the keys that
  now belong to that node stay where they are.

  * `step_prev`: what a message between peers does to `prev`;
  * `Holding`: what a member of a ring keeps through all messages;
  * `keys_owned_iff`: so the keys in its store are its own in every state of a
    run exactly when every join in it leaves them above the new node, and those
    that are its own are found.
-/
import ChordPeer.Ownership
import ChordPeer.Joining
import ChordPeer.Reference

namespace ChordPeer

open CBytes PeerProtocol

/-! ## Joins that are taken -/

/-- A message that the join branch takes: the new node becomes `prev`. -/
structure JoinTaken (i : PeerInfo) (d : PeerProtocol) : Prop where
  branch : dispatch d = .join
  owns : i.owns d.hashId = true

/-- **What a message between peers does to `prev`.** -/
theorem step_prev {stack d : PeerProtocol} {i i' : PeerInfo} {raw : List UInt8} {out : List Packet}
    {nx pv : Peer} (hn : i.next = some nx) (hv : i.prev = some pv)
    (h : Peer.step stack i d raw = .ok (i', out)) :
    i'.this = i.this ∧ i'.next.isSome ∧
      (JoinTaken i d ∧ i'.prev = some (pv.assign d) ∨ ¬ JoinTaken i d ∧ i'.prev = some pv) := by
  -- any branch but a join that is taken leaves `prev`
  have hkept : ¬ JoinTaken i d → i'.this = i.this → i'.next.isSome → i'.prev = some pv →
      i'.this = i.this ∧ i'.next.isSome ∧
      (JoinTaken i d ∧ i'.prev = some (pv.assign d) ∨ ¬ JoinTaken i d ∧ i'.prev = some pv) :=
    fun hj hthis hnext hprev => ⟨hthis, hnext, .inr ⟨hj, hprev⟩⟩
  have hnext : i.next.isSome := Option.isSome_iff_exists.2 ⟨nx, hn⟩
  cases Peer.step_inv h with
  | join_first _ hn' => cases hn.symm.trans hn'
  | stabilize_first _ hv' => cases hv.symm.trans hv'
  | @join_taken _ pv' hd _ hv' hb =>
    cases hv.symm.trans hv'
    exact ⟨rfl, hnext, .inl ⟨⟨hd, hb⟩, rfl⟩⟩
  | join_passed _ _ hb =>
    refine hkept (fun hj => ?_) rfl hnext hv
    cases hb.symm.trans hj.owns
  | notify hd =>
    refine hkept (fun hj => ?_) rfl rfl hv
    cases hd.symm.trans hj.branch
  | ignored hd =>
    refine hkept (fun hj => ?_) rfl hnext hv
    simp [hj.branch] at hd
  | fingers hd | stabilize_passed hd | stabilize_answered hd | lookup_found hd | lookup_passed hd =>
    refine hkept (fun hj => ?_) rfl hnext hv
    cases hd.symm.trans hj.branch

/-! ## One message -/

/-- A message that is handled to its end. -/
structure Handled (hash : List UInt8 → UInt32) (s : Proc) (a : Arrival) (s' : Proc) : Prop where
  sock : a.sock.Accepted
  run : (a.handle hash).run s = .ok ((), s')

/-- A join, if the message is one that the peer takes, is of a node below all
    keys in the store. -/
def Spares (hash : List UInt8 → UInt32) (g : Globals) (msg : Mem) : Prop :=
  isPeerProtocol msg = true → JoinTaken g.peer_info (decode_peerProtocol msg) →
    ∀ e ∈ g.hash_table_head, (decode_peerProtocol msg).nodeId < get_hash_value hash e.key

/-- What the member `p` of a ring keeps: both neighbours are set, no key is
    above its own id, and the store is a map. -/
structure Holding (hash : List UInt8 → UInt32) (p : Peer) (g : Globals) : Prop where
  next : ∃ nx, g.peer_info.next = some nx
  prev : ∃ pv, g.peer_info.prev = some pv
  this : g.peer_info.this = p
  below : ∀ e ∈ g.hash_table_head, get_hash_value hash e.key < p.id
  table : ∃ σ, Represents σ g.hash_table_head

/-- A request for the value of a key. -/
structure Arrival.Gets (a : Arrival) (key : List UInt8) : Prop where
  sock : a.sock.Accepted
  client : isPeerProtocol a.msg = false
  get : (decode_clientProtocol a.msg).get ≠ 0
  set : (decode_clientProtocol a.msg).set = 0
  delete : (decode_clientProtocol a.msg).delete = 0
  key : (decode_clientProtocol a.msg).key = key

section
variable {hash : List UInt8 → UInt32} {p : Peer} {s s' : Proc} {a : Arrival}

theorem owns_lt {i : PeerInfo} {h : UInt16} (ho : i.owns h = true) : h < i.this.id := by
  obtain ⟨pv, hv⟩ := PeerInfo.owns_prev ho
  rw [PeerInfo.owns, hv, id_is_between_iff] at ho
  exact UInt16.lt_iff_toNat_lt.2 ho.2

theorem Handled.holding (hs : Holding hash p s.globals) (h : Handled hash s a s') :
    Holding hash p s'.globals := by
  obtain ⟨⟨nx, hn⟩, ⟨pv, hv⟩, hthis, hbelow, σ, hσ⟩ := hs
  cases arrival_cases h.sock.fd h.run with
  | @peer i out hc hstep =>
    obtain ⟨hthis', hnext, hprev⟩ := step_prev hn hv hstep
    rw [Proc.sentAll_globals]
    refine ⟨Option.isSome_iff_exists.1 hnext, ?_, hthis'.trans hthis, hbelow, σ, hσ⟩
    rcases hprev with ⟨-, hprev⟩ | ⟨-, hprev⟩
    · exact ⟨_, hprev⟩
    · exact ⟨_, hprev⟩
  | client hc h =>
    rcases h.globals with ⟨t, out, ho, hr, hg⟩ | hg
    · rw [hg]
      refine ⟨⟨nx, hn⟩, ⟨pv, hv⟩, hthis, fun e he => ?_,
        respond_kept hσ (decode_clientProtocol_sized _) hr⟩
      rcases respond_mem hr he with he | rfl
      · exact hbelow e he
      · rw [← hthis]
        exact owns_lt ho
    · rw [hg]
      exact ⟨⟨nx, hn⟩, ⟨pv, hv⟩, hthis, hbelow, σ, hσ⟩

/-- Keys in the range of a peer stay there unless a join of a node above one of
    them is taken. -/
theorem Handled.ownKeys_iff (hs : Holding hash p s.globals) (ho : OwnKeys hash s.globals)
    (h : Handled hash s a s') :
    OwnKeys hash s'.globals ↔ Spares hash s.globals a.msg := by
  obtain ⟨⟨nx, hn⟩, ⟨pv, hv⟩, hthis, hbelow, -⟩ := hs
  cases arrival_cases h.sock.fd h.run with
  | @peer i out hc hstep =>
    obtain ⟨hthis', -, hprev⟩ := step_prev hn hv hstep
    rw [OwnKeys, Proc.sentAll_globals]
    show (∀ e ∈ s.globals.hash_table_head, i.owns (get_hash_value hash e.key) = true) ↔ _
    rcases hprev with ⟨hj, hprev⟩ | ⟨hj, hprev⟩
    · -- the new node is the lower end of the range now
      have hown : ∀ e ∈ s.globals.hash_table_head, (i.owns (get_hash_value hash e.key) = true ↔
          (decode_peerProtocol a.msg).nodeId < get_hash_value hash e.key) := by
        intro e he
        have hlt := hbelow e he
        rw [← hthis, ← hthis', UInt16.lt_iff_toNat_lt] at hlt
        rw [PeerInfo.owns, hprev, id_is_between_iff, UInt16.lt_iff_toNat_lt]
        exact ⟨fun h => h.1, fun h => ⟨h, hlt⟩⟩
      constructor
      · intro h _ _ e he
        exact (hown e he).1 (h e he)
      · intro h e he
        exact (hown e he).2 (h hc hj e he)
    · have hown : ∀ h, i.owns h = s.globals.peer_info.owns h := by
        intro h
        rw [PeerInfo.owns, PeerInfo.owns, hprev, hv, hthis']
      refine ⟨fun _ _ hj' => absurd hj' hj, fun _ e he => ?_⟩
      rw [hown]
      exact ho e he
  | client hc h =>
    exact ⟨fun _ hp => absurd (hc.symm.trans hp) (by simp), fun _ => (h.ownKeys ho).2⟩

/-- A key in the range of the peer is found by a `GET`. -/
theorem get_answered (hs : Holding hash p s.globals) {e : HashElement}
    (he : e ∈ s.globals.hash_table_head)
    (ho : s.globals.peer_info.owns (get_hash_value hash e.key) = true) (ha : a.Gets e.key) :
    ∃ m, (a.handle hash).run s = .ok ((), s.answered a.sock [m]) ∧
      (Reply.found e.key e.value).Encodes m := by
  obtain ⟨-, -, -, -, σ, hσ⟩ := hs
  obtain ⟨hsock, hc, hget, hset, hdel, hkey⟩ := ha
  have hfind : s.globals.hash_table_head.get e.key = some e := hσ.nodup.find_mem he
  rw [← hkey] at hfind ho ⊢
  have hlen := hσ.sized _ e hfind
  have hrun := Arrival.handle_own hsock.fd hc ho
  rw [respond_get_value hget hset hdel hfind] at hrun
  exact ⟨_, hrun, encodes_found_element (decode_clientProtocol_masked _)
    (decode_clientProtocol_sized _) hget hset hdel hlen⟩

end

/-! ## Runs -/

section
variable {hash : List UInt8 → UInt32} {s : Proc}

theorem member_holding (hm : Member s.globals) (hempty : s.globals.hash_table_head = []) :
    Holding hash s.globals.peer_info.this s.globals := by
  obtain ⟨n, _, G, i, hc, hg⟩ := hm
  obtain ⟨nx, hn, -⟩ := hc.next i
  obtain ⟨pv, hv, -⟩ := hc.prev i
  refine ⟨⟨nx, by rw [hg, hn]⟩, ⟨pv, by rw [hg, hv]⟩, rfl, fun e he => ?_, ?_⟩
  · rw [hempty] at he
    cases he
  · rw [hempty]
    exact ⟨_, .nil⟩

variable (hash)

/-- **The keys in the store of a member** of a ring are below its own id, and
    those in its range are found; all of them are in its range as long as every
    join that it takes is of a node below them. -/
theorem keys_owned_iff (hm : Member s.globals) (hempty : s.globals.hash_table_head = [])
    (as : List Arrival) :
    (∀ t, Machine.Trace (Handled hash) s as t → ∀ e ∈ t.globals.hash_table_head,
      get_hash_value hash e.key < t.globals.peer_info.this.id ∧
      (t.globals.peer_info.owns (get_hash_value hash e.key) = true → ∀ a : Arrival, a.Gets e.key →
        ∃ m, (a.handle hash).run t = .ok ((), t.answered a.sock [m]) ∧
          (Reply.found e.key e.value).Encodes m)) ∧
    ((∀ bs t, bs <+: as → Machine.Trace (Handled hash) s bs t → OwnKeys hash t.globals) ↔
      ∀ bs a t t', bs ++ [a] <+: as → Machine.Trace (Handled hash) s bs t →
        Handled hash t a t' → Spares hash t.globals a.msg) := by
  have hs : Holding hash s.globals.peer_info.this s.globals := member_holding hm hempty
  have hstep : ∀ t a t', Holding hash s.globals.peer_info.this t.globals → Handled hash t a t' →
      Holding hash s.globals.peer_info.this t'.globals := fun _ _ _ hh h => h.holding hh
  constructor
  · intro t ht e he
    have htt := ht.invariant hstep hs
    refine ⟨?_, fun ho a ha => get_answered htt he ho ha⟩
    rw [htt.this]
    exact htt.below e he
  · have hown : ∀ t a t', Holding hash s.globals.peer_info.this t.globals → OwnKeys hash t.globals →
        Handled hash t a t' →
        (OwnKeys hash t'.globals ↔ Spares hash t.globals a.msg) :=
      fun _ _ _ hh ho h => h.ownKeys_iff hh ho
    refine Machine.Trace.always_iff hstep hown hs ?_ as
    intro e he
    rw [hempty] at he
    cases he

end

/-- The second of two peers, before it handled anything. -/
def second_peer : Proc := ⟨.start ⟨peer_100, some peer_10, some peer_10, none⟩, .fresh⟩

theorem second_peer_member : Member second_peer.globals :=
  ⟨2, inferInstance, two_peers_ring, 1, two_peers_consistent, rfl⟩

/-- `SET` of a key with the hash 50 to the value `76`. -/
def store_50 : Arrival :=
  ⟨[SET_BIT, 0, 2, 0, 0, 0, 1, 0x7c, 0x32, 0x76], fun _ => 0, ⟨4, none⟩, .reliable .zero⟩

/-- The second peer with that key. -/
def second_peer_stored : Proc :=
  (second_peer.withTable [⟨[0x7c, 0x32], [0x76], 1⟩]).answered ⟨4, none⟩ [acknowledge SET_BIT]

theorem store_50_handled : Handled HASH_JEN second_peer store_50 second_peer_stored := by
  have hsock : Socket.Accepted ⟨4, none⟩ := ⟨by decide, rfl⟩
  exact ⟨hsock, Arrival.handle_own hsock.fd (by decide) (by decide)⟩

theorem keys_owned_iff_two_peers : OwnKeys HASH_JEN second_peer_stored.globals := by
  refine (keys_owned_iff HASH_JEN second_peer_member rfl [store_50]).2.2 ?_ [store_50] _
    List.prefix_rfl (.cons store_50_handled .nil)
  rintro bs a t t' hp - - hc
  have ha : a ∈ [store_50] := hp.subset (by simp)
  rw [List.mem_singleton.1 ha] at hc
  exact absurd hc (by decide)

/-- The node with the id 50 joins. -/
def enter_50 : Arrival := ⟨join_50, fun _ => 0, ⟨4, none⟩, .reliable .zero⟩

/-- **The join strands the key.** -/
theorem not_keys_owned : ¬ ∀ (hash : List UInt8 → UInt32) (s : Proc), Member s.globals →
    s.globals.hash_table_head = [] → ∀ as t, Machine.Trace (Handled hash) s as t →
      OwnKeys hash t.globals := by
  intro h
  have hstep : Peer.step .zero second_peer_stored.globals.peer_info (parse join_50) join_50 =
      .ok (⟨peer_100, some peer_10, some (peer_10.assign (parse join_50)), none⟩,
        [⟨(parse join_50).node, (notify_request .zero peer_100).wire⟩]) :=
    step_join .zero join_50_message rfl rfl
  have hjoin : (enter_50.handle HASH_JEN).run second_peer_stored = _ :=
    (receive_handler_message HASH_JEN join_50_message.length (by decide) _ _ _ _).trans
      (congrArg _ hstep)
  have hown := h HASH_JEN second_peer second_peer_member rfl [store_50, enter_50] _
    (.cons store_50_handled (.cons ⟨⟨by decide, rfl⟩, hjoin⟩ .nil))
  exact absurd (hown _ List.mem_cons_self) (by decide)

end ChordPeer
