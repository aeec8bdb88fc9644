/-
  What a message can change (`receive_handler` of `peer.c`).

  * `respond_others`: a request changes no element with another key, and
    nothing without a `SET` or `DELETE`;
  * `message_frame`: which message changes the neighbour records, and which the
    store.
-/
import ChordPeer.Responsibility

namespace ChordPeer

open CBytes

/-! ## Requests -/

/-- The elements with other keys. -/
def HashTable.others (t : HashTable) (key : List UInt8) : HashTable := t.filter fun e => e.key ≠ key

section
variable {t t' : HashTable} {d : ClientProtocol} {out : List (List UInt8)}

theorem HashTable.others_set (t : HashTable) (key value : List UInt8) (n : UInt32) :
    (t.set key value n).others key = t.others key := by
  unfold HashTable.set
  cases hg : t.get key with
  | none => simp [HashTable.others]
  | some e =>
    exact KeyedList.filter_update (f := HashTable.assign value n) (fun _ => rfl) t key

theorem HashTable.others_delete {key : List UInt8} (h : t.delete_element key = some t') :
    t'.others key = t.others key := by
  obtain ⟨-, rfl⟩ := HashTable.delete_element_eq_some.1 h
  exact KeyedList.filter_erase t key

theorem respond_updates_others (h : respond_updates t d = .ok (t', out)) :
    t'.others d.key = t.others d.key ∧ (d.set = 0 → d.delete = 0 → t' = t) := by
  -- the table after the `SET` part
  have hset : (if d.set ≠ 0 then t.set d.key d.value d.value_length else t).others d.key =
      t.others d.key := by
    split
    · exact HashTable.others_set t _ _ _
    · rfl
  unfold respond_updates at h
  dsimp only at h
  split at h
  · next hd =>
    split at h
    · cases h
    · next hdel =>
      cases h
      exact ⟨(HashTable.others_delete hdel).trans hset, fun _ hd' => absurd hd' hd⟩
  · cases h
    refine ⟨hset, fun hs _ => ?_⟩
    rw [if_neg (not_not.2 hs)]

/-- **A request** changes the element of its key at most, and that by `SET` or
    `DELETE`. -/
theorem respond_others (h : respond t d = .ok (t', out)) :
    t'.others d.key = t.others d.key ∧ (d.set = 0 → d.delete = 0 → t' = t) := by
  unfold respond at h
  split at h
  · split at h
    · cases h
      exact ⟨rfl, fun _ _ => rfl⟩
    · next e he =>
      dsimp only at h
      split at h
      · cases h
      · next hu =>
        cases h
        exact respond_updates_others (d := found_element d e) hu
  · exact respond_updates_others h

end

/-! ## Messages -/

/-- The message `m` takes the process from `s` to `s'` and changes no more than
    a message of its kind may. -/
structure MessageFrame (hash : List UInt8 → UInt32) (m : List UInt8) (s s' : Globals) : Prop where
  this : s'.peer_info.this = s.peer_info.this
  peer : isPeerProtocol (Mem.ofList m fun _ => 0) = true → s'.hash_table_head = s.hash_table_head
  client : isPeerProtocol (Mem.ofList m fun _ => 0) = false →
    s'.peer_info.next = s.peer_info.next ∧ s'.peer_info.prev = s.peer_info.prev
  branch : isPeerProtocol (Mem.ofList m fun _ => 0) = true →
    dispatch (PeerProtocol.parse m) ∈ [.lookup, .finger, .fack] →
    s'.hash_table_head = s.hash_table_head ∧ s'.peer_info = s.peer_info
  store : s'.hash_table_head ≠ s.hash_table_head → isPeerProtocol (Mem.ofList m fun _ => 0) = false ∧
    (∃ pv, s.peer_info.prev = some pv ∧
      id_is_between (get_hash_value hash (ClientProtocol.parse m).key) s.peer_info.this pv = true) ∧
    ((ClientProtocol.parse m).set ≠ 0 ∨ (ClientProtocol.parse m).delete ≠ 0) ∧
    s'.hash_table_head.others (ClientProtocol.parse m).key =
      s.hash_table_head.others (ClientProtocol.parse m).key ∧
    ∀ key, key ≠ (ClientProtocol.parse m).key → s'.hash_table_head.get key = s.hash_table_head.get key

section
variable {hash : List UInt8 → UInt32} {env : Env} {m : List UInt8} {rest : Mem} {sock : Socket}
  {stack d : PeerProtocol} {i i' : PeerInfo} {raw : List UInt8} {out : List Packet}

/-- The branches that change no neighbour. -/
theorem Peer.step_unchanged (h : Peer.step stack i d raw = .ok (i', out))
    (hd : dispatch d ∈ [Branch.lookup, .finger, .fack]) : i' = i := by
  cases Peer.step_inv h with
  | ignored | fingers | join_passed | stabilize_passed | stabilize_answered | lookup_found
  | lookup_passed => rfl
  | join_first hd' | join_taken hd' | notify hd' | stabilize_first hd' => simp [hd'] at hd

/-- **What a message can change**, in any state and whatever its flags. -/
theorem message_frame {s s' : Proc} (hm : WellFormedMessage m) (hs : sock.fd ≠ -1)
    (hr : (receive_handler hash env (.of m rest) sock).run s = .ok ((), s')) :
    MessageFrame hash m s.globals s'.globals := by
  cases handler_cases hm hs hr with
  | @peer i out hc hstep =>
    have hpp : isPeerProtocol (Mem.ofList m fun _ => 0) = true := by
      rw [isPeerProtocol, bne_iff_ne]
      exact hc
    rw [Proc.sentAll_globals]
    constructor
    · exact (Peer.step_cases hstep).this
    · intro _
      rfl
    · intro h
      rw [hpp] at h
      cases h
    · intro _ hd
      exact ⟨rfl, Peer.step_unchanged hstep hd⟩
    · intro h
      exact absurd rfl h
  | client hc h =>
    rcases h.globals with ⟨t, out, ho, hresp, hg⟩ | hg
    · rw [hg]
      obtain ⟨hothers, hsame⟩ := respond_others hresp
      constructor
      · rfl
      · intro h
        rw [hc] at h
        cases h
      · intro _
        exact ⟨rfl, rfl⟩
      · intro h
        rw [hc] at h
        cases h
      · intro hne
        refine ⟨hc, ?_, ?_, hothers, fun key hk => KeyedList.find_eq_of_filter hk hothers⟩
        · obtain ⟨pv, hv⟩ := PeerInfo.owns_prev ho
          rw [PeerInfo.owns, hv] at ho
          exact ⟨pv, hv, ho⟩
        · by_contra hn
          obtain ⟨h1, h2⟩ := not_or.1 hn
          exact hne (hsame (not_not.1 h1) (not_not.1 h2))
    · rw [hg]
      constructor
      · rfl
      · intro _
        rfl
      · intro _
        exact ⟨rfl, rfl⟩
      · intro _ _
        exact ⟨rfl, rfl⟩
      · intro h
        exact absurd rfl h

end

theorem message_frame_set :
    MessageFrame HASH_JEN store_50.message second_peer.globals second_peer_stored.globals :=
  message_frame (.client (by decide : _ = _) (by decide)) store_50_handled.sock.fd
    store_50_handled.run

end ChordPeer
