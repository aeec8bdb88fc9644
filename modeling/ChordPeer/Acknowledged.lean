/-
  What an acknowledgement of a peer means (`respond_as_responsible_peer` of
  `peer.c`).

  The three operations of a request run one after the other on one record.
  `GET` writes the value it found into it, or returns early; and `HASH_DEL` is
  called with whatever `get` returned.

  * `deleteSafe_never`: a `DELETE` of a key that is not there is a fault, so no
    `DELETE` can be repeated;
  * `setTakesEffect_iff`: a `SET` takes effect, and is acknowledged, exactly if
    no `GET` comes with it, or the key has the value already.
-/
import ChordPeer.Responsibility
import ChordPeer.History

namespace ChordPeer

open CBytes

/-! ## Deleting -/

/-- A request that only deletes. -/
structure ClientProtocol.Deletes (d : ClientProtocol) (key : List UInt8) : Prop where
  get : d.get = 0
  set : d.set = 0
  delete : d.delete ≠ 0
  key : d.key = key

/-- Deleting a key that is not there changes nothing and is acknowledged, and
    what a `DELETE` does it does again. -/
structure DeleteSafe (s : Proc) (key : List UInt8) : Prop where
  absent : s.globals.hash_table_head.get key = none →
    ∃ t, s.globals.hash_table_head.delete_element key = some t ∧
      ∀ k, t.get k = s.globals.hash_table_head.get k
  acknowledged : s.globals.hash_table_head.get key = none → ∀ d sock, d.Deletes key → sock.fd ≠ -1 →
    ∃ t, (respond_as_responsible_peer d sock).run s =
      .ok ((), (s.withTable t).answered sock [acknowledge DELETE_BIT])
  idempotent : ∀ d sock, d.Deletes key → sock.fd ≠ -1 → ∃ t out,
    let s' := (s.withTable t).answered sock out
    (respond_as_responsible_peer d sock).run s = .ok ((), s') ∧
      (respond_as_responsible_peer d sock).run s' = .ok ((), (s'.withTable t).answered sock out)

/-- The `DELETE` of a key. -/
def delete_request (key : List UInt8) : ClientProtocol :=
  { act := 0, get := 0, set := 0, delete := DELETE_BIT, key_length := UInt16.ofNat key.length,
    value_length := 0, key := key, value := [] }

theorem delete_request_deletes (key : List UInt8) : (delete_request key).Deletes key :=
  ⟨rfl, rfl, (by decide : DELETE_BIT ≠ 0), rfl⟩

section
variable {t : HashTable} {key : List UInt8} {d : ClientProtocol} {sock : Socket} {s : Proc}

theorem delete_element_absent (h : t.get key = none) : t.delete_element key = none := by
  rw [HashTable.delete_element, h]

theorem respond_delete_absent (hd : d.Deletes key) (h : t.get key = none) :
    respond t d = .error .nullElement := by
  have h' : t.get d.key = none := by rw [hd.key, h]
  simp [respond, respond_updates, hd.get, hd.set, hd.delete, delete_element_absent h']

/-- **Deleting a key that is not there** is a fault. -/
theorem run_delete_absent (hd : d.Deletes key) (hs : sock.fd ≠ -1)
    (h : s.globals.hash_table_head.get key = none) :
    (respond_as_responsible_peer d sock).run s = .error (.fault .nullElement) := by
  rw [respond_as_responsible_peer_run hs, respond_delete_absent hd h]
  rfl

/-- Deleting a key that is there leaves it absent. -/
theorem run_delete_present (hn : KeyedList.NodupKeys HashElement.key s.globals.hash_table_head)
    (hd : d.Deletes key) (hs : sock.fd ≠ -1) {e : HashElement}
    (h : s.globals.hash_table_head.get key = some e) :
    ∃ t, t.get key = none ∧ (respond_as_responsible_peer d sock).run s =
      .ok ((), (s.withTable t).answered sock [acknowledge DELETE_BIT]) := by
  have hdel : s.globals.hash_table_head.delete_element key =
      some (KeyedList.erase HashElement.key s.globals.hash_table_head key) :=
    HashTable.delete_element_eq_some.2 ⟨by rw [h]; rfl, rfl⟩
  refine ⟨_, by rw [HashTable.get_delete_element hn hdel, if_pos rfl], ?_⟩
  rw [← hd.key] at hdel
  rw [respond_as_responsible_peer_run hs, respond_delete hd.get hd.set hd.delete hdel, hd.key]
  rfl

/-- The second of two `DELETE`s is a fault, if not the first. -/
theorem not_idempotent (hn : KeyedList.NodupKeys HashElement.key s.globals.hash_table_head) :
    ¬ DeleteSafe s key := by
  intro h
  have hd : (delete_request key).Deletes key := delete_request_deletes key
  have hs : Socket.fd ⟨3, none⟩ ≠ -1 := by decide
  obtain ⟨t, out, hfirst, hsecond⟩ := h.idempotent _ _ hd hs
  cases hg : s.globals.hash_table_head.get key with
  | none =>
    rw [run_delete_absent hd hs hg] at hfirst
    cases hfirst
  | some e =>
    obtain ⟨t', hnone, hrun⟩ := run_delete_present hn hd hs hg
    rw [hrun] at hfirst
    obtain ⟨-, heq⟩ := Prod.mk.inj (Except.ok.inj hfirst)
    have htable : t' = t := congrArg (fun s => s.globals.hash_table_head) heq
    have habsent : ((s.withTable t).answered ⟨3, none⟩ out).globals.hash_table_head.get key = none := by
      rw [← htable]
      exact hnone
    rw [run_delete_absent hd hs habsent] at hsecond
    cases hsecond

end

/-- **No `DELETE` is safe**, whatever calls led to the store. -/
theorem deleteSafe_never {cs : List Call} {t : HashTable} {os : List (Option HashElement)}
    (h : Machine.run HashTable.call [] cs = some (t, os)) {s : Proc}
    (hs : s.globals.hash_table_head = t) (key : List UInt8) :
    ¬ DeleteSafe s key ∧ (t.get key = none → t.delete_element key = none ∧
      ∀ d sock, d.Deletes key → sock.fd ≠ -1 →
        (respond_as_responsible_peer d sock).run s = .error (.fault .nullElement)) := by
  subst hs
  refine ⟨not_idempotent (HashTable.run_content HashTable.nodupKeys_nil h).1, fun hg => ?_⟩
  exact ⟨delete_element_absent hg, fun d sock hd hs => run_delete_absent hd hs hg⟩

/-- A store that a `SET` and a `DELETE` left empty. -/
theorem deleteSafe_never_deleted : ¬ DeleteSafe second_peer [0x6b] := by
  have hrun : Machine.run HashTable.call [] [.set [0x6b] [0x76] 1, .delete_element [0x6b]] =
      some ([], [none, none]) := rfl
  exact (deleteSafe_never hrun rfl [0x6b]).1

/-- **The first `DELETE` of a key** that was never set. -/
theorem not_deleteSafe : ¬ ∀ (cs : List Call) (t : HashTable) (os : List (Option HashElement)),
    Machine.run HashTable.call [] cs = some (t, os) → ∀ s : Proc, s.globals.hash_table_head = t →
      ∀ key, DeleteSafe s key := by
  intro h
  have hsafe := h [] [] [] rfl second_peer rfl [0x6b]
  obtain ⟨t, hdel, -⟩ := hsafe.absent rfl
  cases hdel

/-! ## Setting -/

/-- The flags of a response are exactly `ACK` and `SET`. -/
def AcksSet (m : List UInt8) : Prop := m.head? = some (ACK_BIT ||| SET_BIT)

/-- The request is answered; an answer that acknowledges a `SET` means that the
    store binds the key to the value of the request, and there is one. -/
def SetTakesEffect (s : Proc) (d : ClientProtocol) (sock : Socket) : Prop := ∃ t out,
  (respond_as_responsible_peer d sock).run s = .ok ((), (s.withTable t).answered sock out) ∧
    ((∃ m ∈ out, AcksSet m) → t.lookup d.key = some d.value) ∧ ∃ m ∈ out, AcksSet m

section
variable {t t' : HashTable} {d : ClientProtocol} {out out' : List (List UInt8)} {sock : Socket}
  {s : Proc}

theorem acksSet_acknowledge : AcksSet (acknowledge SET_BIT) := rfl

theorem not_acksSet_get : ¬ AcksSet (acknowledge GET_BIT) := by
  intro h
  cases h

/-- A `SET` behind a `GET` that finds the key sets it to what was found. -/
theorem respond_set_found (hg : d.get ≠ 0) (hs : d.set ≠ 0) (hd : d.delete = 0) {e : HashElement}
    (he : t.get d.key = some e) :
    respond t d = .ok (t.set d.key e.value e.value_length,
      [(encode_clientProtocol (found_element d e)).bytes 0
        (clientProtocolCalculateSize (found_element d e)), acknowledge SET_BIT]) := by
  simp [respond, respond_updates, found_element, hg, hs, hd, he]

/-- `SetTakesEffect` by what `respond` does. -/
theorem setTakesEffect_respond (hsock : sock.fd ≠ -1)
    (h : respond s.globals.hash_table_head d = .ok (t, out)) :
    SetTakesEffect s d sock ↔ t.lookup d.key = some d.value ∧ ∃ m ∈ out, AcksSet m := by
  have hrun : (respond_as_responsible_peer d sock).run s =
      .ok ((), (s.withTable t).answered sock out) := by
    rw [respond_as_responsible_peer_run hsock, h]
    rfl
  constructor
  · rintro ⟨t', out', hrun', hbound, hack⟩
    rw [hrun] at hrun'
    obtain ⟨-, heq⟩ := Prod.mk.inj (Except.ok.inj hrun')
    have ht : t = t' := congrArg (fun s => s.globals.hash_table_head) heq
    have hout : out.map (Event.send sock) = out'.map (Event.send sock) :=
      List.append_cancel_left (congrArg (fun s => s.kernel.trace) heq)
    have hout' : out = out' := List.map_injective_iff.2 (fun _ _ h => by cases h; rfl) hout
    subst ht hout'
    exact ⟨hbound hack, hack⟩
  · rintro ⟨hbound, hack⟩
    exact ⟨t, out, hrun, fun _ => hbound, hack⟩

end

/-- **An acknowledged `SET`** has taken effect if no `GET` came with it, or the
    key had the value before; otherwise it has not, or is not acknowledged. -/
theorem setTakesEffect_iff {d : ClientProtocol} (hs : d.set ≠ 0) (hd : d.delete = 0) {sock : Socket}
    (hsock : sock.fd ≠ -1) (s : Proc) :
    SetTakesEffect s d sock ↔
      d.get = 0 ∨ s.globals.hash_table_head.lookup d.key = some d.value := by
  by_cases hg : d.get = 0
  · rw [setTakesEffect_respond hsock (respond_set hg hs hd)]
    refine iff_of_true ⟨?_, _, List.mem_singleton_self _, acksSet_acknowledge⟩ (.inl hg)
    rw [HashTable.lookup_set, Function.update_self]
  rw [or_iff_right hg]
  cases he : s.globals.hash_table_head.get d.key with
  | none =>
    -- the early return: the rest of the request is left
    rw [setTakesEffect_respond hsock (respond_get_unbound hg he)]
    refine iff_of_false ?_ (by simp [HashTable.lookup, he])
    rintro ⟨-, m, hm, hack⟩
    rw [List.mem_singleton.1 hm] at hack
    exact not_acksSet_get hack
  | some e =>
    rw [setTakesEffect_respond hsock (respond_set_found hg hs hd he), HashTable.lookup_set,
      Function.update_self, HashTable.lookup, he]
    exact and_iff_left ⟨_, List.mem_cons_of_mem _ (List.mem_singleton_self _), acksSet_acknowledge⟩

/-- `SET` of the key `6b` to `77`, with `GET` in the same request. -/
def get_set_request : ClientProtocol :=
  { act := 0, get := GET_BIT, set := SET_BIT, delete := 0, key_length := 1, value_length := 1,
    key := [0x6b], value := [0x77] }

/-- The second peer with the key bound to `76`. -/
def second_peer_6b : Proc := second_peer.withTable [⟨[0x6b], [0x76], 1⟩]

theorem setTakesEffect_iff_plain :
    SetTakesEffect second_peer_6b { get_set_request with get := 0 } ⟨3, none⟩ :=
  (setTakesEffect_iff (by decide) rfl (by decide) _).2 (.inl rfl)

/-- **Not with `GET` in the same request**: the old value is acknowledged as set. -/
theorem not_setTakesEffect : ¬ ∀ (s : Proc) (d : ClientProtocol) (sock : Socket), d.Masked →
    d.Sized → d.set ≠ 0 → d.delete = 0 → sock.fd ≠ -1 → SetTakesEffect s d sock := by
  intro h
  have hset := h second_peer_6b get_set_request ⟨3, none⟩
    ⟨.inl rfl, .inr rfl, .inr rfl, .inl rfl⟩ ⟨rfl, rfl⟩ (by decide) rfl (by decide)
  have hr : respond second_peer_6b.globals.hash_table_head get_set_request = _ :=
    respond_set_found (by decide) (by decide) rfl rfl
  obtain ⟨hlookup, -⟩ := (setTakesEffect_respond (by decide) hr).1 hset
  exact absurd hlookup (by decide)

end ChordPeer
