/-
  What a client message makes a peer read and store.

  The length fields of a message are not compared with the number of its
  bytes, so the key and the value may reach into the memory behind it.

  * `Arrival.inside_iff`: they lie inside a message that is `Complete`;
  * `confined_iff`: so one message makes the peer store nothing else exactly
    when it is complete, or its key is another peer's; and along a run of such
    messages what a peer stores, and answers from its store, was sent by clients.
-/
import ChordPeer.Responsibility

namespace ChordPeer

open CBytes

/-! ## Complete messages -/

/-- The message has the bytes that its header and its length fields announce. -/
def Arrival.Complete (a : Arrival) : Prop :=
  clientProtocolCalculateSize (decode_clientProtocol a.msg) ≤ a.message.length

/-- Behind a header of 7 bytes, the key and the value are bytes of the message. -/
def Arrival.Inside (a : Arrival) : Prop := ∃ header tail : List UInt8, header.length = 7 ∧
  a.message = header ++ (decode_clientProtocol a.msg).key ++ (decode_clientProtocol a.msg).value ++ tail

theorem Arrival.inside_iff {a : Arrival} : a.Inside ↔ a.Complete := by
  have hsz := decode_clientProtocol_sized a.msg
  rw [Complete, hsz.size]
  constructor
  · rintro ⟨header, tail, hlen, hm⟩
    have h := congrArg List.length hm
    simp only [List.length_append] at h
    omega
  · intro h
    rw [hsz.key, hsz.value] at h
    let n := (decode_clientProtocol a.msg).key_length.toNat
    let k := (decode_clientProtocol a.msg).value_length.toNat
    have hk : 7 + n ≤ a.message.length := (Nat.le_add_right _ _).trans h
    have hkey : (decode_clientProtocol a.msg).key = (a.message.drop 7).take n := Mem.bytes_ofList hk
    have hval : (decode_clientProtocol a.msg).value = (a.message.drop (7 + n)).take k :=
      Mem.bytes_ofList h
    refine ⟨a.message.take 7, (a.message.drop (7 + n)).drop k, ?_, ?_⟩
    · rw [List.length_take]
      omega
    · rw [List.append_assoc, hval, List.take_append_drop, hkey, List.append_assoc, ← List.drop_drop,
        List.take_append_drop, List.take_append_drop]

/-- The bytes occur in a client message. -/
def Sent (as : List Arrival) (bs : List UInt8) : Prop :=
  ∃ a ∈ as, isPeerProtocol a.msg = false ∧ bs <:+: a.message

theorem Arrival.Inside.sent {a : Arrival} {as : List Arrival} (h : a.Inside) (ha : a ∈ as)
    (hc : isPeerProtocol a.msg = false) : Sent as (decode_clientProtocol a.msg).key ∧
      Sent as (decode_clientProtocol a.msg).value := by
  obtain ⟨header, tail, -, hm⟩ := h
  constructor
  · refine ⟨a, ha, hc, header, (decode_clientProtocol a.msg).value ++ tail, ?_⟩
    rw [hm]
    simp only [List.append_assoc]
  · exact ⟨a, ha, hc, header ++ (decode_clientProtocol a.msg).key, tail, hm.symm⟩

/-! ## One message -/

section
variable {t t' : HashTable} {d : ClientProtocol} {out : List (List UInt8)} {bs : List UInt8}

theorem respond_updates_out (h : respond_updates t d = .ok (t', out)) (hb : bs ∈ out) :
    ∃ b, bs = acknowledge b := by
  have hset : ∀ bs ∈ (if d.set ≠ 0 then [acknowledge SET_BIT] else []), ∃ b, bs = acknowledge b := by
    intro bs hb
    split at hb
    · exact ⟨_, List.mem_singleton.1 hb⟩
    · cases hb
  unfold respond_updates at h
  dsimp only at h
  split at h
  · split at h
    · cases h
    · cases h
      rcases List.mem_append.1 hb with hb | hb
      · exact hset bs hb
      · exact ⟨_, List.mem_singleton.1 hb⟩
  · cases h
    exact hset bs hb

/-- An answer carries nothing, or the value of an element of the table. -/
theorem respond_out (h : respond t d = .ok (t', out)) (hb : bs ∈ out) :
    (∃ b, bs = acknowledge b) ∨ ∃ e ∈ t, bs = (encode_clientProtocol (found_element d e)).bytes 0
      (clientProtocolCalculateSize (found_element d e)) := by
  unfold respond at h
  split at h
  · split at h
    · cases h
      exact .inl ⟨_, List.mem_singleton.1 hb⟩
    · next e hg =>
      dsimp only at h
      split at h
      · cases h
      · next hu =>
        cases h
        rcases List.mem_cons.1 hb with rfl | hb
        · exact .inr ⟨e, List.mem_of_find?_eq_some hg, rfl⟩
        · exact .inl (respond_updates_out hu hb)
  · exact .inl (respond_updates_out h hb)

end

/-- A client message is complete, or its key is another peer's. -/
def Arrival.Fits (a : Arrival) (hash : List UInt8 → UInt32) (g : Globals) : Prop :=
  isPeerProtocol a.msg = false → a.Complete ∨
    g.peer_info.owns (get_hash_value hash (decode_clientProtocol a.msg).key) = false

/-- The key and the value that the peer answers a client message by are bytes
    of the message, and an incomplete message leaves the store as it is. -/
structure Confined (hash : List UInt8 → UInt32) (g : Globals) (a : Arrival) : Prop where
  inside : g.peer_info.owns (get_hash_value hash (decode_clientProtocol a.msg).key) = true → a.Inside
  kept : ¬ a.Complete → ∀ kernel s', Handled hash ⟨g, kernel⟩ a s' →
    s'.globals.hash_table_head = g.hash_table_head

section
variable {hash : List UInt8 → UInt32} {s s' : Proc} {a : Arrival} {as : List Arrival}

/-- A request for another peer's key leaves the store as it is. -/
theorem Handled.other (hc : isPeerProtocol a.msg = false)
    (ho : s.globals.peer_info.owns (get_hash_value hash (decode_clientProtocol a.msg).key) = false)
    (h : Handled hash s a s') : s'.globals.hash_table_head = s.globals.hash_table_head := by
  cases arrival_cases h.sock.fd h.run with
  | peer hc' => exact absurd (hc.symm.trans hc') (by simp)
  | client _ h =>
    rcases h.globals with ⟨t, out, ho', -, -⟩ | hg
    · exact absurd (ho.symm.trans ho') (by simp)
    · rw [hg]

theorem confined_fits {g : Globals} (hc : isPeerProtocol a.msg = false) :
    Confined hash g a ↔ a.Complete ∨
      g.peer_info.owns (get_hash_value hash (decode_clientProtocol a.msg).key) = false := by
  constructor
  · intro h
    rcases Bool.eq_false_or_eq_true
      (g.peer_info.owns (get_hash_value hash (decode_clientProtocol a.msg).key)) with ho | ho
    · exact .inl (Arrival.inside_iff.1 (h.inside ho))
    · exact .inr ho
  · rintro (hcomp | ho)
    · exact ⟨fun _ => Arrival.inside_iff.2 hcomp, fun hn => absurd hcomp hn⟩
    · exact ⟨fun ho' => absurd (ho.symm.trans ho') (by simp), fun _ _ _ h => h.other hc ho⟩

/-! ## Runs -/

/-- An element made of what clients sent. -/
structure FromClients (as : List Arrival) (e : HashElement) : Prop where
  key : Sent as e.key
  value : Sent as e.value
  sized : e.value.length = e.value_length.toNat

/-- **One message** that fits. -/
theorem Handled.fromClients (h : Handled hash s a s') (hf : a.Fits hash s.globals) (ha : a ∈ as)
    (hs : ∀ e ∈ s.globals.hash_table_head, FromClients as e) :
    ∀ e ∈ s'.globals.hash_table_head, FromClients as e := by
  cases arrival_cases h.sock.fd h.run with
  | peer =>
    rw [Proc.sentAll_globals]
    exact hs
  | client hc h =>
    rcases h.globals with ⟨t, out, ho, hr, hg⟩ | hg
    · rw [hg]
      intro e he
      have hcomp : a.Complete := (hf hc).resolve_right (by rw [ho]; simp)
      obtain ⟨hkey, hval⟩ := (Arrival.inside_iff.2 hcomp).sent ha hc
      rcases respond_mem hr he with he | rfl
      · exact hs e he
      · exact ⟨hkey, hval, (decode_clientProtocol_sized _).value⟩
    · rw [hg]
      exact hs

/-- The answers to a request of this peer's, when its store is made of what
    clients sent. -/
theorem Handled.answers_sent (h : Handled hash s a s') (hc : isPeerProtocol a.msg = false)
    (hcomp : a.Complete)
    (ho : s.globals.peer_info.owns (get_hash_value hash (decode_clientProtocol a.msg).key) = true)
    (hs : ∀ e ∈ s.globals.hash_table_head, FromClients as e) :
    ∃ t out, s' = (s.withTable t).answered a.sock out ∧ ∀ bs ∈ out, (∃ b, bs = acknowledge b) ∨
      ∃ d : ClientProtocol, bs = d.wire ∧ Sent [a] d.key ∧ Sent as d.value := by
  cases arrival_cases h.sock.fd h.run with
  | peer hc' => exact absurd (hc.symm.trans hc') (by simp)
  | client _ h =>
    cases h with
    | @own t out _ hr =>
      refine ⟨t, out, rfl, fun bs hb => ?_⟩
      rcases respond_out hr hb with hack | ⟨e, he, rfl⟩
      · exact .inl hack
      · have hsz : (found_element (decode_clientProtocol a.msg) e).Sized :=
          ⟨(decode_clientProtocol_sized a.msg).key, (hs e he).sized⟩
        have hkey := ((Arrival.inside_iff.2 hcomp).sent (List.mem_singleton.2 rfl) hc).1
        exact .inr ⟨_, bytes_encode_clientProtocol hsz, hkey, (hs e he).value⟩
    | forward ho' => exact absurd (ho.symm.trans ho') (by simp)
    | drop ho' => exact absurd (ho.symm.trans ho') (by simp)

end

/-- **What a peer stores.** -/
theorem confined_iff (hash : List UInt8 → UInt32) :
    (∀ (g : Globals) (a : Arrival), isPeerProtocol a.msg = false → (Confined hash g a ↔
      a.Complete ∨ g.peer_info.owns (get_hash_value hash (decode_clientProtocol a.msg).key) = false)) ∧
    ∀ (s : Proc) (as : List Arrival) (t : Proc), s.globals.hash_table_head = [] →
      Machine.Trace (fun s a s' => Handled hash s a s' ∧ a.Fits hash s.globals) s as t →
      (∀ e ∈ t.globals.hash_table_head, Sent as e.key ∧ Sent as e.value) ∧
      ∀ a t', Handled hash t a t' → isPeerProtocol a.msg = false → a.Complete →
        t.globals.peer_info.owns (get_hash_value hash (decode_clientProtocol a.msg).key) = true →
        ∃ table out, t' = (t.withTable table).answered a.sock out ∧
          ∀ bs ∈ out, (∃ b, bs = acknowledge b) ∨
            ∃ d : ClientProtocol, bs = d.wire ∧ Sent [a] d.key ∧ Sent as d.value := by
  refine ⟨fun g a hc => confined_fits hc, fun s as t hempty h => ?_⟩
  have hstart : ∀ e ∈ s.globals.hash_table_head, FromClients as e := by
    intro e he
    rw [hempty] at he
    cases he
  have hend : ∀ e ∈ t.globals.hash_table_head, FromClients as e :=
    h.invariant_mem (fun a ha s s' hs hstep => hstep.1.fromClients hstep.2 ha hs) hstart
  refine ⟨fun e he => ⟨(hend e he).key, (hend e he).value⟩, ?_⟩
  intro a t' ha hc hcomp ho
  exact ha.answers_sent hc hcomp ho hend

theorem store_50_complete : store_50.Complete := by
  show clientProtocolCalculateSize _ ≤ _
  decide

theorem confined_iff_two_peers : Confined HASH_JEN second_peer.globals store_50 ∧
    ∀ e ∈ second_peer_stored.globals.hash_table_head, Sent [store_50] e.key ∧ Sent [store_50] e.value := by
  constructor
  · exact ((confined_iff HASH_JEN).1 _ store_50 (by decide)).2 (.inl store_50_complete)
  · exact ((confined_iff HASH_JEN).2 second_peer [store_50] second_peer_stored rfl
      (.cons ⟨store_50_handled, fun _ => .inl store_50_complete⟩ .nil)).1

/-- `SET` of a key with the hash 50 to a value of 4 bytes that do not follow. -/
def short_50 : Arrival :=
  ⟨[SET_BIT, 0, 2, 0, 0, 0, 4, 0x7c, 0x32], fun _ => 0x58, ⟨4, none⟩, .reliable .zero⟩

/-- **Four bytes from behind the message** are stored. -/
theorem not_confined : ¬ ∀ (hash : List UInt8 → UInt32) (g : Globals) (a : Arrival), Member g →
    isPeerProtocol a.msg = false → Confined hash g a := by
  intro h
  have hconf := h HASH_JEN second_peer.globals short_50 second_peer_member (by decide)
  have hsock : Socket.Accepted ⟨4, none⟩ := ⟨by decide, rfl⟩
  have hrun : (short_50.handle HASH_JEN).run second_peer = .ok ((),
      (second_peer.withTable [⟨[0x7c, 0x32], [0x58, 0x58, 0x58, 0x58], 4⟩]).answered ⟨4, none⟩
        [acknowledge SET_BIT]) := Arrival.handle_own hsock.fd (by decide) (by decide)
  have hshort : ¬ short_50.Complete := by
    show ¬ clientProtocolCalculateSize _ ≤ _
    decide
  have hkept := hconf.kept hshort .fresh _ ⟨hsock, hrun⟩
  cases hkept

end ChordPeer
