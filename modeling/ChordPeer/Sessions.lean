/-
  A ring as one map.

  Clients ask any peer of a consistent ring, one request after the other.  A
  peer serves the keys of its own and those of the next peer; a request for any
  other key gets no answer, and the copy that should be kept of it is one of the
  stack (`CopyFits`, `drops_iff`).

  * `Session`: the requests in turn, each at a peer, with what they change and
    what is answered;
  * `ring_step`: the same on one map from keys to values;
  * `InRing`: the stores of the peers hold the map in parts;
  * `session_iff`: from empty stores on, a session is possible exactly when the
    map knows every key that a peer who serves it is to delete, and it answers
    as the map does, whichever of its peers are asked.

  This is about what the handlers do with one message after the other.  `main`
  hands one of them to its handler only: `get_new_connection` closes the
  listening socket.
-/
import ChordPeer.Forwarding
import ChordPeer.Lib.Sharding

namespace ChordPeer

open CBytes Cyclic Sharding

/-! ## Sessions -/

/-- A request: the peer that is asked and the message. -/
abbrev Asked (n : ℕ) := Fin n × List UInt8

/-- Requests one after the other, with the globals of all peers afterwards and
    what each client was sent. -/
inductive Session {n : ℕ} (hash : List UInt8 → UInt32) :
    (Fin n → Globals) → List (Asked n) → (Fin n → Globals) → List (List (List UInt8)) → Prop where
  | nil {G} : Session hash G [] G []
  | cons {G G₁ G' i m reqs out outs} (h : Delivered hash G i m G₁ out)
      (hs : Session hash G₁ reqs G' outs) : Session hash G ((i, m) :: reqs) G' (out :: outs)

/-- The messages of clients that are at issue: one operation, the length fields
    those of the bytes, and short enough for one `recv`. -/
structure ClientProtocol.Plain (m : List UInt8) : Prop where
  wellFormed : ClientProtocol.WellFormed m
  client : isPeerProtocol (Mem.ofList m fun _ => 0) = false
  one : (ClientProtocol.parse m).OneOperation
  short : m.length < BUFFER_SIZE

/-! ## One map -/

/-- The key that an operation is about. -/
def Operation.key : Operation → List UInt8
  | .get key | .set key _ | .delete key => key

/-- The peer or the next one owns the hash. -/
def PeerInfo.serves (i : PeerInfo) (h : UInt16) : Bool := i.owns h || i.next_owns h

/-- One request on the map of a ring `R`; no reply to one that is not served. -/
def ring_step {n : ℕ} (hash : List UInt8 → UInt32) (R : Fin n → PeerInfo) (σ : Reference)
    (r : Asked n) : Option (Reference × Option Reply) :=
  let d := ClientProtocol.parse r.2
  if (R r.1).serves (get_hash_value hash d.key) then
    (Reference.step σ d.operation).map fun x => (x.1, some x.2)
  else some (σ, none)

/-- If the peer that is asked does not serve the key, what it copies of its stack
    for the request is no more than the `struct Response`. -/
def CopyFits {n : ℕ} (hash : List UInt8 → UInt32) (R : Fin n → PeerInfo) (r : Asked n) : Prop :=
  (R r.1).serves (get_hash_value hash (ClientProtocol.parse r.2).key) = false →
    r.2.length ≤ SIZEOF_RESPONSE

/-- What a client is sent: the reply on the wire, or nothing at all. -/
def Reply.Sent : Option Reply → List (List UInt8) → Prop
  | some reply, out => reply.Answered out
  | none, out => out = []

/-- The stores of the ring `R` hold the map `σ`, whose values are short. -/
structure InRing {n : ℕ} (hash : List UInt8 → UInt32) (R : Fin n → PeerInfo) (σ : Reference)
    (G : Fin n → Globals) : Prop where
  info : ∀ i, (G i).peer_info = R i
  parts : ∃ part, InParts (fun i key => (R i).owns (get_hash_value hash key) = true) σ part ∧
    ∀ i, Represents (part i) (G i).hash_table_head
  short : ∀ key value, σ key = some value → 7 + key.length + value.length < BUFFER_SIZE

section
variable {σ σ' ρ : Reference} {op : Operation} {reply : Reply} {t : HashTable} {d : ClientProtocol}

/-- An operation changes the value of its key only, and looks at nothing else. -/
theorem Reference.step_part (h : σ.step op = some (σ', reply)) (hk : ρ op.key = σ op.key) :
    ∃ v, σ' = Function.update σ op.key v ∧
      ρ.step op = some (Function.update ρ op.key v, reply) ∧
      ∀ value, v = some value → σ op.key = some value ∨ op = .set op.key value := by
  cases op with
  | get key =>
    have hk : ρ key = σ key := hk
    cases h
    refine ⟨σ key, (Function.update_eq_self key σ).symm, ?_, fun value hv => .inl hv⟩
    show some (ρ, _) = some (Function.update ρ key (σ key), _)
    rw [← hk, Function.update_eq_self]
  | set key value =>
    cases h
    refine ⟨some value, rfl, rfl, fun value' hv => ?_⟩
    cases hv
    exact .inr rfl
  | delete key =>
    have hk : ρ key = σ key := hk
    rw [Reference.step] at h ⊢
    split at h
    · next hs =>
      cases h
      refine ⟨none, rfl, ?_, fun value hv => by cases hv⟩
      rw [hk, if_pos hs]
      rfl
    · cases h

/-- Where the map knows no answer, the store runs into a fault. -/
theorem respond_undefined (h : Represents σ t) (hone : d.OneOperation)
    (hstep : σ.step d.operation = none) : ∃ f, respond t d = .error f := by
  rcases hone.cases with ⟨-, -, -, hop⟩ | ⟨-, -, -, hop⟩ | ⟨hg, hs, hd, hop⟩
  · rw [hop] at hstep
    cases hstep
  · rw [hop] at hstep
    cases hstep
  · rw [hop, Reference.step] at hstep
    split at hstep
    · cases hstep
    · next hk =>
      have hnone : t.get d.key = none := h.get_eq_none (Option.not_isSome_iff_eq_none.1 hk)
      refine ⟨.nullElement, ?_⟩
      simp [respond, respond_updates, hg, hs, hd, HashTable.delete_element, hnone]

theorem ClientProtocol.OneOperation.key (hone : d.OneOperation) : d.operation.key = d.key := by
  rcases hone.cases with ⟨-, -, -, hop⟩ | ⟨-, -, -, hop⟩ | ⟨-, -, -, hop⟩ <;> rw [hop] <;> rfl

end

/-! ## One request -/

section
variable {n : ℕ} [NeZero n] {hash : List UInt8 → UInt32} {G G' : Fin n → Globals}
  {R : Fin n → PeerInfo} {σ σ' : Reference} {i : Fin n} {m : List UInt8} {t : HashTable}
  {out : List (List UInt8)}

/-- A request for a key of other peers is dropped on every stack exactly if it
    is not longer than the `struct Response`. -/
theorem drops_iff (hring : Consistent fun i => (G i).peer_info)
    (hm : ClientProtocol.WellFormed m) (hc : isPeerProtocol (Mem.ofList m fun _ => 0) = false)
    (hs : (G i).peer_info.serves (get_hash_value hash (ClientProtocol.parse m).key) = false) :
    (∀ env rest sock kernel, (receive_handler hash env (.of m rest) sock).run ⟨G i, kernel⟩ =
      .ok ((), ⟨G i, kernel⟩)) ↔ m.length ≤ SIZEOF_RESPONSE := by
  obtain ⟨ho, hn⟩ := Bool.or_eq_false_iff.1 hs
  obtain ⟨pv, hpv, -⟩ := hring.prev i
  obtain ⟨nx, hnx, -⟩ := hring.next i
  have hrun := fun kernel => receive_handler_unserved hash hm hc (s := ⟨G i, kernel⟩) hnx hpv ho hn
  constructor
  · intro h
    have hr := h (.reliable .zero) (fun _ => 0) ⟨3, none⟩ .fresh
    rw [hrun] at hr
    split at hr
    · next hle => exact hle.trans List.length_replicate.le
    · cases hr
  · intro h env rest sock kernel
    rw [hrun, if_pos (h.trans env.image_size)]

theorem delivered_dropped (hring : Consistent fun i => (G i).peer_info)
    (hm : ClientProtocol.WellFormed m) (hc : isPeerProtocol (Mem.ofList m fun _ => 0) = false)
    (hs : (G i).peer_info.serves (get_hash_value hash (ClientProtocol.parse m).key) = false)
    (hlen : m.length ≤ SIZEOF_RESPONSE) :
    Delivered hash G i m G' out ↔ G' = G ∧ out = [] := by
  have hrun := (drops_iff hring hm hc hs).2 hlen
  constructor
  · intro hd
    cases hd with
    | here ha hs ht hr hp =>
      rw [hrun] at hr
      cases hr
      exact ⟨Function.update_eq_self i G, by rw [ht]; rfl⟩
    | relayed ha hs ht hr hp =>
      rw [hrun] at hr
      cases hr
      rw [ht] at hp
      cases hp
  · rintro ⟨rfl, rfl⟩
    have h := Delivered.here (fun _ => rfl) accepted_socket rfl
      (hrun (.reliable .zero) (fun _ => 0) ⟨3, none⟩ .fresh) rfl
    rwa [Function.update_eq_self] at h

omit [NeZero n] in
/-- Nothing comes of a request that its owner cannot answer. -/
theorem not_delivered_own (hm : ClientProtocol.WellFormed m)
    (hc : isPeerProtocol (Mem.ofList m fun _ => 0) = false)
    (ho : (G i).peer_info.owns (get_hash_value hash (ClientProtocol.parse m).key) = true) {f : Fault}
    (hr : respond (G i).hash_table_head (ClientProtocol.parse m) = .error f) :
    ¬ Delivered hash G i m G' out := by
  have hrun : ∀ env rest sock kernel, Socket.Accepted sock →
      (receive_handler hash env (.of m rest) sock).run ⟨G i, kernel⟩ = .error (.fault f) := by
    intro env rest sock kernel hs
    have h : (receive_handler hash env (.of m rest) sock).run ⟨G i, kernel⟩ = _ :=
      receive_handler_own hash (hm.isPeerProtocol hc rest) hs.fd (by rw [key_hash_of hm]; exact ho)
    rw [Received.of, hm.decode] at h
    exact h.trans (by rw [hr]; rfl)
  intro hd
  cases hd with
  | here ha hs ht hr' => cases (hrun _ _ _ _ hs).symm.trans hr'
  | relayed ha hs ht hr' => cases (hrun _ _ _ _ hs).symm.trans hr'

theorem not_delivered_next (hring : Consistent fun i => (G i).peer_info)
    (hm : ClientProtocol.WellFormed m) (hc : isPeerProtocol (Mem.ofList m fun _ => 0) = false)
    (hid : (G i).peer_info.this.id < get_hash_value hash (ClientProtocol.parse m).key)
    (ho : (G (i + 1)).peer_info.owns (get_hash_value hash (ClientProtocol.parse m).key) = true)
    {f : Fault} (hr : respond (G (i + 1)).hash_table_head (ClientProtocol.parse m) = .error f) :
    ¬ Delivered hash G i m G' out := by
  intro hd
  cases hd with
  | here ha hs ht hr' hp =>
    rw [sent_to_next hm hc hring hid ho ha hs ht hr'] at hp
    cases hp
  | @relayed _ j _ data _ _ _ _ _ _ _ ha hs ht hr' hp hd =>
    rw [sent_to_next hm hc hring hid ho ha hs ht hr'] at hp
    obtain ⟨hj, rfl⟩ : (G (i + 1)).addr = (G j).addr ∧ m = data := by simpa using hp
    obtain rfl : i + 1 = j := hring.addrs hj
    exact not_delivered_own hm hc ho hr hd

/-- The length of an answer. -/
theorem Reply.Encodes.length_lt {reply : Reply} {op : Operation} {a : List UInt8}
    (h : reply.Encodes a) (hstep : σ.step op = some (σ', reply))
    (hshort : ∀ key value, σ key = some value →
      7 + key.length + value.length < BUFFER_SIZE) : a.length < BUFFER_SIZE := by
  cases reply with
  | found key value =>
    obtain ⟨hw, -, -, -, -, hkey, hvalue⟩ := h
    have hsz := ClientProtocol.parse_sized a
    have hσ : σ key = some value := by
      cases op with
      | get k =>
        rw [Reference.step] at hstep
        cases hk : σ k with
        | none =>
          rw [hk] at hstep
          cases hstep
        | some v =>
          rw [hk] at hstep
          cases hstep
          exact hk
      | set k v => cases hstep
      | delete k =>
        rw [Reference.step] at hstep
        split at hstep <;> cases hstep
    rw [hw, hsz.size, hkey, hvalue]
    exact hshort key value hσ
  | unbound | stored | deleted =>
    have ha : a = acknowledge _ := h
    rw [ha]
    decide

/-- **At the owner** of the key, the store does what the map does. -/
theorem InRing.owner (h : InRing hash R σ G) (hR : Consistent R) (hm : ClientProtocol.Plain m)
    (ho : (R i).owns (get_hash_value hash (ClientProtocol.parse m).key) = true) :
    (σ.step (ClientProtocol.parse m).operation = none ∧
      ∃ f, respond (G i).hash_table_head (ClientProtocol.parse m) = .error f) ∨
    ∃ σ' reply t a, σ.step (ClientProtocol.parse m).operation = some (σ', reply) ∧
      respond (G i).hash_table_head (ClientProtocol.parse m) = .ok (t, [a]) ∧
      InRing hash R σ' (Function.update G i { G i with hash_table_head := t }) ∧
      reply.Encodes a ∧ a.length < BUFFER_SIZE := by
  obtain ⟨part, hpart, hrep⟩ := h.parts
  let d := ClientProtocol.parse m
  have hkey : d.operation.key = d.key := hm.one.key
  have hk : part i d.operation.key = σ d.operation.key := by
    rw [hkey]
    exact hpart.here i d.key ho
  have hsz : d.Sized := ClientProtocol.parse_sized m
  cases hstep : σ.step d.operation with
  | none =>
    refine .inl ⟨rfl, respond_undefined (hrep i) hm.one ?_⟩
    cases hi : Reference.step (part i) d.operation with
    | none => rfl
    | some x =>
      obtain ⟨v, -, hσ, -⟩ := Reference.step_part hi hk.symm
      rw [hstep] at hσ
      cases hσ
  | some x =>
    obtain ⟨σ', reply⟩ := x
    obtain ⟨v, rfl, hi, hv⟩ := Reference.step_part hstep hk
    obtain ⟨t, a, hr, ht, ha⟩ := respond_represents (hrep i) (ClientProtocol.parse_masked m) hsz
      hm.one hi
    rw [hkey] at hi ht ⊢
    refine .inr ⟨_, reply, t, a, rfl, hr, ⟨fun j => ?_, ⟨_, hpart.update ?_ ho v, fun j => ?_⟩, ?_⟩, ha,
      ha.length_lt hstep h.short⟩
    · by_cases hj : j = i
      · subst hj
        rw [Function.update_self]
        exact h.info j
      · rw [Function.update_of_ne hj]
        exact h.info j
    · exact fun i j k hi hj => hR.owns_unique hi hj
    · by_cases hj : j = i
      · subst hj
        rw [Function.update_self, Function.update_self]
        exact ht
      · rw [Function.update_of_ne hj, Function.update_of_ne hj]
        exact hrep j
    · intro key value hvalue
      by_cases hkk : key = d.key
      · subst hkk
        rw [Function.update_self] at hvalue
        rcases hv value hvalue with hold | hset
        · rw [hkey] at hold
          exact h.short d.key value hold
        · -- what is set is in the message
          have hval : value = d.value := by
            rcases hm.one.cases with ⟨-, -, -, hop⟩ | ⟨-, -, -, hop⟩ | ⟨-, -, -, hop⟩
            · rw [hop] at hset
              cases hset
            · rw [hop] at hset
              cases hset
              rfl
            · rw [hop] at hset
              cases hset
          have hlen : m.length = 7 + d.key.length + d.value.length := by
            rw [← hsz.size]
            exact hm.wellFormed
          rw [hval, ← hlen]
          exact hm.short
      · rw [Function.update_of_ne hkk] at hvalue
        exact h.short key value hvalue

/-- **One request** does what it does on the map. -/
theorem InRing.delivered (h : InRing hash R σ G) (hR : Consistent R) (hm : ClientProtocol.Plain m)
    {i : Fin n} (hfits : CopyFits hash R (i, m)) :
    (ring_step hash R σ (i, m) = none ∧ ∀ G' out, ¬ Delivered hash G i m G' out) ∨
    ∃ σ' reply G₁ out₁, ring_step hash R σ (i, m) = some (σ', reply) ∧ InRing hash R σ' G₁ ∧
      Reply.Sent reply out₁ ∧ ∀ G' out, Delivered hash G i m G' out ↔ G' = G₁ ∧ out = out₁ := by
  have hinfo : (fun i => (G i).peer_info) = R := funext h.info
  have hring : Consistent fun i => (G i).peer_info := hinfo ▸ hR
  let d := ClientProtocol.parse m
  let v := get_hash_value hash d.key
  by_cases hs : (R i).serves v = true
  · have hstep : ring_step hash R σ (i, m) = (σ.step d.operation).map fun x => (x.1, some x.2) :=
      if_pos hs
    rw [hstep]
    -- where the request is answered, and what comes of it at the peer that is asked
    obtain ⟨j, ho, hok, herr⟩ : ∃ j, (R j).owns v = true ∧
        (∀ t a, respond (G j).hash_table_head d = .ok (t, [a]) → a.length < BUFFER_SIZE →
          ∀ G' out, Delivered hash G i m G' out ↔
            G' = Function.update G j { G j with hash_table_head := t } ∧ out = [a]) ∧
        ∀ f, respond (G j).hash_table_head d = .error f → ∀ G' out, ¬ Delivered hash G i m G' out := by
      cases hown : (R i).owns v with
      | true =>
        have ho : (G i).peer_info.owns v = true := by rw [h.info]; exact hown
        exact ⟨i, hown, fun t a hr _ G' out => delivered_own hm.wellFormed hm.client ho hr,
          fun f hr G' out => not_delivered_own hm.wellFormed hm.client ho hr⟩
      | false =>
        have hnext : (R i).next_owns v = true := by
          rw [PeerInfo.serves, hown, Bool.false_or] at hs
          exact hs
        have hown' : (R (i + 1)).owns v = true := (hR.next_owns i v).symm.trans hnext
        have ho : (G (i + 1)).peer_info.owns v = true := by rw [h.info]; exact hown'
        have hid : (G i).peer_info.this.id < v := by
          obtain ⟨nx, hnx, -⟩ := hR.next i
          rw [PeerInfo.next_owns, hnx, id_is_between_iff] at hnext
          rw [h.info]
          exact UInt16.lt_iff_toNat_lt.2 hnext.1
        exact ⟨i + 1, hown',
          fun t a hr ha G' out => delivered_next hm.wellFormed hm.client hring hid ho hr ha,
          fun f hr G' out => not_delivered_next hring hm.wellFormed hm.client hid ho hr⟩
    rcases h.owner hR hm ho with ⟨hnone, f, hr⟩ | ⟨σ', reply, t, a, hsome, hr, hin, ha, hlen⟩
    · left
      rw [hnone]
      exact ⟨rfl, herr f hr⟩
    · right
      rw [hsome]
      exact ⟨σ', some reply, _, [a], rfl, hin, ⟨a, rfl, ha⟩, hok t a hr hlen⟩
  · have hstep : ring_step hash R σ (i, m) = some (σ, none) := if_neg hs
    have hdrop : (G i).peer_info.serves v = false := by
      rw [h.info]
      exact Bool.eq_false_iff.2 hs
    exact .inr ⟨σ, none, G, [], hstep, h, rfl, fun G' out =>
      delivered_dropped hring hm.wellFormed hm.client hdrop (hfits (Bool.eq_false_iff.2 hs))⟩

/-- **Requests in turn.** -/
theorem InRing.session (h : InRing hash R σ G) (hR : Consistent R) {reqs : List (Asked n)}
    (hm : ∀ r ∈ reqs, ClientProtocol.Plain r.2) (hfits : ∀ r ∈ reqs, CopyFits hash R r) :
    (Machine.run (ring_step hash R) σ reqs = none ∧ ∀ G' outs, ¬ Session hash G reqs G' outs) ∨
    ∃ σ' replies G₁ outs₁, Machine.run (ring_step hash R) σ reqs = some (σ', replies) ∧
      InRing hash R σ' G₁ ∧ List.Forall₂ Reply.Sent replies outs₁ ∧
      ∀ G' outs, Session hash G reqs G' outs ↔ G' = G₁ ∧ outs = outs₁ := by
  induction reqs generalizing σ G with
  | nil =>
    refine .inr ⟨σ, [], G, [], rfl, h, .nil, fun G' outs => ⟨fun hs => ?_, ?_⟩⟩
    · cases hs
      exact ⟨rfl, rfl⟩
    · rintro ⟨rfl, rfl⟩
      exact .nil
  | cons r reqs ih =>
    obtain ⟨i, m⟩ := r
    obtain ⟨hr, hm⟩ := List.forall_mem_cons.1 hm
    obtain ⟨hf, hfits⟩ := List.forall_mem_cons.1 hfits
    rcases h.delivered hR hr hf with ⟨hnone, hno⟩ | ⟨σ₁, reply, G₁, out₁, hstep, h₁, hreply, hdel⟩
    · refine .inl ⟨?_, fun G' outs hs => ?_⟩
      · rw [Machine.run, hnone]
      · cases hs with
        | cons hd _ => exact hno _ _ hd
    · rcases ih h₁ hm hfits with ⟨hnone, hno⟩ | ⟨σ', replies, G₂, outs₂, hrun, h₂, hreplies, hses⟩
      · refine .inl ⟨?_, fun G' outs hs => ?_⟩
        · rw [Machine.run, hstep]
          exact Option.map_eq_none_iff.2 hnone
        · cases hs with
          | cons hd hs =>
            obtain ⟨rfl, rfl⟩ := (hdel _ _).1 hd
            exact hno _ _ hs
      · refine .inr ⟨σ', reply :: replies, G₂, out₁ :: outs₂,
          Machine.run_cons.2 ⟨σ₁, reply, replies, hstep, hrun, rfl⟩, h₂, .cons hreply hreplies,
          fun G' outs => ⟨fun hs => ?_, ?_⟩⟩
        · cases hs with
          | cons hd hs =>
            obtain ⟨rfl, rfl⟩ := (hdel _ _).1 hd
            obtain ⟨rfl, rfl⟩ := (hses _ _).1 hs
            exact ⟨rfl, rfl⟩
        · rintro ⟨rfl, rfl⟩
          exact .cons ((hdel _ _).2 ⟨rfl, rfl⟩) ((hses _ _).2 ⟨rfl, rfl⟩)

omit [NeZero n] in
theorem inRing_empty (hempty : ∀ i, (G i).hash_table_head = []) :
    InRing hash (fun i => (G i).peer_info) .empty G where
  info _ := rfl
  parts := by
    refine ⟨fun _ => Reference.empty, InParts.empty, fun i => ?_⟩
    rw [hempty i]
    exact Represents.nil
  short _ _ h := by cases h

omit [NeZero n] in
/-- The owner of a key holds what the map has for it. -/
theorem InRing.lookup (h : InRing hash R σ G) {i : Fin n} {key : List UInt8}
    (ho : (R i).owns (get_hash_value hash key) = true) :
    (G i).hash_table_head.lookup key = σ key := by
  obtain ⟨part, hpart, hrep⟩ := h.parts
  rw [(hrep i).lookup]
  exact hpart.here i key ho

/-- **The handlers of a ring are one map.**  Requests in turn, each at any peer,
    from empty stores: where the map has no answer to one that is served, they
    cannot all be handled; otherwise they can in one way only, every client is
    sent the reply of the map, or nothing if the peer that was asked does not
    serve the key, and the owner of each key holds what the map has for it. -/
theorem session_iff (hash : List UInt8 → UInt32) (hR : Consistent fun i => (G i).peer_info)
    (hempty : ∀ i, (G i).hash_table_head = []) (reqs : List (Asked n))
    (hm : ∀ r ∈ reqs, ClientProtocol.Plain r.2)
    (hfits : ∀ r ∈ reqs, CopyFits hash (fun i => (G i).peer_info) r) :
    match Machine.run (ring_step hash fun i => (G i).peer_info) .empty reqs with
    | none => ∀ G' outs, ¬ Session hash G reqs G' outs
    | some (σ, replies) => ∃ G₁ outs₁, List.Forall₂ Reply.Sent replies outs₁ ∧
        (∀ i key, (G i).peer_info.owns (get_hash_value hash key) = true →
          (G₁ i).hash_table_head.lookup key = σ key) ∧
        ∀ G' outs, Session hash G reqs G' outs ↔ G' = G₁ ∧ outs = outs₁ := by
  rcases (inRing_empty hempty).session hR hm hfits with
    ⟨hnone, hno⟩ | ⟨σ, replies, G₁, outs₁, hrun, hin, hreplies, hses⟩
  · rw [hnone]
    exact hno
  · rw [hrun]
    exact ⟨G₁, outs₁, hreplies, fun i key ho => hin.lookup ho, hses⟩

end

/-- `GET` of the key `6b`. -/
def get_request : List UInt8 := [GET_BIT, 0, 1, 0, 0, 0, 0, 0x6b]

/-- `GET` of the key `6c`. -/
def get_6c : List UInt8 := [GET_BIT, 0, 1, 0, 0, 0, 0, 0x6c]

/-- A hash that puts the key `6b` between the two peers, and all others above
    them. -/
def hash_6b (key : List UInt8) : UInt32 := if key = [0x6b] then 50 else 200

/-- The first peer takes the request for the second one, which then knows the
    value; for a key above both there is no answer. -/
theorem session_iff_two_peers : ∃ G' m, Session hash_6b two_peers_ring
      [(0, set_request), (1, get_6c), (1, get_request)] G' [[acknowledge SET_BIT], [], [m]] ∧
    (Reply.found [0x6b] [0x76]).Encodes m := by
  have hm : ∀ r ∈ [((0 : Fin 2), set_request), (1, get_6c), (1, get_request)],
      ClientProtocol.Plain r.2 := by
    simp only [List.forall_mem_cons]
    exact ⟨⟨by decide, by decide, by decide, by decide⟩,
      ⟨by decide, by decide, by decide, by decide⟩,
      ⟨by decide, by decide, by decide, by decide⟩, fun r hr => absurd hr List.not_mem_nil⟩
  have hfits : ∀ r ∈ [((0 : Fin 2), set_request), (1, get_6c), (1, get_request)],
      CopyFits hash_6b (fun i => (two_peers_ring i).peer_info) r := by
    simp only [List.forall_mem_cons]
    exact ⟨fun _ => by decide, fun _ => by decide, fun _ => by decide,
      fun r hr => absurd hr List.not_mem_nil⟩
  have h := session_iff (G := two_peers_ring) hash_6b two_peers_consistent (fun _ => rfl) _ hm hfits
  obtain ⟨σ, hrun⟩ : ∃ σ, Machine.run (ring_step hash_6b fun i => (two_peers_ring i).peer_info)
      .empty [(0, set_request), (1, get_6c), (1, get_request)] =
        some (σ, [some .stored, none, some (.found [0x6b] [0x76])]) := ⟨_, rfl⟩
  rw [hrun] at h
  obtain ⟨G₁, outs₁, hreplies, -, hses⟩ := h
  rw [List.forall₂_cons_left_iff] at hreplies
  obtain ⟨_, _, ⟨m₁, rfl, hm₁⟩, hreplies, rfl⟩ := hreplies
  rw [List.forall₂_cons_left_iff] at hreplies
  obtain ⟨_, _, hnone, hreplies, rfl⟩ := hreplies
  rw [List.forall₂_cons_left_iff] at hreplies
  obtain ⟨_, _, ⟨m₂, rfl, hm₂⟩, hreplies, rfl⟩ := hreplies
  cases hreplies
  obtain rfl : m₁ = acknowledge SET_BIT := hm₁
  obtain rfl := hnone
  exact ⟨G₁, m₂, (hses _ _).2 ⟨rfl, rfl⟩, hm₂⟩

end ChordPeer
