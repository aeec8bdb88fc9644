/-
  A responsible peer as a map.

  What a peer answers to client requests is compared with a map from keys to
  values on which the three operations mean what they say.

  * `Reference.step`: one operation on the map and its reply;
  * `Represents`: the store holds the map; every operation keeps it;
  * `serve_simulates`: on a request with one operation, the peer does to its
    store what the reference does, and answers with the reply on the wire;
  * `responds_as_reference`: so it is for requests handled in turn.
-/
import ChordPeer.Steps
import ChordPeer.Lib.Machine

namespace ChordPeer

open CBytes

/-! ## The reference -/

/-- What a store is for: the values of the keys that have one. -/
abbrev Reference := List UInt8 → Option (List UInt8)

inductive Operation where
  | get (key : List UInt8)
  | set (key value : List UInt8)
  | delete (key : List UInt8)

inductive Reply where
  | found (key value : List UInt8)
  | unbound
  | stored
  | deleted

namespace Reference

def empty : Reference := fun _ => none

/-- One operation.  Only a key that has a value can be deleted. -/
def step (σ : Reference) : Operation → Option (Reference × Reply)
  | .get key => some (σ, match σ key with
    | some value => .found key value
    | none => .unbound)
  | .set key value => some (Function.update σ key (some value), .stored)
  | .delete key =>
    if (σ key).isSome then some (Function.update σ key none, .deleted) else none

end Reference

/-- A reply on the wire. -/
def Reply.Encodes : Reply → List UInt8 → Prop
  | .found key value, m => ClientProtocol.WellFormed m ∧
      let d := ClientProtocol.parse m
      d.act = ACK_BIT ∧ d.get = GET_BIT ∧ d.set = 0 ∧ d.delete = 0 ∧ d.key = key ∧ d.value = value
  | .unbound, m => m = acknowledge GET_BIT
  | .stored, m => m = acknowledge SET_BIT
  | .deleted, m => m = acknowledge DELETE_BIT

/-! ## The store represents the map -/

structure Represents (σ : Reference) (t : HashTable) : Prop where
  lookup : t.lookup = σ
  nodup : KeyedList.NodupKeys HashElement.key t
  sized : t.Sized

namespace Represents
variable {σ : Reference} {t : HashTable} {key : List UInt8}

theorem nil : Represents .empty [] where
  lookup := rfl
  nodup := List.nodup_nil
  sized _ _ h := by cases h

theorem set (h : Represents σ t) {value : List UInt8} {n : UInt32} (hv : value.length = n.toNat) :
    Represents (Function.update σ key (some value)) (t.set key value n) where
  lookup := by rw [HashTable.lookup_set, h.lookup]
  nodup := HashTable.nodupKeys_set h.nodup key value n
  sized := h.sized.set key hv

theorem delete_element (h : Represents σ t) {t' : HashTable} (hd : t.delete_element key = some t') :
    Represents (Function.update σ key none) t' where
  lookup := by rw [HashTable.lookup_delete_element h.nodup hd, h.lookup]
  nodup := HashTable.nodupKeys_delete_element h.nodup hd
  sized := h.sized.delete_element h.nodup hd

theorem get_eq_none (h : Represents σ t) (hk : σ key = none) : t.get key = none := by
  rw [← h.lookup] at hk
  exact Option.map_eq_none_iff.1 hk

theorem get_eq_some (h : Represents σ t) {value : List UInt8} (hk : σ key = some value) :
    ∃ e, t.get key = some e ∧ e.value = value ∧ value.length = e.value_length.toNat := by
  rw [← h.lookup] at hk
  obtain ⟨e, he, rfl⟩ := Option.map_eq_some_iff.1 hk
  exact ⟨e, he, rfl, h.sized key e he⟩

theorem delete_defined (h : Represents σ t) (hk : (σ key).isSome) :
    ∃ t', t.delete_element key = some t' := by
  rw [← h.lookup, HashTable.lookup_isSome] at hk
  exact ⟨_, HashTable.delete_element_eq_some.2 ⟨hk, rfl⟩⟩

end Represents

/-! ## Requests -/

/-- A client message in memory, with what lies behind it, and the socket it
    came on. -/
structure Request where
  message : List UInt8
  rest : Mem
  sock : Socket

/-- Exactly one of the three operation bits is set. -/
def ClientProtocol.OneOperation (d : ClientProtocol) : Prop :=
  [d.get, d.set, d.delete].countP (· ≠ 0) = 1

instance (d : ClientProtocol) : Decidable d.OneOperation := inferInstanceAs (Decidable (_ = _))

/-- The operation that a request asks for. -/
def ClientProtocol.operation (d : ClientProtocol) : Operation :=
  if d.get ≠ 0 then .get d.key else if d.set ≠ 0 then .set d.key d.value else .delete d.key

namespace Request

def decoded (r : Request) : ClientProtocol := decode_clientProtocol (Mem.ofList r.message r.rest)

/-- The length fields match the bytes received, and one operation is asked for. -/
structure Valid (r : Request) : Prop where
  wellFormed : ClientProtocol.WellFormed r.message
  one : (ClientProtocol.parse r.message).OneOperation
  fd : r.sock.fd ≠ -1

def operation (r : Request) : Operation := (ClientProtocol.parse r.message).operation

end Request

/-- The cases of `OneOperation`. -/
theorem ClientProtocol.OneOperation.cases {d : ClientProtocol} (h : d.OneOperation) :
    (d.get ≠ 0 ∧ d.set = 0 ∧ d.delete = 0 ∧ d.operation = .get d.key) ∨
      (d.get = 0 ∧ d.set ≠ 0 ∧ d.delete = 0 ∧ d.operation = .set d.key d.value) ∨
      (d.get = 0 ∧ d.set = 0 ∧ d.delete ≠ 0 ∧ d.operation = .delete d.key) := by
  unfold OneOperation at h
  unfold operation
  by_cases hg : d.get = 0 <;> by_cases hs : d.set = 0 <;> by_cases hd : d.delete = 0 <;>
    simp [hg, hs, hd] at h ⊢

/-! ## One request -/

section
variable {t : HashTable} {d : ClientProtocol}

theorem respond_get_unbound (hg : d.get ≠ 0) (he : t.get d.key = none) :
    respond t d = .ok (t, [acknowledge GET_BIT]) := by
  rw [respond, if_pos hg, he]

theorem respond_get_value (hg : d.get ≠ 0) (hs : d.set = 0) (hd : d.delete = 0) {e : HashElement}
    (he : t.get d.key = some e) :
    respond t d = .ok (t, [(encode_clientProtocol (found_element d e)).bytes 0
      (clientProtocolCalculateSize (found_element d e))]) := by
  rw [respond, if_pos hg, he]
  simp [respond_updates, found_element, hs, hd]

theorem respond_set (hg : d.get = 0) (hs : d.set ≠ 0) (hd : d.delete = 0) :
    respond t d = .ok (t.set d.key d.value d.value_length, [acknowledge SET_BIT]) := by
  simp [respond, respond_updates, hg, hs, hd]

theorem respond_delete (hg : d.get = 0) (hs : d.set = 0) (hd : d.delete ≠ 0) {t' : HashTable}
    (ht : t.delete_element d.key = some t') :
    respond t d = .ok (t', [acknowledge DELETE_BIT]) := by
  simp [respond, respond_updates, hg, hs, hd, ht]

/-- A request with one operation gets one answer. -/
theorem respond_single (h : d.OneOperation) (hk : d.delete ≠ 0 → (t.get d.key).isSome) :
    ∃ t' m, respond t d = .ok (t', [m]) := by
  rcases h.cases with ⟨hg, hs, hd, -⟩ | ⟨hg, hs, hd, -⟩ | ⟨hg, hs, hd, -⟩
  · cases he : t.get d.key with
    | none => exact ⟨t, _, respond_get_unbound hg he⟩
    | some e => exact ⟨t, _, respond_get_value hg hs hd he⟩
  · exact ⟨_, _, respond_set hg hs hd⟩
  · exact ⟨_, _, respond_delete hg hs hd (HashTable.delete_element_eq_some.2 ⟨hk hd, rfl⟩)⟩

/-- **The answer to `GET`** of a key that has a value. -/
theorem encodes_found_element (hm : d.Masked) (hsz : d.Sized) (hg : d.get ≠ 0) (hs : d.set = 0)
    (hd : d.delete = 0) {e : HashElement} (he : e.value.length = e.value_length.toNat) :
    (Reply.found d.key e.value).Encodes ((encode_clientProtocol (found_element d e)).bytes 0
      (clientProtocolCalculateSize (found_element d e))) := by
  have hsz' : (found_element d e).Sized := ⟨hsz.key, he⟩
  have hm' : (found_element d e).Masked := ⟨.inr rfl, hm.get, hm.set, hm.delete⟩
  have hp : ClientProtocol.parse (found_element d e).wire = found_element d e :=
    decode_encode_clientProtocol hm' hsz' _
  rw [bytes_encode_clientProtocol hsz']
  refine ⟨?_, ?_⟩
  · rw [ClientProtocol.WellFormed, hp]
    exact hsz'.wire_length
  · rw [hp]
    exact ⟨rfl, hm.get.resolve_left hg, hs, hd, rfl, rfl⟩

/-- **One operation**: the store goes with the map, and the answer carries the
    reply. -/
theorem respond_represents {σ σ' : Reference} {reply : Reply} (h : Represents σ t) (hm : d.Masked)
    (hsz : d.Sized) (hone : d.OneOperation) (hstep : σ.step d.operation = some (σ', reply)) :
    ∃ t' m, respond t d = .ok (t', [m]) ∧ Represents σ' t' ∧ reply.Encodes m := by
  rcases hone.cases with ⟨hg, hs, hd, hop⟩ | ⟨hg, hs, hd, hop⟩ | ⟨hg, hs, hd, hop⟩
  · rw [hop, Reference.step] at hstep
    cases hstep
    cases hk : σ d.key with
    | none => exact ⟨t, _, respond_get_unbound hg (h.get_eq_none hk), h, rfl⟩
    | some value =>
      obtain ⟨e, he, rfl, hlen⟩ := h.get_eq_some hk
      exact ⟨t, _, respond_get_value hg hs hd he, h, encodes_found_element hm hsz hg hs hd hlen⟩
  · rw [hop, Reference.step] at hstep
    cases hstep
    exact ⟨_, _, respond_set hg hs hd, h.set hsz.value, rfl⟩
  · rw [hop, Reference.step] at hstep
    by_cases hk : (σ d.key).isSome
    · rw [if_pos hk] at hstep
      cases hstep
      obtain ⟨t', ht'⟩ := h.delete_defined hk
      exact ⟨t', _, respond_delete hg hs hd ht', h.delete_element ht', rfl⟩
    · rw [if_neg hk] at hstep
      cases hstep

end

/-! ## Requests with any operations -/

section
variable {σ : Reference} {t t' : HashTable} {d : ClientProtocol} {out : List (List UInt8)}

theorem respond_updates_kept (h : Represents σ t) (hsz : d.Sized)
    (hr : respond_updates t d = .ok (t', out)) : ∃ σ', Represents σ' t' := by
  -- the table after the `SET` part
  obtain ⟨σ₁, h₁⟩ : ∃ σ₁, Represents σ₁
      (if d.set ≠ 0 then t.set d.key d.value d.value_length else t) := by
    by_cases hs : d.set = 0
    · exact ⟨σ, by simpa [hs] using h⟩
    · exact ⟨_, by simpa [hs] using h.set hsz.value⟩
  unfold respond_updates at hr
  dsimp only at hr
  split at hr
  · split at hr
    · cases hr
    · next hd =>
      cases hr
      exact ⟨_, h₁.delete_element hd⟩
  · cases hr
    exact ⟨σ₁, h₁⟩

/-- Whatever operations a request asks for, the table goes on to represent a
    map. -/
theorem respond_kept (h : Represents σ t) (hsz : d.Sized) (hr : respond t d = .ok (t', out)) :
    ∃ σ', Represents σ' t' := by
  unfold respond at hr
  split at hr
  · split at hr
    · cases hr
      exact ⟨σ, h⟩
    · next element he =>
      dsimp only at hr
      split at hr
      · cases hr
      · next hu =>
        cases hr
        have hsz' : (found_element d element).Sized := ⟨hsz.key, h.sized d.key element he⟩
        exact respond_updates_kept h hsz' hu
  · exact respond_updates_kept h hsz hr

end

/-- One request at the store: the new store and what is sent. -/
def serve (t : HashTable) (r : Request) : Option (HashTable × List (List UInt8)) :=
  (respond t r.decoded).toOption

theorem serve_eq_some {t t' : HashTable} {r : Request} {out : List (List UInt8)} :
    serve t r = some (t', out) ↔ respond t r.decoded = .ok (t', out) := by
  rw [serve]
  cases respond t r.decoded <;> simp [Except.toOption]

/-- The one answer that carries a reply. -/
def Reply.Answered (reply : Reply) (out : List (List UInt8)) : Prop :=
  ∃ m, out = [m] ∧ reply.Encodes m

/-- **The peer does what the reference does.** -/
theorem serve_simulates :
    Machine.Simulation Reference.step serve Represents (fun o r => r.Valid ∧ o = r.operation)
      Reply.Answered where
  step := by
    rintro σ t _ r σ' reply h ⟨hr, rfl⟩ hstep
    have hdec : r.decoded = ClientProtocol.parse r.message := hr.wellFormed.decode r.rest
    obtain ⟨t', m, hresp, ht', hm⟩ := respond_represents h (ClientProtocol.parse_masked _)
      (ClientProtocol.parse_sized _) hr.one hstep
    exact ⟨t', [m], serve_eq_some.2 (by rw [hdec, hresp]), ht', m, rfl, hm⟩

/-! ## Requests in turn -/

/-- The requests, decoded and handled in turn. -/
def respond_all (reqs : List Request) : PeerM Unit :=
  reqs.forM fun r => respond_as_responsible_peer r.decoded r.sock

/-- The loop over the requests runs `serve`. -/
theorem respond_all_run {reqs : List Request} (hfd : ∀ r ∈ reqs, r.sock.fd ≠ -1) {s : Proc}
    {t : HashTable} {outs : List (List (List UInt8))}
    (h : Machine.run serve s.globals.hash_table_head reqs = some (t, outs)) :
    (respond_all reqs).run s = .ok ((), (s.withTable t).emitted
      (List.zipWith (fun r out => out.map (Event.send r.sock)) reqs outs).flatten) := by
  induction reqs generalizing s outs with
  | nil =>
    cases h
    simp [respond_all, Proc.emitted]
  | cons r reqs ih =>
    obtain ⟨t₁, out, outs', hserve, hrun, rfl⟩ := Machine.run_cons.1 h
    rw [serve_eq_some] at hserve
    rw [List.forall_mem_cons] at hfd
    change (respond_as_responsible_peer r.decoded r.sock >>= fun _ => respond_all reqs).run s = _
    rw [StateT.run_bind, respond_as_responsible_peer_run hfd.1, hserve]
    refine (@ih hfd.2 ((s.withTable t₁).answered r.sock out) outs' hrun).trans ?_
    simp [Proc.answered, Proc.emitted, Proc.withTable]

/-- One answer a request. -/
theorem zipWith_answers {reqs : List Request} {replies : List Reply}
    {outs : List (List (List UInt8))} (h : List.Forall₂ Reply.Answered replies outs)
    (hlen : replies.length = reqs.length) :
    ∃ ms, List.Forall₂ Reply.Encodes replies ms ∧
      (List.zipWith (fun r out => out.map (Event.send r.sock)) reqs outs).flatten =
        List.zipWith (fun r m => Event.send r.sock m) reqs ms := by
  induction h generalizing reqs with
  | nil => exact ⟨[], .nil, by simp⟩
  | @cons reply out replies outs ha _ ih =>
    obtain ⟨m, rfl, hm⟩ := ha
    cases reqs with
    | nil => cases hlen
    | cons r reqs =>
      have hlen' : replies.length = reqs.length := by simpa using hlen
      obtain ⟨ms, hms, hz⟩ := ih hlen'
      exact ⟨m :: ms, .cons hm hms, by simpa using hz⟩

/-- **A responsible peer behaves as the map.**  Requests handled in turn from
    an empty store, none of which deletes a key without a value: one answer
    each, the one of the reference. -/
theorem responds_as_reference {reqs : List Request} (hv : ∀ r ∈ reqs, r.Valid) {σ : Reference}
    {replies : List Reply}
    (href : Machine.run Reference.step .empty (reqs.map Request.operation) = some (σ, replies))
    {s : Proc} (hs : s.globals.hash_table_head = []) :
    ∃ t ms, (respond_all reqs).run s = .ok ((), (s.withTable t).emitted
        (List.zipWith (fun r m => Event.send r.sock m) reqs ms)) ∧
      ms.length = reqs.length ∧ List.Forall₂ Reply.Encodes replies ms ∧ t.lookup = σ := by
  have hops : List.Forall₂ (fun o r => r.Valid ∧ o = r.operation) (reqs.map Request.operation) reqs := by
    rw [List.forall₂_map_left_iff]
    exact List.forall₂_same.2 fun r hr => ⟨hv r hr, rfl⟩
  have hlen : replies.length = reqs.length := by simpa using Machine.run_length href
  obtain ⟨⟨t, outs⟩, hrun, ht, houts⟩ := serve_simulates.run Represents.nil hops href
  obtain ⟨ms, hms, hz⟩ := zipWith_answers houts hlen
  refine ⟨t, ms, ?_, hms.length_eq.symm.trans hlen, hms, ht.lookup⟩
  rw [← hz]
  exact respond_all_run (fun r hr => (hv r hr).fd) (by rw [hs]; exact hrun)

/-- `SET`, `GET`, `DELETE` and again `GET` of the key `6b`, the second one with
    a value that is not asked for. -/
def four_requests : List Request :=
  [⟨[SET_BIT, 0, 1, 0, 0, 0, 2, 0x6b, 0x76, 0x77], fun _ => 0xff, ⟨4, none⟩⟩,
    ⟨[GET_BIT ||| ACK_BIT, 0, 1, 0, 0, 0, 1, 0x6b, 0x78], fun _ => 0, ⟨5, none⟩⟩,
    ⟨[DELETE_BIT, 0, 1, 0, 0, 0, 0, 0x6b], fun _ => 0, ⟨6, none⟩⟩,
    ⟨[GET_BIT, 0, 1, 0, 0, 0, 0, 0x6b], fun _ => 0, ⟨4, none⟩⟩]

theorem responds_as_reference_four : ∃ t ms,
    (respond_all four_requests).run ⟨.start ⟨.zero, none, none, none⟩, .fresh⟩ =
      .ok ((), (Proc.withTable ⟨.start ⟨.zero, none, none, none⟩, .fresh⟩ t).emitted
        (List.zipWith (fun r m => Event.send r.sock m) four_requests ms)) ∧
      ms.length = 4 ∧
      List.Forall₂ Reply.Encodes [.stored, .found [0x6b] [0x76, 0x77], .deleted, .unbound] ms ∧
      t.lookup [0x6b] = none := by
  have hv : ∀ r ∈ four_requests, r.Valid := by
    intro r hr
    simp only [four_requests, List.mem_cons, List.not_mem_nil, or_false] at hr
    rcases hr with rfl | rfl | rfl | rfl
    all_goals exact ⟨by decide, by decide, by decide⟩
  obtain ⟨t, ms, hrun, hlen, hms, ht⟩ := responds_as_reference hv rfl
    (s := ⟨.start ⟨.zero, none, none, none⟩, .fresh⟩) rfl
  exact ⟨t, ms, hrun, hlen, hms, by rw [ht]; rfl⟩

end ChordPeer
