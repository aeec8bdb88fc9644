/-
  The client program on a ring (`client.c` against the peers of `peer.c`).

  `client` is called again and again, with a key and maybe a value as
  arguments, each time against any peer.

  * `client.printed`: what its `receive_handler` writes of an answer with
    `fwrite`, beside which there are only the lines of `LOG`;
  * `Invocations`: calls one after the other, and what each prints; a call
    that is not answered waits for ever;
  * `shell_step`: the same on one map from keys to values;
  * `invocations_iff`: what is printed is what the map has.

  As in `session_iff`, each peer is there for every call; `main` has closed its
  listening socket after the first connection.
-/
import ChordPeer.Sessions
import ChordPeer.Client

namespace ChordPeer

open CBytes

/-! ## One call -/

/-- `receive_handler` of `client.c`: what `fwrite` puts out. -/
def client.printed (data : Mem) : List UInt8 :=
  let decodedData := decode_clientProtocol data
  if decodedData.get ≠ 0 then decodedData.value else []

/-- A call of the program: the peer that `address` and `port` lead to, and all
    arguments. -/
abbrev Called (n : ℕ) := Fin n × Arguments

/-- The message that a call sends. -/
def Arguments.message (a : Arguments) : List UInt8 := (client_main a.argv).data

/-- What comes of the answers on the socket of a call: the first one is
    received, with any bytes in the memory behind it. -/
inductive Prints : List (List UInt8) → Option (List UInt8) → Prop where
  | waits : Prints [] none
  | answer {m ms} (rest : Mem) : Prints (m :: ms) (some (client.printed (Mem.ofList m rest)))

/-- Calls one after the other, with what each of them prints; none for one that
    waits for ever. -/
inductive Invocations {n : ℕ} (hash : List UInt8 → UInt32) : (Fin n → Globals) → List (Called n) →
    (Fin n → Globals) → List (Option (List UInt8)) → Prop where
  | nil {G} : Invocations hash G [] G []
  | cons {G G₁ G' i a calls out p ps} (h : Delivered hash G i (Arguments.message a) G₁ out)
      (hp : Prints out p) (hs : Invocations hash G₁ calls G' ps) :
      Invocations hash G ((i, a) :: calls) G' (p :: ps)

/-! ## One map -/

/-- What a call is for. -/
def Arguments.operation (a : Arguments) : Operation :=
  match a.method with
  | .get => .get a.key.bytes
  | .set => .set a.key.bytes a.value.bytes
  | .delete => .delete a.key.bytes

/-- What the shell is shown. -/
def Reply.printed : Reply → List UInt8
  | .found _ value => value
  | .unbound | .stored | .deleted => []

/-- One call on the map of a ring `R`. -/
def shell_step {n : ℕ} (hash : List UInt8 → UInt32) (R : Fin n → PeerInfo) (σ : Reference)
    (c : Called n) : Option (Reference × Option (List UInt8)) :=
  if (R c.1).serves (get_hash_value hash c.2.key.bytes) then
    (Reference.step σ c.2.operation).map fun x => (x.1, some x.2.printed)
  else some (σ, none)

/-- The arguments fit into one message. -/
structure Arguments.Short (a : Arguments) : Prop where
  key : a.key.strlen < 2 ^ 16
  message : 7 + a.key.strlen + (if a.method = .set then a.value.strlen else 0) < BUFFER_SIZE

/-! ## Messages -/

/-- The record that the arguments stand for. -/
def Arguments.record (a : Arguments) : ClientProtocol :=
  a.method.record a.key.bytes a.value.bytes (UInt16.ofNat a.key.strlen) (UInt32.ofNat a.value.strlen)

section
variable {a : Arguments}

theorem Arguments.record_masked (a : Arguments) : a.record.Masked := by
  obtain ⟨prog, address, port, m, key, value⟩ := a
  cases m <;> constructor <;> simp [record, Method.record, Method.flags]

theorem Arguments.Short.sized (h : a.Short) : a.record.Sized := by
  obtain ⟨hkey, hmessage⟩ := h
  obtain ⟨prog, address, port, m, key, value⟩ := a
  have hk : key.bytes.length = (UInt16.ofNat key.strlen).toNat :=
    (UInt16.toNat_ofNat_of_lt' hkey).symm
  cases m with
  | set =>
    have hv : value.strlen < 2 ^ 32 := by
      simp only [if_true, BUFFER_SIZE] at hmessage
      omega
    exact ⟨hk, (UInt32.toNat_ofNat_of_lt' hv).symm⟩
  | get => exact ⟨hk, rfl⟩
  | delete => exact ⟨hk, rfl⟩

/-- The message of a call is the record on the wire. -/
theorem Arguments.Short.message_eq (h : a.Short) : a.message = a.record.wire := by
  rw [← ClientProtocol.encoded_eq_wire h.sized, Arguments.message]
  show (client.request a.argv).encoded = _
  rw [request_argv]
  rfl

theorem Arguments.Short.parse (h : a.Short) : ClientProtocol.parse a.message = a.record := by
  rw [h.message_eq]
  exact decode_encode_clientProtocol a.record_masked h.sized _

theorem Arguments.Short.plain (h : a.Short) : ClientProtocol.Plain a.message where
  wellFormed := by
    rw [h.message_eq]
    exact ClientProtocol.wire_wellFormed a.record_masked h.sized
  client := by
    rw [h.message_eq]
    exact isPeerProtocol_wire a.record_masked _
  one := by
    rw [h.parse]
    obtain ⟨prog, address, port, m, key, value⟩ := a
    cases m <;> rfl
  short := by
    have hlen := h.sized.wire_length
    rw [h.sized.size] at hlen
    rw [h.message_eq, hlen]
    have hm := h.message
    obtain ⟨prog, address, port, m, key, value⟩ := a
    cases m <;> exact hm

theorem Arguments.record_operation (a : Arguments) : a.record.operation = a.operation := by
  obtain ⟨prog, address, port, m, key, value⟩ := a
  cases m <;> rfl

/-- A call on the map is its request on the map. -/
theorem shell_step_eq {n : ℕ} (h : a.Short) (hash : List UInt8 → UInt32) (R : Fin n → PeerInfo)
    (σ : Reference) (i : Fin n) :
    shell_step hash R σ (i, a) =
      (ring_step hash R σ (i, a.message)).map fun x => (x.1, x.2.map Reply.printed) := by
  have hkey : a.record.key = a.key.bytes := rfl
  rw [shell_step, ring_step, h.parse, hkey, a.record_operation]
  split
  · rw [Option.map_map]
    rfl
  · rfl

/-- **What is printed of an answer.** -/
theorem printed_encodes {reply : Reply} {m : List UInt8} (h : reply.Encodes m) (rest : Mem) :
    client.printed (Mem.ofList m rest) = reply.printed := by
  cases reply with
  | found key value =>
    obtain ⟨hw, -, hget, -, -, -, hvalue⟩ := h
    rw [client.printed, hw.decode, hget]
    exact hvalue
  | unbound =>
    obtain rfl : m = acknowledge GET_BIT := h
    have hw : ClientProtocol.WellFormed (acknowledge GET_BIT) := by decide
    rw [client.printed, hw.decode]
    rfl
  | stored =>
    obtain rfl : m = acknowledge SET_BIT := h
    have hw : ClientProtocol.WellFormed (acknowledge SET_BIT) := by decide
    rw [client.printed, hw.decode]
    rfl
  | deleted =>
    obtain rfl : m = acknowledge DELETE_BIT := h
    have hw : ClientProtocol.WellFormed (acknowledge DELETE_BIT) := by decide
    rw [client.printed, hw.decode]
    rfl

theorem prints_iff {reply : Option Reply} {out : List (List UInt8)} (h : Reply.Sent reply out)
    {p : Option (List UInt8)} : Prints out p ↔ p = reply.map Reply.printed := by
  cases reply with
  | none =>
    obtain rfl : out = [] := h
    constructor
    · intro hp
      cases hp
      rfl
    · rintro rfl
      exact .waits
  | some reply =>
    obtain ⟨m, rfl, hm⟩ := h
    constructor
    · intro hp
      cases hp
      rw [printed_encodes hm]
      rfl
    · rintro rfl
      have hp : Prints [m] (some (client.printed (Mem.ofList m fun _ => 0))) := .answer fun _ => 0
      rwa [printed_encodes hm] at hp

end

/-! ## All calls -/

section
variable {n : ℕ} {hash : List UInt8 → UInt32} {G G' : Fin n → Globals} {calls : List (Called n)}
  {ps : List (Option (List UInt8))}

/-- The requests of some calls. -/
def requests (calls : List (Called n)) : List (Asked n) := calls.map fun c => (c.1, c.2.message)

/-- Calls are a session, and each prints what is answered. -/
theorem invocations_session : Invocations hash G calls G' ps ↔
    ∃ outs, Session hash G (requests calls) G' outs ∧ List.Forall₂ Prints outs ps := by
  constructor
  · intro h
    induction h with
    | nil => exact ⟨[], .nil, .nil⟩
    | cons hd hp _ ih =>
      obtain ⟨outs, hs, hps⟩ := ih
      exact ⟨_ :: outs, .cons hd hs, .cons hp hps⟩
  · rintro ⟨outs, hs, hps⟩
    induction calls generalizing G outs ps with
    | nil =>
      cases hs
      cases hps
      exact .nil
    | cons c calls ih =>
      cases hs with
      | cons hd hs => cases hps with
        | cons hp hps => exact .cons hd hp (ih _ hs hps)

theorem run_shell_step (hcalls : ∀ c ∈ calls, c.2.Short) (R : Fin n → PeerInfo) (σ : Reference) :
    Machine.run (shell_step hash R) σ calls =
      (Machine.run (ring_step hash R) σ (requests calls)).map fun x =>
        (x.1, x.2.map (Option.map Reply.printed)) := by
  induction calls generalizing σ with
  | nil => rfl
  | cons c calls ih =>
    obtain ⟨i, a⟩ := c
    obtain ⟨ha, hcalls⟩ := List.forall_mem_cons.1 hcalls
    show Machine.run (shell_step hash R) σ ((i, a) :: calls) =
      (Machine.run (ring_step hash R) σ ((i, a.message) :: requests calls)).map _
    rw [Machine.run, Machine.run, shell_step_eq ha]
    cases ring_step hash R σ (i, a.message) with
    | none => rfl
    | some x =>
      simp only [Option.map_some, ih hcalls]
      cases Machine.run (ring_step hash R) x.1 (requests calls) <;> rfl

/-- **What the client prints of a ring of handlers.**  Calls one after the
    other, each against any peer, from empty stores: what each prints is what
    the map has, and a call prints nothing, and waits, exactly if the peer does
    not serve its key.  They cannot all be made where a peer that serves a key
    is to delete it and it has no value. -/
theorem invocations_iff [NeZero n] (hash : List UInt8 → UInt32)
    (hR : Consistent fun i => (G i).peer_info) (hempty : ∀ i, (G i).hash_table_head = [])
    (calls : List (Called n)) (hcalls : ∀ c ∈ calls, c.2.Short)
    (hfits : ∀ c ∈ calls, CopyFits hash (fun i => (G i).peer_info) (c.1, c.2.message))
    (ps : List (Option (List UInt8))) :
    (∃ G', Invocations hash G calls G' ps) ↔
      (Machine.run (shell_step hash fun i => (G i).peer_info) .empty calls).map Prod.snd =
        some ps := by
  have hm : ∀ r ∈ requests calls, ClientProtocol.Plain r.2 := by
    intro r hr
    obtain ⟨c, hc, rfl⟩ := List.mem_map.1 hr
    exact (hcalls c hc).plain
  have hf : ∀ r ∈ requests calls, CopyFits hash (fun i => (G i).peer_info) r := by
    intro r hr
    obtain ⟨c, hc, rfl⟩ := List.mem_map.1 hr
    exact hfits c hc
  rw [run_shell_step hcalls]
  simp only [invocations_session]
  rcases (inRing_empty hempty).session hR hm hf with
    ⟨hnone, hno⟩ | ⟨σ, replies, G₁, outs₁, hrun, -, hsent, hunique⟩
  · rw [hnone]
    constructor
    · rintro ⟨G', outs, hs, -⟩
      exact absurd hs (hno G' outs)
    · intro h
      cases h
  · rw [hrun]
    have hprints : ∀ ps, List.Forall₂ Prints outs₁ ps ↔ replies.map (Option.map Reply.printed) = ps := by
      clear hrun hunique
      induction hsent with
      | nil =>
        intro ps
        rw [List.forall₂_nil_left_iff, List.map_nil, eq_comm]
      | cons hreply _ ih =>
        intro ps
        rw [List.forall₂_cons_left_iff, List.map_cons]
        constructor
        · rintro ⟨p, ps, hp, hps, rfl⟩
          rw [(prints_iff hreply).1 hp, (ih ps).1 hps]
        · rintro rfl
          exact ⟨_, _, (prints_iff hreply).2 rfl, (ih _).2 rfl, rfl⟩
    rw [Option.map_some, Option.map_some, Option.some.injEq]
    constructor
    · rintro ⟨G', outs, hs, hps⟩
      obtain ⟨rfl, rfl⟩ := (hunique G' outs).1 hs
      exact (hprints ps).1 hps
    · intro h
      exact ⟨G₁, outs₁, (hunique G₁ outs₁).2 ⟨rfl, rfl⟩, (hprints ps).2 h⟩

end

/-- A hash that puts the key of `client.default_key` between the two peers, and
    all others above them. -/
def hash_default_key (key : List UInt8) : UInt32 :=
  if key = client.default_key.bytes then 50 else 200

/-- `SET key key` and `DELETE key` against the first peer, `GET key` twice
    against the second, which has no answer to a key above both. -/
theorem invocations_iff_two_peers : ∃ G', Invocations hash_default_key two_peers_ring
    [(0, ⟨.empty, .empty, .empty, .set, client.default_key, client.default_key⟩),
      (1, ⟨.empty, .empty, .empty, .get, client.default_key, .empty⟩),
      (1, ⟨.empty, .empty, .empty, .get, .empty, .empty⟩),
      (0, ⟨.empty, .empty, .empty, .delete, client.default_key, .empty⟩),
      (1, ⟨.empty, .empty, .empty, .get, client.default_key, .empty⟩)] G'
    [some [], some client.default_key.bytes, none, some [], some []] := by
  refine (invocations_iff (G := two_peers_ring) hash_default_key two_peers_consistent
    (fun _ => rfl) _ (fun c hc => ?_) (fun c hc => ?_) _).2 rfl
  · simp only [List.mem_cons, List.not_mem_nil, or_false] at hc
    rcases hc with rfl | rfl | rfl | rfl | rfl <;> exact ⟨by decide, by decide⟩
  · simp only [List.mem_cons, List.not_mem_nil, or_false] at hc
    rcases hc with rfl | rfl | rfl | rfl | rfl <;> exact fun _ => by decide

end ChordPeer
