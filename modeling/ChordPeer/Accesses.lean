/-
  The bytes that the two codecs touch (`generic/data_helper.c`).

  The last number of a message between peers is 16 bits wide and is accessed as
  32 bits, in the encoder and in the decoder.

  * `decode_peerProtocol_loads`, `decode_clientProtocol_loads` are the decoders
    with a log of their loads;
  * `inBounds_iff`: all accesses to a message stay in it exactly if it is a
    client message; those to a message between peers end two bytes behind it.
-/
import ChordPeer.Protocol
import ChordPeer.Lib.Access

namespace ChordPeer

open CBytes

/-! ## The decoders with their loads -/

def decode_peerProtocol_loads : LoadM PeerProtocol := do
  let control := (← LoadM.load8 0) &&& CONTROL_BIT
  let finger := (← LoadM.load8 0) &&& FINGER_BIT
  let fack := (← LoadM.load8 0) &&& FACK_BIT
  let join := (← LoadM.load8 0) &&& JOIN_BIT
  let notify := (← LoadM.load8 0) &&& NOTIFY_BIT
  let stabilize := (← LoadM.load8 0) &&& STABILIZE_BIT
  let reply := (← LoadM.load8 0) &&& REPLY_BIT
  let lookup := (← LoadM.load8 0) &&& LOOKUP_BIT
  let hashId := ntohs (← LoadM.load16 1)
  let nodeId := ntohs (← LoadM.load16 (1 + 2))
  let nodeIp := ntohl (← LoadM.load32 (1 + 2 + 2))
  let nodePort := ntohs (← LoadM.load32 (1 + 2 + 2 + 4)).toUInt16
  return ⟨control, finger, fack, join, notify, stabilize, reply, lookup, hashId, nodeId, nodeIp,
    nodePort⟩

/-- The bytes that the pointers `key` and `value` show count as loaded, too. -/
def decode_clientProtocol_loads : LoadM ClientProtocol := do
  let act := (← LoadM.load8 0) &&& ACK_BIT
  let get := (← LoadM.load8 0) &&& GET_BIT
  let set := (← LoadM.load8 0) &&& SET_BIT
  let delete := (← LoadM.load8 0) &&& DELETE_BIT
  let key_length := ntohs (← LoadM.load16 1)
  let value_length := ntohl (← LoadM.load32 (1 + 2))
  let key ← LoadM.bytes (1 + 2 + 4) key_length.toNat
  let value ← LoadM.bytes (1 + 2 + 4 + key_length.toNat) value_length.toNat
  return ⟨act, get, set, delete, key_length, value_length, key, value⟩

/-- The loads of `decode_peerProtocol`. -/
theorem decode_peerProtocol_loads_on (msg : Mem) :
    decode_peerProtocol_loads.on msg = (decode_peerProtocol msg,
      [⟨0, 1⟩, ⟨0, 1⟩, ⟨0, 1⟩, ⟨0, 1⟩, ⟨0, 1⟩, ⟨0, 1⟩, ⟨0, 1⟩, ⟨0, 1⟩, ⟨1, 2⟩, ⟨3, 2⟩, ⟨5, 4⟩,
        ⟨9, 4⟩]) := rfl

/-- The loads of `decode_clientProtocol`. -/
theorem decode_clientProtocol_loads_on (msg : Mem) :
    decode_clientProtocol_loads.on msg = (decode_clientProtocol msg,
      [⟨0, 1⟩, ⟨0, 1⟩, ⟨0, 1⟩, ⟨0, 1⟩, ⟨1, 2⟩, ⟨3, 4⟩, ⟨7, (ntohs (msg.load16 1)).toNat⟩,
        ⟨7 + (ntohs (msg.load16 1)).toNat, (ntohl (msg.load32 3)).toNat⟩]) := rfl

/-! ## Records of either protocol -/

/-- A record to encode.  The key and the value of a client record have the
    lengths that it says. -/
inductive Record where
  | peer (d : PeerProtocol)
  | client (d : ClientProtocol) (sized : d.Sized)

namespace Record

/-- What the encoder allocates. -/
def size : Record → ℕ
  | .peer _ => peerProtocolCalculateSize
  | .client d _ => clientProtocolCalculateSize d

def stores : Record → List Write
  | .peer d => encode_peerProtocol_stores d
  | .client d _ => encode_clientProtocol_stores d

/-- The encoded buffer, with `rest` behind it. -/
def buffer (rest : Mem) : Record → Mem
  | .peer d => Mem.ofList ((encode_peerProtocol d).bytes 0 peerProtocolCalculateSize) rest
  | .client d _ => Mem.ofList ((encode_clientProtocol d).bytes 0 (clientProtocolCalculateSize d)) rest

/-- The loads of the decoder of the record's protocol. -/
def loads (msg : Mem) : Record → List Access
  | .peer _ => (decode_peerProtocol_loads.on msg).2
  | .client _ _ => (decode_clientProtocol_loads.on msg).2

/-- The encoder writes the buffer that it allocated, and the decoder reads it
    and nothing else. -/
structure InBounds (r : Record) : Prop where
  size : r.size < 2 ^ 64
  below : ∀ i ∈ written r.stores, i < r.size
  covered : ∀ i < r.size, i ∈ written r.stores
  loads : ∀ rest, ∀ i ∈ touched (r.loads (r.buffer rest)), i < r.size

end Record

theorem client_inBounds (d : ClientProtocol) (hs : d.Sized) : (Record.client d hs).InBounds := by
  have hwritten : ∀ i, i ∈ written (encode_clientProtocol_stores d) ↔
      i < clientProtocolCalculateSize d := by
    intro i
    rw [encode_clientProtocol_layout hs, mem_written_layout, encode_clientProtocol_flatten,
      hs.wire_length]
    omega
  constructor
  · show clientProtocolCalculateSize d < 2 ^ 64
    have hk := d.key_length.toNat_lt
    have hv := d.value_length.toNat_lt
    rw [clientProtocolCalculateSize]
    omega
  · intro i hi
    exact (hwritten i).1 hi
  · intro i hi
    exact (hwritten i).2 hi
  · intro rest i hi
    show i < clientProtocolCalculateSize d
    rw [Record.buffer, bytes_encode_clientProtocol hs, Record.loads,
      decode_clientProtocol_loads_on] at hi
    obtain ⟨hk, hv⟩ := wire_lengths d rest
    obtain ⟨a, ha, hle, hlt⟩ := mem_touched.1 hi
    rw [hk, hv] at ha
    rw [clientProtocolCalculateSize]
    simp only [List.mem_cons, List.not_mem_nil, or_false] at ha
    rcases ha with rfl | rfl | rfl | rfl | rfl | rfl | rfl | rfl <;> dsimp only at hle hlt <;> omega

/-- A message between peers is written and read two bytes too far. -/
theorem peer_accesses (d : PeerProtocol) :
    (∀ i, i ∈ written (encode_peerProtocol_stores d) ↔ i < peerProtocolCalculateSize + 2) ∧
      ∀ msg i, i ∈ touched (decode_peerProtocol_loads.on msg).2 ↔
        i < peerProtocolCalculateSize + 2 := by
  constructor
  · intro i
    rw [encode_peerProtocol_layout, mem_written_layout]
    simp [le16, le32, peerProtocolCalculateSize]
  · intro msg i
    rw [decode_peerProtocol_loads_on, mem_touched]
    simp only [List.mem_cons, List.not_mem_nil, or_false, exists_eq_or_imp, exists_eq_left,
      peerProtocolCalculateSize]
    omega

/-- **The accesses of the codecs.** -/
theorem inBounds_iff (r : Record) :
    (r.InBounds ↔ ∃ d hs, r = .client d hs) ∧ ∀ d, r = .peer d →
      (∀ i, i ∈ written r.stores ↔ i < r.size + 2) ∧
        ∀ msg i, i ∈ touched (r.loads msg) ↔ i < r.size + 2 := by
  cases r with
  | client d hs => exact ⟨iff_of_true (client_inBounds d hs) ⟨d, hs, rfl⟩, fun _ h => by cases h⟩
  | peer d =>
    refine ⟨iff_of_false ?_ (by simp), ?_⟩
    · intro h
      have h11 : 11 ∈ written (encode_peerProtocol_stores d) :=
        ((peer_accesses d).1 11).2 (by decide)
      exact absurd (h.below 11 h11) (Nat.lt_irrefl 11)
    · rintro _ ⟨⟩
      exact peer_accesses d

/-- **The join of a peer** writes behind its block. -/
theorem not_inBounds : ¬ ∀ r : Record, r.InBounds := by
  intro h
  let d : PeerProtocol :=
    { control := CONTROL_BIT, finger := 0, fack := 0, join := JOIN_BIT, notify := 0, stabilize := 0,
      reply := 0, lookup := 0, hashId := 50, nodeId := 50, nodeIp := 0x7f000001, nodePort := 4002 }
  have h12 : 12 ∈ written (Record.peer d).stores := by decide
  exact absurd ((h (.peer d)).below 12 h12) (by decide)

end ChordPeer
