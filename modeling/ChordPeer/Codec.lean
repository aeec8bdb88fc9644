/-
  The two codecs as bijections (`generic/data_helper.c`): what a record is
  encoded to, and what a message is decoded to.

  * `ClientProtocol.encoded`, `PeerProtocol.encoded`: the bytes that a peer
    sends for a record;
  * `ClientProtocol.Format`: the messages that a client record is encoded to;
  * `clientProtocol_codec`, `peerProtocol_codec`: encoding and decoding are
    inverse to each other on the format.
-/
import ChordPeer.Protocol

namespace ChordPeer

open CBytes

/-! ## Client messages -/

namespace ClientProtocol

/-- The message that is sent for a record. -/
def encoded (d : ClientProtocol) : List UInt8 :=
  (encode_clientProtocol d).bytes 0 (clientProtocolCalculateSize d)

/-- The format: no flag bit below `ACK_BIT`, and as many bytes as the header
    and the two length fields say. -/
structure Format (m : List UInt8) : Prop where
  flags : ∀ b ∈ m.head?, b &&& 0x0F = 0
  size : WellFormed m

/-- The four masks of the decoder keep every bit of such a header byte. -/
private theorem flags_of_low {b : UInt8} (h : b &&& 0x0F = 0) :
    b &&& ACK_BIT ||| b &&& GET_BIT ||| b &&& SET_BIT ||| b &&& DELETE_BIT = b := by
  revert b
  rintro ⟨⟨b⟩⟩
  revert b
  decide +kernel

theorem encoded_eq_wire {d : ClientProtocol} (hs : d.Sized) : d.encoded = d.wire :=
  bytes_encode_clientProtocol hs

theorem wire_wellFormed {d : ClientProtocol} (hd : d.Masked) (hs : d.Sized) :
    WellFormed d.wire := by
  rw [WellFormed, parse, decode_encode_clientProtocol hd hs, hs.wire_length]

/-- What a record is encoded to has the format. -/
theorem format_wire {d : ClientProtocol} (hd : d.Masked) (hs : d.Sized) : Format d.wire where
  flags := by
    intro b hb
    obtain rfl : d.flags = b := by simpa [wire] using hb
    exact hd.low
  size := wire_wellFormed hd hs

/-- The key and the value are all that follows the header. -/
theorem WellFormed.payload {m : List UInt8} (h : WellFormed m) :
    (parse m).key ++ (parse m).value = m.drop 7 := by
  have hlen : 7 + ((parse m).key_length.toNat + (parse m).value_length.toNat) = m.length := by
    rw [h, clientProtocolCalculateSize]; omega
  calc (parse m).key ++ (parse m).value
    _ = (Mem.ofList m fun _ => 0).bytes 7
          ((parse m).key_length.toNat + (parse m).value_length.toNat) := Mem.bytes_append _ 7 _ _
    _ = m.drop 7 := by
      rw [Mem.bytes_ofList hlen.le, List.take_of_length_le (by rw [List.length_drop]; omega)]

/-- The header byte, the length fields and the payload of a message are those
    of its record. -/
theorem Format.wire_parse {m : List UInt8} (h : Format m) : (parse m).wire = m := by
  have hlen : 7 ≤ m.length := by rw [h.size, clientProtocolCalculateSize]; omega
  have hpayload := h.size.payload
  have hlow := h.flags
  obtain _ | ⟨b₀, _ | ⟨b₁, _ | ⟨b₂, _ | ⟨b₃, _ | ⟨b₄, _ | ⟨b₅, _ | ⟨b₆, bs⟩⟩⟩⟩⟩⟩⟩ := m
  case cons.cons.cons.cons.cons.cons.cons =>
    have hflags : (parse (b₀ :: b₁ :: b₂ :: b₃ :: b₄ :: b₅ :: b₆ :: bs)).flags = b₀ :=
      flags_of_low (hlow b₀ rfl)
    have hk : (parse (b₀ :: b₁ :: b₂ :: b₃ :: b₄ :: b₅ :: b₆ :: bs)).key_length = word16 b₁ b₂ :=
      Mem.bswap16_load16 _ _
    have hv : (parse (b₀ :: b₁ :: b₂ :: b₃ :: b₄ :: b₅ :: b₆ :: bs)).value_length =
        word32 b₃ b₄ b₅ b₆ := Mem.bswap32_load32 _ _
    rw [wire, hflags, hk, hv, hpayload]
    simp
  all_goals
    simp only [List.length_cons, List.length_nil] at hlen
    omega

end ClientProtocol

/-- **The codec of client messages.**  The encoder stores nothing outside the
    bytes of the message; a message is no peer message and decodes to its
    record, whatever memory lies behind it; and a message that has the format
    is what its decoding is encoded to. -/
theorem clientProtocol_codec :
    (∀ d : ClientProtocol, d.Masked → d.Sized →
      (∀ w ∈ encode_clientProtocol_stores d, w.off + w.data.length ≤ clientProtocolCalculateSize d) ∧
      d.encoded.length = 7 + d.key.length + d.value.length ∧
      ∀ rest, isPeerProtocol (Mem.ofList d.encoded rest) = false ∧
        decode_clientProtocol (Mem.ofList d.encoded rest) = d) ∧
    (∀ m, ClientProtocol.Format m → ∀ rest,
      (decode_clientProtocol (Mem.ofList m rest)).encoded = m) ∧
    Set.BijOn ClientProtocol.encoded {d | d.Masked ∧ d.Sized} {m | ClientProtocol.Format m} := by
  have hdecode : ∀ m, ClientProtocol.Format m → ∀ rest,
      (decode_clientProtocol (Mem.ofList m rest)).encoded = m := by
    intro m hm rest
    rw [hm.size.decode, ClientProtocol.encoded_eq_wire (ClientProtocol.parse_sized m), hm.wire_parse]
  refine ⟨fun d hd hs => ?_, hdecode, ?_⟩
  · have hw : d.encoded = d.wire := ClientProtocol.encoded_eq_wire hs
    refine ⟨?_, by rw [hw, hs.wire_length, hs.size], fun rest => ?_⟩
    · intro w hw
      simp only [encode_clientProtocol_stores, List.mem_cons, List.not_mem_nil, or_false] at hw
      rcases hw with rfl | rfl | rfl | rfl | rfl <;>
        simp only [clientProtocolCalculateSize, le16, le32, List.length_cons, List.length_nil,
          List.length_take] <;> omega
    · rw [hw]
      exact ⟨isPeerProtocol_wire hd rest, decode_encode_clientProtocol hd hs rest⟩
  · have hinv : Set.InvOn ClientProtocol.parse ClientProtocol.encoded
        {d | d.Masked ∧ d.Sized} {m | ClientProtocol.Format m} := by
      refine ⟨?_, fun m hm => hdecode m hm _⟩
      rintro d ⟨hd, hs⟩
      rw [ClientProtocol.encoded_eq_wire hs]
      exact decode_encode_clientProtocol hd hs _
    refine hinv.bijOn ?_ fun m _ => ⟨ClientProtocol.parse_masked m, ClientProtocol.parse_sized m⟩
    rintro d ⟨hd, hs⟩
    show ClientProtocol.Format d.encoded
    rw [ClientProtocol.encoded_eq_wire hs]
    exact ClientProtocol.format_wire hd hs

theorem clientProtocol_codec_set :
    (decode_clientProtocol (Mem.ofList (ClientProtocol.encoded
        { act := 0, get := 0, set := SET_BIT, delete := 0, key_length := 1, value_length := 0,
          key := [0x6b], value := [] }) fun _ => 0xff)).key = [0x6b] ∧
      (decode_clientProtocol (Mem.ofList [0x20, 0, 0, 0, 0, 0, 1, 0x76] fun _ => 0xff)).encoded =
        [0x20, 0, 0, 0, 0, 0, 1, 0x76] := by
  refine ⟨?_, ?_⟩
  · rw [((clientProtocol_codec.1 _ ⟨.inl rfl, .inl rfl, .inr rfl, .inl rfl⟩ ⟨rfl, rfl⟩).2.2 _).2]
  · exact clientProtocol_codec.2.1 _ ⟨by rintro _ ⟨⟩; rfl, by decide⟩ _

/-! ## Messages between peers -/

namespace PeerProtocol

/-- The message that is sent for a record. -/
def encoded (d : PeerProtocol) : List UInt8 :=
  (encode_peerProtocol d).bytes 0 peerProtocolCalculateSize

/-- The eight masks of the decoder keep every bit of a header byte. -/
private theorem flags_of_masks (b : UInt8) :
    b &&& CONTROL_BIT ||| b &&& FINGER_BIT ||| b &&& FACK_BIT ||| b &&& JOIN_BIT |||
      b &&& NOTIFY_BIT ||| b &&& STABILIZE_BIT ||| b &&& REPLY_BIT ||| b &&& LOOKUP_BIT = b := by
  revert b
  rintro ⟨⟨b⟩⟩
  revert b
  decide +kernel

theorem encoded_eq_wire (d : PeerProtocol) : d.encoded = d.wire := bytes_encode_peerProtocol d

/-- The four numbers of a record are read back whatever its flags are. -/
theorem parse_wire_numbers (d : PeerProtocol) :
    (parse d.wire).hashId = d.hashId ∧ (parse d.wire).nodeId = d.nodeId ∧
      (parse d.wire).nodeIp = d.nodeIp ∧ (parse d.wire).nodePort = d.nodePort := by
  rw [parse, wire, decode_peerProtocol_ofList]
  simp

/-- What a message shows of a record: the header byte and the four numbers. -/
theorem encoded_eq_iff {d d' : PeerProtocol} :
    d.encoded = d'.encoded ↔ d.flags = d'.flags ∧ d.hashId = d'.hashId ∧ d.nodeId = d'.nodeId ∧
      d.nodeIp = d'.nodeIp ∧ d.nodePort = d'.nodePort := by
  rw [encoded_eq_wire, encoded_eq_wire]
  constructor
  · intro h
    obtain ⟨h₁, h₂, h₃, h₄⟩ := parse_wire_numbers d
    obtain ⟨h₁', h₂', h₃', h₄'⟩ := parse_wire_numbers d'
    rw [h] at h₁ h₂ h₃ h₄
    exact ⟨(List.cons.inj h).1, h₁.symm.trans h₁', h₂.symm.trans h₂', h₃.symm.trans h₃',
      h₄.symm.trans h₄'⟩
  · rintro ⟨h₀, h₁, h₂, h₃, h₄⟩
    rw [wire, wire, h₀, h₁, h₂, h₃, h₄]

/-- The header byte and the four numbers of a message are those of its record. -/
theorem wire_parse : ∀ {m : List UInt8}, m.length = 11 → (parse m).wire = m
  | [b₀, b₁, b₂, b₃, b₄, b₅, b₆, b₇, b₈, b₉, b₁₀], _ => by
    rw [parse, decode_peerProtocol_ofList, wire, flags, flags_of_masks]
    simp

end PeerProtocol

/-- **The codec of messages between peers.**  The 11 bytes of a message are
    what its decoding is encoded to, and nothing behind them is read; a record
    is what its encoding decodes to, and the encoding is a peer message exactly
    when control is set. -/
theorem peerProtocol_codec :
    (∀ m, m.length = peerProtocolCalculateSize → ∀ rest rest' : Mem,
      (decode_peerProtocol (Mem.ofList m rest)).encoded = m ∧
        decode_peerProtocol (Mem.ofList m rest) = decode_peerProtocol (Mem.ofList m rest')) ∧
    (∀ d : PeerProtocol, d.Masked → ∀ rest,
      decode_peerProtocol (Mem.ofList d.encoded rest) = d ∧
        (isPeerProtocol (Mem.ofList d.encoded rest) = true ↔ d.control ≠ 0)) ∧
    Set.BijOn PeerProtocol.encoded {d | d.Masked} {m | m.length = peerProtocolCalculateSize} := by
  have hencode : ∀ m, m.length = peerProtocolCalculateSize →
      (PeerProtocol.parse m).encoded = m := by
    intro m hm
    rw [PeerProtocol.encoded_eq_wire, PeerProtocol.wire_parse hm]
  refine ⟨fun m hm rest rest' => ?_, fun d hd rest => ?_, ?_⟩
  · rw [PeerProtocol.decode_eq_parse hm, PeerProtocol.decode_eq_parse hm]
    exact ⟨hencode m hm, rfl⟩
  · rw [PeerProtocol.encoded_eq_wire]
    refine ⟨decode_encode_peerProtocol hd rest, ?_⟩
    have hctrl : Mem.ofList d.wire rest 0 &&& CONTROL_BIT = d.control := hd.mask_flags.1
    rw [isPeerProtocol, hctrl, bne_iff_ne]
  · have hinv : Set.InvOn PeerProtocol.parse PeerProtocol.encoded
        {d | d.Masked} {m | m.length = peerProtocolCalculateSize} := by
      refine ⟨?_, hencode⟩
      intro d hd
      rw [PeerProtocol.encoded_eq_wire]
      exact PeerProtocol.parse_wire hd
    exact hinv.bijOn (fun d _ => Mem.bytes_length _ _ _) fun m _ => PeerProtocol.parse_masked m

theorem peerProtocol_codec_join :
    (PeerProtocol.parse [0x09, 1, 2, 0, 50, 127, 0, 0, 1, 0x0f, 0xa2]).encoded =
        [0x09, 1, 2, 0, 50, 127, 0, 0, 1, 0x0f, 0xa2] ∧
      PeerProtocol.parse (PeerProtocol.encoded
          { control := CONTROL_BIT, finger := 0, fack := 0, join := JOIN_BIT, notify := 0,
            stabilize := 0, reply := 0, lookup := 0, hashId := 258, nodeId := 50,
            nodeIp := 0x7f000001, nodePort := 4002 }) =
        { control := CONTROL_BIT, finger := 0, fack := 0, join := JOIN_BIT, notify := 0,
          stabilize := 0, reply := 0, lookup := 0, hashId := 258, nodeId := 50,
          nodeIp := 0x7f000001, nodePort := 4002 } :=
  ⟨(peerProtocol_codec.1 _ rfl _ fun _ => 0xff).1,
    (peerProtocol_codec.2.1 _ ⟨.inr rfl, .inl rfl, .inl rfl, .inr rfl, .inl rfl, .inl rfl, .inl rfl,
      .inl rfl⟩ _).1⟩

end ChordPeer
