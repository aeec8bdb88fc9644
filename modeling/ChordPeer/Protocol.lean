/-
  The two message formats of a peer (`generic/data_helper.h`,
  `generic/data_helper.c`) and the interval test `in_range`
  (`helper/max/extended_math.h`).

  A message is memory behind a pointer (`CBytes.Mem`): the decoders read at
  offsets and never look at a length, so what they return depends on the
  memory behind a message that is too short.

  * `decode_peerProtocol`, `encode_peerProtocol`: the 11 bytes between peers;
  * `decode_clientProtocol`, `encode_clientProtocol`: a 7-byte header, the key
    and the value;
  * `bytes_encode_peerProtocol`, `bytes_encode_clientProtocol`: what the
    encoders put on the wire; `decode_encode_peerProtocol` and
    `decode_encode_clientProtocol` read it back.
-/
import ChordPeer.Lib.Bytes

namespace ChordPeer

open CBytes

/-! ## Flag bits -/

def ACK_BIT : UInt8 := (0x01 : UInt8) <<< 4
def GET_BIT : UInt8 := (0x01 : UInt8) <<< 5
def SET_BIT : UInt8 := (0x01 : UInt8) <<< 6
def DELETE_BIT : UInt8 := (0x01 : UInt8) <<< 7

def CONTROL_BIT : UInt8 := (0x01 : UInt8) <<< 0
def FINGER_BIT : UInt8 := (0x01 : UInt8) <<< 1
def FACK_BIT : UInt8 := (0x01 : UInt8) <<< 2
def JOIN_BIT : UInt8 := (0x01 : UInt8) <<< 3
def NOTIFY_BIT : UInt8 := (0x01 : UInt8) <<< 4
def STABILIZE_BIT : UInt8 := (0x01 : UInt8) <<< 5
def REPLY_BIT : UInt8 := (0x01 : UInt8) <<< 6
def LOOKUP_BIT : UInt8 := (0x01 : UInt8) <<< 7

abbrev htons (v : UInt16) : UInt16 := bswap16 v
abbrev ntohs (v : UInt16) : UInt16 := bswap16 v
abbrev htonl (v : UInt32) : UInt32 := bswap32 v
abbrev ntohl (v : UInt32) : UInt32 := bswap32 v

/-! ## Records -/

/-- A client message.  `key` and `value` are the bytes the two pointers show,
    `NULL` where the length is `0`. -/
structure ClientProtocol where
  act : UInt8
  get : UInt8
  set : UInt8
  delete : UInt8
  key_length : UInt16
  value_length : UInt32
  key : List UInt8
  value : List UInt8
  deriving DecidableEq, Repr

/-- A message between peers.  A flag holds its mask bit, not a truth value. -/
structure PeerProtocol where
  control : UInt8
  finger : UInt8
  fack : UInt8
  join : UInt8
  notify : UInt8
  stabilize : UInt8
  reply : UInt8
  lookup : UInt8
  hashId : UInt16
  nodeId : UInt16
  nodeIp : UInt32
  nodePort : UInt16
  deriving DecidableEq, Repr

/-- `struct peer`.  A finger is only ever compared with `NULL`, so its address
    stands for it. -/
structure Peer where
  ip : UInt32
  port : UInt16
  id : UInt16
  is_base : UInt8
  next_finger : Option ℕ
  deriving DecidableEq, Repr

/-- The neighbour records of a peer; `none` is `NULL`.  `this` is allocated by
    `main` before any message is handled. -/
structure PeerInfo where
  this : Peer
  next : Option Peer
  prev : Option Peer
  join : Option Peer
  deriving DecidableEq, Repr

/-- `calloc(sizeof(Peer), 1)`. -/
def Peer.zero : Peer := ⟨0, 0, 0, 0, none⟩

/-! ## Messages between peers -/

def decode_peerProtocol (msg : Mem) : PeerProtocol where
  control := msg 0 &&& CONTROL_BIT
  finger := msg 0 &&& FINGER_BIT
  fack := msg 0 &&& FACK_BIT
  join := msg 0 &&& JOIN_BIT
  notify := msg 0 &&& NOTIFY_BIT
  stabilize := msg 0 &&& STABILIZE_BIT
  reply := msg 0 &&& REPLY_BIT
  lookup := msg 0 &&& LOOKUP_BIT
  hashId := ntohs (msg.load16 1)
  nodeId := ntohs (msg.load16 (1 + 2))
  nodeIp := ntohl (msg.load32 (1 + 2 + 2))
  -- a 32-bit load, narrowed by the argument of `ntohs`
  nodePort := ntohs (msg.load32 (1 + 2 + 2 + 4)).toUInt16

def peerProtocolCalculateSize : ℕ := 11

/-- The stores of `encode_peerProtocol`.  The last one is 32 bits wide and
    ends two bytes behind the block. -/
def encode_peerProtocol_stores (data : PeerProtocol) : List Write :=
  [⟨0, [data.control ||| data.finger ||| data.fack ||| data.join ||| data.notify |||
      data.stabilize ||| data.reply ||| data.lookup]⟩,
    ⟨1, le16 (htons data.hashId)⟩,
    ⟨1 + 2, le16 (htons data.nodeId)⟩,
    ⟨1 + 2 + 2, le32 (htonl data.nodeIp)⟩,
    ⟨1 + 2 + 2 + 4, le32 (htons data.nodePort).toUInt32⟩]

/-- The memory behind the pointer that `encode_peerProtocol` returns. -/
def encode_peerProtocol (data : PeerProtocol) : Mem :=
  Mem.writes (fun _ => 0) (encode_peerProtocol_stores data)

def isPeerProtocol (msg : Mem) : Bool := (msg 0 &&& CONTROL_BIT) != 0

/-! ## Client messages -/

def decode_clientProtocol (msg : Mem) : ClientProtocol :=
  let key_length := ntohs (msg.load16 1)
  let value_length := ntohl (msg.load32 (1 + 2))
  { act := msg 0 &&& ACK_BIT
    get := msg 0 &&& GET_BIT
    set := msg 0 &&& SET_BIT
    delete := msg 0 &&& DELETE_BIT
    key_length := key_length
    value_length := value_length
    key := msg.bytes (1 + 2 + 4) key_length.toNat
    value := msg.bytes (1 + 2 + 4 + key_length.toNat) value_length.toNat }

def clientProtocolCalculateSize (data : ClientProtocol) : ℕ :=
  1 + 2 + 4 + data.key_length.toNat + data.value_length.toNat

/-- The stores of `encode_clientProtocol`. -/
def encode_clientProtocol_stores (data : ClientProtocol) : List Write :=
  [⟨0, [data.act ||| data.get ||| data.set ||| data.delete]⟩,
    ⟨1, le16 (htons data.key_length)⟩,
    ⟨1 + 2, le32 (htonl data.value_length)⟩,
    ⟨1 + 2 + 4, data.key.take data.key_length.toNat⟩,
    ⟨1 + 2 + 4 + data.key_length.toNat, data.value.take data.value_length.toNat⟩]

/-- The memory behind the pointer that `encode_clientProtocol` returns. -/
def encode_clientProtocol (data : ClientProtocol) : Mem :=
  Mem.writes (fun _ => 0) (encode_clientProtocol_stores data)

/-! ## Building a message, and the interval test -/

/-- `make_peerProtocol`.  The fields it does not set keep what was in the
    memory of its local, `stack`. -/
def make_peerProtocol (stack : PeerProtocol) (reply lookup : Bool) (hashID : UInt16)
    (peer : Peer) : PeerProtocol :=
  { stack with
    control := CONTROL_BIT
    reply := if reply then REPLY_BIT else 0
    lookup := if lookup then LOOKUP_BIT else 0
    hashId := hashID
    nodeId := peer.id
    nodeIp := peer.ip
    nodePort := peer.port }

def in_range (value upper lower : UInt16) : Bool := upper > value && lower < value

def id_is_between (hash_id : UInt16) (this prev : Peer) : Bool := in_range hash_id this.id prev.id

@[simp] theorem id_is_between_iff {h : UInt16} {p q : Peer} :
    id_is_between h p q = true ↔ q.id.toNat < h.toNat ∧ h.toNat < p.id.toNat := by
  simp only [id_is_between, in_range, Bool.and_eq_true, decide_eq_true_eq, GT.gt,
    UInt16.lt_iff_toNat_lt]
  exact and_comm

/-! ## What a message between peers looks like on the wire -/

/-- The header byte of a message. -/
def PeerProtocol.flags (d : PeerProtocol) : UInt8 :=
  d.control ||| d.finger ||| d.fack ||| d.join ||| d.notify ||| d.stabilize ||| d.reply ||| d.lookup

/-- The 11 bytes of a message, numbers most significant byte first. -/
def PeerProtocol.wire (d : PeerProtocol) : List UInt8 :=
  [d.flags, byte16 d.hashId 1, byte16 d.hashId 0, byte16 d.nodeId 1, byte16 d.nodeId 0,
    byte32 d.nodeIp 3, byte32 d.nodeIp 2, byte32 d.nodeIp 1, byte32 d.nodeIp 0,
    byte16 d.nodePort 1, byte16 d.nodePort 0]

/-- The stores of the encoder lie side by side. -/
theorem encode_peerProtocol_layout (d : PeerProtocol) :
    encode_peerProtocol_stores d = Mem.layout 0 [[d.flags], le16 (htons d.hashId),
      le16 (htons d.nodeId), le32 (htonl d.nodeIp), le32 (htons d.nodePort).toUInt32] := rfl

/-- **The encoder of peer messages.** -/
theorem bytes_encode_peerProtocol (d : PeerProtocol) :
    (encode_peerProtocol d).bytes 0 peerProtocolCalculateSize = d.wire := by
  rw [encode_peerProtocol, encode_peerProtocol_layout,
    Mem.bytes_writes_layout (Nat.le_of_ble_eq_true rfl)]
  simp only [htons, htonl, le32_toUInt32, le16_bswap16, le32_bswap32]
  rfl

/-- Every flag is `0` or its own mask bit. -/
structure PeerProtocol.Masked (d : PeerProtocol) : Prop where
  control : d.control = 0 ∨ d.control = CONTROL_BIT
  finger : d.finger = 0 ∨ d.finger = FINGER_BIT
  fack : d.fack = 0 ∨ d.fack = FACK_BIT
  join : d.join = 0 ∨ d.join = JOIN_BIT
  notify : d.notify = 0 ∨ d.notify = NOTIFY_BIT
  stabilize : d.stabilize = 0 ∨ d.stabilize = STABILIZE_BIT
  reply : d.reply = 0 ∨ d.reply = REPLY_BIT
  lookup : d.lookup = 0 ∨ d.lookup = LOOKUP_BIT

/-- What the decoder reads from a message of at least 11 bytes, whatever lies
    behind it. -/
theorem decode_peerProtocol_ofList (b₀ b₁ b₂ b₃ b₄ b₅ b₆ b₇ b₈ b₉ b₁₀ : UInt8) (bs : List UInt8)
    (rest : Mem) :
    decode_peerProtocol
        (Mem.ofList (b₀ :: b₁ :: b₂ :: b₃ :: b₄ :: b₅ :: b₆ :: b₇ :: b₈ :: b₉ :: b₁₀ :: bs) rest) =
      { control := b₀ &&& CONTROL_BIT, finger := b₀ &&& FINGER_BIT, fack := b₀ &&& FACK_BIT,
        join := b₀ &&& JOIN_BIT, notify := b₀ &&& NOTIFY_BIT, stabilize := b₀ &&& STABILIZE_BIT,
        reply := b₀ &&& REPLY_BIT, lookup := b₀ &&& LOOKUP_BIT,
        hashId := word16 b₁ b₂, nodeId := word16 b₃ b₄, nodeIp := word32 b₅ b₆ b₇ b₈,
        nodePort := word16 b₉ b₁₀ } := by
  simp only [decode_peerProtocol, ntohs, ntohl, Mem.load16, Mem.load32, toUInt16_word32,
    bswap16_word16, bswap32_word32, Nat.reduceAdd, Mem.ofList_cons_zero, Mem.ofList_cons_succ]

/-- A flag of a header byte. -/
private def bit (b : UInt8) (on : Bool) : UInt8 := if on then b else 0

private theorem exists_bit {x b : UInt8} (h : x = 0 ∨ x = b) : ∃ on, bit b on = x := by
  rcases h with rfl | rfl
  · exact ⟨false, rfl⟩
  · exact ⟨true, rfl⟩

/-- Each mask takes its own flag out of the header byte. -/
private theorem mask_bits : ∀ c fi fa j n s r l : Bool,
    let h := bit CONTROL_BIT c ||| bit FINGER_BIT fi ||| bit FACK_BIT fa ||| bit JOIN_BIT j |||
      bit NOTIFY_BIT n ||| bit STABILIZE_BIT s ||| bit REPLY_BIT r ||| bit LOOKUP_BIT l
    h &&& CONTROL_BIT = bit CONTROL_BIT c ∧ h &&& FINGER_BIT = bit FINGER_BIT fi ∧
      h &&& FACK_BIT = bit FACK_BIT fa ∧ h &&& JOIN_BIT = bit JOIN_BIT j ∧
      h &&& NOTIFY_BIT = bit NOTIFY_BIT n ∧ h &&& STABILIZE_BIT = bit STABILIZE_BIT s ∧
      h &&& REPLY_BIT = bit REPLY_BIT r ∧ h &&& LOOKUP_BIT = bit LOOKUP_BIT l := by
  decide

/-- The masks of the decoder give the flags of a record back. -/
theorem PeerProtocol.Masked.mask_flags {d : PeerProtocol} (hd : d.Masked) :
    d.flags &&& CONTROL_BIT = d.control ∧ d.flags &&& FINGER_BIT = d.finger ∧
      d.flags &&& FACK_BIT = d.fack ∧ d.flags &&& JOIN_BIT = d.join ∧
      d.flags &&& NOTIFY_BIT = d.notify ∧ d.flags &&& STABILIZE_BIT = d.stabilize ∧
      d.flags &&& REPLY_BIT = d.reply ∧ d.flags &&& LOOKUP_BIT = d.lookup := by
  obtain ⟨c, hc⟩ := exists_bit hd.control
  obtain ⟨fi, hfi⟩ := exists_bit hd.finger
  obtain ⟨fa, hfa⟩ := exists_bit hd.fack
  obtain ⟨j, hj⟩ := exists_bit hd.join
  obtain ⟨n, hn⟩ := exists_bit hd.notify
  obtain ⟨s, hs⟩ := exists_bit hd.stabilize
  obtain ⟨r, hr⟩ := exists_bit hd.reply
  obtain ⟨l, hl⟩ := exists_bit hd.lookup
  rw [PeerProtocol.flags, ← hc, ← hfi, ← hfa, ← hj, ← hn, ← hs, ← hr, ← hl]
  exact mask_bits c fi fa j n s r l

/-- **Decoding an encoded peer message.** -/
theorem decode_encode_peerProtocol {d : PeerProtocol} (hd : d.Masked) (rest : Mem) :
    decode_peerProtocol (Mem.ofList d.wire rest) = d := by
  obtain ⟨hc, hfi, hfa, hj, hn, hs, hr, hl⟩ := hd.mask_flags
  rw [PeerProtocol.wire, decode_peerProtocol_ofList, hc, hfi, hfa, hj, hn, hs, hr, hl,
    word16_byte16, word16_byte16, word32_byte32, word16_byte16]

/-- Only the first 11 bytes of a message count. -/
theorem decode_peerProtocol_congr {m m' : Mem} (h : ∀ i < peerProtocolCalculateSize, m i = m' i) :
    decode_peerProtocol m = decode_peerProtocol m' := by
  have h' : ∀ i, i < 11 → m i = m' i := h
  simp only [decode_peerProtocol, ntohs, ntohl, Mem.load16, Mem.load32, toUInt16_word32,
    Nat.reduceAdd]
  rw [h' 0 (by omega), h' 1 (by omega), h' 2 (by omega), h' 3 (by omega), h' 4 (by omega),
    h' 5 (by omega), h' 6 (by omega), h' 7 (by omega), h' 8 (by omega), h' 9 (by omega),
    h' 10 (by omega)]

/-! ## Messages between peers by their header byte -/

/-- The header bytes of the messages that the senders make. -/
def JOIN_MESSAGE : UInt8 := CONTROL_BIT ||| JOIN_BIT
def NOTIFY_MESSAGE : UInt8 := CONTROL_BIT ||| NOTIFY_BIT
def STABILIZE_MESSAGE : UInt8 := CONTROL_BIT ||| STABILIZE_BIT
def LOOKUP_MESSAGE : UInt8 := CONTROL_BIT ||| LOOKUP_BIT
def REPLY_MESSAGE : UInt8 := CONTROL_BIT ||| REPLY_BIT

namespace PeerProtocol

/-- The record that a message decodes to. -/
def parse (m : List UInt8) : PeerProtocol := decode_peerProtocol (Mem.ofList m fun _ => 0)

/-- A message of 11 bytes with the given header byte. -/
structure Message (header : UInt8) (m : List UInt8) : Prop where
  length : m.length = peerProtocolCalculateSize
  header : m.head? = some header

theorem decode_eq_parse {m : List UInt8} (h : m.length = peerProtocolCalculateSize) (rest : Mem) :
    decode_peerProtocol (Mem.ofList m rest) = parse m :=
  decode_peerProtocol_congr fun i hi => by
    rw [← h] at hi
    rw [Mem.ofList_getElem hi, Mem.ofList_getElem hi]

theorem parse_masked (m : List UInt8) : (parse m).Masked where
  control := and_bit _ (k := 0) rfl
  finger := and_bit _ (k := 1) rfl
  fack := and_bit _ (k := 2) rfl
  join := and_bit _ (k := 3) rfl
  notify := and_bit _ (k := 4) rfl
  stabilize := and_bit _ (k := 5) rfl
  reply := and_bit _ (k := 6) rfl
  lookup := and_bit _ (k := 7) rfl

theorem parse_wire {d : PeerProtocol} (hd : d.Masked) : parse d.wire = d :=
  decode_encode_peerProtocol hd _

theorem wire_message {d : PeerProtocol} {b : UInt8} (h : d.flags = b) : Message b d.wire :=
  h ▸ ⟨rfl, rfl⟩

theorem Message.header_unique {b b' : UInt8} {m : List UInt8} (h : Message b m) (h' : Message b' m) :
    b = b' := Option.some.inj (h.header.symm.trans h'.header)

theorem Message.isPeerProtocol {b : UInt8} {m : List UInt8} (hm : Message b m) (rest : Mem) :
    isPeerProtocol (Mem.ofList m rest) = ((b &&& CONTROL_BIT) != 0) := by
  obtain ⟨-, h⟩ := hm
  cases m with
  | nil => simp at h
  | cons x m =>
    obtain rfl : x = b := by simpa using h
    rfl

/-- The flags of a message, read off its header byte. -/
theorem Message.flags {b : UInt8} {m : List UInt8} (hm : Message b m) :
    (parse m).control = b &&& CONTROL_BIT ∧ (parse m).finger = b &&& FINGER_BIT ∧
      (parse m).fack = b &&& FACK_BIT ∧ (parse m).join = b &&& JOIN_BIT ∧
      (parse m).notify = b &&& NOTIFY_BIT ∧ (parse m).stabilize = b &&& STABILIZE_BIT ∧
      (parse m).reply = b &&& REPLY_BIT ∧ (parse m).lookup = b &&& LOOKUP_BIT := by
  obtain ⟨-, h⟩ := hm
  cases m with
  | nil => simp at h
  | cons x m =>
    obtain rfl : x = b := by simpa using h
    exact ⟨rfl, rfl, rfl, rfl, rfl, rfl, rfl, rfl⟩

end PeerProtocol

/-! ## What a client message looks like on the wire -/

namespace ClientProtocol

/-- The header byte of a message. -/
def flags (d : ClientProtocol) : UInt8 := d.act ||| d.get ||| d.set ||| d.delete

/-- The bytes of a message: the 7-byte header, the key, the value. -/
def wire (d : ClientProtocol) : List UInt8 :=
  [d.flags, byte16 d.key_length 1, byte16 d.key_length 0, byte32 d.value_length 3,
    byte32 d.value_length 2, byte32 d.value_length 1, byte32 d.value_length 0] ++ (d.key ++ d.value)

/-- The length fields of a record count its key and its value. -/
structure Sized (d : ClientProtocol) : Prop where
  key : d.key.length = d.key_length.toNat
  value : d.value.length = d.value_length.toNat

/-- Every flag is `0` or its own mask bit. -/
structure Masked (d : ClientProtocol) : Prop where
  act : d.act = 0 ∨ d.act = ACK_BIT
  get : d.get = 0 ∨ d.get = GET_BIT
  set : d.set = 0 ∨ d.set = SET_BIT
  delete : d.delete = 0 ∨ d.delete = DELETE_BIT

theorem Sized.size {d : ClientProtocol} (h : d.Sized) :
    clientProtocolCalculateSize d = 7 + d.key.length + d.value.length := by
  rw [clientProtocolCalculateSize, h.key, h.value]

theorem Sized.wire_length {d : ClientProtocol} (h : d.Sized) :
    d.wire.length = clientProtocolCalculateSize d := by
  rw [h.size]
  simp [wire]
  omega

end ClientProtocol

/-- The stores of the encoder lie side by side. -/
theorem encode_clientProtocol_layout {d : ClientProtocol} (h : d.Sized) :
    encode_clientProtocol_stores d = Mem.layout 0 [[d.flags], le16 (htons d.key_length),
      le32 (htonl d.value_length), d.key, d.value] := by
  have hk : d.key.take d.key_length.toNat = d.key := by rw [← h.key, List.take_length]
  have hv : d.value.take d.value_length.toNat = d.value := by rw [← h.value, List.take_length]
  simp only [encode_clientProtocol_stores, hk, hv, Mem.layout, h.key]
  rfl

/-- The stores make up the message. -/
theorem encode_clientProtocol_flatten (d : ClientProtocol) :
    [[d.flags], le16 (htons d.key_length), le32 (htonl d.value_length), d.key, d.value].flatten =
      d.wire := by
  simp [ClientProtocol.wire, le16_bswap16, le32_bswap32]

/-- **The encoder of client messages.** -/
theorem bytes_encode_clientProtocol {d : ClientProtocol} (h : d.Sized) :
    (encode_clientProtocol d).bytes 0 (clientProtocolCalculateSize d) = d.wire := by
  have hf := encode_clientProtocol_flatten d
  rw [encode_clientProtocol, encode_clientProtocol_layout h,
    Mem.bytes_writes_layout (by rw [hf, h.wire_length]), hf, ← h.wire_length, List.take_length]

/-- Only the bytes that its length fields announce count. -/
theorem decode_clientProtocol_congr {m m' : Mem}
    (h : ∀ i < clientProtocolCalculateSize (decode_clientProtocol m), m i = m' i) :
    decode_clientProtocol m = decode_clientProtocol m' := by
  have hs : 7 ≤ clientProtocolCalculateSize (decode_clientProtocol m) := by
    simp only [clientProtocolCalculateSize]; omega
  have h16 : m.load16 1 = m'.load16 1 := by
    rw [Mem.load16, Mem.load16, h 1 (by omega), h 2 (by omega)]
  have h32 : m.load32 3 = m'.load32 3 := by
    rw [Mem.load32, Mem.load32, h 3 (by omega), h 4 (by omega), h 5 (by omega), h 6 (by omega)]
  have h0 : m 0 = m' 0 := h 0 (by omega)
  have hk : ∀ i n, i + n ≤ clientProtocolCalculateSize (decode_clientProtocol m) →
      m.bytes i n = m'.bytes i n := fun i n hi =>
    List.map_congr_left fun k hk => h _ (by rw [List.mem_range] at hk; omega)
  have hk1 := hk 7 (ntohs (m.load16 1)).toNat
    (by simp only [clientProtocolCalculateSize, decode_clientProtocol, Nat.reduceAdd]; omega)
  have hk2 := hk (7 + (ntohs (m.load16 1)).toNat) (ntohl (m.load32 3)).toNat
    (by simp only [clientProtocolCalculateSize, decode_clientProtocol, Nat.reduceAdd]; omega)
  simp only [decode_clientProtocol, Nat.reduceAdd, h0, ← h16, ← h32, hk1, hk2]

theorem decode_clientProtocol_sized (m : Mem) : (decode_clientProtocol m).Sized :=
  ⟨by simp [decode_clientProtocol], by simp [decode_clientProtocol]⟩

theorem decode_clientProtocol_masked (m : Mem) : (decode_clientProtocol m).Masked where
  act := and_bit _ (k := 4) rfl
  get := and_bit _ (k := 5) rfl
  set := and_bit _ (k := 6) rfl
  delete := and_bit _ (k := 7) rfl

private theorem mask_client_bits : ∀ a g s d : Bool,
    let h := bit ACK_BIT a ||| bit GET_BIT g ||| bit SET_BIT s ||| bit DELETE_BIT d
    h &&& ACK_BIT = bit ACK_BIT a ∧ h &&& GET_BIT = bit GET_BIT g ∧
      h &&& SET_BIT = bit SET_BIT s ∧ h &&& DELETE_BIT = bit DELETE_BIT d ∧
      h &&& CONTROL_BIT = 0 := by
  decide

private theorem low_client_bits : ∀ a g s d : Bool,
    (bit ACK_BIT a ||| bit GET_BIT g ||| bit SET_BIT s ||| bit DELETE_BIT d) &&& 0x0F = 0 := by
  decide

namespace ClientProtocol

/-- The masks of the decoder give the flags of a record back. -/
theorem Masked.mask_flags {d : ClientProtocol} (hd : d.Masked) :
    d.flags &&& ACK_BIT = d.act ∧ d.flags &&& GET_BIT = d.get ∧ d.flags &&& SET_BIT = d.set ∧
      d.flags &&& DELETE_BIT = d.delete ∧ d.flags &&& CONTROL_BIT = 0 := by
  obtain ⟨a, ha⟩ := exists_bit hd.act
  obtain ⟨g, hg⟩ := exists_bit hd.get
  obtain ⟨s, hs⟩ := exists_bit hd.set
  obtain ⟨e, he⟩ := exists_bit hd.delete
  rw [flags, ← ha, ← hg, ← hs, ← he]
  exact mask_client_bits a g s e

/-- No flag of a client message lies below `ACK_BIT`. -/
theorem Masked.low {d : ClientProtocol} (hd : d.Masked) : d.flags &&& 0x0F = 0 := by
  obtain ⟨a, ha⟩ := exists_bit hd.act
  obtain ⟨g, hg⟩ := exists_bit hd.get
  obtain ⟨s, hs⟩ := exists_bit hd.set
  obtain ⟨e, he⟩ := exists_bit hd.delete
  rw [flags, ← ha, ← hg, ← hs, ← he]
  exact low_client_bits a g s e

/-- The record that a message decodes to. -/
def parse (m : List UInt8) : ClientProtocol := decode_clientProtocol (Mem.ofList m fun _ => 0)

/-- The length fields of a message match its bytes. -/
def WellFormed (m : List UInt8) : Prop := m.length = clientProtocolCalculateSize (parse m)

instance (m : List UInt8) : Decidable (WellFormed m) := inferInstanceAs (Decidable (_ = _))

/-- What lies behind a message does not matter when its length fields match. -/
theorem WellFormed.decode {m : List UInt8} (h : WellFormed m) (rest : Mem) :
    decode_clientProtocol (Mem.ofList m rest) = parse m := by
  refine (decode_clientProtocol_congr fun i hi => ?_).symm
  have hi' : i < m.length := by rw [h]; exact hi
  rw [Mem.ofList_getElem hi', Mem.ofList_getElem hi']

theorem WellFormed.ne_nil {m : List UInt8} (h : WellFormed m) : m ≠ [] := by
  rintro rfl
  rw [WellFormed, clientProtocolCalculateSize, List.length_nil] at h
  omega

/-- Nor does it for the kind of the message. -/
theorem WellFormed.isPeerProtocol {m : List UInt8} (h : WellFormed m)
    (hc : isPeerProtocol (Mem.ofList m fun _ => 0) = false) (rest : Mem) :
    ChordPeer.isPeerProtocol (Mem.ofList m rest) = false := by
  cases m with
  | nil => exact absurd rfl h.ne_nil
  | cons b m => exact hc

theorem parse_sized (m : List UInt8) : (parse m).Sized := decode_clientProtocol_sized _

theorem parse_masked (m : List UInt8) : (parse m).Masked := decode_clientProtocol_masked _

end ClientProtocol

/-- A message of 11 bytes between peers, or a client message whose length
    fields match its bytes. -/
inductive WellFormedMessage (m : List UInt8) : Prop where
  | peer (hl : m.length = peerProtocolCalculateSize) (hc : (PeerProtocol.parse m).control ≠ 0)
  | client (hm : ClientProtocol.WellFormed m) (hc : isPeerProtocol (Mem.ofList m fun _ => 0) = false)

/-- The length fields of an encoded client message. -/
theorem wire_lengths (d : ClientProtocol) (rest : Mem) :
    ntohs ((Mem.ofList d.wire rest).load16 1) = d.key_length ∧
      ntohl ((Mem.ofList d.wire rest).load32 3) = d.value_length := by
  rw [ntohs, ntohl, Mem.bswap16_load16, Mem.bswap32_load32]
  exact ⟨word16_byte16 d.key_length, word32_byte32 d.value_length⟩

/-- **Decoding an encoded client message.** -/
theorem decode_encode_clientProtocol {d : ClientProtocol} (hd : d.Masked) (hs : d.Sized)
    (rest : Mem) : decode_clientProtocol (Mem.ofList d.wire rest) = d := by
  obtain ⟨ha, hg, hset, hdel, -⟩ := hd.mask_flags
  obtain ⟨h16, h32⟩ := wire_lengths d rest
  have hlen : d.wire.length = 7 + d.key.length + d.value.length := by rw [hs.wire_length, hs.size]
  have hkey : (Mem.ofList d.wire rest).bytes 7 d.key_length.toNat = d.key := by
    rw [← hs.key, Mem.bytes_ofList (by omega)]
    simp [ClientProtocol.wire]
  have hval : (Mem.ofList d.wire rest).bytes (7 + d.key_length.toNat) d.value_length.toNat =
      d.value := by
    rw [← hs.key, ← hs.value, Mem.bytes_ofList (by omega), ← List.drop_drop]
    simp [ClientProtocol.wire]
  have h0 : Mem.ofList d.wire rest 0 = d.flags := rfl
  simp only [decode_clientProtocol, Nat.reduceAdd, h0, h16, h32, hkey, hval, ha, hg, hset, hdel]

theorem isPeerProtocol_wire {d : ClientProtocol} (hd : d.Masked) (rest : Mem) :
    isPeerProtocol (Mem.ofList d.wire rest) = false := by
  have h0 : Mem.ofList d.wire rest 0 = d.flags := rfl
  simp [isPeerProtocol, h0, hd.mask_flags.2.2.2.2]

end ChordPeer
