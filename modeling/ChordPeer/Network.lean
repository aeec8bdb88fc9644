/-
  Connections and the messages between peers (`generic/network.c`, and
  `send_found_lookup` of `generic/data_helper.c`).

  A connection that does not come about gives the descriptor `-1`, on which
  nothing is sent and `recv` fails.  `direct_receive` runs on a heap, so that
  what it does to a block after `realloc` or `free` shows; the blocks that the
  other functions allocate and never release are left out.
-/
import ChordPeer.Process

namespace ChordPeer

open CBytes

variable (env : Env)

/-! ## Connections -/

/-- `setup_as_client`: the descriptor of a new connection, or `-1`. -/
def setup_as_client (a : Addr) : PeerM Socket := do
  if env.accepts a then
    let s ← get
    let sock : Socket := ⟨s.kernel.fds, some a⟩
    set { s with kernel := { s.kernel with fds := s.kernel.fds + 1 } }
    emit (.connect sock)
    return sock
  else
    return ⟨-1, none⟩

def send (sock : Socket) (data : List UInt8) : PeerM Unit := do
  if sock.fd = -1 then return
  emit (.send sock data)

def direct_send (a : Addr) (data : List UInt8) : PeerM Socket := do
  let sock ← setup_as_client env a
  send sock data
  return sock

/-- `struct Response` as `direct_receive` returns it; `status_code` is only
    set where `status` asks for it. -/
structure Response where
  data_length : ℕ
  data : Heap.Ptr
  status_code : Option ℕ

/-- The bytes `recv` stored, and what it returned as a `size_t`. -/
def RecvResult.stored : RecvResult → List UInt8
  | .received data _ => data
  | .error => []

def RecvResult.count : RecvResult → ℕ
  | .received data _ => data.length
  | .error => SIZE_MAX

def heapFault {α : Type} : Except HeapFault α → Except Stop α
  | .ok a => .ok a
  | .error f => .error (.fault (.heap f))

/-- `direct_receive` on the results that `recv` has in store.  With the buffer
    full it calls itself for the rest, and `response.data` still points to the
    block it resized. -/
def direct_receive : List RecvResult → (status : Bool) → Heap → Except Stop (Response × Heap)
  | [], _, _ => .error .blocked
  | r :: rs, status, h => do
    let (data, h) := h.malloc BUFFER_SIZE
    let h ← heapFault (h.write data 0 r.stored)
    let data_length := r.count
    let status_code := if status then some STATUS_OK else none
    if data_length < BUFFER_SIZE then
      let (data, h) ← heapFault (h.realloc data data_length)
      return (⟨data_length, data, status_code⟩, h)
    else if data_length = BUFFER_SIZE then
      let (conc, h) ← direct_receive rs false h
      let (data_conc, h) ← heapFault (h.realloc data ((conc.data_length + data_length) % 2 ^ 64))
      let block ← heapFault (h.read data 0 data_length)
      let h ← heapFault (h.write data_conc 0 block)
      let block ← heapFault (h.read conc.data 0 conc.data_length)
      let h ← heapFault (h.write data_conc data_length block)
      let h ← if status then pure h else heapFault (h.free conc.data)
      return (⟨(data_length + conc.data_length) % 2 ^ 64, data, status_code⟩, h)
    else
      let h ← heapFault (h.free data)
      return (⟨data_length, data, status_code⟩, h)

/-- Run a function of the heap in the process. -/
def onHeap {α : Type} (f : Heap → Except Stop (α × Heap)) : PeerM α := do
  let s ← get
  let (a, h) ← f s.kernel.heap
  set { s with kernel := { s.kernel with heap := h } }
  return a

def redirect (sock_from sock_to : Socket) : PeerM (Option ℕ) := do
  let response ← onHeap (direct_receive (env.recvs sock_from) true)
  let data ← onHeap fun h => do
    return (← heapFault (h.read response.data 0 response.data_length), h)
  send sock_to data
  return response.status_code

/-! ## Messages to another peer -/

/-- The message of `join`.  The fields it does not set keep what was in the
    memory of its local, `stack`; so for the other senders. -/
def join_request (stack : PeerProtocol) (new_peer_info : Peer) : PeerProtocol :=
  { stack with
    join := JOIN_BIT
    control := CONTROL_BIT
    nodeId := new_peer_info.id
    nodeIp := new_peer_info.ip
    nodePort := new_peer_info.port }

def notify_request (stack : PeerProtocol) (next_peer_info : Peer) : PeerProtocol :=
  { stack with
    control := CONTROL_BIT
    notify := NOTIFY_BIT
    nodeId := next_peer_info.id
    nodeIp := next_peer_info.ip
    nodePort := next_peer_info.port }

def stabilize_request (stack : PeerProtocol) (this_peer_info : Peer) : PeerProtocol :=
  { stack with
    stabilize := STABILIZE_BIT
    control := CONTROL_BIT
    nodeId := this_peer_info.id
    nodeIp := this_peer_info.ip
    nodePort := this_peer_info.port }

/-- The `i`-th message of `buildfinger`. -/
def finger_request (stack : PeerProtocol) (this_peer_info : Peer) (i : ℕ) : PeerProtocol :=
  { stack with
    lookup := LOOKUP_BIT
    control := CONTROL_BIT
    finger := 0
    nodeIp := this_peer_info.ip
    nodePort := this_peer_info.port
    nodeId := UInt16.ofNat (this_peer_info.id.toNat + (2 <<< i) % 65536) }

/-- Encode a message and send its 11 bytes. -/
def send_peerProtocol (a : Addr) (d : PeerProtocol) : PeerM Unit := do
  let encoded_request := encode_peerProtocol d
  let _ ← direct_send env a (encoded_request.bytes 0 peerProtocolCalculateSize)

def join (a : Addr) (new_peer_info : Peer) : PeerM Unit :=
  send_peerProtocol env a (join_request env.stack new_peer_info)

def notify (target_node_IP : UInt32) (target_node_Port : UInt16) (next_peer_info : Peer) :
    PeerM Unit :=
  send_peerProtocol env ⟨target_node_IP, target_node_Port⟩ (notify_request env.stack next_peer_info)

def stabilize (next_node_IP : UInt32) (next_node_Port : UInt16) (this_peer_info : Peer) :
    PeerM Unit :=
  send_peerProtocol env ⟨next_node_IP, next_node_Port⟩ (stabilize_request env.stack this_peer_info)

def buildfinger (next_node_IP : UInt32) (next_node_Port : UInt16) (this_peer_info : Peer) :
    PeerM Unit :=
  (List.range 16).forM fun i => do
    if this_peer_info.next_finger.isSome then
      send_peerProtocol env ⟨next_node_IP, next_node_Port⟩ (finger_request env.stack this_peer_info i)

/-- The answer of `send_found_lookup`: the lookup with the fields of `next`. -/
def found_lookup (data : PeerProtocol) (next : Peer) : PeerProtocol :=
  { data with
    control := CONTROL_BIT
    reply := REPLY_BIT
    lookup := 0
    nodePort := next.port
    nodeIp := next.ip
    nodeId := next.id }

/-- `send_found_lookup`.  The address it sends to is read from `data` after
    the fields of `next` were written there. -/
def send_found_lookup (data : PeerProtocol) (next : Peer) : PeerM Unit := do
  let data := found_lookup data next
  send_peerProtocol env ⟨data.nodeIp, data.nodePort⟩ data

end ChordPeer
