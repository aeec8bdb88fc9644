/-
  The message handler of a peer (`peer.c`).

  `receive_handler` dispatches on the header byte of a message: a message
  between peers goes to the first branch whose flag is set, anything else is a
  client request, which this peer answers from its store, forwards to its next
  peer, or keeps for later.

  What a handler is called with is a `Received`: the memory behind
  `rec->data`, and `rec->data_length`.
-/
import ChordPeer.Network

namespace ChordPeer

open CBytes

/-- What a handler sees of the `struct Response` it is called with. -/
structure Received where
  data : Mem
  data_length : ℕ

/-- The message `m`, with `rest` in the memory behind it. -/
def Received.of (m : List UInt8) (rest : Mem) : Received := ⟨Mem.ofList m rest, m.length⟩

/-- The bytes of the message. -/
def Received.bytes (rec : Received) : List UInt8 := rec.data.bytes 0 rec.data_length

variable (hash : List UInt8 → UInt32) (env : Env)

/-- `get_hash_value`, assigned to a `byte16`. -/
def get_hash_value (key : List UInt8) : UInt16 := (hash key).toUInt16

/-- The arguments are the pointers as they are dereferenced: `&&` reads the
    second one only if the first comparison holds. -/
def id_is_between_ptr (hash_id : UInt16) (this prev : PeerM Peer) : PeerM Bool := do
  if (← this).id > hash_id then
    return (← prev).id < hash_id
  else
    return false

/-! ## Client requests -/

/-- The 7 bytes `res` of an answer without key and value. -/
def acknowledge (bit : UInt8) : List UInt8 := [ACK_BIT ||| bit, 0, 0, 0, 0, 0, 0]

def hash_table_head : PeerM HashTable := return (← get).globals.hash_table_head

def setTable (t : HashTable) : PeerM Unit := modifyGlobals fun g => { g with hash_table_head := t }

/-- `respond_as_responsible_peer` from `if (decodedData.set)` on. -/
def respond_set_delete (decodedData : ClientProtocol) (sock_fd : Socket) : PeerM Unit := do
  if decodedData.set ≠ 0 then
    setTable ((← hash_table_head).set decodedData.key decodedData.value decodedData.value_length)
    send sock_fd (acknowledge SET_BIT)
  if decodedData.delete ≠ 0 then
    match (← hash_table_head).delete_element decodedData.key with
    | none => fault .nullElement
    | some t =>
      setTable t
      send sock_fd (acknowledge DELETE_BIT)

def respond_as_responsible_peer (decodedData : ClientProtocol) (sock_fd : Socket) :
    PeerM Unit := do
  if decodedData.get ≠ 0 then
    match (← hash_table_head).get decodedData.key with
    | none => send sock_fd (acknowledge GET_BIT)
    | some element =>
      let decodedData := { decodedData with
        value := element.value
        value_length := element.value_length
        act := ACK_BIT }
      let length := clientProtocolCalculateSize decodedData
      send sock_fd ((encode_clientProtocol decodedData).bytes 0 length)
      respond_set_delete decodedData sock_fd
  else
    respond_set_delete decodedData sock_fd

/-! ## Pending requests -/

def client_requests : PeerM (Queue (Option (List UInt8))) :=
  return (← get).globals.client_requests

def sockets : PeerM (Queue Socket) := return (← get).globals.sockets

/-- `decode_clientProtocol` of a request kept in the queue, or of `NULL`. -/
def decode_request (request : Option (List UInt8)) : PeerM (ClientProtocol × Mem) :=
  match request with
  | none => fault .nullRequest
  | some data =>
    let msg := Mem.ofList data env.junk
    return (decode_clientProtocol msg, msg)

def next_job_in_queue : PeerM Unit := do
  if (← client_requests).queue_is_empty then return
  let next_client_job ← liftFault ((← client_requests).queue_peek none)
  let (decodedData, _) ← decode_request env next_client_job
  let peer_request := make_peerProtocol env.stack false true
    (get_hash_value hash decodedData.key) (← this)
  let encoded_response := encode_peerProtocol peer_request
  let next_peer ← setup_as_client env (← next).addr
  send next_peer (encoded_response.bytes 0 (clientProtocolCalculateSize decodedData))

/-! ## The branches of the handler -/

/-- Write the node fields of a message into a neighbour record. -/
def Peer.assign (p : Peer) (d : PeerProtocol) : Peer :=
  { p with ip := d.nodeIp, port := d.nodePort, id := d.nodeId }

def forward_to_next (rec : Received) : PeerM Unit := do
  let _ ← direct_send env (← next).addr rec.bytes

def handle_finger (decodedData : PeerProtocol) : PeerM Unit := do
  if decodedData.lookup = 0 then
    let p ← next
    buildfinger env p.ip p.port (← this)

def handle_join (decodedData : PeerProtocol) (rec : Received) : PeerM Unit := do
  if (← peer_info).next.isNone then
    modifyInfo fun i => { i with
      next := some (Peer.zero.assign decodedData)
      prev := some (Peer.zero.assign decodedData) }
    notify env decodedData.nodeIp decodedData.nodePort (← this)
  else if ← id_is_between_ptr decodedData.hashId this prev then
    let p ← prev
    modifyInfo fun i => { i with prev := some (p.assign decodedData) }
    notify env decodedData.nodeIp decodedData.nodePort (← this)
  else
    forward_to_next env rec

def handle_notify (decodedData : PeerProtocol) : PeerM Unit := do
  let p ← next
  modifyInfo fun i => { i with next := some (p.assign decodedData) }

def handle_stabilize (decodedData : PeerProtocol) : PeerM Unit := do
  match (← peer_info).prev with
  | none => modifyInfo fun i => { i with prev := some (Peer.zero.assign decodedData) }
  | some p =>
    if decodedData.nodeId = p.id ∧ (← this).is_base = 0 then
      let p ← next
      stabilize env p.ip p.port (← this)
    else
      notify env decodedData.nodeIp decodedData.nodePort p

def handle_reply (decodedData : PeerProtocol) : PeerM Unit := do
  let (q, current_request) ← liftFault ((← client_requests).queue_pop none)
  modifyGlobals fun g => { g with client_requests := q }
  let (current_decoded_request, msg) ← decode_request env current_request
  let next_node_sock ← direct_send env ⟨decodedData.nodeIp, decodedData.nodePort⟩
    (msg.bytes 0 (clientProtocolCalculateSize current_decoded_request))
  let (q, client_sock) ← liftFault ((← sockets).queue_pop ⟨0, none⟩)
  modifyGlobals fun g => { g with sockets := q }
  let _ ← redirect env next_node_sock client_sock
  next_job_in_queue hash env

def handle_lookup (decodedData : PeerProtocol) (rec : Received) : PeerM Unit := do
  if ← id_is_between_ptr decodedData.hashId next this then
    send_found_lookup env decodedData (← next)
  else
    forward_to_next env rec

def handle_client (rec : Received) (sock_fd : Socket) : PeerM Unit := do
  let decodedData := decode_clientProtocol rec.data
  let hashId := get_hash_value hash decodedData.key
  if ← id_is_between_ptr hashId this prev then
    respond_as_responsible_peer decodedData sock_fd
  else if ← id_is_between_ptr hashId next this then
    let next_peer ← setup_as_client env (← next).addr
    send next_peer rec.bytes
    let _ ← redirect env next_peer sock_fd
  else
    let q ← liftFault ((← sockets).queue_append sock_fd)
    modifyGlobals fun g => { g with sockets := q }
    let data_size := clientProtocolCalculateSize decodedData
    -- `memcpy(data, rec, data_size)`: from the struct, not from its data
    let data ← liftFault (env.read_image data_size)
    let q ← liftFault ((← client_requests).queue_append (some data))
    modifyGlobals fun g => { g with client_requests := q }
    if (← client_requests).queue_is_empty then
      next_job_in_queue hash env

def receive_handler (rec : Received) (sock_fd : Socket) : PeerM Unit := do
  if isPeerProtocol rec.data then
    let decodedData := decode_peerProtocol rec.data
    if decodedData.finger ≠ 0 then
      handle_finger env decodedData
    else if decodedData.fack ≠ 0 then
      return
    else if decodedData.join ≠ 0 then
      handle_join env decodedData rec
    else if decodedData.notify ≠ 0 then
      handle_notify decodedData
    else if decodedData.stabilize ≠ 0 then
      handle_stabilize env decodedData
    else if decodedData.reply ≠ 0 then
      handle_reply hash env decodedData
    else if decodedData.lookup ≠ 0 then
      handle_lookup env decodedData rec
    else
      return
  else
    handle_client hash env rec sock_fd

end ChordPeer
