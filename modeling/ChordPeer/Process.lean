/-
  The state of a peer process and what it does to the outside: the globals of
  `peer.c`, the queues of `helper/wulkanat/queue.h`, and the part of the
  kernel that the socket calls of `generic/network.c` use.

  * `Queue` and the macros `queue_append`, `queue_pop`, `queue_peek`: each is
    `while (0) { … };`, so its body is in the program text only
    (`while_zero`);
  * `PeerM` runs a function of the peer on a `Proc`.  It stops on a fault, or
    where it waits for bytes that never come;
  * everything sent is an `Event` of the trace; `packets` and `answers` read
    off what went to other peers and to a client.
-/
import ChordPeer.Protocol
import ChordPeer.Store
import ChordPeer.Lib.Heap

namespace ChordPeer

open CBytes

/-- Where the program reads through a pointer that points nowhere. -/
inductive Fault where
  | nullNext
  | nullPrev
  /-- `HASH_DEL` of an element that is not there -/
  | nullElement
  /-- decoding a client request that was not taken from the queue -/
  | nullRequest
  | queueNode
  /-- reading beyond the end of the stack -/
  | stack
  | heap (f : HeapFault)
  deriving DecidableEq, Repr

/-- Why a run of a function does not come to its end. -/
inductive Stop where
  | fault (f : Fault)
  /-- waiting in `recv` -/
  | blocked
  deriving DecidableEq, Repr

/-! ## The queue macros -/

structure QueueElement (α : Type) where
  next : Option ℕ
  data : α

/-- A queue and its nodes; a node that was freed is `none`. -/
structure Queue (α : Type) where
  first : Option ℕ
  last : Option ℕ
  nodes : List (Option (QueueElement α))

namespace Queue
variable {α : Type}

/-- `QUEUE(name, type)`. -/
def empty : Queue α := ⟨none, none, []⟩

/-- `while (0) body`: the condition comes first, and fails. -/
def while_zero {σ : Type} (_body : σ → Except Fault σ) (s : σ) : Except Fault σ := .ok s

/-- The node behind a pointer. -/
def node (queue : Queue α) (p : Option ℕ) : Except Fault (ℕ × QueueElement α) :=
  match p with
  | none => .error .queueNode
  | some i => match queue.nodes[i]? with
    | some (some e) => .ok (i, e)
    | _ => .error .queueNode

def queue_append_body (data_ptr : α) (queue : Queue α) : Except Fault (Queue α) := do
  let tmp := queue.nodes.length
  let new : QueueElement α := { next := none, data := data_ptr }
  let queue := { queue with nodes := queue.nodes ++ [some new] }
  let (i, e) ← queue.node queue.last
  return { queue with nodes := queue.nodes.set i (some { e with next := some tmp }), last := some tmp }

def queue_append (queue : Queue α) (data_ptr : α) : Except Fault (Queue α) :=
  while_zero (queue_append_body data_ptr) queue

def queue_pop_body (s : Queue α × α) : Except Fault (Queue α × α) := do
  let (queue, _) := s
  let (i, e) ← queue.node queue.first
  return ({ queue with first := e.next, nodes := queue.nodes.set i none }, e.data)

/-- The queue and the variable that `queue_pop` assigns. -/
def queue_pop (queue : Queue α) (data_ptr : α) : Except Fault (Queue α × α) :=
  while_zero queue_pop_body (queue, data_ptr)

def queue_peek_body (queue : Queue α) (_data_ptr : α) : Except Fault α := do
  let (_, e) ← queue.node queue.first
  return e.data

/-- The variable that `queue_peek` assigns. -/
def queue_peek (queue : Queue α) (data_ptr : α) : Except Fault α :=
  while_zero (queue_peek_body queue) data_ptr

def queue_is_empty (queue : Queue α) : Bool := queue.first.isNone

end Queue

/-! ## Sockets -/

/-- The address of a peer.  It stands for the texts that `int_addr_to_str` and
    `int_port_to_str` make of it and `getaddrinfo` reads, which lead back to it
    where they fit their arrays (`text_address_iff`). -/
structure Addr where
  ip : UInt32
  port : UInt16
  deriving DecidableEq, Repr

def Peer.addr (p : Peer) : Addr := ⟨p.ip, p.port⟩

/-- The address that the node fields of a message give. -/
def PeerProtocol.node (d : PeerProtocol) : Addr := ⟨d.nodeIp, d.nodePort⟩

/-- A descriptor, and for one that `setup_as_client` connected the address at
    its other end. -/
structure Socket where
  fd : ℤ
  peer : Option Addr
  deriving DecidableEq, Repr

inductive Event where
  | connect (sock : Socket)
  | send (sock : Socket) (data : List UInt8)
  deriving DecidableEq, Repr

/-- A message on its way to an address. -/
structure Packet where
  dest : Addr
  data : List UInt8
  deriving DecidableEq, Repr

/-- What went to other peers. -/
def packets (trace : List Event) : List Packet :=
  trace.filterMap fun
    | .send ⟨_, some a⟩ data => some ⟨a, data⟩
    | _ => none

/-- What was sent on a socket, send by send. -/
def answers (sock : Socket) (trace : List Event) : List (List UInt8) :=
  trace.filterMap fun
    | .send s data => if s = sock then some data else none
    | _ => none

def BUFFER_SIZE : ℕ := 65535

def STATUS_OK : ℕ := 200

/-- The size of a `struct Response`. -/
def SIZEOF_RESPONSE : ℕ := 32

/-- The largest `size_t`, which `-1` becomes. -/
def SIZE_MAX : ℕ := 2 ^ 64 - 1

/-- A result of `recv` into a buffer of `BUFFER_SIZE` bytes: the bytes stored
    (none when the other end closed), or `-1`. -/
inductive RecvResult where
  | received (data : List UInt8) (h : data.length ≤ BUFFER_SIZE)
  | error

/-! ## Processes -/

/-- What a run meets that the program does not decide. -/
structure Env where
  /-- whether a connection to an address comes about -/
  accepts : Addr → Bool
  /-- the results of `recv` on a socket, one after the other -/
  recvs : Socket → List RecvResult
  /-- what the stack holds where a sender declares its message -/
  stack : PeerProtocol
  /-- the stack, from the `struct Response` that the handler is called with up
      to its end -/
  image : List UInt8
  image_size : SIZEOF_RESPONSE ≤ image.length
  /-- the memory behind a block -/
  junk : Mem

/-- The first `n` bytes from the `struct Response` on. -/
def Env.read_image (env : Env) (n : ℕ) : Except Fault (List UInt8) :=
  if n ≤ env.image.length then .ok (env.image.take n) else .error .stack

structure Kernel where
  heap : Heap
  fds : ℕ
  trace : List Event

/-- The globals of `peer.c` and `hash_helper.c`. -/
structure Globals where
  peer_info : PeerInfo
  hash_table_head : HashTable
  client_requests : Queue (Option (List UInt8))
  sockets : Queue Socket

/-- The globals of a peer that has handled no message yet, but for its neighbours. -/
def Globals.start (i : PeerInfo) : Globals := ⟨i, [], .empty, .empty⟩

/-- Nothing done yet; the descriptors `0` to `3` are in use. -/
def Kernel.fresh : Kernel where
  heap := ⟨0, fun _ => none, fun _ => false, 0, fun _ => 0⟩
  fds := 4
  trace := []

structure Proc where
  globals : Globals
  kernel : Kernel

abbrev PeerM := StateT Proc (Except Stop)

def fault {α : Type} (f : Fault) : PeerM α := throw (.fault f)

def liftFault {α : Type} : Except Fault α → PeerM α
  | .ok a => pure a
  | .error f => fault f

def peer_info : PeerM PeerInfo := return (← get).globals.peer_info

/-- `peer_info.this`, dereferenced. -/
def this : PeerM Peer := return (← peer_info).this

/-- `peer_info.next`, dereferenced. -/
def next : PeerM Peer := do
  match (← peer_info).next with
  | some p => return p
  | none => fault .nullNext

/-- `peer_info.prev`, dereferenced. -/
def prev : PeerM Peer := do
  match (← peer_info).prev with
  | some p => return p
  | none => fault .nullPrev

def modifyGlobals (f : Globals → Globals) : PeerM Unit :=
  modify fun s => { s with globals := f s.globals }

def modifyInfo (f : PeerInfo → PeerInfo) : PeerM Unit :=
  modifyGlobals fun g => { g with peer_info := f g.peer_info }

def emit (e : Event) : PeerM Unit :=
  modify fun s => { s with kernel := { s.kernel with trace := s.kernel.trace ++ [e] } }

end ChordPeer
