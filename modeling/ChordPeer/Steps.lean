/-
  What the handler does, branch by branch, as functions of the state.

  * `Peer.step` is the handler on a message between peers: from the neighbour
    records to the new ones and the packets sent, or the fault.
    `receive_handler_peer`: the handler of the source computes it;
  * `dispatch` is the order in which it looks at the flags
    (`Peer.step_dispatch`);
  * `PeerStep` is what a step can do, guards included (`Peer.step_inv`);
    `InfoStep` is what it leaves of the records (`Peer.step_cases`);
  * `respond` is `respond_as_responsible_peer` on the table alone:
    `respond_as_responsible_peer_run`;
  * `receive_handler_own`, `receive_handler_other`: the branches for a client
    request; `receive_handler_unserved`: the last of them, by the bytes of the
    request; `redirect_ok`: a relayed answer;
  * `arrival_cases`: what the handler can do on any message; `handler_cases`:
    on a well-formed one, by its bytes alone.
-/
import ChordPeer.Handler

namespace ChordPeer

open CBytes

/-! ## Running a function of the peer -/

@[simp] theorem ok_bind {α β : Type} (a : α) (f : α → Except Stop β) :
    (Except.ok a >>= f) = f a := rfl

@[simp] theorem error_bind {α β : Type} (e : Stop) (f : α → Except Stop β) :
    ((Except.error e : Except Stop α) >>= f) = .error e := rfl

@[simp] theorem map_ok {α β : Type} (f : α → β) (a : α) :
    f <$> (Except.ok a : Except Stop α) = .ok (f a) := rfl

@[simp] theorem pure_eq_ok {α : Type} (a : α) : (pure a : Except Stop α) = .ok a := rfl

@[simp] theorem ite_run {α : Type} (c : Prop) [Decidable c] (x y : PeerM α) (s : Proc) :
    (if c then x else y).run s = if c then x.run s else y.run s := by
  split <;> rfl

@[simp] theorem fault_run {α : Type} (f : Fault) (s : Proc) :
    (fault f : PeerM α).run s = .error (.fault f) := rfl

@[simp] theorem liftFault_run {α : Type} (a : α) (s : Proc) :
    (liftFault (.ok a)).run s = .ok (a, s) := rfl

@[simp] theorem peer_info_run (s : Proc) : peer_info.run s = .ok (s.globals.peer_info, s) := rfl

@[simp] theorem this_run (s : Proc) : this.run s = .ok (s.globals.peer_info.this, s) := rfl

theorem next_run {s : Proc} {p : Peer} (h : s.globals.peer_info.next = some p) :
    next.run s = .ok (p, s) := by
  simp [next, h]

theorem next_run_null {s : Proc} (h : s.globals.peer_info.next = none) :
    next.run s = .error (.fault .nullNext) := by
  simp [next, h]

theorem prev_run {s : Proc} {p : Peer} (h : s.globals.peer_info.prev = some p) :
    prev.run s = .ok (p, s) := by
  simp [prev, h]

theorem prev_run_null {s : Proc} (h : s.globals.peer_info.prev = none) :
    prev.run s = .error (.fault .nullPrev) := by
  simp [prev, h]

/-- With both pointers valid, the interval test is `id_is_between`. -/
theorem id_is_between_ptr_run {x y : PeerM Peer} {p q : Peer} {s : Proc} (h : UInt16)
    (hx : x.run s = .ok (p, s)) (hy : y.run s = .ok (q, s)) :
    (id_is_between_ptr h x y).run s = .ok (id_is_between h p q, s) := by
  by_cases hp : p.id > h
  · simp [id_is_between_ptr, hx, hy, hp, id_is_between, in_range]
  · simp [id_is_between_ptr, hx, hp, id_is_between, in_range]

/-- The second pointer is not read where the first comparison fails. -/
theorem id_is_between_ptr_run_left {x y : PeerM Peer} {p : Peer} {s : Proc} {h : UInt16}
    (hx : x.run s = .ok (p, s)) (hp : ¬ p.id > h) :
    (id_is_between_ptr h x y).run s = .ok (false, s) := by
  simp [id_is_between_ptr, hx, hp]

theorem id_is_between_ptr_run_null {x y : PeerM Peer} {p : Peer} {s : Proc} {h : UInt16}
    {e : Stop} (hx : x.run s = .ok (p, s)) (hp : p.id > h) (hy : y.run s = .error e) :
    (id_is_between_ptr h x y).run s = .error e := by
  simp [id_is_between_ptr, hx, hp, hy]

/-- `id_is_between` of the client branch and the join branch: the hash is this
    peer's. -/
def PeerInfo.owns (i : PeerInfo) (h : UInt16) : Bool :=
  match i.prev with
  | some pv => id_is_between h i.this pv
  | none => false

/-- `id_is_between` of the client branch and the lookup branch: the hash is the
    next peer's. -/
def PeerInfo.next_owns (i : PeerInfo) (h : UInt16) : Bool :=
  match i.next with
  | some nx => id_is_between h nx i.this
  | none => false

/-! ## Sending -/

namespace Proc

def emitted (s : Proc) (es : List Event) : Proc :=
  { s with kernel := { s.kernel with trace := s.kernel.trace ++ es } }

/-- What `setup_as_client` returns. -/
def connection (env : Env) (s : Proc) (a : Addr) : Socket :=
  if env.accepts a then ⟨s.kernel.fds, some a⟩ else ⟨-1, none⟩

/-- A message sent over a new connection, if that comes about. -/
def sent (env : Env) (s : Proc) (p : Packet) : Proc :=
  if env.accepts p.dest then
    { s with kernel := { s.kernel with
        fds := s.kernel.fds + 1
        trace := s.kernel.trace ++
          [.connect ⟨s.kernel.fds, some p.dest⟩, .send ⟨s.kernel.fds, some p.dest⟩ p.data] } }
  else s

def sentAll (env : Env) (s : Proc) (out : List Packet) : Proc := out.foldl (sent env) s

def withHeap (s : Proc) (heap : Heap) : Proc := { s with kernel := { s.kernel with heap := heap } }

def withInfo (s : Proc) (i : PeerInfo) : Proc :=
  { s with globals := { s.globals with peer_info := i } }

def withTable (s : Proc) (t : HashTable) : Proc :=
  { s with globals := { s.globals with hash_table_head := t } }

@[simp] theorem emitted_globals (s : Proc) (es : List Event) : (s.emitted es).globals = s.globals :=
  rfl

@[simp] theorem sent_globals (env : Env) (s : Proc) (p : Packet) :
    (s.sent env p).globals = s.globals := by
  unfold sent
  split <;> rfl

@[simp] theorem sentAll_globals (env : Env) (s : Proc) (out : List Packet) :
    (s.sentAll env out).globals = s.globals := by
  induction out generalizing s with
  | nil => rfl
  | cons p out ih => exact (ih (s.sent env p)).trans (sent_globals env s p)

@[simp] theorem withInfo_self (s : Proc) : s.withInfo s.globals.peer_info = s := rfl

@[simp] theorem withTable_self (s : Proc) : s.withTable s.globals.hash_table_head = s := rfl

theorem packets_sent (env : Env) (s : Proc) (p : Packet) :
    packets (s.sent env p).kernel.trace =
      packets s.kernel.trace ++ [p].filter fun p => env.accepts p.dest := by
  by_cases ha : env.accepts p.dest = true <;> simp [packets, sent, ha]

/-- What went out is what was sent where a connection came about. -/
theorem packets_sentAll (env : Env) (s : Proc) (out : List Packet) :
    packets (s.sentAll env out).kernel.trace =
      packets s.kernel.trace ++ out.filter fun p => env.accepts p.dest := by
  induction out generalizing s with
  | nil => simp [sentAll]
  | cons p out ih =>
    rw [show s.sentAll env (p :: out) = (s.sent env p).sentAll env out from rfl, ih, packets_sent,
      List.append_assoc, ← List.filter_append]
    rfl

end Proc

/-- A socket that `accept` gave out: not a connection to a peer, and not `-1`. -/
structure Socket.Accepted (sock : Socket) : Prop where
  fd : sock.fd ≠ -1
  peer : sock.peer = none

theorem accepted_socket : Socket.Accepted ⟨3, none⟩ := ⟨by decide, rfl⟩

@[simp] theorem emit_run (e : Event) (s : Proc) : (emit e).run s = .ok ((), s.emitted [e]) := rfl

theorem send_run {sock : Socket} (h : sock.fd ≠ -1) (data : List UInt8) (s : Proc) :
    (send sock data).run s = .ok ((), s.emitted [.send sock data]) := by
  simp [send, h]

theorem direct_send_run (env : Env) (a : Addr) (data : List UInt8) (s : Proc) :
    (direct_send env a data).run s = .ok (s.connection env a, s.sent env ⟨a, data⟩) := by
  by_cases ha : env.accepts a = true
  · simp [direct_send, setup_as_client, send, ha, Proc.sent, Proc.emitted, Proc.connection]
  · simp [direct_send, setup_as_client, send, ha, Proc.sent, Proc.connection]

theorem send_peerProtocol_run (env : Env) (a : Addr) (d : PeerProtocol) (s : Proc) :
    (send_peerProtocol env a d).run s = .ok ((), s.sent env ⟨a, d.wire⟩) := by
  simp [send_peerProtocol, direct_send_run, bytes_encode_peerProtocol]

theorem forward_to_next_run (env : Env) {s : Proc} {p : Peer}
    (h : s.globals.peer_info.next = some p) (rec : Received) :
    (forward_to_next env rec).run s = .ok ((), s.sent env ⟨p.addr, rec.bytes⟩) := by
  simp [forward_to_next, next_run h, direct_send_run]

/-! ## Messages between peers -/

/-- What a branch does to the neighbour records, and the packets it sends; or
    the pointer it reads through that is `NULL`. -/
abbrev Outcome := Except Fault (PeerInfo × List Packet)

def Peer.on_finger (stack : PeerProtocol) (i : PeerInfo) (d : PeerProtocol) : Outcome :=
  if d.lookup ≠ 0 then .ok (i, []) else
  match i.next with
  | none => .error .nullNext
  | some nx => .ok (i, if i.this.next_finger.isSome then
      (List.range 16).map fun k => ⟨nx.addr, (finger_request stack i.this k).wire⟩ else [])

def Peer.on_join (stack : PeerProtocol) (i : PeerInfo) (d : PeerProtocol) (raw : List UInt8) :
    Outcome :=
  match i.next, i.prev with
  | none, _ => .ok ({ i with
      next := some (Peer.zero.assign d), prev := some (Peer.zero.assign d) },
      [⟨d.node, (notify_request stack i.this).wire⟩])
  | some nx, none => if i.this.id > d.hashId then .error .nullPrev else .ok (i, [⟨nx.addr, raw⟩])
  | some nx, some pv => if id_is_between d.hashId i.this pv then
      .ok ({ i with prev := some (pv.assign d) }, [⟨d.node, (notify_request stack i.this).wire⟩])
    else .ok (i, [⟨nx.addr, raw⟩])

def Peer.on_notify (i : PeerInfo) (d : PeerProtocol) : Outcome :=
  match i.next with
  | none => .error .nullNext
  | some nx => .ok ({ i with next := some (nx.assign d) }, [])

def Peer.on_stabilize (stack : PeerProtocol) (i : PeerInfo) (d : PeerProtocol) : Outcome :=
  match i.prev with
  | none => .ok ({ i with prev := some (Peer.zero.assign d) }, [])
  | some pv =>
    if d.nodeId = pv.id ∧ i.this.is_base = 0 then
      match i.next with
      | none => .error .nullNext
      | some nx => .ok (i, [⟨nx.addr, (stabilize_request stack i.this).wire⟩])
    else .ok (i, [⟨d.node, (notify_request stack pv).wire⟩])

def Peer.on_lookup (i : PeerInfo) (d : PeerProtocol) (raw : List UInt8) : Outcome :=
  match i.next with
  | none => .error .nullNext
  | some nx => if id_is_between d.hashId nx i.this then
      .ok (i, [⟨nx.addr, (found_lookup d nx).wire⟩])
    else .ok (i, [⟨nx.addr, raw⟩])

/-- The handler on a message between peers.  `d` is the message decoded, `raw`
    its bytes. -/
def Peer.step (stack : PeerProtocol) (i : PeerInfo) (d : PeerProtocol) (raw : List UInt8) : Outcome :=
  if d.finger ≠ 0 then Peer.on_finger stack i d
  else if d.fack ≠ 0 then .ok (i, [])
  else if d.join ≠ 0 then Peer.on_join stack i d raw
  else if d.notify ≠ 0 then Peer.on_notify i d
  else if d.stabilize ≠ 0 then Peer.on_stabilize stack i d
  else if d.reply ≠ 0 then .error .nullRequest
  else if d.lookup ≠ 0 then Peer.on_lookup i d raw
  else .ok (i, [])

/-- The branches for a message between peers. -/
inductive Branch where
  | finger
  | fack
  | join
  | notify
  | stabilize
  | reply
  | lookup
  | falsy
  deriving DecidableEq

/-- The first branch whose flag is set. -/
def dispatch (d : PeerProtocol) : Branch :=
  if d.finger ≠ 0 then .finger
  else if d.fack ≠ 0 then .fack
  else if d.join ≠ 0 then .join
  else if d.notify ≠ 0 then .notify
  else if d.stabilize ≠ 0 then .stabilize
  else if d.reply ≠ 0 then .reply
  else if d.lookup ≠ 0 then .lookup
  else .falsy

/-- The flag of a branch. -/
def Branch.flag (d : PeerProtocol) : Branch → UInt8
  | .finger => d.finger
  | .fack => d.fack
  | .join => d.join
  | .notify => d.notify
  | .stabilize => d.stabilize
  | .reply => d.reply
  | .lookup => d.lookup
  | .falsy => 0

/-- One test of `dispatch`. -/
theorem Branch.flag_of_ite {d : PeerProtocol} {b k rest : Branch}
    (h : (if b.flag d ≠ 0 then b else rest) = k) (hrest : rest = k → k.flag d ≠ 0) :
    k.flag d ≠ 0 := by
  by_cases hb : b.flag d ≠ 0
  · rw [if_pos hb] at h
    subst h
    exact hb
  · rw [if_neg hb] at h
    exact hrest h

/-- A message goes to a branch whose flag is set. -/
theorem dispatch_flag {d : PeerProtocol} {k : Branch} (hd : dispatch d = k) (hk : k ≠ .falsy) :
    k.flag d ≠ 0 := by
  refine Branch.flag_of_ite (b := .finger) hd fun hd => ?_
  refine Branch.flag_of_ite (b := .fack) hd fun hd => ?_
  refine Branch.flag_of_ite (b := .join) hd fun hd => ?_
  refine Branch.flag_of_ite (b := .notify) hd fun hd => ?_
  refine Branch.flag_of_ite (b := .stabilize) hd fun hd => ?_
  refine Branch.flag_of_ite (b := .reply) hd fun hd => ?_
  refine Branch.flag_of_ite (b := .lookup) hd fun hd => ?_
  exact absurd hd.symm hk

/-- What the branches do. -/
def Branch.step (stack : PeerProtocol) (i : PeerInfo) (d : PeerProtocol) (raw : List UInt8) :
    Branch → Outcome
  | .finger => Peer.on_finger stack i d
  | .fack => .ok (i, [])
  | .join => Peer.on_join stack i d raw
  | .notify => Peer.on_notify i d
  | .stabilize => Peer.on_stabilize stack i d
  | .reply => .error .nullRequest
  | .lookup => Peer.on_lookup i d raw
  | .falsy => .ok (i, [])

theorem Peer.step_dispatch (stack : PeerProtocol) (i : PeerInfo) (d : PeerProtocol)
    (raw : List UInt8) : Peer.step stack i d raw = (dispatch d).step stack i d raw := by
  simp only [Peer.step, dispatch, apply_ite (Branch.step stack i d raw)]
  rfl

/-- What a message between peers can do to the neighbour records. -/
inductive InfoStep (i : PeerInfo) (d : PeerProtocol) : PeerInfo → Prop where
  | none : InfoStep i d i
  | both (hn : i.next = Option.none) : InfoStep i d { i with
      next := some (Peer.zero.assign d), prev := some (Peer.zero.assign d) }
  | prev {pv : Peer} (hv : i.prev = some pv) : InfoStep i d { i with prev := some (pv.assign d) }
  | prev_new (hv : i.prev = Option.none) :
      InfoStep i d { i with prev := some (Peer.zero.assign d) }
  | next {nx : Peer} (hn : i.next = some nx) : InfoStep i d { i with next := some (nx.assign d) }

section
variable {stack d : PeerProtocol} {i i' : PeerInfo} {raw : List UInt8} {out : List Packet}

theorem InfoStep.this (h : InfoStep i d i') : i'.this = i.this := by
  cases h <;> rfl

/-- What a message between peers can do, branch by branch: the neighbour records
    afterwards and the packets sent. -/
inductive PeerStep (stack : PeerProtocol) (i : PeerInfo) (d : PeerProtocol) (raw : List UInt8) :
    PeerInfo → List Packet → Prop where
  | ignored (hd : dispatch d ∈ [Branch.finger, .fack, .falsy]) : PeerStep stack i d raw i []
  | fingers {nx : Peer} (hd : dispatch d = .finger) (hn : i.next = some nx)
      (hf : i.this.next_finger.isSome) : PeerStep stack i d raw i
        ((List.range 16).map fun k => ⟨nx.addr, (finger_request stack i.this k).wire⟩)
  | join_first (hd : dispatch d = .join) (hn : i.next = none) :
      PeerStep stack i d raw { i with
        next := some (Peer.zero.assign d), prev := some (Peer.zero.assign d) }
        [⟨d.node, (notify_request stack i.this).wire⟩]
  | join_taken {nx pv : Peer} (hd : dispatch d = .join) (hn : i.next = some nx)
      (hv : i.prev = some pv) (hb : i.owns d.hashId = true) :
      PeerStep stack i d raw { i with prev := some (pv.assign d) }
        [⟨d.node, (notify_request stack i.this).wire⟩]
  | join_passed {nx : Peer} (hd : dispatch d = .join) (hn : i.next = some nx)
      (hb : i.owns d.hashId = false) : PeerStep stack i d raw i [⟨nx.addr, raw⟩]
  | notify {nx : Peer} (hd : dispatch d = .notify) (hn : i.next = some nx) :
      PeerStep stack i d raw { i with next := some (nx.assign d) } []
  | stabilize_first (hd : dispatch d = .stabilize) (hv : i.prev = none) :
      PeerStep stack i d raw { i with prev := some (Peer.zero.assign d) } []
  | stabilize_passed {nx pv : Peer} (hd : dispatch d = .stabilize) (hn : i.next = some nx)
      (hv : i.prev = some pv) (hid : d.nodeId = pv.id ∧ i.this.is_base = 0) :
      PeerStep stack i d raw i [⟨nx.addr, (stabilize_request stack i.this).wire⟩]
  | stabilize_answered {pv : Peer} (hd : dispatch d = .stabilize) (hv : i.prev = some pv)
      (hid : ¬ (d.nodeId = pv.id ∧ i.this.is_base = 0)) :
      PeerStep stack i d raw i [⟨d.node, (notify_request stack pv).wire⟩]
  | lookup_found {nx : Peer} (hd : dispatch d = .lookup) (hn : i.next = some nx)
      (hb : i.next_owns d.hashId = true) :
      PeerStep stack i d raw i [⟨nx.addr, (found_lookup d nx).wire⟩]
  | lookup_passed {nx : Peer} (hd : dispatch d = .lookup) (hn : i.next = some nx)
      (hb : i.next_owns d.hashId = false) : PeerStep stack i d raw i [⟨nx.addr, raw⟩]

theorem PeerStep.of_finger (hd : dispatch d = .finger)
    (h : Peer.on_finger stack i d = .ok (i', out)) : PeerStep stack i d raw i' out := by
  unfold Peer.on_finger at h
  split at h
  · cases h
    exact .ignored (by simp [hd])
  · split at h <;> cases h
    next hn =>
    split
    · next hf => exact .fingers hd hn hf
    · exact .ignored (by simp [hd])

theorem PeerStep.of_join (hd : dispatch d = .join)
    (h : Peer.on_join stack i d raw = .ok (i', out)) : PeerStep stack i d raw i' out := by
  unfold Peer.on_join at h
  split at h
  · next hn =>
    cases h
    exact .join_first hd hn
  · next hn hv =>
    split at h <;> cases h
    exact .join_passed hd hn (by simp [PeerInfo.owns, hv])
  · next pv hn hv =>
    have hown : i.owns d.hashId = id_is_between d.hashId i.this pv := by rw [PeerInfo.owns, hv]
    split at h
    · next hb =>
      cases h
      exact .join_taken hd hn hv (hown.trans hb)
    · next hb =>
      cases h
      exact .join_passed hd hn (hown.trans (Bool.eq_false_iff.2 hb))

theorem PeerStep.of_notify (hd : dispatch d = .notify)
    (h : Peer.on_notify i d = .ok (i', out)) : PeerStep stack i d raw i' out := by
  unfold Peer.on_notify at h
  split at h <;> cases h
  next hn => exact .notify hd hn

theorem PeerStep.of_stabilize (hd : dispatch d = .stabilize)
    (h : Peer.on_stabilize stack i d = .ok (i', out)) : PeerStep stack i d raw i' out := by
  unfold Peer.on_stabilize at h
  split at h
  · next hv =>
    cases h
    exact .stabilize_first hd hv
  · next hv =>
    split at h
    · next hid =>
      split at h <;> cases h
      next hn => exact .stabilize_passed hd hn hv hid
    · next hid =>
      cases h
      exact .stabilize_answered hd hv hid

theorem PeerStep.of_lookup (hd : dispatch d = .lookup)
    (h : Peer.on_lookup i d raw = .ok (i', out)) : PeerStep stack i d raw i' out := by
  unfold Peer.on_lookup at h
  split at h
  · cases h
  · next nx hn =>
    have hown : i.next_owns d.hashId = id_is_between d.hashId nx i.this := by
      rw [PeerInfo.next_owns, hn]
    split at h
    · next hb =>
      cases h
      exact .lookup_found hd hn (hown.trans hb)
    · next hb =>
      cases h
      exact .lookup_passed hd hn (hown.trans (Bool.eq_false_iff.2 hb))

/-- **Messages between peers, case by case.** -/
theorem Peer.step_inv (h : Peer.step stack i d raw = .ok (i', out)) :
    PeerStep stack i d raw i' out := by
  rw [Peer.step_dispatch] at h
  cases hd : dispatch d with rw [hd] at h
  | finger => exact .of_finger hd h
  | join => exact .of_join hd h
  | notify => exact .of_notify hd h
  | stabilize => exact .of_stabilize hd h
  | lookup => exact .of_lookup hd h
  | reply => cases h
  | fack | falsy =>
    cases h
    exact .ignored (by simp [hd])

/-- What it does to the records. -/
theorem Peer.step_cases (h : Peer.step stack i d raw = .ok (i', out)) : InfoStep i d i' := by
  cases Peer.step_inv h with
  | ignored | fingers | join_passed | stabilize_passed | stabilize_answered | lookup_found
  | lookup_passed => exact .none
  | join_first _ hn => exact .both hn
  | join_taken _ _ hv => exact .prev hv
  | notify _ hn => exact .next hn
  | stabilize_first _ hv => exact .prev_new hv

end

section
open PeerProtocol
variable {m : List UInt8} (stack : PeerProtocol) (i : PeerInfo) (raw : List UInt8)

/-! The branch that each kind of message takes. -/

theorem step_of_join (hm : Message JOIN_MESSAGE m) :
    Peer.step stack i (parse m) raw = Peer.on_join stack i (parse m) raw := by
  obtain ⟨-, hfi, hfa, hj, -⟩ := hm.flags
  rw [Peer.step, hfi, hfa, hj]
  rfl

theorem step_of_notify (hm : Message NOTIFY_MESSAGE m) :
    Peer.step stack i (parse m) raw = Peer.on_notify i (parse m) := by
  obtain ⟨-, hfi, hfa, hj, hn, -⟩ := hm.flags
  rw [Peer.step, hfi, hfa, hj, hn]
  rfl

theorem step_of_stabilize (hm : Message STABILIZE_MESSAGE m) :
    Peer.step stack i (parse m) raw = Peer.on_stabilize stack i (parse m) := by
  obtain ⟨-, hfi, hfa, hj, hn, hs, -⟩ := hm.flags
  rw [Peer.step, hfi, hfa, hj, hn, hs]
  rfl

theorem step_of_reply (hm : Message REPLY_MESSAGE m) :
    Peer.step stack i (parse m) raw = .error .nullRequest := by
  obtain ⟨-, hfi, hfa, hj, hn, hs, hr, -⟩ := hm.flags
  rw [Peer.step, hfi, hfa, hj, hn, hs, hr]
  rfl

theorem step_of_lookup (hm : Message LOOKUP_MESSAGE m) :
    Peer.step stack i (parse m) raw = Peer.on_lookup i (parse m) raw := by
  obtain ⟨-, hfi, hfa, hj, hn, hs, hr, hl⟩ := hm.flags
  rw [Peer.step, hfi, hfa, hj, hn, hs, hr, hl]
  rfl

end

/-- The end of a run that did `r` to the neighbour records. -/
def Proc.after (env : Env) (s : Proc) : Outcome → Except Stop (Unit × Proc)
  | .ok (i, out) => .ok ((), (s.withInfo i).sentAll env out)
  | .error f => .error (.fault f)

theorem forM_cons_run (k : ℕ) (ks : List ℕ) (f : ℕ → PeerM Unit) (s : Proc) :
    ((k :: ks).forM f).run s = (f k).run s >>= fun r => (ks.forM f).run r.2 := rfl

section
variable {env : Env}

theorem buildfinger_run (p : Peer) (i : Peer) (s : Proc) :
    (buildfinger env p.ip p.port i).run s = .ok ((), s.sentAll env
      (if i.next_finger.isSome then
        (List.range 16).map fun k => ⟨p.addr, (finger_request env.stack i k).wire⟩ else [])) := by
  unfold buildfinger
  by_cases hf : i.next_finger.isSome
  · simp only [hf, if_true]
    generalize List.range 16 = ks
    induction ks generalizing s with
    | nil => rfl
    | cons k ks ih =>
      rw [forM_cons_run, send_peerProtocol_run, ok_bind, ih]
      rfl
  · simp only [hf]
    generalize List.range 16 = ks
    induction ks generalizing s with
    | nil => rfl
    | cons k ks ih =>
      rw [forM_cons_run]
      simpa using ih s

theorem handle_lookup_run (d : PeerProtocol) (rec : Received) (s : Proc) :
    (handle_lookup env d rec).run s =
      s.after env (Peer.on_lookup s.globals.peer_info d rec.bytes) := by
  unfold handle_lookup Peer.on_lookup
  cases hn : s.globals.peer_info.next with
  | none => simp [id_is_between_ptr, next_run_null hn, Proc.after]
  | some nx =>
    rw [StateT.run_bind, id_is_between_ptr_run d.hashId (next_run hn) (this_run s), ok_bind]
    by_cases hb : id_is_between d.hashId nx s.globals.peer_info.this = true
    · simp only [hb, if_true, StateT.run_bind, next_run hn, ok_bind, send_found_lookup,
        send_peerProtocol_run]
      rfl
    · simp only [hb, ite_run, forward_to_next_run env hn]
      rfl

theorem handle_stabilize_run (d : PeerProtocol) (s : Proc) :
    (handle_stabilize env d).run s =
      s.after env (Peer.on_stabilize env.stack s.globals.peer_info d) := by
  unfold handle_stabilize Peer.on_stabilize
  rw [StateT.run_bind, peer_info_run, ok_bind]
  cases hv : s.globals.peer_info.prev with
  | none => rfl
  | some pv =>
    simp only [StateT.run_bind, this_run, ok_bind, ite_run]
    by_cases hb : d.nodeId = pv.id ∧ s.globals.peer_info.this.is_base = 0
    · simp only [hb, and_self, if_true]
      cases hn : s.globals.peer_info.next with
      | none => simp [next_run_null hn, Proc.after]
      | some nx =>
        simp only [next_run hn, ok_bind, stabilize, send_peerProtocol_run]
        rfl
    · simp only [hb, if_false, notify, send_peerProtocol_run]
      rfl

theorem handle_notify_run (env : Env) (d : PeerProtocol) (s : Proc) :
    (handle_notify d).run s = s.after env (Peer.on_notify s.globals.peer_info d) := by
  unfold handle_notify Peer.on_notify
  cases hn : s.globals.peer_info.next with
  | none => simp [next_run_null hn, Proc.after]
  | some nx =>
    rw [StateT.run_bind, next_run hn]
    rfl

theorem handle_join_run (d : PeerProtocol) (rec : Received) (s : Proc) :
    (handle_join env d rec).run s =
      s.after env (Peer.on_join env.stack s.globals.peer_info d rec.bytes) := by
  unfold handle_join Peer.on_join
  rw [StateT.run_bind, peer_info_run, ok_bind]
  cases hn : s.globals.peer_info.next with
  | none =>
    simp only [Option.isNone_none, if_true, StateT.run_bind]
    rw [show (modifyInfo _).run s = .ok ((), s.withInfo { s.globals.peer_info with
      next := some (Peer.zero.assign d), prev := some (Peer.zero.assign d) }) from rfl]
    simp only [ok_bind, this_run, notify, send_peerProtocol_run]
    rfl
  | some nx =>
    simp only [Option.isNone_some, Bool.false_eq_true, if_false, StateT.run_bind]
    cases hv : s.globals.peer_info.prev with
    | none =>
      by_cases hb : s.globals.peer_info.this.id > d.hashId
      · simp [id_is_between_ptr_run_null (this_run s) hb (prev_run_null hv), hb, Proc.after]
      · rw [id_is_between_ptr_run_left (this_run s) hb]
        simp only [ok_bind, Bool.false_eq_true, if_false, forward_to_next_run env hn, hb]
        rfl
    | some pv =>
      rw [id_is_between_ptr_run d.hashId (this_run s) (prev_run hv), ok_bind]
      by_cases hb : id_is_between d.hashId s.globals.peer_info.this pv = true
      · simp only [hb, if_true, StateT.run_bind, prev_run hv, ok_bind]
        rw [show (modifyInfo _).run s = .ok ((), s.withInfo { s.globals.peer_info with
          prev := some (pv.assign d) }) from rfl]
        simp only [ok_bind, this_run, notify, send_peerProtocol_run, hn]
        rfl
      · simp only [hb, Bool.false_eq_true, if_false, forward_to_next_run env hn]
        rfl

theorem handle_finger_run (d : PeerProtocol) (s : Proc) :
    (handle_finger env d).run s =
      s.after env (Peer.on_finger env.stack s.globals.peer_info d) := by
  unfold handle_finger Peer.on_finger
  by_cases hl : d.lookup = 0
  · cases hn : s.globals.peer_info.next with
    | none => simp [hl, next_run_null hn, Proc.after]
    | some nx =>
      simp only [hl, if_true, StateT.run_bind, next_run hn, ok_bind, this_run, buildfinger_run]
      rfl
  · simp [hl, Proc.after, Proc.sentAll]

/-- `queue_pop` left its variable at `NULL`. -/
theorem handle_reply_run (hash : List UInt8 → UInt32) (d : PeerProtocol) (s : Proc) :
    (handle_reply hash env d).run s = .error (.fault .nullRequest) := by
  unfold handle_reply
  rw [StateT.run_bind]
  rfl

/-- **The handler on a message between peers** does `Peer.step`. -/
theorem receive_handler_peer (hash : List UInt8 → UInt32) {rec : Received}
    (hp : isPeerProtocol rec.data = true) (sock : Socket) (s : Proc) :
    (receive_handler hash env rec sock).run s = s.after env (Peer.step env.stack
      s.globals.peer_info (decode_peerProtocol rec.data) rec.bytes) := by
  simp only [receive_handler, hp, if_true, Peer.step, ite_run, handle_finger_run,
    handle_join_run, handle_notify_run env, handle_stabilize_run, handle_lookup_run,
    handle_reply_run, apply_ite (s.after env)]
  rfl

end

/-! ## Client requests -/

/-- `respond_set_delete` on the table: the new table and what is sent. -/
def respond_updates (t : HashTable) (d : ClientProtocol) :
    Except Fault (HashTable × List (List UInt8)) :=
  let t' := if d.set ≠ 0 then t.set d.key d.value d.value_length else t
  let out := if d.set ≠ 0 then [acknowledge SET_BIT] else []
  if d.delete ≠ 0 then
    match t'.delete_element d.key with
    | none => .error .nullElement
    | some t'' => .ok (t'', out ++ [acknowledge DELETE_BIT])
  else .ok (t', out)

/-- A request with the value its key has in the table, as `GET` answers it. -/
def found_element (d : ClientProtocol) (element : HashElement) : ClientProtocol :=
  { d with value := element.value, value_length := element.value_length, act := ACK_BIT }

/-- `respond_as_responsible_peer` on the table: the new table and what is sent. -/
def respond (t : HashTable) (d : ClientProtocol) :
    Except Fault (HashTable × List (List UInt8)) :=
  if d.get ≠ 0 then
    match t.get d.key with
    | none => .ok (t, [acknowledge GET_BIT])
    | some element =>
      let d' := found_element d element
      match respond_updates t d' with
      | .error f => .error f
      | .ok (t', out) =>
        .ok (t', (encode_clientProtocol d').bytes 0 (clientProtocolCalculateSize d') :: out)
  else respond_updates t d

/-- The answers `out` sent on a socket. -/
def Proc.answered (s : Proc) (sock : Socket) (out : List (List UInt8)) : Proc :=
  s.emitted (out.map (.send sock))

/-- The end of a run that did `r` to the table. -/
def Proc.stored (s : Proc) (sock : Socket) :
    Except Fault (HashTable × List (List UInt8)) → Except Stop (Unit × Proc)
  | .ok (t, out) => .ok ((), (s.withTable t).answered sock out)
  | .error f => .error (.fault f)

/-- Answers to a client are no packets. -/
theorem packets_answered {sock : Socket} (hs : sock.peer = none) (s : Proc)
    (out : List (List UInt8)) :
    packets (s.answered sock out).kernel.trace = packets s.kernel.trace := by
  obtain ⟨fd, _⟩ := sock
  obtain rfl := hs
  simp [Proc.answered, Proc.emitted, packets, List.filterMap_append]

/-- A request that is sent on, and its answer relayed on the socket. -/
theorem packets_forwarded {env : Env} {sock : Socket} (hs : sock.peer = none) (s : Proc) (p : Packet)
    (heap : Heap) (data : List UInt8) :
    packets (((s.sent env p).withHeap heap).emitted [.send sock data]).kernel.trace =
      packets s.kernel.trace ++ [p].filter fun p => env.accepts p.dest := by
  have h := packets_answered hs ((s.sent env p).withHeap heap) [data]
  rw [Proc.answered, List.map_singleton] at h
  rw [h, Proc.withHeap, Proc.packets_sent]

@[simp] theorem hash_table_head_run (s : Proc) :
    hash_table_head.run s = .ok (s.globals.hash_table_head, s) := rfl

@[simp] theorem setTable_run (t : HashTable) (s : Proc) :
    (setTable t).run s = .ok ((), s.withTable t) := rfl

theorem respond_set_delete_run {sock : Socket} (hs : sock.fd ≠ -1) (d : ClientProtocol) (s : Proc) :
    (respond_set_delete d sock).run s =
      s.stored sock (respond_updates s.globals.hash_table_head d) := by
  unfold respond_set_delete respond_updates
  by_cases h1 : d.set = 0 <;> by_cases h2 : d.delete = 0
  · simp [h1, h2, Proc.stored, Proc.answered, Proc.emitted]
  · cases hd : s.globals.hash_table_head.delete_element d.key with
    | none => simp [h1, h2, hd, Proc.stored]
    | some t => simp [h1, h2, hd, send_run hs, Proc.stored, Proc.answered, Proc.emitted]
  · simp [h1, h2, send_run hs, Proc.stored, Proc.answered, Proc.emitted, Proc.withTable]
  · cases hd : (s.globals.hash_table_head.set d.key d.value d.value_length).delete_element
        d.key with
    | none => simp [h1, h2, hd, send_run hs, Proc.stored, Proc.withTable, Proc.emitted]
    | some t =>
      simp [h1, h2, hd, send_run hs, Proc.stored, Proc.answered, Proc.withTable, Proc.emitted]

/-- `respond_as_responsible_peer` does `respond`. -/
theorem respond_as_responsible_peer_run {sock : Socket} (hs : sock.fd ≠ -1) (d : ClientProtocol)
    (s : Proc) : (respond_as_responsible_peer d sock).run s =
      s.stored sock (respond s.globals.hash_table_head d) := by
  unfold respond_as_responsible_peer respond
  by_cases hg : d.get = 0
  · simpa [hg] using respond_set_delete_run hs d s
  · cases he : s.globals.hash_table_head.get d.key with
    | none => simp [hg, he, send_run hs, Proc.stored, Proc.answered, Proc.emitted]
    | some element =>
      simp only [ne_eq, hg, not_false_eq_true, if_true, StateT.run_bind, hash_table_head_run,
        ok_bind, he, send_run hs]
      change (respond_set_delete (found_element d element) sock).run _ = _
      rw [respond_set_delete_run hs, Proc.emitted_globals]
      cases respond_updates s.globals.hash_table_head (found_element d element) with
      | error f => rfl
      | ok r =>
        simp [Proc.stored, Proc.answered, Proc.emitted, Proc.withTable, found_element]

/-! ## Relaying -/

theorem bind_eq_ok {α β : Type} {x : Except Stop α} {f : α → Except Stop β} {b : β} :
    (x >>= f) = .ok b ↔ ∃ a, x = .ok a ∧ f a = .ok b := by
  cases x with
  | error e => simp
  | ok a => simp

theorem onHeap_run {α : Type} (f : Heap → Except Stop (α × Heap)) (s : Proc) :
    (onHeap f).run s = f s.kernel.heap >>= fun r => .ok (r.1, s.withHeap r.2) := by
  cases hf : f s.kernel.heap <;> simp [onHeap, hf, Proc.withHeap]

/-- Whatever `recv` gives, a relay that comes to its end sent once, to the
    other socket. -/
theorem redirect_ok {env : Env} {sock_from sock_to : Socket} (ht : sock_to.fd ≠ -1) {s s' : Proc}
    {r : Option ℕ} (h : (redirect env sock_from sock_to).run s = .ok (r, s')) :
    ∃ heap data, s' = (s.withHeap heap).emitted [.send sock_to data] := by
  simp only [redirect, StateT.run_bind, onHeap_run, bind_eq_ok] at h
  obtain ⟨_, ⟨_, -, h₁⟩, _, ⟨_, -, h₂⟩, h₃⟩ := h
  cases h₁
  cases h₂
  rw [send_run ht] at h₃
  obtain ⟨_, h₃, h₄⟩ := h₃
  cases h₃
  cases h₄
  exact ⟨_, _, rfl⟩

/-! ## Pending requests -/

@[simp] theorem modifyGlobals_run (f : Globals → Globals) (s : Proc) :
    (modifyGlobals f).run s = .ok ((), { s with globals := f s.globals }) := rfl

@[simp] theorem client_requests_run (s : Proc) :
    client_requests.run s = .ok (s.globals.client_requests, s) := rfl

@[simp] theorem sockets_run (s : Proc) : sockets.run s = .ok (s.globals.sockets, s) := rfl

/-- No job is started: the variable that `queue_peek` should fill is still
    `NULL`. -/
theorem next_job_in_queue_run (hash : List UInt8 → UInt32) (env : Env) (s : Proc) :
    (next_job_in_queue hash env).run s =
      if s.globals.client_requests.queue_is_empty then .ok ((), s)
      else .error (.fault .nullRequest) := by
  cases hq : s.globals.client_requests.queue_is_empty with
  | true => simp [next_job_in_queue, hq]
  | false =>
    simp only [next_job_in_queue, StateT.run_bind, client_requests_run, ok_bind, hq]
    rfl

theorem read_image_of_le {env : Env} {k : ℕ} (h : k ≤ env.image.length) :
    env.read_image k = .ok (env.image.take k) := if_pos h

theorem read_image_of_lt {env : Env} {k : ℕ} (h : env.image.length < k) :
    env.read_image k = .error .stack := if_neg (Nat.not_le.2 h)

/-- Appending a request to the queues leaves them as they are, if the stack is
    long enough for the copy. -/
theorem append_request_run (hash : List UInt8 → UInt32) (env : Env) (sock : Socket)
    (data_size : ℕ) (s : Proc) :
    (do
      let q ← liftFault ((← sockets).queue_append sock)
      modifyGlobals fun g => { g with sockets := q }
      let data ← liftFault (env.read_image data_size)
      let q ← liftFault ((← client_requests).queue_append (some data))
      modifyGlobals fun g => { g with client_requests := q }
      if (← client_requests).queue_is_empty then
        next_job_in_queue hash env : PeerM Unit).run s =
      if data_size ≤ env.image.length then .ok ((), s) else .error (.fault .stack) := by
  simp only [StateT.run_bind, sockets_run, client_requests_run, ok_bind, Queue.queue_append,
    Queue.while_zero, liftFault_run, modifyGlobals_run]
  rcases Nat.lt_or_ge env.image.length data_size with hlt | hle
  · rw [read_image_of_lt hlt, if_neg (Nat.not_le.2 hlt)]
    rfl
  · rw [read_image_of_le hle, if_pos hle]
    simp only [liftFault_run, ok_bind, ite_run, next_job_in_queue_run]
    cases s.globals.client_requests.queue_is_empty <;> rfl

/-! ## The branches for a client request -/

/-- The hash by which a client request is placed. -/
def Received.key_hash (hash : List UInt8 → UInt32) (rec : Received) : UInt16 :=
  get_hash_value hash (decode_clientProtocol rec.data).key

theorem key_hash_of {m : List UInt8} (hm : ClientProtocol.WellFormed m) (hash : List UInt8 → UInt32)
    (rest : Mem) :
    (Received.of m rest).key_hash hash = get_hash_value hash (ClientProtocol.parse m).key := by
  rw [Received.key_hash, Received.of, hm.decode]

theorem PeerInfo.owns_prev {i : PeerInfo} {h : UInt16} (ho : i.owns h = true) :
    ∃ pv, i.prev = some pv := by
  cases hv : i.prev with
  | none => simp [PeerInfo.owns, hv] at ho
  | some pv => exact ⟨pv, rfl⟩

theorem owns_run {s : Proc} (h : UInt16) {pv : Peer} (hv : s.globals.peer_info.prev = some pv) :
    (id_is_between_ptr h this prev).run s = .ok (s.globals.peer_info.owns h, s) := by
  rw [id_is_between_ptr_run h (this_run s) (prev_run hv), PeerInfo.owns, hv]

/-- The test gives what `owns` says, or reads through a `prev` that is not set. -/
theorem owns_run_cases {s : Proc} (h : UInt16) :
    (id_is_between_ptr h this prev).run s = .ok (s.globals.peer_info.owns h, s) ∨
      (id_is_between_ptr h this prev).run s = .error (.fault .nullPrev) := by
  cases hv : s.globals.peer_info.prev with
  | some pv => exact .inl (owns_run h hv)
  | none =>
    have ho : s.globals.peer_info.owns h = false := by simp [PeerInfo.owns, hv]
    by_cases hb : s.globals.peer_info.this.id > h
    · exact .inr (id_is_between_ptr_run_null (this_run s) hb (prev_run_null hv))
    · rw [ho]
      exact .inl (id_is_between_ptr_run_left (this_run s) hb)

section
variable (hash : List UInt8 → UInt32) {env : Env} {rec : Received} {s : Proc}
  (hp : isPeerProtocol rec.data = false)
include hp

theorem receive_handler_client (sock : Socket) :
    receive_handler hash env rec sock = handle_client hash env rec sock := by
  simp [receive_handler, hp]

/-- The request of a key of this peer is answered from its table. -/
theorem receive_handler_own {sock : Socket} (hs : sock.fd ≠ -1)
    (ho : s.globals.peer_info.owns (rec.key_hash hash) = true) :
    (receive_handler hash env rec sock).run s = s.stored sock
      (respond s.globals.hash_table_head (decode_clientProtocol rec.data)) := by
  obtain ⟨pv, hv⟩ := PeerInfo.owns_prev ho
  have hb := owns_run (rec.key_hash hash) hv
  rw [ho] at hb
  rw [receive_handler_client hash hp, handle_client, StateT.run_bind]
  exact (congrArg (· >>= _) hb).trans (respond_as_responsible_peer_run hs _ s)

/-- Any other request goes to the next peer if its key belongs there, and
    otherwise nowhere: the two queues stay as they are.  The bytes that are
    copied for them are those of the stack, as many as the request has. -/
theorem receive_handler_other (sock : Socket)
    (hb : (id_is_between_ptr (rec.key_hash hash) this prev).run s = .ok (false, s)) :
    (receive_handler hash env rec sock).run s = (match s.globals.peer_info.next with
      | none => .error (.fault .nullNext)
      | some nx =>
        if id_is_between (rec.key_hash hash) nx s.globals.peer_info.this then
          (redirect env (s.connection env nx.addr) sock).run
            (s.sent env ⟨nx.addr, rec.bytes⟩) >>= fun r => .ok ((), r.2)
        else if clientProtocolCalculateSize (decode_clientProtocol rec.data) ≤ env.image.length then
          .ok ((), s)
        else .error (.fault .stack)) := by
  rw [Received.key_hash] at hb ⊢
  rw [receive_handler_client hash hp, handle_client, StateT.run_bind, hb, ok_bind]
  simp only [Bool.false_eq_true, if_false]
  cases hn : s.globals.peer_info.next with
  | none => simp [id_is_between_ptr, next_run_null hn]
  | some nx =>
    rw [StateT.run_bind, id_is_between_ptr_run _ (next_run hn) (this_run s), ok_bind]
    simp only [ite_run]
    congr 1
    · have hsend : (do
          let p ← next
          let next_peer ← setup_as_client env p.addr
          send next_peer rec.bytes
          let _ ← redirect env next_peer sock) = (do
          let p ← next
          let next_peer ← direct_send env p.addr rec.bytes
          let _ ← redirect env next_peer sock) := by simp [direct_send]
      rw [hsend, StateT.run_bind, next_run hn, ok_bind, StateT.run_bind, direct_send_run, ok_bind]
      rfl
    · exact append_request_run hash env sock _ s

/-- What the handler can do on a client request, when it comes to its end. -/
inductive ClientStep (env : Env) (s : Proc) (d : ClientProtocol) (bytes : List UInt8) (h : UInt16)
    (sock : Socket) : Proc → Prop where
  | own {t : HashTable} {out : List (List UInt8)} (ho : s.globals.peer_info.owns h = true)
      (hr : respond s.globals.hash_table_head d = .ok (t, out)) :
      ClientStep env s d bytes h sock ((s.withTable t).answered sock out)
  | forward {nx : Peer} {heap : Heap} {data : List UInt8}
      (ho : s.globals.peer_info.owns h = false) (hn : s.globals.peer_info.next = some nx)
      (hb : s.globals.peer_info.next_owns h = true) :
      ClientStep env s d bytes h sock
        (((s.sent env ⟨nx.addr, bytes⟩).withHeap heap).emitted [.send sock data])
  | drop (ho : s.globals.peer_info.owns h = false) (hb : s.globals.peer_info.next_owns h = false) :
      ClientStep env s d bytes h sock s

omit hp in
/-- A request changes at most the table, and that only if its key is this peer's. -/
theorem ClientStep.globals {s' : Proc} {d : ClientProtocol} {bytes : List UInt8} {h : UInt16}
    {sock : Socket} (hc : ClientStep env s d bytes h sock s') :
    (∃ t out, s.globals.peer_info.owns h = true ∧
      respond s.globals.hash_table_head d = .ok (t, out) ∧
      s'.globals = { s.globals with hash_table_head := t }) ∨ s'.globals = s.globals := by
  cases hc with
  | own ho hr => exact .inl ⟨_, _, ho, hr, rfl⟩
  | forward => exact .inr (by simp [Proc.withHeap])
  | drop => exact .inr rfl

/-- **Client requests, case by case.** -/
theorem client_cases {sock : Socket} (hs : sock.fd ≠ -1) {s' : Proc}
    (hr : (receive_handler hash env rec sock).run s = .ok ((), s')) :
    ClientStep env s (decode_clientProtocol rec.data) rec.bytes (rec.key_hash hash) sock s' := by
  cases ho : s.globals.peer_info.owns (rec.key_hash hash) with
  | true =>
    rw [receive_handler_own hash hp hs ho] at hr
    cases hresp : respond s.globals.hash_table_head (decode_clientProtocol rec.data) with
    | error f => simp [hresp, Proc.stored] at hr
    | ok r =>
      obtain rfl : (s.withTable r.1).answered sock r.2 = s' := by
        simpa [hresp, Proc.stored] using hr
      exact .own ho hresp
  | false =>
    have hb : (id_is_between_ptr (rec.key_hash hash) this prev).run s = .ok (false, s) := by
      rcases owns_run_cases (s := s) (rec.key_hash hash) with hb | hb
      · rw [hb, ho]
      · rw [receive_handler_client hash hp, handle_client, StateT.run_bind] at hr
        exact absurd ((congrArg (· >>= _) hb).symm.trans hr) (by simp)
    rw [receive_handler_other hash hp sock hb] at hr
    cases hn : s.globals.peer_info.next with
    | none => simp [hn] at hr
    | some nx =>
      have hnext : s.globals.peer_info.next_owns (rec.key_hash hash) =
          id_is_between (rec.key_hash hash) nx s.globals.peer_info.this := by
        rw [PeerInfo.next_owns, hn]
      simp only [hn, ← hnext] at hr
      cases hno : s.globals.peer_info.next_owns (rec.key_hash hash) with
      | true =>
        rw [hno, if_pos rfl, bind_eq_ok] at hr
        obtain ⟨r, hred, hr⟩ := hr
        obtain ⟨heap, data, hr'⟩ := redirect_ok hs hred
        obtain rfl : r.2 = s' := by simpa using hr
        rw [hr']
        exact .forward ho hn hno
      | false =>
        rw [hno, if_neg Bool.false_ne_true] at hr
        split at hr
        · cases hr
          exact .drop ho hno
        · cases hr

end

/-! ## Messages by their bytes -/

@[simp] theorem Received.of_bytes (m : List UInt8) (rest : Mem) : (Received.of m rest).bytes = m :=
  Mem.bytes_ofList_all m rest

/-- The handler on a message of 11 bytes does not look behind it. -/
theorem receive_handler_message (hash : List UInt8 → UInt32) {m : List UInt8}
    (hlen : m.length = peerProtocolCalculateSize)
    (hp : (PeerProtocol.parse m).control ≠ 0) (env : Env) (rest : Mem) (sock : Socket) (s : Proc) :
    (receive_handler hash env (.of m rest) sock).run s = s.after env
      (Peer.step env.stack s.globals.peer_info (PeerProtocol.parse m) m) := by
  have hd := PeerProtocol.decode_eq_parse hlen rest
  have hc : (decode_peerProtocol (Mem.ofList m rest)).control ≠ 0 := by rw [hd]; exact hp
  have hpp : isPeerProtocol (Received.of m rest).data = true := by
    simpa [Received.of, isPeerProtocol, decode_peerProtocol] using hc
  rw [receive_handler_peer hash hpp, Received.of_bytes]
  simp only [Received.of, hd]

/-- A request for a key of neither this peer nor the next one is dropped, if the
    stack is long enough for the copy of it. -/
theorem receive_handler_unserved (hash : List UInt8 → UInt32) {m : List UInt8}
    (hm : ClientProtocol.WellFormed m) (hc : isPeerProtocol (Mem.ofList m fun _ => 0) = false)
    {s : Proc} {nx pv : Peer} (hnx : s.globals.peer_info.next = some nx)
    (hpv : s.globals.peer_info.prev = some pv)
    (ho : s.globals.peer_info.owns (get_hash_value hash (ClientProtocol.parse m).key) = false)
    (hn : s.globals.peer_info.next_owns (get_hash_value hash (ClientProtocol.parse m).key) = false)
    (env : Env) (rest : Mem) (sock : Socket) :
    (receive_handler hash env (.of m rest) sock).run s =
      if m.length ≤ env.image.length then .ok ((), s) else .error (.fault .stack) := by
  have hb := owns_run ((Received.of m rest).key_hash hash) hpv
  rw [key_hash_of hm, ho, ← key_hash_of hm hash rest] at hb
  have h : (receive_handler hash env (.of m rest) sock).run s = _ :=
    receive_handler_other hash (hm.isPeerProtocol hc rest) sock hb
  have hd : clientProtocolCalculateSize (decode_clientProtocol (Received.of m rest).data) =
      m.length := by
    rw [Received.of, hm.decode]
    exact hm.symm
  rw [PeerInfo.next_owns, hnx] at hn
  rw [key_hash_of hm, hnx, hd] at h
  rw [h]
  exact if_neg (Bool.eq_false_iff.1 hn)

/-! ## Arrivals -/

/-- A message that comes in, and what its handler meets. -/
structure Arrival where
  message : List UInt8
  rest : Mem
  sock : Socket
  env : Env

/-- The memory behind `rec->data`. -/
def Arrival.msg (a : Arrival) : Mem := Mem.ofList a.message a.rest

/-- The handler called with an arrival. -/
def Arrival.handle (hash : List UInt8 → UInt32) (a : Arrival) : PeerM Unit :=
  receive_handler hash a.env (.of a.message a.rest) a.sock

/-- What the handler can do on any message, when it comes to its end. -/
inductive ArrivalStep (hash : List UInt8 → UInt32) (s : Proc) (a : Arrival) : Proc → Prop where
  | peer {i : PeerInfo} {out : List Packet} (hc : isPeerProtocol a.msg = true)
      (h : Peer.step a.env.stack s.globals.peer_info (decode_peerProtocol a.msg) a.message =
        .ok (i, out)) :
      ArrivalStep hash s a ((s.withInfo i).sentAll a.env out)
  | client {s' : Proc} (hc : isPeerProtocol a.msg = false)
      (h : ClientStep a.env s (decode_clientProtocol a.msg) a.message
        (get_hash_value hash (decode_clientProtocol a.msg).key) a.sock s') :
      ArrivalStep hash s a s'

/-- **Any message, case by case.** -/
theorem arrival_cases {hash : List UInt8 → UInt32} {a : Arrival} {s s' : Proc}
    (hs : a.sock.fd ≠ -1) (hr : (a.handle hash).run s = .ok ((), s')) : ArrivalStep hash s a s' := by
  rw [Arrival.handle] at hr
  cases hc : isPeerProtocol a.msg with
  | true =>
    have hpp : isPeerProtocol (Received.of a.message a.rest).data = true := hc
    rw [receive_handler_peer hash hpp, Received.of_bytes] at hr
    rw [show (Received.of a.message a.rest).data = a.msg from rfl] at hr
    cases hstep : Peer.step a.env.stack s.globals.peer_info (decode_peerProtocol a.msg) a.message with
    | error f => simp [hstep, Proc.after] at hr
    | ok r =>
      obtain rfl : (s.withInfo r.1).sentAll a.env r.2 = s' := by
        simpa [hstep, Proc.after] using hr
      exact .peer hc hstep
  | false =>
    have hcl : isPeerProtocol (Received.of a.message a.rest).data = false := hc
    have h := client_cases hash hcl hs hr
    rw [Received.of_bytes] at h
    exact .client hc h

/-- A request of this peer's is answered from its table. -/
theorem Arrival.handle_own {hash : List UInt8 → UInt32} {a : Arrival} {s : Proc}
    (hs : a.sock.fd ≠ -1) (hc : isPeerProtocol a.msg = false)
    (ho : s.globals.peer_info.owns (get_hash_value hash (decode_clientProtocol a.msg).key) = true) :
    (a.handle hash).run s =
      s.stored a.sock (respond s.globals.hash_table_head (decode_clientProtocol a.msg)) := by
  have hcl : isPeerProtocol (Received.of a.message a.rest).data = false := hc
  exact receive_handler_own hash hcl hs ho

/-- A well-formed client message. -/
structure Arrival.Request (a : Arrival) : Prop where
  wellFormed : ClientProtocol.WellFormed a.message
  client : isPeerProtocol (Mem.ofList a.message fun _ => 0) = false

/-! ## Well-formed messages -/

/-- What the handler can do on a message, when it comes to its end. -/
inductive HandlerStep (hash : List UInt8 → UInt32) (env : Env) (s : Proc) (m : List UInt8)
    (sock : Socket) : Proc → Prop where
  | peer {i : PeerInfo} {out : List Packet} (hc : (PeerProtocol.parse m).control ≠ 0)
      (h : Peer.step env.stack s.globals.peer_info (PeerProtocol.parse m) m = .ok (i, out)) :
      HandlerStep hash env s m sock ((s.withInfo i).sentAll env out)
  | client {s' : Proc} (hc : isPeerProtocol (Mem.ofList m fun _ => 0) = false)
      (h : ClientStep env s (ClientProtocol.parse m) m
        (get_hash_value hash (ClientProtocol.parse m).key) sock s') :
      HandlerStep hash env s m sock s'

/-- **The handler, case by case.** -/
theorem handler_cases {hash : List UInt8 → UInt32} {env : Env} {m : List UInt8} {rest : Mem}
    {sock : Socket} {s s' : Proc} (hm : WellFormedMessage m) (hs : sock.fd ≠ -1)
    (hr : (receive_handler hash env (.of m rest) sock).run s = .ok ((), s')) :
    HandlerStep hash env s m sock s' := by
  have h : ArrivalStep hash s ⟨m, rest, sock, env⟩ s' := arrival_cases hs hr
  cases hm with
  | peer hl hc =>
    have hd := PeerProtocol.decode_eq_parse hl rest
    cases h with
    | peer _ hstep =>
      dsimp only [Arrival.msg] at hstep
      rw [hd] at hstep
      exact .peer hc hstep
    | client hc' =>
      rw [← PeerProtocol.decode_eq_parse hl rest] at hc
      exact absurd hc (by simpa [Arrival.msg, isPeerProtocol, decode_peerProtocol] using hc')
  | client hm hc =>
    cases h with
    | peer hc' => exact absurd ((hm.isPeerProtocol hc rest).symm.trans hc') (by simp)
    | client _ h =>
      dsimp only [Arrival.msg] at h
      rw [hm.decode] at h
      exact .client hc h

end ChordPeer
