/-
  The builders of messages between peers (`generic/network.c`,
  `generic/data_helper.c`) and the branch that a receiver takes for what they
  build.

  A builder sets some fields of a local `PeerProtocol` and encodes all of
  them, so the others carry what the stack held.

  * `receive_handler_dispatch`: the receiver runs the branch that `dispatch`
    picks;
  * `Builder.stray`: the flags that a builder does not set;
  * `meansOnly_iff`: when two contents of the stack make no difference.
-/
import ChordPeer.Codec
import ChordPeer.Ring

namespace ChordPeer

open CBytes

/-! ## The branches of the handler -/

/-- What a branch does. -/
def Branch.handle (hash : List UInt8 → UInt32) (env : Env) (d : PeerProtocol) (rec : Received) :
    Branch → PeerM Unit
  | .finger => handle_finger env d
  | .fack => pure ()
  | .join => handle_join env d rec
  | .notify => handle_notify d
  | .stabilize => handle_stabilize env d
  | .reply => handle_reply hash env d
  | .lookup => handle_lookup env d rec
  | .falsy => pure ()

/-- The handler runs the branch that `dispatch` picks. -/
theorem receive_handler_dispatch {hash : List UInt8 → UInt32} {env : Env} {rec : Received}
    (h : isPeerProtocol rec.data = true) (sock_fd : Socket) :
    receive_handler hash env rec sock_fd =
      (dispatch (decode_peerProtocol rec.data)).handle hash env (decode_peerProtocol rec.data) rec := by
  simp only [receive_handler, h, if_true, dispatch,
    apply_ite (Branch.handle hash env (decode_peerProtocol rec.data) rec)]
  rfl

/-! ## Dispatch by the header byte -/

/-- The flags that `receive_handler` looks at before it takes a branch. -/
def Branch.above : Branch → UInt8
  | .finger => 0
  | .fack => FINGER_BIT
  | .join => FINGER_BIT ||| FACK_BIT
  | .notify => FINGER_BIT ||| FACK_BIT ||| JOIN_BIT
  | .stabilize => FINGER_BIT ||| FACK_BIT ||| JOIN_BIT ||| NOTIFY_BIT
  | .reply => FINGER_BIT ||| FACK_BIT ||| JOIN_BIT ||| NOTIFY_BIT ||| STABILIZE_BIT
  | .lookup => FINGER_BIT ||| FACK_BIT ||| JOIN_BIT ||| NOTIFY_BIT ||| STABILIZE_BIT ||| REPLY_BIT
  | .falsy => FINGER_BIT ||| FACK_BIT ||| JOIN_BIT ||| NOTIFY_BIT ||| STABILIZE_BIT ||| REPLY_BIT |||
      LOOKUP_BIT

/-- The branch for a header byte. -/
def dispatch_flags (b : UInt8) : Branch :=
  if b &&& FINGER_BIT ≠ 0 then .finger
  else if b &&& FACK_BIT ≠ 0 then .fack
  else if b &&& JOIN_BIT ≠ 0 then .join
  else if b &&& NOTIFY_BIT ≠ 0 then .notify
  else if b &&& STABILIZE_BIT ≠ 0 then .stabilize
  else if b &&& REPLY_BIT ≠ 0 then .reply
  else if b &&& LOOKUP_BIT ≠ 0 then .lookup
  else .falsy

theorem dispatch_encoded (d : PeerProtocol) :
    dispatch (PeerProtocol.parse d.encoded) = dispatch_flags d.flags := by
  rw [PeerProtocol.encoded_eq_wire]
  obtain ⟨-, hfi, hfa, hj, hn, hs, hr, hl⟩ := (PeerProtocol.wire_message (d := d) rfl).flags
  rw [dispatch, hfi, hfa, hj, hn, hs, hr, hl, dispatch_flags]

/-! ## What the builders set -/

/-- The builders with their arguments; a message of `make_peerProtocol` is a
    reply or a lookup. -/
inductive Builder where
  | join
  | notify
  | stabilize
  /-- the `i`-th message -/
  | buildfinger (i : ℕ)
  | make_peerProtocol (reply lookup : Bool) (kind : reply = true ∨ lookup = true) (hashID : UInt16)

namespace Builder

/-- The record that is encoded, with `stack` in the memory of the local. -/
def request (stack : PeerProtocol) (p : Peer) : Builder → PeerProtocol
  | .join => join_request stack p
  | .notify => notify_request stack p
  | .stabilize => stabilize_request stack p
  | .buildfinger i => finger_request stack p i
  | .make_peerProtocol reply lookup _ hashID =>
    ChordPeer.make_peerProtocol stack reply lookup hashID p

/-- The branch a message is meant for. -/
def branch : Builder → Branch
  | .join => .join
  | .notify => .notify
  | .stabilize => .stabilize
  | .buildfinger _ => .lookup
  | .make_peerProtocol reply _ _ _ => if reply then .reply else .lookup

/-- The flags that a builder sets. -/
def header : Builder → UInt8
  | .join => JOIN_MESSAGE
  | .notify => NOTIFY_MESSAGE
  | .stabilize => STABILIZE_MESSAGE
  | .buildfinger _ => LOOKUP_MESSAGE
  | .make_peerProtocol reply lookup _ _ =>
    CONTROL_BIT ||| (if reply then REPLY_BIT else 0) ||| (if lookup then LOOKUP_BIT else 0)

/-- The flag bytes that it leaves as the stack held them. -/
def stray (stack : PeerProtocol) : Builder → UInt8
  | .join => stack.finger ||| stack.fack ||| stack.notify ||| stack.stabilize ||| stack.reply |||
      stack.lookup
  | .notify => stack.finger ||| stack.fack ||| stack.join ||| stack.stabilize ||| stack.reply |||
      stack.lookup
  | .stabilize => stack.finger ||| stack.fack ||| stack.join ||| stack.notify ||| stack.reply |||
      stack.lookup
  | .buildfinger _ => stack.fack ||| stack.join ||| stack.notify ||| stack.stabilize ||| stack.reply
  | .make_peerProtocol _ _ _ _ => stack.finger ||| stack.fack ||| stack.join ||| stack.notify |||
      stack.stabilize

/-- The `hashId` that it sets; all but `make_peerProtocol` leave the field as
    the stack held it. -/
def hashId : Builder → Option UInt16
  | .make_peerProtocol _ _ _ hashID => some hashID
  | _ => none

theorem request_flags (b : Builder) (stack : PeerProtocol) (p : Peer) :
    (b.request stack p).flags = b.header ||| b.stray stack := by
  cases b <;>
    simp only [request, header, stray, PeerProtocol.flags, join_request, notify_request,
      stabilize_request, finger_request, ChordPeer.make_peerProtocol, JOIN_MESSAGE, NOTIFY_MESSAGE,
      STABILIZE_MESSAGE, LOOKUP_MESSAGE, UInt8.or_zero] <;>
    ac_rfl

theorem request_hashId (b : Builder) (stack : PeerProtocol) (p : Peer) :
    (b.request stack p).hashId = b.hashId.getD stack.hashId := by
  cases b <;> rfl

private theorem dispatch_or (x : UInt8) :
    (dispatch_flags (JOIN_MESSAGE ||| x) = .join ↔ x &&& Branch.join.above = 0) ∧
    (dispatch_flags (NOTIFY_MESSAGE ||| x) = .notify ↔ x &&& Branch.notify.above = 0) ∧
    (dispatch_flags (STABILIZE_MESSAGE ||| x) = .stabilize ↔ x &&& Branch.stabilize.above = 0) ∧
    (dispatch_flags (LOOKUP_MESSAGE ||| x) = .lookup ↔ x &&& Branch.lookup.above = 0) ∧
    (dispatch_flags (REPLY_MESSAGE ||| x) = .reply ↔ x &&& Branch.reply.above = 0) ∧
    (dispatch_flags (REPLY_MESSAGE ||| LOOKUP_BIT ||| x) = .reply ↔ x &&& Branch.reply.above = 0) := by
  revert x
  rintro ⟨⟨x⟩⟩
  revert x
  decide +kernel

/-- A message takes its own branch unless the stack left a flag in front of it. -/
theorem dispatch_header (b : Builder) (x : UInt8) :
    dispatch_flags (b.header ||| x) = b.branch ↔ x &&& b.branch.above = 0 := by
  obtain ⟨hjoin, hnotify, hstabilize, hlookup, hreply, hboth⟩ := dispatch_or x
  cases b with
  | join => exact hjoin
  | notify => exact hnotify
  | stabilize => exact hstabilize
  | buildfinger i => exact hlookup
  | make_peerProtocol reply lookup kind hashID =>
    cases reply with
    | true => cases lookup with
      | true => exact hboth
      | false => exact hreply
    | false => cases lookup with
      | true => exact hlookup
      | false => simp at kind

/-- Two contents of the stack give the same bytes exactly when they give the
    same header byte and the same `hashId`. -/
theorem request_encoded_eq_iff (b : Builder) (p : Peer) (s s' : PeerProtocol) :
    (b.request s p).encoded = (b.request s' p).encoded ↔
      b.header ||| b.stray s = b.header ||| b.stray s' ∧
        (b.hashId = none → s.hashId = s'.hashId) := by
  rw [PeerProtocol.encoded_eq_iff, request_flags, request_flags, request_hashId, request_hashId]
  have hnode : (b.request s p).nodeId = (b.request s' p).nodeId ∧
      (b.request s p).nodeIp = (b.request s' p).nodeIp ∧
      (b.request s p).nodePort = (b.request s' p).nodePort := by
    cases b <;> exact ⟨rfl, rfl, rfl⟩
  refine and_congr_right fun _ => ⟨fun h hb => ?_, fun h => ⟨?_, hnode⟩⟩
  · simpa [hb] using h.1
  · cases hb : b.hashId with
    | none => exact h hb
    | some hashID => rfl

end Builder

/-! ## What a message depends on -/

/-- Over two contents of the stack a builder makes the same bytes, they lead
    to the branch they are meant for, and a join carries the id of the joining
    peer as the `hashId`. -/
structure MeansOnly (b : Builder) (p : Peer) (s s' : PeerProtocol) : Prop where
  bytes : (b.request s p).encoded = (b.request s' p).encoded
  branch : dispatch (PeerProtocol.parse (b.request s p).encoded) = b.branch
  branch' : dispatch (PeerProtocol.parse (b.request s' p).encoded) = b.branch
  place : b = .join → (PeerProtocol.parse (b.request s p).encoded).hashId = p.id

/-- What the stack must hold for that: no flag in front of the own one, and no
    difference in the header byte nor in a `hashId` that is not set; for a join
    the id in the place of `hashId`. -/
structure Clean (b : Builder) (p : Peer) (s s' : PeerProtocol) : Prop where
  above : b.stray s &&& b.branch.above = 0
  flags : b.header ||| b.stray s = b.header ||| b.stray s'
  hashId : b.hashId = none → s.hashId = s'.hashId
  place : b = .join → s.hashId = p.id

/-- A stack that holds the bit of a fack. -/
def fack_stack : PeerProtocol := ⟨0, 0, FACK_BIT, 0, 0, 0, 0, 0, 0, 0, 0, 0⟩

/-- Every builder leaves `fack`, and every branch it means comes after it. -/
theorem Builder.stray_fack_stack (b : Builder) :
    b.stray fack_stack &&& b.branch.above = FACK_BIT := by
  have hstray : b.stray fack_stack = FACK_BIT := by
    cases b <;> simp [stray, fack_stack]
  have habove : ∀ k ∈ [Branch.join, .notify, .stabilize, .reply, .lookup],
      FACK_BIT &&& k.above = FACK_BIT := by
    decide
  rw [hstray]
  refine habove _ ?_
  cases b with
  | make_peerProtocol reply lookup kind hashID => cases reply <;> simp [branch]
  | _ => simp [branch]

/-- **When a message says only what is meant.**  That is so exactly when the
    stack is clean, and no builder clears the stack. -/
theorem meansOnly_iff (b : Builder) (p : Peer) (s s' : PeerProtocol) :
    (MeansOnly b p s s' ↔ Clean b p s s') ∧ ¬ MeansOnly b p fack_stack s' := by
  have hbranch : ∀ s, dispatch (PeerProtocol.parse (b.request s p).encoded) = b.branch ↔
      b.stray s &&& b.branch.above = 0 := by
    intro s
    rw [dispatch_encoded, Builder.request_flags, Builder.dispatch_header]
  have hplace : ∀ p s, (PeerProtocol.parse (Builder.join.request s p).encoded).hashId = s.hashId := by
    intro p s
    rw [PeerProtocol.encoded_eq_wire]
    exact (PeerProtocol.parse_wire_numbers _).1
  refine ⟨⟨?_, ?_⟩, fun h => ?_⟩
  · rintro ⟨hbytes, hown, -, hjoin⟩
    obtain ⟨hflags, hhash⟩ := (b.request_encoded_eq_iff p s s').1 hbytes
    refine ⟨(hbranch s).1 hown, hflags, hhash, ?_⟩
    rintro rfl
    exact (hplace p s).symm.trans (hjoin rfl)
  · rintro ⟨habove, hflags, hhash, hjoin⟩
    have hbytes := (b.request_encoded_eq_iff p s s').2 ⟨hflags, hhash⟩
    refine ⟨hbytes, (hbranch s).2 habove, ?_, ?_⟩
    · rw [← hbytes]
      exact (hbranch s).2 habove
    · rintro rfl
      exact (hplace p s).trans (hjoin rfl)
  · have habove := (hbranch fack_stack).1 h.branch
    rw [b.stray_fack_stack] at habove
    exact absurd habove (by decide)

/-- A join of the peer with id 50 over two stacks: the bytes differ, and neither
    carries the id 50.  A lookup over a stack with the bit of a join is taken
    for a join. -/
theorem not_meansOnly :
    ¬ MeansOnly .join ⟨0x7f000001, 4002, 50, 0, none⟩ .zero { PeerProtocol.zero with hashId := 1 } ∧
      dispatch (PeerProtocol.parse (make_peerProtocol { PeerProtocol.zero with join := JOIN_BIT }
        false true 60 ⟨0x7f000001, 4002, 50, 0, none⟩).encoded) = .join := by
  refine ⟨?_, ?_⟩
  · rintro ⟨hbytes, -⟩
    have hhash := ((Builder.join.request_encoded_eq_iff _ _ _).1 hbytes).2 rfl
    exact absurd hhash (by decide)
  · rw [dispatch_encoded]
    rfl

end ChordPeer
