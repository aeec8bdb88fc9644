/-
  The loop of a peer (`main` of `peer.c`, `get_new_connection` and `receive` of
  `generic/network.c`), and the descriptors it has open.

  `get_new_connection` closes the socket it was called with as soon as there is
  a connection.  That is the listening one, and `main` goes on with it.

  * `receive_whole`: a message that one `recv` brings is handled as an arrival;
  * `main_step` is the loop, a call of `accept` or of `receive` at a time;
    `main_cases`: what such a step can do;
  * `serving_iff`: so a run keeps to the listening socket exactly as long as no
    iteration of the loop is finished, and no second one ever is.
-/
import ChordPeer.Pending
import ChordPeer.Receiving
import ChordPeer.Lib.Slots
import ChordPeer.Lib.Machine

namespace ChordPeer

open CBytes

/-! ## Descriptors -/

/-- What a descriptor stands for. -/
inductive OpenFile where
  | stream
  | listening
  | connection
  deriving DecidableEq, Repr

/-- The files of the process by their descriptors. -/
abbrev Descriptors := List (Option OpenFile)

/-- What a call of `accept` brings on a socket that listens. -/
inductive AcceptResult where
  | connection
  | failed

/-- `accept`; `none` is `-1`. -/
def accept (files : Descriptors) (sock_fd : ℕ) (result : AcceptResult) :
    Option (ℕ × Descriptors) :=
  match Slots.get files sock_fd, result with
  | some .listening, .connection => some (Slots.alloc .connection files)
  | _, _ => none

/-- A turn of the `while` in `get_new_connection`, and what follows the last
    one; `none` is one more turn. -/
def get_new_connection (files : Descriptors) (sock_fd : ℕ) (result : AcceptResult) :
    Option (ℕ × Descriptors) :=
  match accept files sock_fd result with
  | none => none
  | some (new_fd, files) => some (new_fd, Slots.release files sock_fd)

/-- `n` connections more, made by `setup_as_client`. -/
def connected (files : Descriptors) : ℕ → Descriptors
  | 0 => files
  | n + 1 => connected (Slots.alloc .connection files).2 n

/-! ## Receiving a message -/

section
variable (hash : List UInt8 → UInt32) (env : Env)

/-- `receive` with the handler of the peer, which reads `rec->data` from its
    first byte on. -/
def receive (sock_fd : Socket) : PeerM (Option ℕ) := do
  let response ← onHeap (direct_receive (env.recvs sock_fd) true)
  let block ← onHeap fun h => do
    return (← heapFault (h.deref response.data), h)
  receive_handler hash env ⟨Mem.ofList block env.junk, response.data_length⟩ sock_fd
  return response.status_code

variable {hash env}

/-- **A message that one `recv` brings whole** goes to the handler. -/
theorem receive_whole {sock : Socket} {data : List UInt8} {hd : data.length ≤ BUFFER_SIZE}
    {rs : List RecvResult} (hr : env.recvs sock = .received data hd :: rs)
    (hlt : data.length < BUFFER_SIZE) (hne : data ≠ []) (s : Proc) :
    ∃ heap rest, (receive hash env sock).run s =
      ((⟨data, rest, sock, env⟩ : Arrival).handle hash).run (s.withHeap heap) >>=
        fun r => .ok (some STATUS_OK, r.2) := by
  obtain ⟨response, h, hrecv, hstatus, hread⟩ := direct_receive_whole hd hlt rs s.kernel.heap
  obtain ⟨hlen, tail, hderef⟩ := Heap.deref_of_read hread hne
  refine ⟨h, Mem.ofList tail env.junk, ?_⟩
  have hblock : (s.withHeap h).kernel.heap.deref response.data = .ok (data ++ tail) := hderef
  simp only [receive, StateT.run_bind, onHeap_run, hr, hrecv, ok_bind, hblock, heapFault, hstatus,
    ← hlen]
  show (receive_handler hash env ⟨Mem.ofList (data ++ tail) env.junk, data.length⟩ sock).run
    (s.withHeap h) >>= _ = _
  rw [Mem.ofList_append]
  rfl

/-- Whatever is received, no socket comes to wait. -/
theorem receive_sockets {sock : Socket} (hs : sock.fd ≠ -1) {s s' : Proc} {code : Option ℕ}
    (h : (receive hash env sock).run s = .ok (code, s')) :
    s'.globals.sockets = s.globals.sockets := by
  simp only [receive, StateT.run_bind, onHeap_run, bind_eq_ok] at h
  obtain ⟨_, ⟨⟨response, h₁⟩, -, hs₁⟩, _, ⟨⟨block, h₂⟩, -, hs₂⟩, ⟨_, s₃⟩, hrun, hend⟩ := h
  cases hs₁
  cases hs₂
  cases hend
  -- the handler sees the bytes counted in `data_length`, and the memory behind them
  let n := response.data_length
  let msg := Mem.ofList block env.junk
  let a : Arrival := ⟨msg.bytes 0 n, fun i => msg (n + i), sock, env⟩
  have hrec : Received.of a.message a.rest = ⟨msg, n⟩ := by
    simp only [Received.of, a, Mem.ofList_bytes, Mem.bytes_length]
  rw [← hrec] at hrun
  have hstep : ArrivalStep hash _ a s₃ := arrival_cases hs hrun
  exact hstep.queues.2

end

/-! ## The loop -/

/-- Where `main` is in its loop. -/
inductive Point where
  /-- at a call of `accept`, in `get_new_connection` -/
  | accept
  /-- at the call of `receive` on the new connection -/
  | receive (new_sock : ℕ)

structure Server where
  point : Point
  files : Descriptors
  proc : Proc

/-- What a step of the loop meets. -/
inductive Incoming where
  | accept (result : AcceptResult)
  | message (env : Env)

/-- A step of the loop, when it comes to its end.  What `receive` returns is
    only logged. -/
def main_step (hash : List UInt8 → UInt32) (sock_fd : ℕ) (s : Server) (i : Incoming) :
    Option Server :=
  match s.point, i with
  | .accept, .accept result =>
    match get_new_connection s.files sock_fd result with
    | none => some s
    | some (new_sock, files) => some ⟨.receive new_sock, files, s.proc⟩
  | .receive new_sock, .message env =>
    match (receive hash env ⟨new_sock, none⟩).run s.proc with
    | .error _ => none
    | .ok (_, proc) =>
      -- the handler only counts the connections it makes, in `fds`
      some ⟨.accept, connected s.files (proc.kernel.fds - s.proc.kernel.fds), proc⟩
  | _, _ => none

/-- A run of the loop. -/
abbrev Loop (hash : List UInt8 → UInt32) (sock_fd : ℕ) : Server → List Incoming → Server → Prop :=
  Machine.Trace fun s i s' => main_step hash sock_fd s i = some s'

/-- The descriptors that are sockets. -/
def Server.sockets (s : Server) : Set ℕ := {n | ∃ f, Slots.get s.files n = some f ∧ f ≠ .stream}

/-- The sockets in the queue. -/
def waiting (g : Globals) : Set ℕ := {n | ∃ l, g.sockets.Holds l ∧ ∃ sock ∈ l, sock.fd = n}

/-- The listening socket is open before every call of `accept`, and after every
    iteration it is open with the sockets that wait, and no other. -/
structure KeepsServing (hash : List UInt8 → UInt32) (sock_fd : ℕ) (s : Server) (is : List Incoming) :
    Prop where
  before_accept : ∀ js t, js <+: is → Loop hash sock_fd s js t → t.point = .accept →
    Slots.get t.files sock_fd = some .listening
  after_iteration : ∀ js env t, js ++ [.message env] <+: is →
    Loop hash sock_fd s (js ++ [.message env]) t → t.sockets = insert sock_fd (waiting t.proc.globals)

/-- The loop is about to start: `setup_as_server` returned `sock_fd`, and no
    socket waits. -/
structure Started (sock_fd : ℕ) (s : Server) : Prop where
  point : s.point = .accept
  listening : Slots.get s.files sock_fd = some .listening
  queue : s.proc.globals.sockets = .empty

/-- The connection `n` was accepted: the listening socket is closed, and `n`
    open without waiting. -/
structure Accepted (sock_fd n : ℕ) (s : Server) : Prop where
  closed : Slots.get s.files sock_fd ≠ some .listening
  connection : Slots.get s.files n = some .connection
  ne : n ≠ sock_fd
  queue : s.proc.globals.sockets = .empty

section
variable {hash : List UInt8 → UInt32} {sock_fd n : ℕ} {s s' t : Server} {is : List Incoming}
  {files files' : Descriptors}

theorem accept_closed (h : Slots.get files sock_fd ≠ some .listening) (result : AcceptResult) :
    accept files sock_fd result = none := by
  unfold accept
  split
  · next hl => exact absurd hl h
  · rfl

theorem accept_some {result : AcceptResult} (h : accept files sock_fd result = some (n, files')) :
    Slots.get files n = none ∧ ∀ k, Slots.get files' k =
      if k = n then some .connection else Slots.get files k := by
  unfold accept at h
  split at h
  · obtain ⟨rfl, rfl⟩ : (Slots.alloc .connection files).1 = n ∧
        (Slots.alloc .connection files).2 = files' := by
      rw [Option.some.inj h]
      exact ⟨rfl, rfl⟩
    exact ⟨Slots.get_alloc_free _ _, Slots.get_alloc _ _⟩
  · cases h

theorem get_connected {f : OpenFile} {k : ℕ} (h : Slots.get files n = some f) :
    Slots.get (connected files k) n = some f := by
  induction k generalizing files with
  | zero => exact h
  | succ k ih => exact ih (Slots.get_alloc_of_some h)

/-- New connections do not listen. -/
theorem get_connected_ne {k : ℕ} (h : Slots.get files n ≠ some .listening) :
    Slots.get (connected files k) n ≠ some .listening := by
  induction k generalizing files with
  | zero => exact h
  | succ k ih =>
    refine ih ?_
    rw [Slots.get_alloc]
    split
    · simp
    · exact h

theorem Accepted.sockets_ne (h : Accepted sock_fd n s) :
    s.sockets ≠ insert sock_fd (waiting s.proc.globals) := by
  intro heq
  have hn : n ∈ s.sockets := ⟨.connection, h.connection, by simp⟩
  rw [heq] at hn
  rcases hn with hn | ⟨l, hl, sock, hsock, -⟩
  · exact h.ne hn
  · rw [h.queue] at hl
    cases hl
    cases hsock

/-- What a step of the loop can do. -/
inductive MainStep (hash : List UInt8 → UInt32) (sock_fd : ℕ) (s : Server) :
    Incoming → Server → Prop where
  | noop {result : AcceptResult} (hp : s.point = .accept)
      (h : accept s.files sock_fd result = none) : MainStep hash sock_fd s (.accept result) s
  | connection {result : AcceptResult} {new_sock : ℕ} {files : Descriptors} (hp : s.point = .accept)
      (h : accept s.files sock_fd result = some (new_sock, files)) :
      MainStep hash sock_fd s (.accept result)
        ⟨.receive new_sock, Slots.release files sock_fd, s.proc⟩
  | served {env : Env} {new_sock k : ℕ} {proc : Proc} (hp : s.point = .receive new_sock)
      (h : proc.globals.sockets = s.proc.globals.sockets) :
      MainStep hash sock_fd s (.message env) ⟨.accept, connected s.files k, proc⟩

/-- **The loop, case by case.** -/
theorem main_cases {i : Incoming} (h : main_step hash sock_fd s i = some s') :
    MainStep hash sock_fd s i s' := by
  unfold main_step at h
  split at h
  · next result hp =>
    unfold get_new_connection at h
    cases ha : accept s.files sock_fd result with
    | none =>
      rw [ha] at h
      cases h
      exact .noop hp ha
    | some r =>
      rw [ha] at h
      cases h
      exact .connection hp ha
  · next new_sock env hp =>
    cases hr : (receive hash env ⟨new_sock, none⟩).run s.proc with
    | error e =>
      rw [hr] at h
      cases h
    | ok r =>
      rw [hr] at h
      cases h
      have hfd : Socket.fd ⟨new_sock, none⟩ ≠ -1 := by
        show (new_sock : ℤ) ≠ -1
        omega
      exact .served hp (receive_sockets hfd hr)
  · cases h

/-- **A message that the handler comes to the end of** finishes the iteration. -/
theorem main_step_message {env : Env} {data : List UInt8} {hd : data.length ≤ BUFFER_SIZE}
    {rs : List RecvResult} (hp : s.point = .receive n)
    (hr : env.recvs ⟨n, none⟩ = .received data hd :: rs) (hlt : data.length < BUFFER_SIZE)
    (hne : data ≠ [])
    (hh : ∀ heap rest, ∃ proc, ((⟨data, rest, ⟨n, none⟩, env⟩ : Arrival).handle hash).run
      (s.proc.withHeap heap) = .ok ((), proc)) :
    ∃ heap rest proc, ((⟨data, rest, ⟨n, none⟩, env⟩ : Arrival).handle hash).run
        (s.proc.withHeap heap) = .ok ((), proc) ∧
      main_step hash sock_fd s (.message env) =
        some ⟨.accept, connected s.files (proc.kernel.fds - s.proc.kernel.fds), proc⟩ := by
  obtain ⟨heap, rest, hrecv⟩ := receive_whole hr hlt hne s.proc
  obtain ⟨proc, hproc⟩ := hh heap rest
  rw [hproc] at hrecv
  refine ⟨heap, rest, proc, hproc, ?_⟩
  unfold main_step
  rw [hp]
  dsimp only
  rw [hrecv]
  rfl

/-- A connection closes the listening socket. -/
theorem accepted_connection {result : AcceptResult} (hs : Started sock_fd s)
    (h : accept s.files sock_fd result = some (n, files)) :
    Accepted sock_fd n ⟨.receive n, Slots.release files sock_fd, s.proc⟩ := by
  obtain ⟨hfree, hget⟩ := accept_some h
  have hne : n ≠ sock_fd := by
    rintro rfl
    rw [hs.listening] at hfree
    cases hfree
  refine ⟨?_, ?_, hne, hs.queue⟩
  · show Slots.get (Slots.release files sock_fd) sock_fd ≠ _
    simp [Slots.get_release]
  · show Slots.get (Slots.release files sock_fd) n = _
    rw [Slots.get_release, if_neg hne, hget, if_pos rfl]

/-- With the listening socket closed, the loop stays at `accept`. -/
theorem loop_stuck (hp : s.point = .accept) (hc : Slots.get s.files sock_fd ≠ some .listening)
    (h : Loop hash sock_fd s is t) : t = s ∧ ∀ i ∈ is, ∃ result, i = .accept result := by
  induction h with
  | nil => exact ⟨rfl, fun i hi => absurd hi List.not_mem_nil⟩
  | cons hstep _ ih =>
    cases main_cases hstep with
    | noop =>
      obtain ⟨ht, his⟩ := ih hp hc
      exact ⟨ht, List.forall_mem_cons.2 ⟨⟨_, rfl⟩, his⟩⟩
    | connection _ ha =>
      rw [accept_closed hc] at ha
      cases ha
    | served hp' => cases hp.symm.trans hp'

/-- After the message on the connection, the loop stays at `accept`. -/
theorem loop_receive (hp : s.point = .receive n) (hs : Accepted sock_fd n s)
    (h : Loop hash sock_fd s is t) : is = [] ∧ t = s ∨
      ∃ env ks, is = .message env :: ks ∧ (∀ i ∈ ks, ∃ result, i = .accept result) ∧
        Loop hash sock_fd s [.message env] t ∧ t.point = .accept ∧ Accepted sock_fd n t := by
  cases h with
  | nil => exact .inl ⟨rfl, rfl⟩
  | @cons _ i s' ks _ hstep h =>
    cases main_cases hstep with
    | noop hp' => cases hp.symm.trans hp'
    | connection hp' => cases hp.symm.trans hp'
    | @served env _ k _ _ hq =>
      have hc : Slots.get (connected s.files k) sock_fd ≠ some .listening :=
        get_connected_ne hs.closed
      obtain ⟨rfl, hks⟩ := loop_stuck rfl hc h
      exact .inr ⟨env, ks, rfl, hks, .cons hstep .nil, rfl, hc, get_connected hs.connection, hs.ne,
        hq.trans hs.queue⟩

/-- **A run of the loop**: the listening socket stays open up to the first
    connection, and after its message nothing happens any more. -/
theorem loop_cases (hs : Started sock_fd s) (h : Loop hash sock_fd s is t) :
    (∀ env, .message env ∉ is) ∧ (t.point = .accept → Slots.get t.files sock_fd = some .listening) ∨
      ∃ js env ks n, is = js ++ .message env :: ks ∧ (∀ i ∈ js ++ ks, ∃ result, i = .accept result) ∧
        Loop hash sock_fd s (js ++ [.message env]) t ∧ t.point = .accept ∧ Accepted sock_fd n t := by
  induction h with
  | nil => exact .inl ⟨fun _ h => absurd h List.not_mem_nil, fun _ => hs.listening⟩
  | cons hstep h ih =>
    cases main_cases hstep with
    | noop =>
      rcases ih hs with ⟨hmsg, hl⟩ | ⟨js, env, ks, n, rfl, hacc, hloop, hend⟩
      · exact .inl ⟨fun env hm => hmsg env (by simpa using hm), hl⟩
      · exact .inr ⟨_ :: js, env, ks, n, rfl, List.forall_mem_cons.2 ⟨⟨_, rfl⟩, hacc⟩,
          .cons hstep hloop, hend⟩
    | @connection result n files _ ha =>
      rcases loop_receive rfl (accepted_connection hs ha) h with
        ⟨rfl, rfl⟩ | ⟨env, ks, rfl, hacc, hloop, hend⟩
      · exact .inl ⟨fun env hm => by simp at hm, fun hp => by cases hp⟩
      · exact .inr ⟨[.accept result], env, ks, n, rfl, List.forall_mem_cons.2 ⟨⟨_, rfl⟩, hacc⟩,
          .cons hstep hloop, hend⟩
    | served hp => cases hs.point.symm.trans hp

/-- **A peer serves one connection.** -/
theorem serving_iff (hs : Started sock_fd s) (h : Loop hash sock_fd s is t) :
    (KeepsServing hash sock_fd s is ↔ ∀ env, .message env ∉ is) ∧
    ∀ env, .message env ∈ is → ∃ js env ks n, is = js ++ .message env :: ks ∧
      (∀ i ∈ js ++ ks, ∃ result, i = .accept result) ∧
      Loop hash sock_fd s (js ++ [.message env]) t ∧ t.point = .accept ∧
      Slots.get t.files sock_fd ≠ some .listening ∧ Slots.get t.files n = some .connection ∧
      t.sockets ≠ insert sock_fd (waiting t.proc.globals) := by
  refine ⟨⟨?_, ?_⟩, ?_⟩
  · intro hk env hm
    rcases loop_cases hs h with ⟨hmsg, -⟩ | ⟨js, env', ks, n, rfl, -, hloop, hp, ha⟩
    · exact hmsg env hm
    · exact ha.closed (hk.before_accept _ t ⟨ks, by simp⟩ hloop hp)
  · intro hmsg
    constructor
    · intro js u hpre hloop
      rcases loop_cases hs hloop with ⟨-, hl⟩ | ⟨js, env, ks, n, rfl, -⟩
      · exact hl
      · exact absurd (hpre.subset (by simp)) (hmsg env)
    · intro js env u hpre
      exact absurd (hpre.subset (by simp)) (hmsg env)
  · intro env hm
    rcases loop_cases hs h with ⟨hmsg, -⟩ | ⟨js, env', ks, n, his, hacc, hloop, hp, ha⟩
    · exact absurd hm (hmsg env)
    · exact ⟨js, env', ks, n, his, hacc, hloop, hp, ha.closed, ha.connection, ha.sockets_ne⟩

end

/-- The standard streams. -/
def streams : Descriptors := [some .stream, some .stream, some .stream]

/-- A first peer as it comes to the loop, its socket listening. -/
def base_server : Server :=
  ⟨.accept, (Slots.alloc .listening streams).2, ⟨base_peer, .fresh⟩⟩

theorem base_server_started : Started 3 base_server := ⟨rfl, rfl, rfl⟩

/-- The peer with its first connection. -/
def base_server_connected : Server where
  point := .receive 4
  files := [some .stream, some .stream, some .stream, none, some .connection]
  proc := ⟨base_peer, .fresh⟩

/-- A connection over which a join comes. -/
def join_connection : Env :=
  { Env.reliable .zero with recvs := fun _ => [.received join_50 (by decide)] }

theorem base_server_run :
    ∃ t, Loop HASH_JEN 3 base_server [.accept .connection, .message join_connection] t := by
  have hconn : main_step HASH_JEN 3 base_server (.accept .connection) =
      some base_server_connected := rfl
  have hrecvs : join_connection.recvs ⟨(4 : ℕ), none⟩ = [.received join_50 (by decide)] := rfl
  have hjoin : ∀ heap rest, ∃ proc,
      ((⟨join_50, rest, ⟨(4 : ℕ), none⟩, join_connection⟩ : Arrival).handle HASH_JEN).run
        (base_server_connected.proc.withHeap heap) = .ok ((), proc) := by
    intro heap rest
    have hstep := step_join_alone .zero join_50_message (i := base_peer.peer_info) rfl
    exact ⟨_, (receive_handler_message HASH_JEN join_50_message.length (by decide) _ _ _ _).trans
      (congrArg _ hstep)⟩
  obtain ⟨_, _, proc, -, hmsg⟩ := main_step_message rfl hrecvs (by decide) (by decide) hjoin
  exact ⟨_, .cons hconn (.cons hmsg .nil)⟩

theorem serving_iff_base_server :
    ¬ KeepsServing HASH_JEN 3 base_server [.accept .connection, .message join_connection] := by
  intro h
  obtain ⟨t, hrun⟩ := base_server_run
  exact (serving_iff base_server_started hrun).1.1 h join_connection (by simp)

/-- The next call of `accept` finds no listening socket. -/
theorem not_keepsServing : ¬ ∀ (hash : List UInt8 → UInt32) (sock_fd : ℕ) (s t : Server)
    (is : List Incoming), Started sock_fd s → Loop hash sock_fd s is t →
    KeepsServing hash sock_fd s is := by
  intro h
  obtain ⟨t, hrun⟩ := base_server_run
  have hk := h HASH_JEN 3 base_server t _ base_server_started hrun
  rcases loop_cases base_server_started hrun with ⟨hmsg, -⟩ | ⟨js, env, ks, n, his, -, hloop, hp, ha⟩
  · exact hmsg join_connection (by simp)
  · exact ha.closed (hk.before_accept _ t ⟨ks, by simp [his]⟩ hloop hp)

end ChordPeer
