/-
  Processes that run `main`, each with whatever arrives at it.

  A process handles one message at most (`peer_main_lifetime`), and one message
  gives a peer no more than one neighbour, as `next` and as `prev`
  (`arrival_oneNeighbour`, `serves_oneNeighbour`).

  * `processes_form_ring_iff`: so processes can come to be a consistent ring
    exactly if they are two.
-/
import ChordPeer.Launch

namespace ChordPeer

open CBytes CText PeerProtocol Sockets

/-! ## One process -/

/-- No neighbour. -/
structure PeerInfo.Isolated (i : PeerInfo) : Prop where
  next : i.next = none
  prev : i.prev = none

/-- Not more than one neighbour: it is `next` and `prev`, or there is no `next`. -/
def PeerInfo.OneNeighbour (i : PeerInfo) : Prop := i.next = none ∨ i.next = i.prev

section
variable {hash : List UInt8 → UInt32} {env : Env} {i i' : PeerInfo} {d : PeerProtocol}
  {s s' t : Server} {sock_fd : Option ℕ} {fd : ℕ} {is : List Incoming}

theorem PeerInfo.Isolated.oneNeighbour (h : i.Isolated) : i.OneNeighbour := .inl h.next

theorem InfoStep.oneNeighbour (h : InfoStep i d i') (hi : i.Isolated) : i'.OneNeighbour := by
  cases h with
  | none => exact hi.oneNeighbour
  | both => exact .inr rfl
  | prev | prev_new => exact .inl hi.next
  | next hn => cases hi.next.symm.trans hn

/-- One message. -/
theorem arrival_oneNeighbour {p p' : Proc} {a : Arrival} (h : ArrivalStep hash p a p')
    (hi : p.globals.peer_info.Isolated) : p'.globals.peer_info.OneNeighbour := by
  cases h with
  | peer _ hstep =>
    rw [Proc.sentAll_globals]
    exact (Peer.step_cases hstep).oneNeighbour hi
  | client _ hc =>
    rw [hc.peer_info]
    exact hi.oneNeighbour

/-- What `receive` hands to the handler is an arrival. -/
theorem receive_arrival {sock : Socket} (hs : sock.fd ≠ -1) {p p' : Proc} {code : Option ℕ}
    (h : (receive hash env sock).run p = .ok (code, p')) :
    ∃ heap a, ArrivalStep hash (p.withHeap heap) a p' := by
  simp only [receive, StateT.run_bind, onHeap_run, bind_eq_ok] at h
  obtain ⟨_, ⟨⟨response, h₁⟩, -, hs₁⟩, _, ⟨⟨block, h₂⟩, -, hs₂⟩, ⟨_, s₃⟩, hrun, hend⟩ := h
  cases hs₁
  cases hs₂
  cases hend
  let n := response.data_length
  let msg := Mem.ofList block env.junk
  let a : Arrival := ⟨msg.bytes 0 n, fun i => msg (n + i), sock, env⟩
  have hrec : Received.of a.message a.rest = ⟨msg, n⟩ := by
    simp only [Received.of, a, Mem.ofList_bytes, Mem.bytes_length]
  rw [← hrec] at hrun
  exact ⟨h₂, a, arrival_cases hs hrun⟩

theorem main_step_receive (h : main_step hash fd s (.message env) = some s') :
    (∃ n, s.point = .receive n) ∧ s'.point = .accept ∧
      (s.proc.globals.peer_info.Isolated → s'.proc.globals.peer_info.OneNeighbour) := by
  unfold main_step at h
  split at h
  · next heq => cases heq
  · next n env hp heq =>
    cases heq
    split at h
    · cases h
    · next code p' hr =>
      cases h
      have hfd : Socket.fd ⟨n, none⟩ ≠ -1 := by
        show (n : ℤ) ≠ -1
        omega
      obtain ⟨heap, a, hstep⟩ := receive_arrival hfd hr
      exact ⟨⟨n, hp⟩, rfl, fun hi => arrival_oneNeighbour hstep hi⟩
  · cases h

/-- What holds of a process throughout: as long as it has not come to the end of
    a message it has no neighbour, and then it has one at most and is stuck. -/
inductive Lonely (fd : ℕ) (s : Server) : Prop where
  | waiting (hi : s.proc.globals.peer_info.Isolated) (hp : s.point = .accept)
  | receiving (hi : s.proc.globals.peer_info.Isolated) (hc : Slots.get s.files fd ≠ some .listening)
  | stuck (hi : s.proc.globals.peer_info.OneNeighbour) (hp : s.point = .accept)
      (hc : Slots.get s.files fd ≠ some .listening)

theorem Lonely.step {a : Incoming} (h : Lonely fd s) (hstep : main_step hash fd s a = some s') :
    Lonely fd s' := by
  cases main_cases hstep with
  | noop => exact h
  | @connection result new_sock files hp ha =>
    have hi : s.proc.globals.peer_info.Isolated := by
      cases h with
      | waiting hi | receiving hi => exact hi
      | stuck _ _ hc =>
        rw [accept_closed hc] at ha
        cases ha
    refine .receiving hi ?_
    show Slots.get (Slots.release files fd) fd ≠ _
    simp [Slots.get_release]
  | @served env new_sock k proc hp hq =>
    obtain ⟨-, hpoint, hone⟩ := main_step_receive hstep
    cases h with
    | waiting _ hp' | stuck _ hp' => cases hp'.symm.trans hp
    | receiving hi hc => exact .stuck (hone hi) hpoint (get_connected_ne hc)

theorem Lonely.oneNeighbour (h : Lonely fd s) : s.proc.globals.peer_info.OneNeighbour := by
  cases h with
  | waiting hi | receiving hi => exact hi.oneNeighbour
  | stuck hi => exact hi

/-- **One process has one neighbour.** -/
theorem serves_oneNeighbour (hi : s.proc.globals.peer_info.Isolated) (hp : s.point = .accept)
    (h : Serves hash sock_fd s is t) : t.proc.globals.peer_info.OneNeighbour := by
  cases sock_fd with
  | none =>
    obtain ⟨rfl, -⟩ := serves_none hp h
    exact hi.oneNeighbour
  | some fd =>
    have hlonely : Lonely fd t :=
      Machine.Trace.invariant (fun s a s' hs ha => hs.step ha) (.waiting hi hp) h
    exact hlonely.oneNeighbour

/-- A process that waits can be given a join. -/
theorem started_join (hs : Started fd s) (hn : s.proc.globals.peer_info.next = none)
    {m : List UInt8} (hm : Message JOIN_MESSAGE m) :
    ∃ is t, Loop hash fd s is t ∧ t.proc.globals.peer_info = { s.proc.globals.peer_info with
      next := some (Peer.zero.assign (parse m)), prev := some (Peer.zero.assign (parse m)) } := by
  have hle : m.length ≤ BUFFER_SIZE := by rw [hm.length]; decide
  have hlt : m.length < BUFFER_SIZE := by rw [hm.length]; decide
  have hne : m ≠ [] := by
    rintro rfl
    cases hm.header
  have hcontrol : (parse m).control ≠ 0 := by
    rw [hm.flags.1]
    decide
  let env : Env := { Env.reliable .zero with recvs := fun _ => [.received m hle] }
  let new_sock := (Slots.alloc OpenFile.connection s.files).1
  let u : Server :=
    ⟨.receive new_sock, Slots.release (Slots.alloc .connection s.files).2 fd, s.proc⟩
  have hconn : main_step hash fd s (.accept .connection) = some u := by
    simp only [main_step, hs.point, get_new_connection, accept, hs.listening]
    rfl
  have hjoin : ∀ heap rest, ((⟨m, rest, ⟨(new_sock : ℕ), none⟩, env⟩ : Arrival).handle hash).run
      (u.proc.withHeap heap) = _ := fun heap rest =>
    (receive_handler_message hash hm.length hcontrol env rest ⟨new_sock, none⟩
      (u.proc.withHeap heap)).trans (congrArg _ (step_join_alone .zero hm hn))
  obtain ⟨heap, rest, proc, hproc, hmsg⟩ := main_step_message (s := u) rfl rfl hlt hne
    fun heap rest => ⟨_, hjoin heap rest⟩
  refine ⟨_, _, .cons hconn (.cons hmsg .nil), ?_⟩
  rw [hjoin] at hproc
  obtain rfl := congrArg Prod.snd (Except.ok.inj hproc)
  rw [Proc.sentAll_globals]
  rfl

end

/-! ## Several processes -/

section
variable {n : ℕ} [NeZero n] {R : Fin n → PeerInfo}

/-- With one neighbour each, a ring has two peers. -/
theorem Consistent.eq_two (hc : Consistent R) (h : ∀ i, (R i).OneNeighbour) : n = 2 := by
  obtain ⟨p, hp, hnext⟩ := hc.next 1
  obtain ⟨q, hq, hprev⟩ := hc.prev 1
  have hpq : p = q := by
    rcases h 1 with hnone | heq
    · cases hnone.symm.trans hp
    · rw [hp, hq] at heq
      exact Option.some.inj heq
  subst hpq
  have hidx : (1 + 1 : Fin n) = 1 - 1 := hc.addrs (hnext.addr.symm.trans hprev.addr)
  have hval := congrArg Fin.val hidx
  have hle := hc.two_le
  rw [sub_self, Fin.val_add, Fin.val_one', Fin.val_zero] at hval
  have h1 : 1 % n = 1 := Nat.mod_eq_of_lt hle
  rw [h1] at hval
  have hdvd : n ∣ 2 := Nat.dvd_of_mod_eq_zero hval
  exact le_antisymm (Nat.le_of_dvd (by omega) hdvd) hle

end

/-- A process that runs `main`, at some time: whatever its arguments are, what
    it meets, and what arrives at it. -/
def FromMain (hash : List UInt8 → UInt32) (t : Server) : Prop :=
  ∃ argv o r l is, peer_main argv o r = .ok l ∧ Serves hash l.sock_fd l.server is t

theorem FromMain.oneNeighbour {hash : List UInt8 → UInt32} {t : Server} (h : FromMain hash t) :
    t.proc.globals.peer_info.OneNeighbour := by
  obtain ⟨argv, o, r, l, is, hmain, hrun⟩ := h
  have hend := peer_main_cases argv o r
  rw [hmain] at hend
  cases hend with
  | base | join =>
    refine serves_oneNeighbour ?_ rfl hrun
    rw [launch_globals]
    exact ⟨rfl, rfl⟩

/-- The neighbours that a peer has after the join of the next one. -/
def joined_by_next {n : ℕ} [NeZero n] (p : Fin n → Peer) (i : Fin n) : PeerInfo :=
  ⟨(p i).record, some (p (i + 1)).record, some (p (i + 1)).record, some (p (i + 1)).only_addr⟩

theorem joined_by_next_consistent : Consistent (joined_by_next two_peers) where
  two_le := le_rfl
  ids := two_peers_consistent.ids
  addrs := two_peers_consistent.addrs
  next i := ⟨_, rfl, rfl, rfl, rfl⟩
  prev i := by
    have hi : i - 1 = i + 1 := by revert i; decide
    rw [hi]
    exact ⟨_, rfl, rfl, rfl, rfl⟩

theorem two_peers_ports : ∀ i, IsPort (decimal (two_peers i).port.toNat)
  | 0 => ⟨by decide, by decide⟩
  | 1 => ⟨by decide, by decide⟩

/-- The processes of the two commands, with the join of the other one. -/
theorem two_processes (hash : List UInt8 → UInt32) (i : Fin 2) : ∃ t, FromMain hash t ∧
    t.proc.globals.peer_info = joined_by_next two_peers i := by
  obtain ⟨l, hmain, hglobals, -, hlistens, hstarted⟩ := (two_commands_peers i).launched
    reliable_outside_numeric rfl rfl ⟨streams, 0⟩
  have hl : Listens (decimal (two_peers i).port.toNat) reliable_outside.server :=
    ⟨two_peers_ports i, ⟨_, rfl, rfl⟩, rfl, rfl⟩
  obtain ⟨fd, hfd⟩ := Option.isSome_iff_exists.1 (hlistens.2 hl)
  have hnext : l.server.proc.globals.peer_info.next = none := by rw [hglobals]; rfl
  have hjoin := join_request_message (two_peers (i + 1))
  obtain ⟨is, t, hrun, ht⟩ : ∃ is t, Loop hash fd l.server is t ∧ _ :=
    started_join (hstarted fd hfd) hnext hjoin
  refine ⟨t, ⟨_, _, _, l, is, hmain, by rw [hfd]; exact hrun⟩, ?_⟩
  rw [ht, hglobals, parse_wire (join_request_masked _)]
  rfl

/-- **Processes form a ring exactly if they are two.** -/
theorem processes_form_ring_iff (hash : List UInt8 → UInt32) {n : ℕ} [NeZero n] :
    (∃ t : Fin n → Server, (∀ i, FromMain hash (t i)) ∧
      Consistent fun i => (t i).proc.globals.peer_info) ↔ n = 2 := by
  constructor
  · rintro ⟨t, hmain, hc⟩
    exact hc.eq_two fun i => (hmain i).oneNeighbour
  · rintro rfl
    choose t hmain hinfo using two_processes hash
    refine ⟨t, hmain, ?_⟩
    rw [show (fun i => (t i).proc.globals.peer_info) = joined_by_next two_peers from funext hinfo]
    exact joined_by_next_consistent

theorem processes_form_ring_iff_two : ∃ t : Fin 2 → Server, (∀ i, FromMain HASH_JEN (t i)) ∧
    Consistent fun i => (t i).proc.globals.peer_info :=
  (processes_form_ring_iff HASH_JEN).2 rfl

end ChordPeer
