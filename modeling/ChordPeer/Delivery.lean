/-
  What reaches the callback (`receive` and `redirect` of `generic/network.c`).

  `direct_receive` takes the first result of `recv` that leaves room in the
  buffer for the end of the message.

  * `calls_iff`: `receive` calls its callback with what `direct_receive` returns;
  * `handsOver_iff`: that is the whole message, however TCP cut it, exactly if
    all its parts but the last filled the buffer, and no block was moved;
  * `reportsFailures_iff`: a closed connection and an error are not reported.
-/
import ChordPeer.Serving

namespace ChordPeer

open CBytes

/-! ## The callback -/

section
variable (env : Env)

/-- `receive` with any callback. -/
def receive_with (callback : Response → Socket → PeerM Unit) (sock_fd : Socket) :
    PeerM (Option ℕ) := do
  let response ← onHeap (direct_receive (env.recvs sock_fd) true)
  callback response sock_fd
  return response.status_code

/-- The handler of the peer is one. -/
theorem receive_eq (hash : List UInt8 → UInt32) (sock_fd : Socket) : receive hash env sock_fd =
    receive_with env (fun response sock_fd => do
      let block ← onHeap fun h => do
        return (← heapFault (h.deref response.data), h)
      receive_handler hash env ⟨Mem.ofList block env.junk, response.data_length⟩ sock_fd) sock_fd := by
  simp [receive, receive_with]

/-- `receive` calls its callback with `response`, in the state `s'`, and then
    returns the status of `response`. -/
def Calls (sock : Socket) (s : Proc) (response : Response) (s' : Proc) : Prop :=
  ∀ callback, (receive_with env callback sock).run s =
    (callback response sock).run s' >>= fun q => .ok (response.status_code, q.2)

variable {env} {sock : Socket} {s s' : Proc} {response : Response}

theorem receive_with_run (callback : Response → Socket → PeerM Unit) :
    (receive_with env callback sock).run s =
      direct_receive (env.recvs sock) true s.kernel.heap >>= fun r =>
        (callback r.1 sock).run (s.withHeap r.2) >>= fun q => .ok (r.1.status_code, q.2) := by
  simp only [receive_with, StateT.run_bind, onHeap_run]
  cases direct_receive (env.recvs sock) true s.kernel.heap <;> rfl

theorem calls_iff : Calls env sock s response s' ↔
    ∃ h, direct_receive (env.recvs sock) true s.kernel.heap = .ok (response, h) ∧
      s' = s.withHeap h := by
  constructor
  · intro hc
    cases hrun : direct_receive (env.recvs sock) true s.kernel.heap with
    | error e =>
      have h := hc fun _ _ => pure ()
      rw [receive_with_run, hrun] at h
      cases h
    | ok r =>
      classical
      -- a callback that faults for any other response
      have h := hc fun response' _ => if response' = response then pure () else fault .nullNext
      rw [receive_with_run, hrun] at h
      simp only [ok_bind, if_true, StateT.run_pure, pure_eq_ok] at h
      by_cases hr : r.1 = response
      · rw [if_pos hr] at h
        obtain ⟨-, hs⟩ := Prod.mk.inj (Except.ok.inj h)
        exact ⟨r.2, by rw [← hr], hs.symm⟩
      · rw [if_neg hr] at h
        cases h
  · rintro ⟨h, hrun, rfl⟩ callback
    rw [receive_with_run, hrun]
    rfl

/-- The callback gets the bytes `m`. -/
def HandsOver (env : Env) (sock : Socket) (s : Proc) (m : List UInt8) : Prop :=
  ∃ response s', Calls env sock s response s' ∧ response.data_length = m.length ∧
    s'.kernel.heap.read response.data 0 response.data_length = .ok m

end

/-! ## A message cut into results -/

/-- The bytes of `m`, cut into results anywhere. -/
structure Cut (rs : List RecvResult) (m : List UInt8) : Prop where
  nonempty : ∀ r ∈ rs, r.stored ≠ []
  bytes : received_bytes rs = m

/-- The end of the results `rs` is seen: by the room that the last one leaves,
    or else because the connection is closed behind them. -/
inductive Delimited (rs after : List RecvResult) (h : Heap) : Prop where
  | short {fulls : List RecvResult} {last : RecvResult} (hrs : rs = fulls ++ [last])
      (hfulls : ∀ r ∈ fulls, r.Full) (hlast : last.Short) (hplace : InPlace h fulls.length)
  | closed {hd : [].length ≤ BUFFER_SIZE} {rest : List RecvResult} (hfulls : ∀ r ∈ rs, r.Full)
      (hafter : after = .received [] hd :: rest) (hplace : InPlace h rs.length)

section
variable {env : Env} {sock : Socket} {s : Proc} {fulls rest : List RecvResult} {last : RecvResult}
  (hr : env.recvs sock = fulls ++ last :: rest) (hfulls : ∀ r ∈ fulls, r.Full) (hlast : last.Short)
include hr hfulls hlast

/-- What the callback gets, up to a result that leaves room. -/
theorem Calls.assembled {response : Response} {s' : Proc} (hc : Calls env sock s response s') :
    InPlace s.kernel.heap fulls.length ∧ response.status_code = some STATUS_OK ∧
      Assembled s.kernel.heap s'.kernel.heap (fulls.length + 1) response
        (received_bytes fulls ++ last.stored) := by
  obtain ⟨hok, hfault⟩ := direct_receive_ends hfulls rest true s.kernel.heap hlast
  obtain ⟨h', hrun, rfl⟩ := calls_iff.1 hc
  rw [hr] at hrun
  by_cases hin : InPlace s.kernel.heap fulls.length ∧
      (received_bytes fulls ++ last.stored).length < 2 ^ 64
  · obtain ⟨response', h'', hrun', hstatus, ha⟩ := hok hin
    cases hrun.symm.trans hrun'
    exact ⟨hin.1, hstatus, ha⟩
  · obtain ⟨f, hrun'⟩ := hfault hin
    cases hrun.symm.trans hrun'

theorem handsOver_ends {m : List UInt8} (hm : m.length < 2 ^ 64) : HandsOver env sock s m ↔
    InPlace s.kernel.heap fulls.length ∧ m = received_bytes fulls ++ last.stored := by
  constructor
  · rintro ⟨response, s', hc, -, hread⟩
    obtain ⟨hplace, -, ha⟩ := hc.assembled hr hfulls hlast
    exact ⟨hplace, Except.ok.inj (hread.symm.trans ha.read)⟩
  · rintro ⟨hplace, rfl⟩
    obtain ⟨response, h', hrun, -, ha⟩ :=
      (direct_receive_ends hfulls rest true s.kernel.heap hlast).1 ⟨hplace, hm⟩
    rw [← hr] at hrun
    exact ⟨response, s.withHeap h', calls_iff.2 ⟨h', hrun, rfl⟩, ha.length, ha.read⟩

end

section
variable {env : Env} {sock : Socket} {s : Proc} {rs after fulls rest : List RecvResult}
  {last : RecvResult} {m : List UInt8}

theorem not_handsOver_error (hr : env.recvs sock = fulls ++ .error :: rest)
    (hfulls : ∀ r ∈ fulls, r.Full) : ¬ HandsOver env sock s m := by
  rintro ⟨response, s', hc, -, hread⟩
  obtain ⟨h', hrun, rfl⟩ := calls_iff.1 hc
  rw [hr] at hrun
  by_cases hne : fulls = []
  · rw [hne, List.nil_append, direct_receive_cons_error] at hrun
    cases hrun
    -- the block was freed
    have hgone : ((stored_heap s.kernel.heap []).setBlock s.kernel.heap.next none).read
        (some s.kernel.heap.next) 0 SIZE_MAX = .error .released := by
      simp [Heap.read, SIZE_MAX]
    cases hgone.symm.trans hread
  · obtain ⟨f, hfault⟩ := direct_receive_error hfulls rest true s.kernel.heap hne
    cases hrun.symm.trans hfault

/-- Where the bytes of a message end among results of which the first that
    leaves room is `last`. -/
theorem Cut.delimited {h : Heap} (hcut : Cut rs m) (hr : rs ++ after = fulls ++ last :: rest)
    (hfulls : ∀ r ∈ fulls, r.Full) (hlast : last.Short)
    (hm : m = received_bytes fulls ++ last.stored) (hplace : InPlace h fulls.length) : Delimited rs after h := by
  have hbytes := hcut.bytes.trans hm
  have hempty : last.stored = [] → ∃ hd, last = .received [] hd := by
    intro hnil
    cases last with
    | received data hd =>
      obtain rfl : data = [] := hnil
      exact ⟨hd, rfl⟩
    | error => exact absurd hlast RecvResult.not_short_error
  rcases List.append_eq_append_iff.1 hr with ⟨more, rfl, hafter⟩ | ⟨more, hrs, hrest⟩
  · -- all of the message filled its buffers
    rw [received_bytes_append, List.append_assoc, List.self_eq_append_right, List.append_eq_nil_iff]
      at hbytes
    obtain ⟨hmore, hnil⟩ := hbytes
    obtain rfl := received_bytes_full (fun r hr => hfulls r (List.mem_append_right _ hr)) hmore
    obtain ⟨hd, rfl⟩ := hempty hnil
    rw [List.append_nil] at hfulls hplace
    exact .closed hfulls hafter hplace
  · cases more with
    | nil =>
      obtain rfl : rs = fulls := by rw [hrs, List.append_nil]
      obtain ⟨hd, rfl⟩ := hempty (List.self_eq_append_right.1 hbytes)
      exact .closed hfulls hrest.symm hplace
    | cons r more =>
      obtain ⟨rfl, -⟩ := List.cons.inj hrest
      rw [hrs, received_bytes_append, received_bytes_cons, List.append_cancel_left_eq,
        List.append_right_eq_self] at hbytes
      obtain rfl : more = [] := by
        cases more with
        | nil => rfl
        | cons r' more =>
          have hne := hcut.nonempty r' (by simp [hrs])
          exact absurd (List.append_eq_nil_iff.1 hbytes).1 hne
      exact .short hrs hfulls hlast hplace

/-- One cut of a message. -/
theorem handsOver_condition (hr : env.recvs sock = rs ++ after) (hcut : Cut rs m)
    (hm : m.length < 2 ^ 64) : HandsOver env sock s m ↔ Delimited rs after s.kernel.heap := by
  constructor
  · intro h
    rcases results_cases (rs ++ after) with hall | ⟨fulls, last, rest, heq, hfulls, hlast⟩
    · obtain ⟨response, s', hc, -⟩ := h
      obtain ⟨h', hrun, -⟩ := calls_iff.1 hc
      rw [hr, direct_receive_blocked hall] at hrun
      cases hrun
    · rcases hlast with hlast | rfl
      · obtain ⟨hplace, hbytes⟩ := (handsOver_ends (hr.trans heq) hfulls hlast hm).1 h
        exact hcut.delimited heq hfulls hlast hbytes hplace
      · exact absurd h (not_handsOver_error (hr.trans heq) hfulls)
  · have hbytes := hcut.bytes
    rintro (⟨hrs, hfulls, hlast, hplace⟩ | @⟨hd, rest, hfulls, hafter, hplace⟩)
    · rw [hrs, List.append_assoc, List.singleton_append] at hr
      rw [hrs, received_bytes_append, received_bytes_cons, received_bytes_nil, List.append_nil]
        at hbytes
      exact (handsOver_ends hr hfulls hlast hm).2 ⟨hplace, hbytes.symm⟩
    · have hlast := RecvResult.short_nil hd
      rw [hafter] at hr
      have hbytes : received_bytes rs ++ RecvResult.stored (.received [] hd) = m :=
        (List.append_nil _).trans hbytes
      exact (handsOver_ends hr hfulls hlast hm).2 ⟨hplace, hbytes.symm⟩

end

theorem WellFormedMessage.length_lt {m : List UInt8} (hm : WellFormedMessage m) :
    m.length < 2 ^ 64 := by
  cases hm with
  | peer hl _ =>
    rw [hl]
    decide
  | client hl _ =>
    have hk := (ClientProtocol.parse m).key_length.toNat_lt
    have hv := (ClientProtocol.parse m).value_length.toNat_lt
    have hl : m.length = clientProtocolCalculateSize (ClientProtocol.parse m) := hl
    rw [hl, clientProtocolCalculateSize]
    omega

/-- **How TCP may cut a message.**  Two cuts of a message both come to the
    callback as the whole message exactly if the end of either can be seen, and
    no block moves on the way. -/
theorem handsOver_iff {m : List UInt8} (hm : WellFormedMessage m) {env env' : Env}
    {sock sock' : Socket} {s s' : Proc} {rs rs' after after' : List RecvResult}
    (hr : env.recvs sock = rs ++ after) (hr' : env'.recvs sock' = rs' ++ after')
    (hcut : Cut rs m) (hcut' : Cut rs' m) :
    (HandsOver env sock s m ∧ HandsOver env' sock' s' m) ↔
      Delimited rs after s.kernel.heap ∧ Delimited rs' after' s'.kernel.heap :=
  and_congr (handsOver_condition hr hcut hm.length_lt) (handsOver_condition hr' hcut' hm.length_lt)

theorem handsOver_iff_join :
    HandsOver join_connection ⟨4, none⟩ ⟨base_peer, .fresh⟩ join_50 := by
  have hcut : Cut [.received join_50 (by decide)] join_50 :=
    ⟨fun r hr => by rw [List.mem_singleton.1 hr]; decide, List.append_nil _⟩
  have hends : Delimited [.received join_50 (by decide)] [] Kernel.fresh.heap :=
    .short rfl (fun r hr => absurd hr List.not_mem_nil) (by decide)
      fun i hi => absurd hi (Nat.not_lt_zero i)
  exact ((@handsOver_iff join_50 join_50_wellFormed join_connection join_connection ⟨4, none⟩
    ⟨4, none⟩ ⟨base_peer, .fresh⟩ ⟨base_peer, .fresh⟩ _ _ [] [] rfl rfl hcut hcut).2
    ⟨hends, hends⟩).1

/-- A connection over which it comes in two parts. -/
def slow_connection : Env :=
  { Env.reliable .zero with
    recvs := fun _ =>
      [.received (join_50.take 1) (by decide), .received (join_50.drop 1) (by decide)] }

/-- The first part alone goes to the callback. -/
theorem not_handsOver : ¬ ∀ (m : List UInt8), WellFormedMessage m → ∀ (env env' : Env)
    (sock sock' : Socket) (s s' : Proc) (rs rs' after after' : List RecvResult),
    env.recvs sock = rs ++ after → env'.recvs sock' = rs' ++ after' → Cut rs m → Cut rs' m →
    HandsOver env sock s m ∧ HandsOver env' sock' s' m := by
  intro hall
  have hcut : Cut (slow_connection.recvs ⟨4, none⟩) join_50 := by
    refine ⟨fun r hr => ?_, by decide⟩
    rcases List.mem_cons.1 hr with rfl | hr
    · decide
    · rw [List.mem_singleton.1 hr]
      decide
  have hr : slow_connection.recvs ⟨4, none⟩ = slow_connection.recvs ⟨4, none⟩ ++ [] :=
    (List.append_nil _).symm
  have h := (hall join_50 join_50_wellFormed slow_connection slow_connection _ _ ⟨base_peer, .fresh⟩
    ⟨base_peer, .fresh⟩ _ _ [] [] hr hr hcut hcut).1
  cases (handsOver_condition hr hcut join_50_wellFormed.length_lt).1 h with
  | @short fulls last hrs hfulls hlast hplace =>
    have hrs : [RecvResult.received (join_50.take 1) (by decide)] ++
        [.received (join_50.drop 1) (by decide)] = fulls ++ [last] := hrs
    obtain ⟨rfl, -⟩ := List.append_inj' hrs rfl
    exact absurd (hfulls _ List.mem_cons_self) (by decide)
  | closed hfulls hafter hplace =>
    cases hafter

/-! ## Failures -/

def STATUS_SOCKET_CLOSED : ℕ := 404

/-- The connection is closed before anything was sent, or an error is met. -/
inductive Fails (rs : List RecvResult) : Prop where
  | closed {hd : [].length ≤ BUFFER_SIZE} {rest : List RecvResult} (h : rs = .received [] hd :: rest)
  | error {fulls rest : List RecvResult} (hfulls : ∀ r ∈ fulls, r.Full)
      (h : rs = fulls ++ .error :: rest)

/-- The callback gets nothing but received bytes; a closed connection and an
    error are returned instead, and not relayed. -/
structure ReportsFailures (env : Env) (sock : Socket) (s : Proc) : Prop where
  called : ∀ response s', Calls env sock s response s' → 1 ≤ response.data_length ∧
    (∃ data, data <+: received_bytes (env.recvs sock) ∧
      s'.kernel.heap.read response.data 0 response.data_length = .ok data) ∧
    response.status_code = some STATUS_OK
  closed : ∀ hd rest, env.recvs sock = .received [] hd :: rest → ∃ s', ∀ callback,
    (receive_with env callback sock).run s = .ok (some STATUS_SOCKET_CLOSED, s')
  error : ∀ fulls rest, (∀ r ∈ fulls, r.Full) → env.recvs sock = fulls ++ .error :: rest →
    ∃ code s', code ≠ some STATUS_OK ∧ ∀ callback,
      (receive_with env callback sock).run s = .ok (code, s')
  redirected : Fails (env.recvs sock) → ∀ sock_to code s',
    (redirect env sock sock_to).run s = .ok (code, s') →
      (answers sock_to s'.kernel.trace).flatten = (answers sock_to s.kernel.trace).flatten

/-- Where the callback is called, the status is `STATUS_OK`; where a later call
    meets an error, nothing is returned. -/
theorem Fails.not_reports {env : Env} {sock : Socket} {s : Proc} (hf : Fails (env.recvs sock)) :
    ¬ ReportsFailures env sock s := by
  intro hreports
  have hcall : ∀ response h',
      direct_receive (env.recvs sock) true s.kernel.heap = .ok (response, h') →
      (receive_with env (fun _ _ => pure ()) sock).run s =
        .ok (response.status_code, s.withHeap h') := by
    intro response h' hrun
    rw [receive_with_run, hrun]
    rfl
  rcases hf with @⟨hd, rest, hr⟩ | @⟨fulls, rest, hfulls, hr⟩
  · obtain ⟨s', hrun⟩ := hreports.closed hd rest hr
    obtain ⟨p, h', hok, -⟩ := direct_receive_last (RecvResult.short_nil hd) rest true s.kernel.heap
    rw [← hr] at hok
    have hcode := (hrun _).symm.trans (hcall _ _ hok)
    cases hcode
  · obtain ⟨code, s', hcode, hrun⟩ := hreports.error fulls rest hfulls hr
    by_cases hne : fulls = []
    · have hok := @direct_receive_cons_error rest true s.kernel.heap
      rw [hne, List.nil_append] at hr
      rw [← hr] at hok
      cases (hrun _).symm.trans (hcall _ _ hok)
      exact hcode rfl
    · obtain ⟨f, hfault⟩ := direct_receive_error hfulls rest true s.kernel.heap hne
      rw [← hr] at hfault
      have hstop := hrun fun _ _ => pure ()
      rw [receive_with_run, hfault] at hstop
      cases hstop

/-- A connection that is closed at once. -/
def closed_connection : Env :=
  { Env.reliable .zero with recvs := fun _ => [.received [] (Nat.zero_le _)] }

end ChordPeer
