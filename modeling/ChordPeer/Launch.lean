/-
  `main` of `peer.c` from its arguments on.

  * `peer_main` is `main` up to its loop, with the macros of
    `helper/wulkanat/commander.h`; `serve_step` is the loop on the descriptor
    that `setup_as_server` returned, which may be `-1`;
  * `peer_main_iff`: for how many arguments the loop is reached;
  * `peer_main_lifetime`: the peer starts in a `Reachable` state and has sent
    its join then, with or without a listening socket; in its life it handles
    one message at most, and none without the socket;
  * `commands_form_ring`: commands in which each peer is given the address of
    the next one start peers whose handlers form a ring, if they are called for
    every message.
-/
import ChordPeer.Client
import ChordPeer.Sockets
import ChordPeer.Startup

namespace ChordPeer

open CBytes CText Sockets MessagePassing

/-! ## Arguments -/

/-- Why `main` does not come to its loop. -/
inductive Exit where
  /-- `THROW` -/
  | thrown (code : ℤ)
  /-- a text is read through `NULL` -/
  | null
  | stop (s : Stop)
  deriving DecidableEq, Repr

/-- The characters of a string. -/
def CString.text (s : CString) : List Char := s.bytes.map fun b => Char.ofNat b.toNat

/-- `STR_ARG`: the argument behind the ones that were counted is `NULL`. -/
def str_arg (argv : List CString) (pos : ℕ) : Except Exit (Option CString) :=
  if argv.length < pos + 1 then .error (.thrown (-1)) else .ok argv[pos + 1]?

/-- What `inet_pton` and `atoi` read. -/
def read_text : Option CString → Except Exit (List Char)
  | none => .error .null
  | some s => .ok s.text

/-- `"0"` -/
def default_id : CString := ⟨[0x30], by decide⟩

/-! ## `main` -/

/-- What `main` meets up to its loop. -/
structure Outside where
  server : ServerCalls
  /-- the address at which `setup_as_client` looks for two texts, if `getaddrinfo` finds one -/
  getaddrinfo : List Char → List Char → Option Addr
  env : Env

/-- `main` at its loop. -/
structure Launched where
  sock_fd : Option ℕ
  server : Server

/-- The loop is reached with these globals, and what the kernel was told. -/
def launched (sock_fd : Option ℕ) (r : Resources) (fds : ℕ) (s : Proc) : Launched :=
  ⟨sock_fd, .accept, connected r.files (s.kernel.fds - fds), s⟩

/-- `main`, up to its loop. -/
def peer_main (argv : List CString) (o : Outside) (r : Resources) : Except Exit Launched := do
  let myIP ← str_arg argv 0
  let myPORT ← str_arg argv 1
  let myID := default_str_arg argv 2 default_id
  let myAddrInt := str_addr_to_int (← read_text myIP)
  let myPORT ← read_text myPORT
  let this : Peer :=
    { Peer.zero with
      ip := myAddrInt
      port := str_port_to_int myPORT
      id := UInt16.ofInt (atoi myID.text) }
  let (sock_fd, r) := setup_as_server myPORT o.server r
  -- the next descriptor to be had
  let fds := (Slots.alloc OpenFile.connection r.files).1
  let kernel : Kernel := { Kernel.fresh with fds := fds }
  if argv.length ≤ 4 then
    return launched sock_fd r fds ⟨.start ⟨this, none, none, none⟩, kernel⟩
  else
    let joinIP ← str_arg argv 3
    let joinPORT ← str_arg argv 4
    let joinIP ← read_text joinIP
    let joinPORT ← read_text joinPORT
    let to_join : Peer :=
      { Peer.zero with ip := str_addr_to_int joinIP, port := str_port_to_int joinPORT }
    let s : Proc := ⟨.start ⟨this, none, none, some to_join⟩, kernel⟩
    match o.getaddrinfo joinIP joinPORT with
    | none => return launched sock_fd r fds s
    | some a =>
      match (join o.env a this).run s with
      | .error e => throw (.stop e)
      | .ok (_, s) => return launched sock_fd r fds s

/-- The loop of `main`: on `-1` every call of `accept` fails. -/
def serve_step (hash : List UInt8 → UInt32) : Option ℕ → Server → Incoming → Option Server
  | some sock_fd, s, i => main_step hash sock_fd s i
  | none, s, i =>
    match s.point, i with
    | .accept, .accept _ => some s
    | _, _ => none

/-! ## Up to the loop -/

/-- The own record as `main` makes it of three texts. -/
def own_record (ip port id : CString) : Peer :=
  { Peer.zero with
    ip := str_addr_to_int ip.text
    port := str_port_to_int port.text
    id := UInt16.ofInt (atoi id.text) }

/-- The record of the peer to join. -/
def join_record (ip port : CString) : Peer :=
  { Peer.zero with ip := str_addr_to_int ip.text, port := str_port_to_int port.text }

/-- A process before the first message, with its next descriptor. -/
def before (this : Peer) (to_join : Option Peer) (r : Resources) : Proc :=
  ⟨.start ⟨this, none, none, to_join⟩,
    { Kernel.fresh with fds := (Slots.alloc OpenFile.connection r.files).1 }⟩

/-- The packet of the join, if there is somebody at the address. -/
def join_sent (o : Outside) (this : Peer) (ip port : CString) : List Packet :=
  match o.getaddrinfo ip.text port.text with
  | none => []
  | some a => [⟨a, (join_request o.env.stack this).wire⟩]

/-- `main` at its loop, by the texts of its arguments. -/
def launch (o : Outside) (r : Resources) (ip port id : CString)
    (to_join : Option (CString × CString)) : Launched :=
  let sock := setup_as_server port.text o.server r
  let this := own_record ip port id
  let s := before this (to_join.map fun j => join_record j.1 j.2) sock.2
  launched sock.1 sock.2 s.kernel.fds
    (s.sentAll o.env (to_join.elim [] fun j => join_sent o this j.1 j.2))

/-- How `main` ends up. -/
inductive MainEnd (argv : List CString) (o : Outside) (r : Resources) :
    Except Exit Launched → Prop where
  | thrown (h : argv.length ≤ 1) : MainEnd argv o r (.error (.thrown (-1)))
  | null (h : argv.length = 2 ∨ argv.length = 5) : MainEnd argv o r (.error .null)
  | base {ip port : CString} (h : argv.length = 3 ∨ argv.length = 4) (hip : argv[1]? = some ip)
      (hport : argv[2]? = some port) : MainEnd argv o r
        (.ok (launch o r ip port (default_str_arg argv 2 default_id) none))
  | join {ip port join_ip join_port : CString} (h : 6 ≤ argv.length) (hip : argv[1]? = some ip)
      (hport : argv[2]? = some port) (hjip : argv[4]? = some join_ip)
      (hjport : argv[5]? = some join_port) : MainEnd argv o r
        (.ok (launch o r ip port (default_str_arg argv 2 default_id) (some (join_ip, join_port))))

theorem Exit.ok_bind {α β : Type} (a : α) (f : α → Except Exit β) : (Except.ok a >>= f) = f a := rfl

theorem str_arg_some {argv : List CString} {pos : ℕ} {s : CString} (h : argv[pos + 1]? = some s) :
    str_arg argv pos = .ok (some s) := by
  have hlt : pos + 1 < argv.length := List.getElem?_eq_some_iff.1 h |>.1
  rw [str_arg, if_neg (by omega), h]

/-- With the texts of an address to join. -/
theorem peer_main_join {argv : List CString} (o : Outside) (r : Resources)
    {ip port join_ip join_port : CString} (hip : argv[1]? = some ip) (hport : argv[2]? = some port)
    (hjip : argv[4]? = some join_ip) (hjport : argv[5]? = some join_port) :
    peer_main argv o r =
      .ok (launch o r ip port (default_str_arg argv 2 default_id) (some (join_ip, join_port))) := by
  have hlen : ¬ argv.length ≤ 4 := by
    have := (List.getElem?_eq_some_iff.1 hjport).1
    omega
  simp only [peer_main, str_arg_some hip, str_arg_some hport, str_arg_some hjip,
    str_arg_some hjport, Exit.ok_bind, read_text, hlen, if_false]
  simp only [launch, Option.elim, join_sent]
  cases o.getaddrinfo join_ip.text join_port.text with
  | none => rfl
  | some a =>
    dsimp only
    rw [join, send_peerProtocol_run]
    rfl

theorem peer_main_cases (argv : List CString) (o : Outside) (r : Resources) :
    MainEnd argv o r (peer_main argv o r) := by
  match argv with
  | [] => exact .thrown (by simp)
  | [_] => exact .thrown (by simp)
  | [_, _] => exact .null (by simp)
  | [_, ip, port] => exact .base (by simp) rfl rfl
  | [_, ip, port, _] => exact .base (by simp) rfl rfl
  | [_, _, _, _, _] => exact .null (by simp)
  | a :: ip :: port :: id :: join_ip :: join_port :: rest =>
    have hlen : ∀ k, k ≤ 6 → ¬ (a :: ip :: port :: id :: join_ip :: join_port :: rest).length < k := by
      intro k hk
      simp only [List.length_cons]
      omega
    rw [peer_main_join o r rfl rfl rfl rfl]
    exact .join (Nat.le_of_not_lt (hlen 6 le_rfl)) rfl rfl rfl rfl

/-- **Which numbers of arguments lead to the loop.**  The name of the program
    counts.  With one argument or four, `STR_ARG` takes the `NULL` behind them
    for the next one. -/
theorem peer_main_iff (argv : List CString) (o : Outside) (r : Resources) :
    ((∃ l, peer_main argv o r = .ok l) ↔ argv.length = 3 ∨ argv.length = 4 ∨ 6 ≤ argv.length) ∧
      (peer_main argv o r = .error (.thrown (-1)) ↔ argv.length ≤ 1) ∧
      (peer_main argv o r = .error .null ↔ argv.length = 2 ∨ argv.length = 5) := by
  have hend := peer_main_cases argv o r
  generalize peer_main argv o r = e at hend ⊢
  cases hend with
  | thrown h =>
    refine ⟨iff_of_false (fun ⟨_, hl⟩ => nomatch hl) (by omega), iff_of_true rfl h,
      iff_of_false (fun hl => nomatch hl) (by omega)⟩
  | null h =>
    refine ⟨iff_of_false (fun ⟨_, hl⟩ => nomatch hl) (by omega),
      iff_of_false (fun hl => nomatch hl) (by omega), iff_of_true rfl h⟩
  | base h =>
    refine ⟨iff_of_true ⟨_, rfl⟩ (by omega), iff_of_false (fun hl => nomatch hl) (by omega),
      iff_of_false (fun hl => nomatch hl) (by omega)⟩
  | join h =>
    refine ⟨iff_of_true ⟨_, rfl⟩ (by omega), iff_of_false (fun hl => nomatch hl) (by omega),
      iff_of_false (fun hl => nomatch hl) (by omega)⟩

/-! ## The loop, and what came before it -/

/-- A run of the loop, whatever `setup_as_server` returned. -/
abbrev Serves (hash : List UInt8 → UInt32) (sock_fd : Option ℕ) :
    Server → List Incoming → Server → Prop :=
  Machine.Trace fun s i s' => serve_step hash sock_fd s i = some s'

/-- Only calls of `accept`. -/
def OnlyAccepts (is : List Incoming) : Prop := ∀ i ∈ is, ∃ result, i = .accept result

section
variable {hash : List UInt8 → UInt32} {o : Outside} {r : Resources} {argv : List CString}
  {ip port id : CString} {to_join : Option (CString × CString)} {s t : Server}
  {is : List Incoming} {l : Launched}

/-- Without a listening socket, the loop stays at `accept`. -/
theorem serves_none (hp : s.point = .accept) (h : Serves hash none s is t) :
    t = s ∧ OnlyAccepts is := by
  induction h with
  | nil => exact ⟨rfl, fun i hi => absurd hi List.not_mem_nil⟩
  | @cons s i s' is t hstep _ ih =>
    cases i with
    | message =>
      simp only [serve_step, hp, reduceCtorEq] at hstep
    | accept result =>
      simp only [serve_step, hp, Option.some.injEq] at hstep
      subst hstep
      obtain ⟨rfl, his⟩ := ih hp
      exact ⟨rfl, List.forall_mem_cons.2 ⟨⟨_, rfl⟩, his⟩⟩

theorem launch_globals (o : Outside) (r : Resources) (ip port id : CString)
    (to_join : Option (CString × CString)) :
    (launch o r ip port id to_join).server.proc.globals = .start
      ⟨own_record ip port id, none, none, to_join.map fun j => join_record j.1 j.2⟩ := by
  simp only [launch, launched, Proc.sentAll_globals]
  rfl

/-- With one, the loop starts as it should. -/
theorem launch_started {sock_fd : ℕ} (h : (launch o r ip port id to_join).sock_fd = some sock_fd) :
    Started sock_fd (launch o r ip port id to_join).server where
  point := rfl
  listening := by
    have hend := setup_as_server_cases port.text o.server r
    have hfd : (setup_as_server port.text o.server r).1 = some sock_fd := h
    show Slots.get (connected (setup_as_server port.text o.server r).2.files _) _ = _
    refine get_connected ?_
    generalize setup_as_server port.text o.server r = sock at hend hfd ⊢
    cases hend with
    | listening hl hfiles =>
      cases hfd
      rw [hfiles, with_socket, Slots.get_alloc, if_pos rfl]
    | untouched | no_option | abandoned => cases hfd
  queue := by
    rw [launch_globals]
    rfl

theorem launch_listens (o : Outside) (r : Resources) (ip port id : CString)
    (to_join : Option (CString × CString)) :
    (launch o r ip port id to_join).sock_fd.isSome ↔ Listens port.text o.server := by
  show (setup_as_server port.text o.server r).1.isSome ↔ _
  have hend := setup_as_server_cases port.text o.server r
  generalize setup_as_server port.text o.server r = sock at hend ⊢
  cases hend with
  | untouched hl => exact iff_of_false Bool.false_ne_true hl
  | no_option ha | abandoned ha =>
    exact iff_of_false Bool.false_ne_true fun hl => hl.not_abandons ha
  | listening hl => exact iff_of_true rfl hl

/-- The packet of the join, if the arguments give an address. -/
def joins (argv : List CString) (o : Outside) (this : Peer) : List Packet :=
  match argv[4]?, argv[5]? with
  | some ip, some port => join_sent o this ip port
  | _, _ => []

/-- With a listening socket or without. -/
theorem serves_once (hr : ∀ sock_fd, l.sock_fd = some sock_fd → Started sock_fd l.server)
    (h : Serves hash l.sock_fd l.server is t) (hp : l.server.point = .accept) :
    (l.sock_fd = none → t = l.server ∧ OnlyAccepts is) ∧
      (OnlyAccepts is ∨ ∃ js env ks, is = js ++ .message env :: ks ∧ OnlyAccepts (js ++ ks)) := by
  cases hfd : l.sock_fd with
  | none =>
    rw [hfd] at h
    have hstay := serves_none hp h
    exact ⟨fun _ => hstay, .inl hstay.2⟩
  | some sock_fd =>
    rw [hfd] at h
    refine ⟨fun hnone => absurd hnone (Option.some_ne_none sock_fd), ?_⟩
    rcases loop_cases (hr _ hfd) h with ⟨hmsg, -⟩ | ⟨js, env, ks, -, his, hacc, -⟩
    · refine .inl fun i hi => ?_
      cases i with
      | accept result => exact ⟨result, rfl⟩
      | message env => exact absurd hi (hmsg env)
    · exact .inr ⟨js, env, ks, his, hacc⟩

/-- **The life of a peer.**  It starts in a reachable state, and has sent its
    join if it was to; only then it waits, and whether it can be reached at all
    depends on `setup_as_server`.  If so it handles one message at most. -/
theorem peer_main_lifetime (h : peer_main argv o r = .ok l)
    (hrun : Serves hash l.sock_fd l.server is t) :
    Reachable hash l.server.proc.globals ∧
      packets l.server.proc.kernel.trace =
        (joins argv o l.server.proc.globals.peer_info.this).filter (fun p => o.env.accepts p.dest) ∧
      (∃ port, argv[2]? = some port ∧ (l.sock_fd.isSome ↔ Listens port.text o.server)) ∧
      (l.sock_fd = none → t = l.server ∧ OnlyAccepts is) ∧
      (OnlyAccepts is ∨ ∃ js env ks, is = js ++ .message env :: ks ∧ OnlyAccepts (js ++ ks)) := by
  have hend := peer_main_cases argv o r
  rw [h] at hend
  have hreach : ∀ ip port id to_join,
      Reachable hash (launch o r ip port id to_join).server.proc.globals := by
    intro ip port id to_join
    rw [launch_globals]
    exact .main rfl rfl _
  cases hend with
  | @base ip port hargc hip hport =>
    have hnone : argv[4]? = none := List.getElem?_eq_none (by omega)
    refine ⟨hreach _ _ _ _, ?_, ⟨port, hport, launch_listens _ _ _ _ _ _⟩,
      serves_once (fun _ => launch_started) hrun rfl⟩
    rw [joins, hnone]
    rfl
  | @join ip port join_ip join_port hargc hip hport hjip hjport =>
    refine ⟨hreach _ _ _ _, ?_, ⟨port, hport, launch_listens _ _ _ _ _ _⟩,
      serves_once (fun _ => launch_started) hrun rfl⟩
    rw [launch_globals, joins, hjip, hjport]
    exact Proc.packets_sentAll _ _ _

end

/-! ## From commands to a ring -/

/-- A command that gives the peer `p`, and the address of `q` to join, as
    numbers are written. -/
structure Command (argv : List CString) (p q : Peer) : Prop where
  ip : argv[1]?.map CString.text = some (dotted (le32 p.ip))
  port : argv[2]?.map CString.text = some (decimal p.port.toNat)
  id : argv[3]?.map CString.text = some (decimal p.id.toNat)
  join_ip : argv[4]?.map CString.text = some (dotted (le32 q.ip))
  join_port : argv[5]?.map CString.text = some (decimal q.port.toNat)

/-- Addresses that are written as numbers are found. -/
def Outside.Numeric (o : Outside) : Prop := NumericLookup o.getaddrinfo

/-- The command is read back. -/
theorem Command.launched {argv : List CString} {p q : Peer} (hc : Command argv p q) {o : Outside}
    (ho : o.Numeric) (ha : o.env.accepts q.addr = true) (hs : o.env.stack = .zero) (r : Resources) :
    ∃ l, peer_main argv o r = .ok l ∧
      l.server.proc.globals = .start ⟨p.record, none, none, some q.only_addr⟩ ∧
      packets l.server.proc.kernel.trace = [⟨q.addr, (join_request .zero p).wire⟩] ∧
      (l.sock_fd.isSome ↔ Listens (decimal p.port.toNat) o.server) ∧
      ∀ fd, l.sock_fd = some fd → Started fd l.server := by
  obtain ⟨ip, hip, tip⟩ := Option.map_eq_some_iff.1 hc.ip
  obtain ⟨port, hport, tport⟩ := Option.map_eq_some_iff.1 hc.port
  obtain ⟨id, hid, tid⟩ := Option.map_eq_some_iff.1 hc.id
  obtain ⟨join_ip, hjip, tjip⟩ := Option.map_eq_some_iff.1 hc.join_ip
  obtain ⟨join_port, hjport, tjport⟩ := Option.map_eq_some_iff.1 hc.join_port
  have hdefault : default_str_arg argv 2 default_id = id := by rw [default_str_arg, hid]; rfl
  have hown : own_record ip port id = p.record := by
    rw [own_record, tip, tport, tid, str_addr_to_int_dotted, str_port_to_int, ofInt_atoi_decimal,
      ofInt_atoi_decimal]
    rfl
  have hjoin : join_record join_ip join_port = q.only_addr := by
    rw [join_record, tjip, tjport, str_addr_to_int_dotted, str_port_to_int, ofInt_atoi_decimal]
    rfl
  have hsent : join_sent o p.record join_ip join_port = [⟨q.addr, (join_request .zero p).wire⟩] := by
    have hfound : o.getaddrinfo (dotted (le32 q.ip)) (decimal q.port.toNat) = some q.addr := ho q.addr
    rw [join_sent, tjip, tjport, hfound, hs]
    rfl
  refine ⟨_, peer_main_join o r hip hport hjip hjport, ?_, ?_, ?_, fun _ => launch_started⟩
  · rw [launch_globals, hdefault, hown, Option.map_some, hjoin]
  · show packets (Proc.sentAll o.env _ _).kernel.trace = _
    rw [Proc.packets_sentAll, hdefault, hown]
    simp only [Option.elim, hsent, List.filter_cons, ha, if_true, List.filter_nil]
    rfl
  · rw [← tport]
    exact launch_listens _ _ _ _ _ _

/-- **From commands to a ring.**  Peers that are started with the address of the
    next one, in the order of their ids, come to their loops, and their joins
    are on the way; in whatever order the handlers are given the messages then,
    the peers form a ring. -/
theorem commands_form_ring {n : ℕ} [NeZero n] (hash : List UInt8 → UInt32) {p : Fin n → Peer}
    (hn : 2 ≤ n) (hid : ∀ i j, i < j → (p i).id < (p j).id)
    (ha : Function.Injective fun i => (p i).addr) {argv : Fin n → List CString}
    (hc : ∀ i, Command (argv i) (p i) (p (i + 1))) {o : Fin n → Outside} (ho : ∀ i, (o i).Numeric)
    (hacc : ∀ i, (o i).env.accepts (p (i + 1)).addr = true) (hs : ∀ i, (o i).env.stack = .zero)
    (r : Fin n → Resources) :
    ∃ l : Fin n → Launched, (∀ i, peer_main (argv i) (o i) (r i) = .ok (l i)) ∧
      ∀ {as : List (Act (Fin n) Packet)} {C : Config (Fin n) Globals Packet},
        Run (closed_ring hash zeroed fun i => (l i).server.proc.globals)
          ⟨fun i => (l i).server.proc.globals,
            ∑ i, (packets (l i).server.proc.kernel.trace : Multiset Packet)⟩ as C →
        as.length ≤ 2 * n ∧
          (as.length < 2 * n →
            ∃ a C', Step (closed_ring hash zeroed fun i => (l i).server.proc.globals) C a C') ∧
          (as.length = 2 * n → (Consistent fun i => (C.node i).peer_info) ∧ C.flight = 0) := by
  choose l hmain hglobals hpackets _ _ using fun i => (hc i).launched (ho i) (hacc i) (hs i) (r i)
  refine ⟨l, hmain, ?_⟩
  have hstart : (fun i => (l i).server.proc.globals) = started fun i => (p i).record :=
    funext hglobals
  have hflight : ∑ i, (packets (l i).server.proc.kernel.trace : Multiset Packet) =
      ∑ i, {⟨(p (i + 1)).record.addr, (join_request .zero (p i).record).wire⟩} :=
    Finset.sum_congr rfl fun i _ => by rw [hpackets]; rfl
  rw [hstart, hflight]
  intro as C h
  obtain ⟨k, hk, rfl, hsum⟩ := started_run (p := fun i => (p i).record) hash hn ha h
  rw [← hsum]
  exact linking_progress hash hn hid ha hk

/-! ## Two commands -/

/-- An argument by its characters. -/
def argument (text : List Char) (h : 0 ∉ text.map fun c => UInt8.ofNat c.toNat := by decide) :
    CString := ⟨text.map fun c => UInt8.ofNat c.toNat, h⟩

/-- `getaddrinfo` for texts that are written as numbers. -/
def numeric_getaddrinfo (ip port : List Char) : Option Addr :=
  (inet_pton ip).map fun _ => ⟨str_addr_to_int ip, str_port_to_int port⟩

/-- Everything that `main` calls succeeds at the first attempt. -/
def reliable_outside : Outside where
  server := ⟨some [.bound], true, true⟩
  getaddrinfo := numeric_getaddrinfo
  env := .reliable .zero

theorem reliable_outside_numeric : reliable_outside.Numeric := by
  intro a
  show numeric_getaddrinfo _ _ = _
  rw [numeric_getaddrinfo, inet_pton_dotted rfl, str_addr_to_int_dotted, str_port_to_int,
    ofInt_atoi_decimal]
  rfl

/-- The first of the two peers, and the second one to join. -/
def command_10 : List CString :=
  [argument ['p'], argument ['1', '.', '0', '.', '0', '.', '1', '2', '7'],
    argument ['4', '0', '0', '0'], argument ['1', '0'],
    argument ['1', '.', '0', '.', '0', '.', '1', '2', '7'], argument ['4', '0', '0', '1']]

def command_100 : List CString :=
  [argument ['p'], argument ['1', '.', '0', '.', '0', '.', '1', '2', '7'],
    argument ['4', '0', '0', '1'], argument ['1', '0', '0'],
    argument ['1', '.', '0', '.', '0', '.', '1', '2', '7'], argument ['4', '0', '0', '0']]

def two_commands : Fin 2 → List CString
  | 0 => command_10
  | 1 => command_100

theorem two_commands_peers : ∀ i, Command (two_commands i) (two_peers i) (two_peers (i + 1))
  | 0 => ⟨by decide, by decide, by decide, by decide, by decide⟩
  | 1 => ⟨by decide, by decide, by decide, by decide, by decide⟩

/-- Their four messages can be handled, and make them a ring. -/
theorem commands_form_ring_two_peers : ∃ l : Fin 2 → Launched,
    (∀ i, peer_main (two_commands i) reliable_outside ⟨streams, 0⟩ = .ok (l i)) ∧
      ∃ as C, Run (closed_ring HASH_JEN zeroed fun i => (l i).server.proc.globals)
          ⟨fun i => (l i).server.proc.globals,
            ∑ i, (packets (l i).server.proc.kernel.trace : Multiset Packet)⟩ as C ∧
        as.length = 4 ∧ (Consistent fun i => (C.node i).peer_info) ∧ C.flight = 0 := by
  obtain ⟨l, hl, hrun⟩ := commands_form_ring (p := two_peers) HASH_JEN le_rfl (by decide) (by decide)
    two_commands_peers (fun _ => reliable_outside_numeric) (fun _ => rfl) (fun _ => rfl)
    fun _ => ⟨streams, 0⟩
  obtain ⟨as, C, h, hlen⟩ := exists_run_length (k := 4) fun as C h hlt => (hrun h).2.1 hlt
  exact ⟨l, hl, as, C, h, hlen, (hrun h).2.2 hlen⟩

/-- The command of the first of them, with a port that there is not. -/
def deaf_command : List CString := command_10.set 2 (argument ['6', '5', '5', '3', '6'])

/-- It sends its join, and stays at its first call of `accept`. -/
theorem peer_main_lifetime_deaf : ∃ l, peer_main deaf_command reliable_outside ⟨streams, 0⟩ = .ok l ∧
    (packets l.server.proc.kernel.trace).length = 1 ∧ ∀ is t,
      Serves HASH_JEN l.sock_fd l.server is t → t = l.server := by
  obtain ⟨l, hl⟩ : ∃ l, peer_main deaf_command reliable_outside ⟨streams, 0⟩ = .ok l :=
    ⟨_, peer_main_join _ _ rfl rfl rfl rfl⟩
  have hnil : Serves HASH_JEN l.sock_fd l.server [] l.server := .nil
  obtain ⟨-, hpackets, ⟨port, hport, hlistens⟩, -⟩ := peer_main_lifetime hl hnil
  have hnone : l.sock_fd = none := by
    refine Option.not_isSome_iff_eq_none.1 fun hsome => ?_
    have hl := hlistens.1 hsome
    cases hport
    exact absurd hl.port.2 (by decide)
  refine ⟨l, hl, ?_, fun is t h => ((peer_main_lifetime hl h).2.2.2.1 hnone).1⟩
  rw [hpackets]
  rfl

end ChordPeer
