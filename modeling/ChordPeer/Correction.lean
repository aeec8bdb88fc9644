/-
  Stabilize and the successor pointers (`receive_handler` of `peer.c`).

  A peer answers a stabilize by a notify that names its `prev`, wherever that
  lies, unless the sender is its `prev`; and the sender takes it for `next`.

  * `OnArc`: the ids that come between two ids, going upward around the ring;
  * `corrects_condition`: a stabilize is answered by a node between the sender
    and the peer exactly if the `prev` of the peer is there;
  * `no_further`: in runs in which that is so, and each notify comes from the
    peer that its receiver has for `next`, no `next` moves further round.
-/
import ChordPeer.Stabilizing

namespace ChordPeer

open CBytes MessagePassing PeerProtocol

/-! ## Ids around the ring -/

/-- How far up from `a` the id `b` is, modulo `2 ^ 16`. -/
def around (a b : UInt16) : ℕ := (b - a).toNat

/-- The id `x` is strictly between `m` and `s`, going upward from `m`. -/
def OnArc (m s x : UInt16) : Prop := 0 < around m x ∧ around m x < around m s

instance (m s x : UInt16) : Decidable (OnArc m s x) := inferInstanceAs (Decidable (_ ∧ _))

/-! ## One stabilize message -/

/-- The sender of a stabilize is the `prev` of a peer that is no base, or this
    `prev` is on the arc from the sender up to the peer. -/
def AnswersRight (i : PeerInfo) (pv : Peer) (d : PeerProtocol) : Prop :=
  (d.nodeId = pv.id ∧ i.this.is_base = 0) ∨ OnArc d.nodeId i.this.id pv.id

/-- A notify that answers the stabilize message `m` names a node on the arc from
    the sender up to the peer; and where the `prev` of the peer is neither on
    that arc nor the sender, the sender becomes its `prev`. -/
structure Corrects (hash : List UInt8 → UInt32) (s : Proc) (m : List UInt8) : Prop where
  named : ∀ p : Peer, (∀ env rest sock, (receive_handler hash env (.of m rest) sock).run s =
      (notify env (parse m).nodeIp (parse m).nodePort p).run s) →
    OnArc (parse m).nodeId s.globals.peer_info.this.id p.id
  taken : ∀ pv, s.globals.peer_info.prev = some pv →
    ¬ OnArc (parse m).nodeId s.globals.peer_info.this.id pv.id → pv.id ≠ (parse m).nodeId →
    ∀ env rest sock, ∃ s', (receive_handler hash env (.of m rest) sock).run s = .ok ((), s') ∧
      s'.globals.peer_info.prev = some (pv.assign (parse m))

section
variable {hash : List UInt8 → UInt32} {s : Proc} {m : List UInt8} {nx pv : Peer}

theorem notify_run (env : Env) (ip : UInt32) (port : UInt16) (p : Peer) (s : Proc) :
    (notify env ip port p).run s =
      .ok ((), s.sent env ⟨⟨ip, port⟩, (notify_request env.stack p).wire⟩) :=
  send_peerProtocol_run env _ _ s

/-- What was sent can be seen, over a connection that comes about. -/
theorem sent_inj {stack : PeerProtocol} {p q : Packet}
    (h : s.sent (.reliable stack) p = s.sent (.reliable stack) q) : p = q := by
  have ht := congrArg (fun s => packets s.kernel.trace) h
  rw [Proc.packets_sent, Proc.packets_sent] at ht
  have hl := List.append_cancel_left ht
  simpa [Env.reliable] using hl

/-- A peer that is no base passes on the stabilize of its `prev`. -/
theorem run_stabilize_prev (hm : Message STABILIZE_MESSAGE m)
    (hn : s.globals.peer_info.next = some nx) (hv : s.globals.peer_info.prev = some pv)
    (hid : (parse m).nodeId = pv.id) (hb : s.globals.peer_info.this.is_base = 0) (env : Env)
    (rest : Mem) (sock : Socket) :
    (receive_handler hash env (.of m rest) sock).run s = .ok ((), s.sent env
      ⟨nx.addr, (stabilize_request env.stack s.globals.peer_info.this).wire⟩) := by
  rw [receive_handler_message hash hm.length (by rw [hm.flags.1]; decide),
    step_stabilize_prev env.stack hm hn hv hid hb]
  rfl

/-- Any other stabilize is answered by a notify that names `prev`. -/
theorem run_stabilize_other (hm : Message STABILIZE_MESSAGE m)
    (hv : s.globals.peer_info.prev = some pv)
    (hne : ¬ ((parse m).nodeId = pv.id ∧ s.globals.peer_info.this.is_base = 0)) (env : Env)
    (rest : Mem) (sock : Socket) :
    (receive_handler hash env (.of m rest) sock).run s =
      (notify env (parse m).nodeIp (parse m).nodePort pv).run s := by
  rw [receive_handler_message hash hm.length (by rw [hm.flags.1]; decide),
    step_stabilize_other env.stack hm hv hne, notify_run]
  rfl

/-- **One stabilize message.** -/
theorem corrects_condition (hm : Message STABILIZE_MESSAGE m)
    (hn : s.globals.peer_info.next = some nx) (hv : s.globals.peer_info.prev = some pv) :
    Corrects hash s m ↔ AnswersRight s.globals.peer_info pv (parse m) := by
  by_cases hp : (parse m).nodeId = pv.id ∧ s.globals.peer_info.this.is_base = 0
  · refine iff_of_true ⟨?_, ?_⟩ (.inl hp)
    · intro p h
      -- what is sent is no notify
      have hrun := h (.reliable .zero) (fun _ => 0) ⟨3, none⟩
      rw [run_stabilize_prev hm hn hv hp.1 hp.2, notify_run] at hrun
      obtain ⟨-, hs⟩ := Prod.mk.inj (Except.ok.inj hrun)
      have hdata := congrArg Packet.data (sent_inj hs)
      have hst := stabilize_request_message s.globals.peer_info.this
      dsimp only at hdata
      rw [show (Env.reliable .zero).stack = .zero from rfl] at hdata
      rw [hdata] at hst
      exact absurd (hst.header_unique (notify_request_message p)) (by decide)
    · intro pv' hv' _ hne
      cases hv.symm.trans hv'
      exact absurd hp.1.symm hne
  · rw [AnswersRight, or_iff_right hp]
    constructor
    · intro h
      exact h.named pv (run_stabilize_other hm hv hp)
    · intro ha
      refine ⟨?_, ?_⟩
      · intro p h
        have hrun := h (.reliable .zero) (fun _ => 0) ⟨3, none⟩
        rw [run_stabilize_other hm hv hp, notify_run, notify_run] at hrun
        obtain ⟨-, hs⟩ := Prod.mk.inj (Except.ok.inj hrun)
        have hdata : (notify_request .zero pv).wire = (notify_request .zero p).wire :=
          congrArg Packet.data (sent_inj hs)
        have hid := congrArg (fun m => (parse m).nodeId) hdata
        rw [parse_wire (notify_request_masked pv), parse_wire (notify_request_masked p)] at hid
        have hid : pv.id = p.id := hid
        rw [← hid]
        exact ha
      · intro pv' hv' hna
        cases hv.symm.trans hv'
        exact absurd ha hna

end

/-! ## The messages of these peers -/

section
variable {data : List UInt8} {p : Peer}

theorem stabilize_data (h : data = (stabilize_request .zero p).wire) :
    Message STABILIZE_MESSAGE data ∧ parse data = stabilize_request .zero p := by
  subst h
  exact ⟨stabilize_request_message p, parse_wire (stabilize_request_masked p)⟩

theorem notify_data (h : data = (notify_request .zero p).wire) :
    Message NOTIFY_MESSAGE data ∧ parse data = notify_request .zero p := by
  subst h
  exact ⟨notify_request_message p, parse_wire (notify_request_masked p)⟩

end

/-! ## Runs of peers that join and stabilize -/

/-- A message in flight with the peer that sent it, if it is one of these. -/
structure Letter (ι : Type) where
  src : Option ι
  packet : Packet

inductive CorrectionAct (ι : Type) where
  /-- peer `i` sends a stabilize message to its next peer -/
  | stabilize (i : ι)
  | handle (a : Act ι (Letter ι))

section
variable {ι : Type} [DecidableEq ι]

/-- The network of the peers `G`, with joins from outside. -/
def correction (hash : List UInt8 → UInt32) (G : ι → Globals) : System ι Globals (Letter ι) where
  handles i g l g' out := l.packet.dest = (G i).addr ∧
    ∃ ps, Handles hash zeroed g l.packet.data g' ps ∧ out = ps.map (⟨some i, ·⟩)
  enters l := l.src = none ∧ Message JOIN_MESSAGE l.packet.data

inductive CorrectionStep (hash : List UInt8 → UInt32) (G : ι → Globals) :
    Config ι Globals (Letter ι) → CorrectionAct ι → Config ι Globals (Letter ι) → Prop where
  | stabilize {node flight i p} (h : (node i).peer_info.stabilize_packet = some p) :
      CorrectionStep hash G ⟨node, flight⟩ (.stabilize i) ⟨node, ⟨some i, p⟩ ::ₘ flight⟩
  | handle {C a C'} (h : Step (correction hash G) C a C') : CorrectionStep hash G C (.handle a) C'

/-- A stabilize is answered right, and a notify comes from the peer that its
    receiver has for `next`. -/
def Careful (G : ι → Globals) (C : Config ι Globals (Letter ι)) : CorrectionAct ι → Prop
  | .handle (.deliver i l _) =>
    (Message STABILIZE_MESSAGE l.packet.data → ∀ pv, (C.node i).peer_info.prev = some pv →
      AnswersRight (C.node i).peer_info pv (parse l.packet.data)) ∧
    (Message NOTIFY_MESSAGE l.packet.data → ∀ nx, (C.node i).peer_info.next = some nx →
      ∃ j, l.src = some j ∧ nx.id = (G j).peer_info.this.id)
  | _ => True

/-- A message as these peers send it.  A notify of peer `j` names `j` itself, or
    a node between its receiver and `j`. -/
inductive RightLetter (G : ι → Globals) (l : Letter ι) : Prop where
  | join (hm : Message JOIN_MESSAGE l.packet.data)
  | stabilize {j : ι} (hj : l.src = some j)
      (hd : l.packet.data = (stabilize_request .zero (G j).peer_info.this).wire)
  | notify {j : ι} {p : Peer} (hj : l.src = some j)
      (hd : l.packet.data = (notify_request .zero p).wire)
      (hp : ∀ i, l.packet.dest = (G i).addr → p.id = (G j).peer_info.this.id ∨
        OnArc (G i).peer_info.this.id (G j).peer_info.this.id p.id)

/-- The peers have their own records, and the messages in flight are theirs. -/
structure Correcting (G : ι → Globals) (C : Config ι Globals (Letter ι)) : Prop where
  this : ∀ i, (C.node i).peer_info.this = (G i).peer_info.this
  flight : ∀ l ∈ C.flight, RightLetter G l

/-- The next peer that `i'` names is no further round from `a` than the one of `i`. -/
def NoFurther (a : UInt16) (i i' : PeerInfo) : Prop :=
  ∀ nx, i.next = some nx → ∃ nx', i'.next = some nx' ∧ around a nx'.id ≤ around a nx.id

theorem NoFurther.of_next {a : UInt16} {i i' : PeerInfo}
    (h : ∀ nx, i.next = some nx → i'.next = some nx) : NoFurther a i i' :=
  fun nx hn => ⟨nx, h nx hn, le_rfl⟩

section
variable {stack d : PeerProtocol} {i i' : PeerInfo} {raw : List UInt8} {out : List Packet}

/-- A join tells the new node of this peer, or goes on. -/
theorem on_join_out (h : Peer.on_join stack i d raw = .ok (i', out)) :
    (∀ nx, i.next = some nx → i'.next = some nx) ∧
      ∀ q ∈ out, q.data = raw ∨ q.data = (notify_request stack i.this).wire := by
  unfold Peer.on_join at h
  split at h
  · next hn =>
    cases h
    refine ⟨fun nx hn' => ?_, fun q hq => .inr (by rw [List.mem_singleton.1 hq])⟩
    rw [hn] at hn'
    cases hn'
  · split at h <;> cases h
    exact ⟨fun _ hn => hn, fun q hq => .inl (by rw [List.mem_singleton.1 hq])⟩
  · split at h <;> cases h
    · exact ⟨fun _ hn => hn, fun q hq => .inr (by rw [List.mem_singleton.1 hq])⟩
    · exact ⟨fun _ hn => hn, fun q hq => .inl (by rw [List.mem_singleton.1 hq])⟩

/-- A stabilize is passed on, or answered with `prev`. -/
theorem on_stabilize_out (h : Peer.on_stabilize stack i d = .ok (i', out)) :
    (∀ nx, i.next = some nx → i'.next = some nx) ∧
      ∀ q ∈ out, q.data = (stabilize_request stack i.this).wire ∨
        ∃ pv, i.prev = some pv ∧ ¬ (d.nodeId = pv.id ∧ i.this.is_base = 0) ∧
          q = ⟨d.node, (notify_request stack pv).wire⟩ := by
  unfold Peer.on_stabilize at h
  split at h
  · cases h
    exact ⟨fun _ hn => hn, fun q hq => absurd hq List.not_mem_nil⟩
  · next pv hv =>
    split at h
    · split at h <;> cases h
      exact ⟨fun _ hn => hn, fun q hq => .inl (by rw [List.mem_singleton.1 hq])⟩
    · next hne =>
      cases h
      exact ⟨fun _ hn => hn, fun q hq => .inr ⟨pv, hv, hne, List.mem_singleton.1 hq⟩⟩

end

variable {hash : List UInt8 → UInt32} {G : ι → Globals}

/-- Peer `i` took a message: its own record is the one of `G`, its `next` has not
    moved further round, and what it sends is right. -/
structure MessageKeeps (G : ι → Globals) (i : ι) (g g' : Globals) (ps : List Packet) : Prop where
  this : g'.peer_info.this = (G i).peer_info.this
  next : NoFurther (G i).peer_info.this.id g.peer_info g'.peer_info
  sent : ∀ q ∈ ps, RightLetter G ⟨some i, q⟩

section
variable {g : Globals} {data : List UInt8} {i : ι} {ps : List Packet}

omit [DecidableEq ι] in
theorem join_keeps {g' : Globals} (hm : Message JOIN_MESSAGE data)
    (hthis : g.peer_info.this = (G i).peer_info.this) (h : Handles hash zeroed g data g' ps) :
    MessageKeeps G i g g' ps := by
  obtain ⟨info, hstep, rfl⟩ := (handles_zeroed hm (by decide)).1 h
  have hself := (Peer.step_cases hstep).this
  rw [step_of_join _ _ _ hm] at hstep
  obtain ⟨hnext, hout⟩ := on_join_out hstep
  refine ⟨hself.trans hthis, .of_next hnext, fun q hq => ?_⟩
  rcases hout q hq with hq | hq
  · exact .join (by rw [hq]; exact hm)
  · exact .notify rfl hq fun _ _ => .inl (by rw [hthis])

omit [DecidableEq ι] in
/-- The answer goes back to the sender, peer `j`. -/
theorem stabilize_keeps {g' : Globals} {j : ι} (hinj : Function.Injective fun i => (G i).addr)
    (hd : data = (stabilize_request .zero (G j).peer_info.this).wire)
    (hthis : g.peer_info.this = (G i).peer_info.this) (h : Handles hash zeroed g data g' ps)
    (hright : ∀ pv, g.peer_info.prev = some pv → AnswersRight g.peer_info pv (parse data)) :
    MessageKeeps G i g g' ps := by
  obtain ⟨hm, hp⟩ := stabilize_data hd
  obtain ⟨info, hstep, rfl⟩ := (handles_zeroed hm (by decide)).1 h
  have hself := (Peer.step_cases hstep).this
  rw [step_of_stabilize _ _ _ hm] at hstep
  obtain ⟨hnext, hout⟩ := on_stabilize_out hstep
  refine ⟨hself.trans hthis, .of_next hnext, fun q hq => ?_⟩
  rcases hout q hq with hq | ⟨pv, hv, hne, rfl⟩
  · exact .stabilize rfl (by rw [hq, hthis])
  · refine .notify rfl rfl fun k hk => .inr ?_
    have harc := (hright pv hv).resolve_left hne
    rw [hp] at harc hk
    obtain rfl : j = k := hinj hk
    rw [hthis] at harc
    exact harc

omit [DecidableEq ι] in
theorem notify_keeps {g' : Globals} {j : ι} {p : Peer} (hd : data = (notify_request .zero p).wire)
    (hp : p.id = (G j).peer_info.this.id ∨
      OnArc (G i).peer_info.this.id (G j).peer_info.this.id p.id)
    (hthis : g.peer_info.this = (G i).peer_info.this) (h : Handles hash zeroed g data g' ps)
    (hnext : ∀ nx, g.peer_info.next = some nx → nx.id = (G j).peer_info.this.id) :
    MessageKeeps G i g g' ps := by
  obtain ⟨hm, hpar⟩ := notify_data hd
  obtain ⟨info, hstep, rfl⟩ := (handles_zeroed hm (by decide)).1 h
  cases hn : g.peer_info.next with
  | none =>
    rw [step_notify_alone _ hm hn] at hstep
    cases hstep
  | some nx =>
    rw [step_notify _ hm hn, hpar] at hstep
    cases hstep
    refine ⟨hthis, ?_, by simp⟩
    intro nx' hn'
    cases hn.symm.trans hn'
    refine ⟨_, rfl, ?_⟩
    show around _ p.id ≤ around _ nx.id
    rw [hnext nx hn]
    rcases hp with hself | harc
    · rw [hself]
    · exact harc.2.le

end

omit [DecidableEq ι] in
/-- **One message**, taken by peer `i`. -/
theorem correction_deliver (hinj : Function.Injective fun i => (G i).addr)
    {C : Config ι Globals (Letter ι)} {i : ι} {l : Letter ι} {g : Globals} {out : List (Letter ι)}
    (hthis : (C.node i).peer_info.this = (G i).peer_info.this) (hl : RightLetter G l)
    (h : (correction hash G).handles i (C.node i) l g out)
    (hc : Careful G C (.handle (.deliver i l out))) :
    ∃ ps : List Packet, out = ps.map (⟨some i, ·⟩) ∧ MessageKeeps G i (C.node i) g ps := by
  obtain ⟨hdest, ps, hh, hout⟩ := h
  obtain ⟨hstab, hnot⟩ := hc
  refine ⟨ps, hout, ?_⟩
  cases hl with
  | join hm => exact join_keeps hm hthis hh
  | stabilize hj hd => exact stabilize_keeps hinj hd hthis hh (hstab (stabilize_data hd).1)
  | @notify j p hj hd hp =>
    refine notify_keeps hd (hp i hdest) hthis hh fun nx hn => ?_
    obtain ⟨j', hj', hid⟩ := hnot (notify_data hd).1 nx hn
    obtain rfl : j = j' := Option.some.inj (hj.symm.trans hj')
    exact hid

/-- **One step** of a run. -/
theorem CorrectionStep.correcting (hinj : Function.Injective fun i => (G i).addr)
    {C C' : Config ι Globals (Letter ι)} {a : CorrectionAct ι} (hC : Correcting G C)
    (h : CorrectionStep hash G C a C') (hc : Careful G C a) :
    Correcting G C' ∧
      ∀ i, NoFurther (G i).peer_info.this.id (C.node i).peer_info (C'.node i).peer_info := by
  obtain ⟨hthis, hflight⟩ := hC
  cases h with
  | @stabilize node flight i p h =>
    refine ⟨⟨hthis, fun l hl => ?_⟩, fun j => .of_next fun _ hn => hn⟩
    rcases Multiset.mem_cons.1 hl with rfl | hl
    · obtain ⟨nx, -, rfl⟩ := Option.map_eq_some_iff.1 h
      exact .stabilize rfl (by rw [show (node i).peer_info.this = _ from hthis i])
    · exact hflight l hl
  | handle h =>
    cases h with
    | @enter node flight p h =>
      refine ⟨⟨hthis, fun l hl => ?_⟩, fun j => .of_next fun _ hn => hn⟩
      rcases Multiset.mem_cons.1 hl with rfl | hl
      · exact .join h.2
      · exact hflight l hl
    | @deliver node flight i l g out h =>
      obtain ⟨ps, rfl, hi, hnext, hout⟩ :=
        correction_deliver hinj (hthis i) (hflight l (Multiset.mem_cons_self _ _)) h hc
      refine ⟨⟨fun j => ?_, fun l' hl' => ?_⟩, fun j => ?_⟩
      · by_cases hj : j = i
        · subst hj
          simpa using hi
        · simpa [hj] using hthis j
      · rcases Multiset.mem_add.1 hl' with hl' | hl'
        · obtain ⟨q, hq, rfl⟩ := List.mem_map.1 hl'
          exact hout q hq
        · exact hflight l' (Multiset.mem_cons_of_mem hl')
      · by_cases hj : j = i
        · subst hj
          simpa using hnext
        · simpa [hj] using NoFurther.of_next fun nx (hn : (node j).peer_info.next = some nx) => hn

/-- **A whole run.** -/
theorem correcting_run (hinj : Function.Injective fun i => (G i).addr)
    {C : Config ι Globals (Letter ι)} {as : List (CorrectionAct ι)}
    (h : Machine.Trace (fun C a C' => CorrectionStep hash G C a C' ∧ Careful G C a) ⟨G, 0⟩ as C) :
    Correcting G C :=
  h.invariant (fun _ _ _ hC hs => (hs.1.correcting hinj hC hs.2).1)
    ⟨fun _ => rfl, fun l hl => absurd hl (Multiset.notMem_zero l)⟩

end

/-! ## Successor pointers -/

/-- **A stabilize correction and the successor pointers.**  One stabilize is
    answered as it should be exactly if `prev` lies right; and no `next` moves
    further round in a run whose every stabilize finds it so, and whose every
    notify still comes from the `next` of its receiver. -/
theorem no_further (hash : List UInt8 → UInt32) :
    (∀ s m nx pv, Message STABILIZE_MESSAGE m → s.globals.peer_info.next = some nx →
      s.globals.peer_info.prev = some pv →
      (Corrects hash s m ↔ AnswersRight s.globals.peer_info pv (parse m))) ∧
    ∀ {ι : Type} [DecidableEq ι] (G : ι → Globals), (Function.Injective fun i => (G i).addr) →
      ∀ as C, Machine.Trace (fun C a C' => CorrectionStep hash G C a C' ∧ Careful G C a) ⟨G, 0⟩ as C →
      ∀ a C', CorrectionStep hash G C a C' → Careful G C a →
        ∀ i, NoFurther (G i).peer_info.this.id (C.node i).peer_info (C'.node i).peer_info := by
  refine ⟨fun s m nx pv hm hn hv => corrects_condition hm hn hv, ?_⟩
  intro ι _ G hinj as C hrun a C' hstep hcare
  exact (hstep.correcting hinj (correcting_run hinj hrun) hcare).2

/-! ## Two peers and the joins of two nodes -/

section
variable {ι : Type} {hash : List UInt8 → UInt32} {G : ι → Globals} {i : ι} {l : Letter ι}
  {g : Globals}

/-- A stabilize that is answered. -/
theorem answers_stabilize {q pv : Peer} (hd : l.packet.dest = (G i).addr)
    (hl : l.packet.data = (stabilize_request .zero q).wire) (hv : g.peer_info.prev = some pv)
    (hq : q.id ≠ pv.id) : (correction hash G).handles i g l g
      [⟨some i, ⟨q.addr, (notify_request .zero pv).wire⟩⟩] := by
  obtain ⟨hm, hp⟩ := stabilize_data hl
  have hstep := step_stabilize_other .zero hm hv fun h => hq (by rw [← h.1, hp]; rfl)
  refine ⟨hd, _, (handles_unique hm (by decide) hstep).2 ⟨rfl, rfl⟩, ?_⟩
  rw [hp]
  rfl

theorem takes_notify_letter {p nx : Peer} (hd : l.packet.dest = (G i).addr)
    (hl : l.packet.data = (notify_request .zero p).wire) (hn : g.peer_info.next = some nx) :
    (correction hash G).handles i g l { g with
      peer_info.next := some (nx.assign (notify_request .zero p)) } [] := by
  have hm : Message NOTIFY_MESSAGE l.packet.data := by
    rw [hl]
    exact notify_request_message p
  have hstep := step_notify .zero hm hn
  have hp : parse l.packet.data = notify_request .zero p := by
    rw [hl]
    exact parse_wire (notify_request_masked p)
  refine ⟨hd, [], ?_, rfl⟩
  rw [← hp]
  exact (handles_unique hm (by decide) hstep).2 ⟨rfl, rfl⟩

end

def peer_30 : Peer := ⟨0x7f000001, 4003, 30, 0, none⟩

/-- Two peers, the second of which took the join of a node 30. -/
def joined_30 : Bool → Globals
  | false => .start ⟨peer_10, some peer_100, some peer_100, none⟩
  | true => .start ⟨peer_100, some peer_10, some peer_30, none⟩

/-- The first one stabilizes, -/
def joined_30_stabilize : Letter Bool :=
  ⟨some false, ⟨peer_100.addr, (stabilize_request .zero peer_10).wire⟩⟩

/-- and the second one answers that its `prev` is `p`. -/
def joined_30_notify (p : Peer) : Letter Bool :=
  ⟨some true, ⟨peer_10.addr, (notify_request .zero p).wire⟩⟩

/-- The peers after the first one took that, -/
def joined_30_notified : Bool → Globals
  | false => .start ⟨peer_10, some peer_30, some peer_100, none⟩
  | true => joined_30 true

def peer_50 : Peer := peer_30.assign (parse join_50)

/-- and after the second one took the join of a node 50. -/
def joined_50 : Bool → Globals
  | false => joined_30_notified false
  | true => .start ⟨peer_100, some peer_10, some peer_50, none⟩

theorem joined_30_injective : Function.Injective fun i => (joined_30 i).addr := by
  decide

theorem joined_30_stabilize_step (flight : Multiset (Letter Bool)) :
    CorrectionStep HASH_JEN joined_30 ⟨joined_30, flight⟩ (.stabilize false)
      ⟨joined_30, joined_30_stabilize ::ₘ flight⟩ :=
  .stabilize rfl

theorem joined_30_answer_step (flight : Multiset (Letter Bool)) :
    CorrectionStep HASH_JEN joined_30 ⟨joined_30, joined_30_stabilize ::ₘ flight⟩
      (.handle (.deliver true joined_30_stabilize [joined_30_notify peer_30]))
      ⟨joined_30, joined_30_notify peer_30 ::ₘ flight⟩ := by
  have h : (correction HASH_JEN joined_30).handles true (joined_30 true) joined_30_stabilize
      (joined_30 true) [joined_30_notify peer_30] :=
    answers_stabilize rfl rfl rfl (by decide)
  have hs := CorrectionStep.handle (.deliver h : Step _ ⟨joined_30, _ ::ₘ flight⟩ _ _)
  rwa [Function.update_eq_self] at hs

theorem joined_30_notify_step (flight : Multiset (Letter Bool)) :
    CorrectionStep HASH_JEN joined_30 ⟨joined_30, joined_30_notify peer_30 ::ₘ flight⟩
      (.handle (.deliver false (joined_30_notify peer_30) []))
      ⟨joined_30_notified, flight⟩ := by
  have h : (correction HASH_JEN joined_30).handles false (joined_30 false)
      (joined_30_notify peer_30) (joined_30_notified false) [] :=
    @takes_notify_letter Bool HASH_JEN joined_30 false _ (joined_30 false) peer_30 peer_100 rfl rfl rfl
  have hs := CorrectionStep.handle (.deliver h : Step _ ⟨joined_30, _ ::ₘ flight⟩ _ _)
  have hnode : Function.update joined_30 false (joined_30_notified false) = joined_30_notified := by
    ext i
    cases i <;> rfl
  rwa [hnode, Multiset.coe_nil, Multiset.zero_add] at hs

theorem joined_30_answer_careful (flight : Multiset (Letter Bool)) (out : List (Letter Bool)) :
    Careful joined_30 ⟨joined_30, flight⟩ (.handle (.deliver true joined_30_stabilize out)) := by
  have hm : Message STABILIZE_MESSAGE joined_30_stabilize.packet.data := stabilize_request_message _
  have hp : parse joined_30_stabilize.packet.data = stabilize_request .zero peer_10 :=
    parse_wire (stabilize_request_masked _)
  refine ⟨fun _ pv hv => .inr ?_, fun hn => absurd (hm.header_unique hn) (by decide)⟩
  obtain rfl : peer_30 = pv := Option.some.inj hv
  rw [hp]
  show OnArc peer_10.id peer_100.id peer_30.id
  decide

theorem joined_30_notify_careful (flight : Multiset (Letter Bool)) (out : List (Letter Bool)) :
    Careful joined_30 ⟨joined_30, flight⟩
      (.handle (.deliver false (joined_30_notify peer_30) out)) := by
  have hm : Message NOTIFY_MESSAGE (joined_30_notify peer_30).packet.data :=
    notify_request_message _
  refine ⟨fun hs => absurd (hm.header_unique hs) (by decide), fun _ nx hn => ⟨true, rfl, ?_⟩⟩
  obtain rfl : peer_100 = nx := Option.some.inj hn
  rfl

/-- The second peer in a process of its own. -/
def joined_30_peer : Proc := ⟨joined_30 true, .fresh⟩

theorem no_further_joined_30 :
    Corrects HASH_JEN joined_30_peer (stabilize_request .zero peer_10).wire ∧
    NoFurther 10 (joined_30 false).peer_info (joined_30_notified false).peer_info := by
  obtain ⟨hone, hruns⟩ := no_further HASH_JEN
  constructor
  · refine (hone joined_30_peer _ peer_10 peer_30 (stabilize_request_message _) rfl rfl).2 (.inr ?_)
    rw [parse_wire (stabilize_request_masked _)]
    show OnArc peer_10.id peer_100.id peer_30.id
    decide
  · exact hruns joined_30 joined_30_injective _ _
      (.cons ⟨joined_30_stabilize_step 0, trivial⟩
        (.cons ⟨joined_30_answer_step 0, joined_30_answer_careful _ _⟩ .nil))
      _ _ (joined_30_notify_step 0) (joined_30_notify_careful _ _) false

/-- The join, and the answer to it. -/
def enter_join_50 : Letter Bool := ⟨none, ⟨peer_100.addr, join_50⟩⟩

def answer_50 : Letter Bool :=
  ⟨some true, ⟨(parse join_50).node, (notify_request .zero peer_100).wire⟩⟩

theorem joined_50_step (flight : Multiset (Letter Bool)) :
    CorrectionStep HASH_JEN joined_30 ⟨joined_30_notified, enter_join_50 ::ₘ flight⟩
      (.handle (.deliver true enter_join_50 [answer_50])) ⟨joined_50, answer_50 ::ₘ flight⟩ := by
  have hstep := step_join .zero join_50_message (i := (joined_30 true).peer_info) rfl rfl
  rw [if_pos (by decide)] at hstep
  have h : (correction HASH_JEN joined_30).handles true (joined_30_notified true) enter_join_50
      (joined_50 true) [answer_50] :=
    ⟨rfl, [_], (handles_unique join_50_message (by decide) hstep).2 ⟨rfl, rfl⟩, rfl⟩
  have hs := CorrectionStep.handle (.deliver h : Step _ ⟨joined_30_notified, _ ::ₘ flight⟩ _ _)
  have hnode : Function.update joined_30_notified true (joined_50 true) = joined_50 := by
    ext i
    cases i <;> rfl
  rwa [hnode] at hs

theorem joined_50_answer_step (flight : Multiset (Letter Bool)) :
    CorrectionStep HASH_JEN joined_30 ⟨joined_50, joined_30_stabilize ::ₘ flight⟩
      (.handle (.deliver true joined_30_stabilize [joined_30_notify peer_50]))
      ⟨joined_50, joined_30_notify peer_50 ::ₘ flight⟩ := by
  have h : (correction HASH_JEN joined_30).handles true (joined_50 true) joined_30_stabilize
      (joined_50 true) [joined_30_notify peer_50] :=
    answers_stabilize rfl rfl rfl (by decide)
  have hs := CorrectionStep.handle (.deliver h : Step _ ⟨joined_50, _ ::ₘ flight⟩ _ _)
  rwa [Function.update_eq_self] at hs

theorem joined_50_notify_taken : (correction HASH_JEN joined_30).handles false (joined_50 false)
    (joined_30_notify peer_50) (.start ⟨peer_10, some peer_50, some peer_100, none⟩) [] :=
  @takes_notify_letter Bool HASH_JEN joined_30 false _ (joined_50 false) peer_50 peer_30 rfl rfl rfl

/-- The first one takes the node 30 for `next`, then the node 50. -/
theorem not_no_further : (¬ ∀ s m nx pv, Message STABILIZE_MESSAGE m →
      s.globals.peer_info.next = some nx → s.globals.peer_info.prev = some pv →
      (parse m).nodeId ≠ s.globals.peer_info.this.id → Corrects HASH_JEN s m) ∧
    ¬ ∀ G : Bool → Globals, (Function.Injective fun i => (G i).addr) →
      ∀ as C, Machine.Trace (CorrectionStep HASH_JEN G) ⟨G, 0⟩ as C →
      ∀ a C', CorrectionStep HASH_JEN G C a C' →
        ∀ i, NoFurther (G i).peer_info.this.id (C.node i).peer_info (C'.node i).peer_info := by
  constructor
  · intro h
    have hm := stabilize_request_message peer_50
    have hp := parse_wire (stabilize_request_masked peer_50)
    have hc := h joined_30_peer _ peer_10 peer_30 hm rfl rfl (by rw [hp]; decide)
    have ha := (corrects_condition hm rfl rfl).1 hc
    rw [hp] at ha
    revert ha
    show ¬ ((peer_50.id = peer_30.id ∧ peer_100.is_base = 0) ∨
      OnArc peer_50.id peer_100.id peer_30.id)
    decide
  · intro h
    -- the second stabilize is on its way while the first one is answered
    have hrun : Machine.Trace (CorrectionStep HASH_JEN joined_30) ⟨joined_30, 0⟩ _
        ⟨joined_50, joined_30_notify peer_50 ::ₘ answer_50 ::ₘ 0⟩ :=
      .cons (joined_30_stabilize_step 0) (.cons (joined_30_stabilize_step _)
        (.cons (joined_30_answer_step _) (.cons (joined_30_notify_step _)
          (.cons (.handle (.enter ⟨rfl, join_50_message⟩)) (.cons (joined_50_step _)
            (.cons (Multiset.cons_swap answer_50 joined_30_stabilize 0 ▸ joined_50_answer_step _)
              .nil))))))
    have hfar := h joined_30 joined_30_injective _ _ hrun _ _
      (.handle (.deliver joined_50_notify_taken)) false
    obtain ⟨nx, hnx, hle⟩ := hfar peer_30 rfl
    obtain rfl : peer_50 = nx := Option.some.inj hnx
    revert hle
    show ¬ around peer_10.id peer_50.id ≤ around peer_10.id peer_30.id
    decide

end ChordPeer
