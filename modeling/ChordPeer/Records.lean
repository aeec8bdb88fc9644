/-
  The neighbour records over whole runs.

  `next` and `prev` start unset.  A stabilize may set `prev` alone; the first
  join sets both.

  * `Turn`: a message handled to its end;
  * `RecordsOk`: what holds of the records throughout, `RecordsKept`: what a
    message leaves of them;
  * `Turn.recordsOk`, `Turn.recordsKept`: one message; `records_run`: all runs
    from the start.
-/
import ChordPeer.Neighbours
import ChordPeer.Responsibility

namespace ChordPeer

open CBytes PeerProtocol

/-! ## One message -/

/-- A message handled to its end, whatever the kernel holds when it comes. -/
def Turn (hash : List UInt8 → UInt32) (g : Globals) (a : Arrival) (g' : Globals) : Prop :=
  ∃ kernel s', Handled hash ⟨g, kernel⟩ a s' ∧ s'.globals = g'

/-- A message between peers, by its bytes. -/
theorem handled_message {hash : List UInt8 → UInt32} {m : List UInt8} {rest : Mem} {sock : Socket}
    {env : Env} {s : Proc} {i : PeerInfo} {out : List Packet}
    (hl : m.length = peerProtocolCalculateSize) (hc : (parse m).control ≠ 0) (hs : sock.Accepted)
    (h : Peer.step env.stack s.globals.peer_info (parse m) m = .ok (i, out)) :
    Handled hash s ⟨m, rest, sock, env⟩ ((s.withInfo i).sentAll env out) := by
  refine ⟨hs, ?_⟩
  rw [Arrival.handle, receive_handler_message hash hl hc, h]
  rfl

/-- A join that leaves the node of the message in both records. -/
structure JoinSets (a : Arrival) (i' : PeerInfo) : Prop where
  peer : isPeerProtocol a.msg = true
  join : dispatch (decode_peerProtocol a.msg) = .join
  next : i'.next = some (Peer.zero.assign (decode_peerProtocol a.msg))
  prev : i'.prev = some (Peer.zero.assign (decode_peerProtocol a.msg))

/-- What holds of the records throughout. -/
structure RecordsOk (i : PeerInfo) : Prop where
  order : i.next.isSome → i.prev.isSome
  finger : i.this.next_finger = none
  base : i.this.is_base = 0

/-- What a message leaves of the records: they are not unset, and `next` is set
    at first by a join. -/
structure RecordsKept (a : Arrival) (i i' : PeerInfo) : Prop where
  next : i.next.isSome → i'.next.isSome
  prev : i.prev.isSome → i'.prev.isSome
  first : i.next = none → i'.next.isSome → JoinSets a i'

section
variable {stack d : PeerProtocol} {i i' : PeerInfo} {raw : List UInt8} {out : List Packet}

theorem InfoStep.next_isSome (h : InfoStep i d i') (hn : i.next.isSome) : i'.next.isSome := by
  cases h with
  | none | prev | prev_new => exact hn
  | both | next => rfl

theorem InfoStep.prev_isSome (h : InfoStep i d i') (hv : i.prev.isSome) : i'.prev.isSome := by
  cases h with
  | none | next => exact hv
  | both | prev | prev_new => rfl

theorem InfoStep.recordsOk (h : InfoStep i d i') (hi : RecordsOk i) : RecordsOk i' := by
  refine ⟨fun hn => ?_, by rw [h.this, hi.finger], by rw [h.this, hi.base]⟩
  cases h with
  | none => exact hi.order hn
  | both | prev | prev_new => rfl
  | next hn' => exact hi.order (Option.isSome_iff_exists.2 ⟨_, hn'⟩)

/-- Every step but a first join leaves `next` as it is, or reads through it. -/
theorem step_next_set (h : Peer.step stack i d raw = .ok (i', out)) (hn : i.next = none)
    (hs : i'.next.isSome) : dispatch d = .join ∧ i'.next = some (Peer.zero.assign d) ∧
      i'.prev = some (Peer.zero.assign d) := by
  have hunset : i'.next ≠ i.next := by
    intro heq
    rw [heq, hn] at hs
    cases hs
  cases Peer.step_inv h with
  | join_first hd => exact ⟨hd, rfl, rfl⟩
  | notify _ hn' => cases hn.symm.trans hn'
  | ignored | fingers | join_taken | join_passed | stabilize_first | stabilize_passed
  | stabilize_answered | lookup_found | lookup_passed => exact absurd rfl hunset

end

section
variable {hash : List UInt8 → UInt32} {g g' : Globals} {a : Arrival} {as : List Arrival}

/-- A message takes a step on the records, or it is a request and leaves them. -/
theorem Turn.cases (h : Turn hash g a g') :
    (isPeerProtocol a.msg = true ∧ ∃ stack out, Peer.step stack g.peer_info
      (decode_peerProtocol a.msg) a.message = .ok (g'.peer_info, out)) ∨
      g'.peer_info = g.peer_info := by
  obtain ⟨kernel, s', h, rfl⟩ := h
  cases arrival_cases h.sock.fd h.run with
  | peer hc hstep =>
    rw [Proc.sentAll_globals]
    exact .inl ⟨hc, _, _, hstep⟩
  | client hc h => exact .inr h.peer_info

theorem Turn.recordsOk (h : Turn hash g a g') (hi : RecordsOk g.peer_info) :
    RecordsOk g'.peer_info := by
  rcases h.cases with ⟨-, stack, out, hstep⟩ | h
  · exact (Peer.step_cases hstep).recordsOk hi
  · rw [h]
    exact hi

theorem Turn.recordsKept (h : Turn hash g a g') : RecordsKept a g.peer_info g'.peer_info := by
  rcases h.cases with ⟨hc, stack, out, hstep⟩ | h
  · have hinfo := Peer.step_cases hstep
    refine ⟨hinfo.next_isSome, hinfo.prev_isSome, fun hn hs => ?_⟩
    obtain ⟨hd, hnext, hprev⟩ := step_next_set hstep hn hs
    exact ⟨hc, hd, hnext, hprev⟩
  · rw [h]
    refine ⟨id, id, fun hn hs => ?_⟩
    rw [hn] at hs
    cases hs

/-! ## Runs -/

theorem turns_recordsOk (h : Machine.Trace (Turn hash) g as g') (hi : RecordsOk g.peer_info) :
    RecordsOk g'.peer_info := by
  have hkeep : ∀ g a g', RecordsOk g.peer_info → Turn hash g a g' → RecordsOk g'.peer_info :=
    fun _ _ _ hi ha => ha.recordsOk hi
  exact h.invariant hkeep hi

theorem turns_next (h : Machine.Trace (Turn hash) g as g') (hn : g.peer_info.next.isSome) :
    g'.peer_info.next.isSome := by
  have hkeep : ∀ g a g', g.peer_info.next.isSome → Turn hash g a g' → g'.peer_info.next.isSome :=
    fun _ _ _ hn ha => ha.recordsKept.next hn
  exact h.invariant hkeep hn

theorem turns_prev (h : Machine.Trace (Turn hash) g as g') (hv : g.peer_info.prev.isSome) :
    g'.peer_info.prev.isSome := by
  have hkeep : ∀ g a g', g.peer_info.prev.isSome → Turn hash g a g' → g'.peer_info.prev.isSome :=
    fun _ _ _ hv ha => ha.recordsKept.prev hv
  exact h.invariant hkeep hv

/-- A run in which `next` gets set goes through the join that does it. -/
theorem turns_first (h : Machine.Trace (Turn hash) g as g') (hn : g.peer_info.next = none)
    (hn' : g'.peer_info.next.isSome) : ∃ bs a cs t t', as = bs ++ a :: cs ∧
      Machine.Trace (Turn hash) g bs t ∧ t.peer_info.next = none ∧ Turn hash t a t' ∧
      JoinSets a t'.peer_info ∧ Machine.Trace (Turn hash) t' cs g' := by
  have hunset : ¬ g.peer_info.next.isSome := by
    rw [hn]
    exact Bool.false_ne_true
  obtain ⟨bs, a, cs, t, t', has, ht, hnt, hturn, hnt', hcs⟩ :=
    h.exists_change (P := fun g => g.peer_info.next.isSome) hunset hn'
  have hnone : t.peer_info.next = none := Option.not_isSome_iff_eq_none.1 hnt
  exact ⟨bs, a, cs, t, t', has, ht, hnone, hturn, hturn.recordsKept.first hnone hnt', hcs⟩

/-- **The neighbour records.**  Over every run from the start of a peer, `next`
    comes with `prev`, neither is unset again, and `next` is first set by a
    join, to the node that `prev` gets too. -/
theorem records_run {this : Peer} (hf : this.next_finger = none) (hb : this.is_base = 0)
    {join : Option Peer} (h : Machine.Trace (Turn hash) (.start ⟨this, none, none, join⟩) as g) :
    RecordsOk g.peer_info ∧
      (∀ a g', Turn hash g a g' → RecordsKept a g.peer_info g'.peer_info) ∧
      (∀ bs g', Machine.Trace (Turn hash) g bs g' →
        (g.peer_info.next.isSome → g'.peer_info.next.isSome) ∧
          (g.peer_info.prev.isSome → g'.peer_info.prev.isSome)) ∧
      (g.peer_info.next.isSome → ∃ bs a cs t t', as = bs ++ a :: cs ∧
        Machine.Trace (Turn hash) (.start ⟨this, none, none, join⟩) bs t ∧
        t.peer_info.next = none ∧ Turn hash t a t' ∧ JoinSets a t'.peer_info ∧
        Machine.Trace (Turn hash) t' cs g) := by
  have hstart : RecordsOk (Globals.start ⟨this, none, none, join⟩).peer_info :=
    ⟨fun hn => absurd hn Bool.false_ne_true, hf, hb⟩
  refine ⟨turns_recordsOk h hstart, fun a g' ha => ha.recordsKept, fun bs g' hr => ?_, fun hn => ?_⟩
  · exact ⟨turns_next hr, turns_prev hr⟩
  · exact turns_first h rfl hn

end

/-- A first join at a peer that is alone. -/
def arrival_join_50 : Arrival := ⟨join_50, fun _ => 0, ⟨4, none⟩, .reliable .zero⟩

theorem arrival_join_50_handled : ∃ s', Handled HASH_JEN ⟨base_peer, .fresh⟩ arrival_join_50 s' :=
  ⟨_, handled_message join_50_message.length (by decide) ⟨by decide, rfl⟩
    (step_join_alone .zero join_50_message rfl)⟩

theorem records_run_join_50 : ∃ g, Machine.Trace (Turn HASH_JEN) base_peer [arrival_join_50] g ∧
    RecordsOk g.peer_info := by
  obtain ⟨s', h⟩ := arrival_join_50_handled
  have hrun : Machine.Trace (Turn HASH_JEN) base_peer [arrival_join_50] s'.globals :=
    .cons ⟨_, _, h, rfl⟩ .nil
  exact ⟨s'.globals, hrun, (records_run rfl rfl hrun).1⟩

end ChordPeer
