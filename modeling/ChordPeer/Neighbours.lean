/-
  Which messages a peer can handle with the neighbours it has.

  A peer starts without `next` and `prev`; they are allocated in some branches
  of the handler and read through in nearly all.

  * `Reachable`: the states a peer can be in after it handled any messages;
    `reachable_neighbours`: `next` is never set without `prev`;
  * `neverNull_iff`: in such a state, the handler reads through a `NULL`
    neighbour on a message exactly when `next` is not set and the message is
    none of those that get by without it.
-/
import ChordPeer.Joining

namespace ChordPeer

open CBytes PeerProtocol

/-! ## Runs that read through no `NULL` neighbour -/

/-- A run that does not stop at a `NULL` neighbour. -/
def NoNull {α : Type} (x : Except Stop α) : Prop :=
  ∀ f, x = .error (.fault f) → f ≠ .nullNext ∧ f ≠ .nullPrev

section
variable {α β : Type}

theorem NoNull.ok (a : α) : NoNull (.ok a) := by
  intro f h
  cases h

theorem NoNull.bind {x : Except Stop α} {f : α → Except Stop β} (hx : NoNull x)
    (hf : ∀ a, x = .ok a → NoNull (f a)) : NoNull (x >>= f) := by
  cases x with
  | error e =>
    intro g h
    exact hx g (by simpa using h)
  | ok a => exact hf a rfl

theorem noNull_heapFault (x : Except HeapFault α) : NoNull (heapFault x) := by
  intro f h
  cases x with
  | error e =>
    cases h
    exact ⟨by simp, by simp⟩
  | ok a => cases h

end

theorem noNull_direct_receive (rs : List RecvResult) :
    ∀ status h, NoNull (direct_receive rs status h) := by
  induction rs with
  | nil =>
    intro status h f hf
    cases hf
  | cons r rs ih =>
    intro status h
    unfold direct_receive
    refine .bind (noNull_heapFault _) fun h₁ _ => ?_
    by_cases hlt : r.count < BUFFER_SIZE
    · rw [if_pos hlt]
      exact .bind (noNull_heapFault _) fun _ _ => .ok _
    rw [if_neg hlt]
    by_cases heq : r.count = BUFFER_SIZE
    · rw [if_pos heq]
      refine .bind (ih _ _) fun _ _ => .bind (noNull_heapFault _) fun _ _ => ?_
      refine .bind (noNull_heapFault _) fun _ _ => .bind (noNull_heapFault _) fun _ _ => ?_
      refine .bind (noNull_heapFault _) fun _ _ => .bind (noNull_heapFault _) fun _ _ => ?_
      cases status with
      | true => exact .ok _
      | false => exact .bind (noNull_heapFault _) fun _ _ => .ok _
    · rw [if_neg heq]
      exact .bind (noNull_heapFault _) fun _ _ => .ok _

theorem noNull_redirect (env : Env) (sock_from : Socket) {sock_to : Socket} (s : Proc) :
    NoNull ((redirect env sock_from sock_to).run s) := by
  simp only [redirect, StateT.run_bind, onHeap_run]
  refine .bind (.bind (noNull_direct_receive _ _ _) fun _ _ => .ok _) fun r _ => ?_
  refine .bind (.bind (.bind (noNull_heapFault _) fun _ _ => .ok _) fun _ _ => .ok _) fun _ _ => ?_
  refine .bind ?_ fun _ _ => .ok _
  by_cases h : sock_to.fd = -1
  · simpa [send, h] using NoNull.ok _
  · rw [send_run h]
    exact .ok _

theorem respond_updates_error {t : HashTable} {d : ClientProtocol} {f : Fault}
    (h : respond_updates t d = .error f) : f = .nullElement := by
  unfold respond_updates at h
  dsimp only at h
  by_cases hd : d.delete ≠ 0
  · rw [if_pos hd] at h
    split at h <;> cases h
    rfl
  · rw [if_neg hd] at h
    cases h

theorem respond_error {t : HashTable} {d : ClientProtocol} {f : Fault}
    (h : respond t d = .error f) : f = .nullElement := by
  unfold respond at h
  by_cases hg : d.get ≠ 0
  · rw [if_pos hg] at h
    dsimp only at h
    split at h
    · cases h
    · split at h
      · next hu =>
        cases h
        exact respond_updates_error hu
      · cases h
  · rw [if_neg hg] at h
    exact respond_updates_error h

/-! ## Messages between peers -/

/-- The branch that a message takes gets by without `next`. -/
def PeerInfo.copes (i : PeerInfo) (d : PeerProtocol) : Prop :=
  if d.finger ≠ 0 then d.lookup ≠ 0
  else if d.fack ≠ 0 then True
  else if d.join ≠ 0 then True
  else if d.notify ≠ 0 then False
  else if d.stabilize ≠ 0 then ∀ pv, i.prev = some pv → d.nodeId ≠ pv.id
  else if d.reply ≠ 0 then True
  else d.lookup = 0

/-- The branch does not read through a `NULL` neighbour. -/
def Outcome.NoNull (o : Outcome) : Prop := ∀ f, o = .error f → f ≠ .nullNext ∧ f ≠ .nullPrev

theorem Outcome.noNull_ok (r : PeerInfo × List Packet) : Outcome.NoNull (.ok r) := by
  intro f h
  cases h

theorem Outcome.not_noNull : ¬ Outcome.NoNull (.error .nullNext) :=
  fun h => (h _ rfl).1 rfl

theorem noNull_after {env : Env} {s : Proc} {o : Outcome} :
    NoNull (s.after env o) ↔ o.NoNull := by
  cases o with
  | ok r => exact ⟨fun _ => Outcome.noNull_ok r, fun _ => .ok _⟩
  | error g =>
    constructor
    · intro h f hf
      cases hf
      exact h _ rfl
    · intro h f hf
      cases hf
      exact h _ rfl

section
variable {stack d : PeerProtocol} {i : PeerInfo} {raw : List UInt8}

/-- With both neighbours set, every message can be handled. -/
theorem step_noNull_set {nx pv : Peer} (hn : i.next = some nx) (hv : i.prev = some pv) :
    (Peer.step stack i d raw).NoNull := by
  rw [Peer.step_dispatch]
  cases dispatch d with
  | fack | falsy => exact Outcome.noNull_ok _
  | finger =>
    show (Peer.on_finger stack i d).NoNull
    rw [Peer.on_finger, hn]
    split <;> exact Outcome.noNull_ok _
  | join =>
    show (Peer.on_join stack i d raw).NoNull
    rw [Peer.on_join, hn, hv]
    dsimp only
    split <;> exact Outcome.noNull_ok _
  | notify =>
    show (Peer.on_notify i d).NoNull
    rw [Peer.on_notify, hn]
    exact Outcome.noNull_ok _
  | stabilize =>
    show (Peer.on_stabilize stack i d).NoNull
    rw [Peer.on_stabilize, hn, hv]
    dsimp only
    split <;> exact Outcome.noNull_ok _
  | reply =>
    intro f h
    cases h
    exact ⟨by simp, by simp⟩
  | lookup =>
    show (Peer.on_lookup i d raw).NoNull
    rw [Peer.on_lookup, hn]
    dsimp only
    split <;> exact Outcome.noNull_ok _

theorem on_finger_noNull (hn : i.next = none) :
    (Peer.on_finger stack i d).NoNull ↔ d.lookup ≠ 0 := by
  unfold Peer.on_finger
  by_cases hl : d.lookup ≠ 0
  · rw [if_pos hl]
    exact ⟨fun _ => hl, fun _ => Outcome.noNull_ok _⟩
  · rw [if_neg hl, hn]
    exact ⟨fun h => absurd h Outcome.not_noNull, fun h => absurd h hl⟩

theorem on_stabilize_noNull (hn : i.next = none) (hb : i.this.is_base = 0) :
    (Peer.on_stabilize stack i d).NoNull ↔ ∀ pv, i.prev = some pv → d.nodeId ≠ pv.id := by
  unfold Peer.on_stabilize
  cases hv : i.prev with
  | none => exact ⟨fun _ pv h => absurd h (by simp), fun _ => Outcome.noNull_ok _⟩
  | some pv =>
    by_cases hid : d.nodeId = pv.id
    · simp only [hid, hb, and_self, if_true, hn]
      exact ⟨fun h => absurd h Outcome.not_noNull, fun h => absurd rfl (h pv rfl)⟩
    · simp only [hid, false_and, if_false]
      refine ⟨fun _ q hq => ?_, fun _ => Outcome.noNull_ok _⟩
      cases hq
      exact hid

theorem step_noNull_unset (hn : i.next = none) (hb : i.this.is_base = 0) :
    (Peer.step stack i d raw).NoNull ↔ i.copes d := by
  unfold Peer.step PeerInfo.copes
  by_cases hfi : d.finger ≠ 0
  · rw [if_pos hfi, if_pos hfi]
    exact on_finger_noNull hn
  rw [if_neg hfi, if_neg hfi]
  by_cases hfa : d.fack ≠ 0
  · rw [if_pos hfa, if_pos hfa]
    exact ⟨fun _ => trivial, fun _ => Outcome.noNull_ok _⟩
  rw [if_neg hfa, if_neg hfa]
  by_cases hj : d.join ≠ 0
  · rw [if_pos hj, if_pos hj, Peer.on_join, hn]
    exact ⟨fun _ => trivial, fun _ => Outcome.noNull_ok _⟩
  rw [if_neg hj, if_neg hj]
  by_cases hnt : d.notify ≠ 0
  · rw [if_pos hnt, if_pos hnt, Peer.on_notify, hn]
    exact ⟨fun h => absurd h Outcome.not_noNull, False.elim⟩
  rw [if_neg hnt, if_neg hnt]
  by_cases hs : d.stabilize ≠ 0
  · rw [if_pos hs, if_pos hs]
    exact on_stabilize_noNull hn hb
  rw [if_neg hs, if_neg hs]
  by_cases hr : d.reply ≠ 0
  · rw [if_pos hr, if_pos hr]
    refine ⟨fun _ => trivial, fun _ f h => ?_⟩
    cases h
    exact ⟨by simp, by simp⟩
  rw [if_neg hr, if_neg hr]
  by_cases hl : d.lookup ≠ 0
  · rw [if_pos hl, Peer.on_lookup, hn]
    exact ⟨fun h => absurd h Outcome.not_noNull, fun h => absurd h hl⟩
  · rw [if_neg hl]
    exact ⟨fun _ => not_not.1 hl, fun _ => Outcome.noNull_ok _⟩

end

/-! ## States a peer can be in -/

/-- The states of a peer: as `main` starts it, alone or with a join address,
    and after each message that was handled to its end. -/
inductive Reachable (hash : List UInt8 → UInt32) : Globals → Prop where
  | main {this : Peer} (hf : this.next_finger = none) (hb : this.is_base = 0) (join : Option Peer) :
      Reachable hash (.start ⟨this, none, none, join⟩)
  | handle {g : Globals} (hg : Reachable hash g) {m : List UInt8} (hm : WellFormedMessage m)
      {env : Env} {rest : Mem} {sock : Socket} (hs : sock.Accepted) {kernel : Kernel} {s' : Proc}
      (hr : (receive_handler hash env (.of m rest) sock).run ⟨g, kernel⟩ = .ok ((), s')) :
      Reachable hash s'.globals

/-- What holds of the neighbour records throughout. -/
structure NeighboursOk (i : PeerInfo) : Prop where
  prev : i.next.isSome → i.prev.isSome
  base : i.this.is_base = 0

theorem InfoStep.neighboursOk {i i' : PeerInfo} {d : PeerProtocol} (h : InfoStep i d i')
    (hi : NeighboursOk i) : NeighboursOk i' := by
  cases h with
  | none => exact hi
  | both => exact ⟨fun _ => rfl, hi.base⟩
  | prev => exact ⟨fun _ => rfl, hi.base⟩
  | prev_new => exact ⟨fun _ => rfl, hi.base⟩
  | next hn => exact ⟨fun _ => hi.prev (by simp [hn]), hi.base⟩

theorem ClientStep.peer_info {env : Env} {s s' : Proc} {d : ClientProtocol} {bytes : List UInt8}
    {h : UInt16} {sock : Socket} (hc : ClientStep env s d bytes h sock s') :
    s'.globals.peer_info = s.globals.peer_info := by
  rcases hc.globals with ⟨t, out, -, -, hg⟩ | hg
  · rw [hg]
  · rw [hg]

section
variable {hash : List UInt8 → UInt32} {g : Globals} {m : List UInt8}

/-- **No `next` without `prev`.** -/
theorem reachable_neighbours (hg : Reachable hash g) : NeighboursOk g.peer_info := by
  induction hg with
  | main hf hb => exact ⟨fun h => absurd h (by simp [Globals.start]), hb⟩
  | handle hg hm hs hr ih =>
    cases handler_cases hm hs.fd hr with
    | peer _ hstep =>
      rw [Proc.sentAll_globals]
      exact (Peer.step_cases hstep).neighboursOk ih
    | client _ h =>
      rw [h.peer_info]
      exact ih

/-! ## Which messages read through no `NULL` neighbour -/

/-- Whatever the handler meets on a message, it does not stop at a `NULL`
    neighbour. -/
def NeverNull (hash : List UInt8 → UInt32) (g : Globals) (m : List UInt8) : Prop :=
  ∀ (env : Env) (rest : Mem) (sock : Socket) (kernel : Kernel), sock.Accepted →
    NoNull ((receive_handler hash env (.of m rest) sock).run ⟨g, kernel⟩)

theorem neverNull_peer (hl : m.length = peerProtocolCalculateSize) (hc : (parse m).control ≠ 0)
    (hi : NeighboursOk g.peer_info) :
    NeverNull hash g m ↔ g.peer_info.next.isSome ∨ g.peer_info.copes (parse m) := by
  cases hn : g.peer_info.next with
  | some nx =>
    obtain ⟨pv, hv⟩ := Option.isSome_iff_exists.1 (hi.prev (by simp [hn]))
    refine ⟨fun _ => .inl rfl, fun _ env rest sock kernel _ => ?_⟩
    rw [receive_handler_message hash hl hc, noNull_after]
    exact step_noNull_set hn hv
  | none =>
    have hiff : ∀ stack, (Peer.step stack g.peer_info (parse m) m).NoNull ↔
        g.peer_info.copes (parse m) := fun _ => step_noNull_unset hn hi.base
    constructor
    · intro h
      have h₀ := h (.reliable .zero) (fun _ => 0) _ .fresh accepted_socket
      rw [receive_handler_message hash hl hc, noNull_after] at h₀
      exact .inr ((hiff _).1 h₀)
    · rintro (h | h) env rest sock kernel -
      · simp at h
      · rw [receive_handler_message hash hl hc, noNull_after]
        exact (hiff _).2 h

theorem noNull_stored {s : Proc} {sock : Socket} {t : HashTable} {d : ClientProtocol} :
    NoNull (s.stored sock (respond t d)) := by
  intro f h
  cases hr : respond t d with
  | ok r => simp [hr, Proc.stored] at h
  | error e =>
    rw [hr] at h
    cases h
    rw [respond_error hr]
    exact ⟨by simp, by simp⟩

theorem neverNull_client (hm : ClientProtocol.WellFormed m)
    (hc : isPeerProtocol (Mem.ofList m fun _ => 0) = false) (hi : NeighboursOk g.peer_info) :
    NeverNull hash g m ↔ g.peer_info.next.isSome ∨
      g.peer_info.owns (get_hash_value hash (ClientProtocol.parse m).key) = true := by
  have hc' : ∀ rest, isPeerProtocol (Received.of m rest).data = false := hm.isPeerProtocol hc
  have hk : ∀ rest, (Received.of m rest).key_hash hash =
      get_hash_value hash (ClientProtocol.parse m).key := key_hash_of hm hash
  -- a request of this peer's never leaves the table
  have hown : g.peer_info.owns (get_hash_value hash (ClientProtocol.parse m).key) = true →
      NeverNull hash g m := fun ho env rest sock kernel hs => by
    rw [receive_handler_own hash (hc' rest) hs.fd (by rw [hk]; exact ho)]
    exact noNull_stored
  cases hn : g.peer_info.next with
  | some nx =>
    obtain ⟨pv, hv⟩ := Option.isSome_iff_exists.1 (hi.prev (by simp [hn]))
    refine ⟨fun _ => .inl rfl, fun _ => ?_⟩
    cases ho : g.peer_info.owns (get_hash_value hash (ClientProtocol.parse m).key) with
    | true => exact hown ho
    | false =>
      intro env rest sock kernel hs
      have hb := owns_run (s := ⟨g, kernel⟩) ((Received.of m rest).key_hash hash) hv
      rw [hk, ho, ← hk rest] at hb
      rw [receive_handler_other hash (hc' rest) sock hb]
      simp only [hn]
      split
      · exact .bind (noNull_redirect _ _ _) fun _ _ => .ok _
      · split
        · exact .ok _
        · rintro f ⟨⟩
          exact ⟨by simp, by simp⟩
  | none =>
    constructor
    · intro h
      refine .inr (Bool.eq_true_of_not_eq_false fun ho => ?_)
      have h₀ := h (.reliable .zero) (fun _ => 0) _ .fresh accepted_socket
      -- either the first test reads through `prev`, or the second through `next`
      rcases owns_run_cases (s := ⟨g, .fresh⟩) (get_hash_value hash (ClientProtocol.parse m).key)
        with hb | hb
      · rw [ho, ← hk fun _ => 0] at hb
        rw [receive_handler_other hash (hc' _) _ hb] at h₀
        simp only [hn] at h₀
        exact (h₀ _ rfl).1 rfl
      · rw [← hk fun _ => 0] at hb
        rw [receive_handler_client hash (hc' _), handle_client, StateT.run_bind] at h₀
        rw [Received.key_hash] at hb
        rw [hb, error_bind] at h₀
        exact (h₀ _ rfl).2 rfl
    · rintro (h | h)
      · simp at h
      · exact hown h

/-- **Messages that need no missing neighbour.** -/
theorem neverNull_iff (hg : Reachable hash g) (hm : WellFormedMessage m) :
    NeverNull hash g m ↔ g.peer_info.next.isSome ∨
      if (parse m).control ≠ 0 then g.peer_info.copes (parse m)
      else g.peer_info.owns (get_hash_value hash (ClientProtocol.parse m).key) = true := by
  have hi := reachable_neighbours hg
  cases hm with
  | peer hl hc =>
    rw [if_pos hc]
    exact neverNull_peer hl hc hi
  | client hm hc =>
    have hc₀ : ¬ (parse m).control ≠ 0 := by
      simpa [isPeerProtocol, parse, decode_peerProtocol] using hc
    rw [if_neg hc₀]
    exact neverNull_client hm hc hi

end

theorem base_peer_reachable (hash : List UInt8 → UInt32) : Reachable hash base_peer :=
  .main rfl rfl none

theorem neverNull_iff_base_peer : NeverNull HASH_JEN base_peer join_50 := by
  refine (neverNull_iff (base_peer_reachable _) join_50_wellFormed).2 (.inr ?_)
  rw [if_pos (by decide), PeerInfo.copes, if_neg (by decide), if_neg (by decide), if_pos (by decide)]
  trivial

/-- A client request, or a message with exactly one of the five flags. -/
def OneKind (d : PeerProtocol) : Prop :=
  d.control = 0 ∨ [d.join, d.notify, d.stabilize, d.lookup, d.finger].countP (· ≠ 0) = 1

/-- A lookup at a peer that nobody has joined yet. -/
theorem not_neverNull : ¬ ∀ (hash : List UInt8 → UInt32) (g : Globals) (m : List UInt8),
    Reachable hash g → WellFormedMessage m → OneKind (parse m) → NeverNull hash g m := by
  intro h
  have hl : lookup_50.length = peerProtocolCalculateSize := lookup_50_message.length
  have hc : (parse lookup_50).control ≠ 0 := by decide
  have hnull := h HASH_JEN base_peer lookup_50 (base_peer_reachable _) (.peer hl hc)
    (.inr (by decide))
  rcases (neverNull_peer hl hc ⟨by decide, rfl⟩).1 hnull with hn | hn
  · simp [base_peer, Globals.start] at hn
  · rw [PeerInfo.copes, if_neg (by decide), if_neg (by decide), if_neg (by decide),
      if_neg (by decide), if_neg (by decide), if_neg (by decide)] at hn
    revert hn
    decide

end ChordPeer
