/-
  The lookups that `buildfinger` sends, compared with the fingers of a ring.

  Each of them should ask for the id at a power of two ahead.  The receiver
  looks a message up by its `hashId`, which `buildfinger` never sets; what it
  computes goes to `nodeId`, and is one power too far.

  * `finger_messages_eq`: the messages that are sent;
  * `looked_up_eq`, `computed_eq`: the two ids in them;
  * `finger_lookups_never`: no distance is halved.
-/
import ChordPeer.Codec
import ChordPeer.Routing
import ChordPeer.Lib.Fingers

namespace ChordPeer

open Fingers PeerProtocol

/-- The messages that `buildfinger` sends, as their receiver decodes them. -/
def finger_messages (env : Env) (next_node_IP : UInt32) (next_node_Port : UInt16)
    (this_peer_info : Peer) (s : Proc) : List PeerProtocol :=
  match (buildfinger env next_node_IP next_node_Port this_peer_info).run s with
  | .ok (_, s') =>
    ((packets s'.kernel.trace).drop (packets s.kernel.trace).length).map fun q => parse q.data
  | .error _ => []

section
variable {env : Env} {ip : UInt32} {port : UInt16} {p : Peer} {s : Proc}

/-- A connection that comes about carries all of them, any other none. -/
theorem finger_messages_eq (hf : p.next_finger.isSome) :
    finger_messages env ip port p s = if env.accepts ⟨ip, port⟩ then
      (List.range 16).map fun i => parse (finger_request env.stack p i).wire else [] := by
  have hrun : (buildfinger env ip port p).run s = _ :=
    buildfinger_run ⟨ip, port, 0, 0, none⟩ p s
  rw [if_pos hf] at hrun
  rw [finger_messages, hrun]
  dsimp only
  rw [Proc.packets_sentAll, List.drop_left, List.filter_map, List.map_map]
  by_cases ha : env.accepts ⟨ip, port⟩ = true
  · rw [if_pos ha]
    exact congrArg (List.map _) (List.filter_eq_self.2 fun _ _ => ha)
  · rw [if_neg ha]
    exact congrArg (List.map _) (List.filter_eq_nil_iff.2 fun _ _ => ha)

/-! ## The ids in them -/

/-- The ids that the receivers look up. -/
def looked_up (ds : List PeerProtocol) : List (BitVec 16) := ds.map fun d => d.hashId.toBitVec

/-- The ids that `buildfinger` computes. -/
def computed (ds : List PeerProtocol) : List (BitVec 16) := ds.map fun d => d.nodeId.toBitVec

/-- The shift starts at 2. -/
theorem finger_request_nodeId (stack : PeerProtocol) (p : Peer) (i : ℕ) :
    (finger_request stack p i).nodeId.toBitVec =
      p.id.toBitVec + BitVec.ofNat 16 (2 ^ (i + 1)) := by
  have hshift : 2 <<< i = 2 ^ (i + 1) := by rw [Nat.shiftLeft_eq, Nat.pow_succ']
  apply BitVec.eq_of_toNat_eq
  simp [finger_request, hshift]

theorem looked_up_eq (hf : p.next_finger.isSome) (ha : env.accepts ⟨ip, port⟩ = true) :
    looked_up (finger_messages env ip port p s) = List.replicate 16 env.stack.hashId.toBitVec := by
  rw [finger_messages_eq hf, if_pos ha, looked_up, List.map_map]
  refine List.eq_replicate_iff.2 ⟨by simp, fun x hx => ?_⟩
  obtain ⟨i, -, rfl⟩ := List.mem_map.1 hx
  exact congrArg UInt16.toBitVec (parse_wire_numbers (finger_request env.stack p i)).1

theorem computed_eq (hf : p.next_finger.isSome) (ha : env.accepts ⟨ip, port⟩ = true) :
    computed (finger_messages env ip port p s) =
      fingers p.id.toBitVec ((List.range 16).map (· + 1)) := by
  rw [finger_messages_eq hf, if_pos ha, computed, fingers, List.map_map, List.map_map]
  refine List.map_congr_left fun i _ => ?_
  exact (congrArg UInt16.toBitVec (parse_wire_numbers (finger_request env.stack p i)).2.1).trans
    (finger_request_nodeId env.stack p i)

theorem finger_messages_none (hf : p.next_finger.isSome) (ha : ¬ env.accepts ⟨ip, port⟩ = true) :
    finger_messages env ip port p s = [] := by
  rw [finger_messages_eq hf, if_neg ha]

/-! ## Fingers -/

/-- What `buildfinger` should ask for: the exponents below 16 halve every
    distance. -/
theorem table_halves (id : BitVec 16) {d : ℕ} (hd : 0 < d) (hlt : d < 2 ^ 16) :
    Halves id (fingers id (List.range 16)) d := by
  have hle : ∀ k ∈ List.range 16, k ≤ 16 := fun k hk => (List.mem_range.1 hk).le
  refine (halves_fingers_iff id hle hd.ne' hlt).2 ⟨?_, List.nodup_range, List.not_mem_range_self⟩
  exact List.mem_range.2 (Nat.log_lt_of_lt_pow hd.ne' hlt)

/-- All receivers look up one id, which is whatever the stack held. -/
theorem not_halves_looked_up (hf : p.next_finger.isSome) (d : ℕ) :
    ¬ Halves p.id.toBitVec (looked_up (finger_messages env ip port p s)) d := by
  intro h
  by_cases ha : env.accepts ⟨ip, port⟩ = true
  · have hnodup := h.nodup
    rw [looked_up_eq hf ha, List.nodup_replicate] at hnodup
    omega
  · obtain ⟨k, -, -, hk⟩ := h.finger
    rw [finger_messages_none hf ha] at hk
    exact List.not_mem_nil hk

/-- The exponents of the ids that are computed. -/
theorem exponents_le : ∀ k ∈ (List.range 16).map (· + 1), k ≤ 16 := by
  intro k hk
  obtain ⟨i, hi, rfl⟩ := List.mem_map.1 hk
  exact List.mem_range.1 hi

/-- The last of them is the own id. -/
theorem not_halves_computed (hf : p.next_finger.isSome) {d : ℕ} (hd : 0 < d) (hlt : d < 2 ^ 16) :
    ¬ Halves p.id.toBitVec (computed (finger_messages env ip port p s)) d := by
  intro h
  by_cases ha : env.accepts ⟨ip, port⟩ = true
  · rw [computed_eq hf ha, halves_fingers_iff _ exponents_le hd.ne' hlt] at h
    exact h.2.2 (List.mem_map.2 ⟨15, List.mem_range.2 (by omega), rfl⟩)
  · obtain ⟨k, -, -, hk⟩ := h.finger
    rw [finger_messages_none hf ha] at hk
    exact List.not_mem_nil hk

/-- **Finger lookups.**  They halve no distance.  The ids that are computed
    would leave out the own successor and ask for the own id instead. -/
theorem finger_lookups_never (hf : p.next_finger.isSome) {d : ℕ} (hd : 0 < d) (hlt : d < 2 ^ 16) :
    ¬ Halves p.id.toBitVec (looked_up (finger_messages env ip port p s)) d ∧
      ¬ Halves p.id.toBitVec (computed (finger_messages env ip port p s)) d ∧
      (env.accepts ⟨ip, port⟩ = true →
        ((∃ k, 2 ^ k ≤ d ∧ d < 2 ^ (k + 1) ∧ p.id.toBitVec + BitVec.ofNat 16 (2 ^ k) ∈
          computed (finger_messages env ip port p s)) ↔ 2 ≤ d)) := by
  refine ⟨not_halves_looked_up hf d, not_halves_computed hf hd hlt, fun ha => ?_⟩
  rw [computed_eq hf ha, finger_mem_iff _ exponents_le hd.ne' hlt]
  have hlog : Nat.log 2 d < 16 := Nat.log_lt_of_lt_pow hd.ne' hlt
  constructor
  · intro h
    obtain ⟨i, -, hi⟩ := List.mem_map.1 h
    have hpow := Nat.pow_le_of_le_log hd.ne' hi.le
    rw [Nat.pow_succ] at hpow
    have := Nat.pow_pos (n := i) Nat.two_pos
    omega
  · intro h
    have hpos : 0 < Nat.log 2 d := Nat.log_pos Nat.one_lt_two h
    exact List.mem_map.2 ⟨Nat.log 2 d - 1, List.mem_range.2 (by omega), by omega⟩

end

/-- A peer that would have a finger table. -/
def finger_peer : Peer := { peer_10 with next_finger := some 0 }

theorem finger_lookups_never_finger_peer :
    ¬ Halves finger_peer.id.toBitVec
      (looked_up (finger_messages (.reliable .zero) peer_100.ip peer_100.port finger_peer
        ⟨.start ⟨finger_peer, some peer_100, some peer_100, none⟩, .fresh⟩)) 1 :=
  (finger_lookups_never rfl Nat.zero_lt_one (by decide)).1

/-- Not even the distance to the own successor is halved. -/
theorem not_finger_lookups : ¬ ∀ (env : Env) (ip : UInt32) (port : UInt16) (p : Peer) (s : Proc)
    (d : ℕ), p.next_finger.isSome → 0 < d → d < 2 ^ 16 →
    Halves p.id.toBitVec (looked_up (finger_messages env ip port p s)) d := by
  intro h
  have h₁ := h (.reliable .zero) peer_100.ip peer_100.port finger_peer
    ⟨.start ⟨finger_peer, some peer_100, some peer_100, none⟩, .fresh⟩ 1 rfl Nat.zero_lt_one
    (by decide)
  exact not_halves_looked_up rfl 1 h₁

end ChordPeer
