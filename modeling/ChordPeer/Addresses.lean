/-
  The texts of an address (`generic/network.h`), and the addresses they are
  made for.

  Wherever a peer contacts another, `int_addr_to_str` and `int_port_to_str`
  declare an array on the stack and write the text of the number into it.

  * `usable_iff`: both texts fit their arrays exactly when the port has at
    most four digits;
  * `text_address_iff`: then, and only then, `getaddrinfo` is given texts from
    which it finds the address;
  * `contacts_learned`: an address that a peer contacts came in a message;
  * `learnedUsable_iff`: which of them can be used.
-/
import ChordPeer.Records
import ChordPeer.Lib.CText

namespace ChordPeer

open CBytes CText PeerProtocol

/-! ## The macros -/

def INET_ADDRSTRLEN : ℕ := 16

/-- An array of characters as a macro leaves it: its size, and what was written
    from its start. -/
structure TextArray where
  size : ℕ
  written : List Char

/-- The text and its terminator are in the array. -/
def TextArray.Fits (t : TextArray) : Prop := NUL ∈ t.written ∧ t.written.length ≤ t.size

/-- `int_addr_to_str`.  The bytes of the number are read in the order in which
    they are in memory. -/
def int_addr_to_str (addr : UInt32) : TextArray where
  size := INET_ADDRSTRLEN
  written := match inet_ntop (le32 addr) INET_ADDRSTRLEN with
    | some text => stored text
    | none => []

def int_port_to_str (port : UInt16) : TextArray where
  size := 5
  written := stored (decimal port.toNat)

/-- `str_port_to_int`: the `int` of `atoi`, narrowed. -/
def str_port_to_int (port : List Char) : UInt16 := UInt16.ofInt (atoi port)

/-- `str_addr_to_int`: the bytes go where the number is in memory. -/
def str_addr_to_int (addr : List Char) : UInt32 :=
  match inet_pton addr with
  | some [b₀, b₁, b₂, b₃] => word32 b₃ b₂ b₁ b₀
  | _ => 0

/-- The texts of an address fit, and are read back as the address. -/
structure Usable (a : Addr) : Prop where
  addr_fits : (int_addr_to_str a.ip).Fits
  port_fits : (int_port_to_str a.port).Fits
  ip : str_addr_to_int (c_str (int_addr_to_str a.ip).written) = a.ip
  port : str_port_to_int (c_str (int_port_to_str a.port).written) = a.port

theorem int_addr_to_str_written (ip : UInt32) :
    (int_addr_to_str ip).written = stored (dotted (le32 ip)) := by
  have hlen := length_dotted_le (le32 ip) rfl
  rw [int_addr_to_str, inet_ntop, INET_ADDRSTRLEN, if_pos (by omega)]

theorem addr_fits (ip : UInt32) : (int_addr_to_str ip).Fits := by
  have hlen := length_dotted_le (le32 ip) rfl
  rw [TextArray.Fits, int_addr_to_str_written]
  refine ⟨by simp [stored], ?_⟩
  show (stored (dotted (le32 ip))).length ≤ 16
  rw [stored, List.length_append, List.length_singleton]
  omega

theorem str_addr_to_int_dotted (ip : UInt32) : str_addr_to_int (dotted (le32 ip)) = ip := by
  rw [str_addr_to_int, inet_pton_dotted rfl]
  exact word32_byte32 ip

theorem addr_read_back (ip : UInt32) :
    str_addr_to_int (c_str (int_addr_to_str ip).written) = ip := by
  rw [int_addr_to_str_written, c_str_stored (NUL_not_mem_dotted _)]
  exact str_addr_to_int_dotted ip

theorem port_read_back (port : UInt16) :
    str_port_to_int (c_str (int_port_to_str port).written) = port := by
  rw [int_port_to_str, c_str_stored (NUL_not_mem_decimal _), str_port_to_int]
  exact ofInt_atoi_decimal port

/-- The array of five holds four digits. -/
theorem port_fits_iff (port : UInt16) : (int_port_to_str port).Fits ↔ port.toNat < 10000 := by
  have hnul : NUL ∈ (int_port_to_str port).written := by simp [int_port_to_str, stored]
  have hlen : (int_port_to_str port).written.length = (decimal port.toNat).length + 1 := by
    simp [int_port_to_str, stored]
  have hfour : (decimal port.toNat).length ≤ 4 ↔ port.toNat < 10 ^ 4 :=
    length_decimal_le_iff (by omega)
  rw [TextArray.Fits, and_iff_right hnul, hlen]
  exact Nat.succ_le_succ_iff.trans hfour

theorem usable_iff (a : Addr) : Usable a ↔ a.port.toNat < 10000 := by
  rw [← port_fits_iff]
  exact ⟨fun h => h.port_fits, fun h => ⟨addr_fits _, h, addr_read_back _, port_read_back _⟩⟩

/-! ## From the texts to the address -/

instance decidableFits (t : TextArray) : Decidable t.Fits := inferInstanceAs (Decidable (_ ∧ _))

/-- The text in the array, if it ends there. -/
def TextArray.text (t : TextArray) : Option (List Char) :=
  if t.Fits then some (c_str t.written) else none

theorem TextArray.Fits.text {t : TextArray} (h : t.Fits) : t.text = some (c_str t.written) := if_pos h

theorem TextArray.fits_of_text {t : TextArray} {text : List Char} (h : t.text = some text) :
    t.Fits := by
  rw [TextArray.text] at h
  split at h
  · assumption
  · cases h

/-- `getaddrinfo` finds an address that is written as numbers. -/
def NumericLookup (getaddrinfo : List Char → List Char → Option Addr) : Prop :=
  ∀ a : Addr, getaddrinfo (dotted (le32 a.ip)) (decimal a.port.toNat) = some a

/-- What `getaddrinfo` finds in `setup_as_client` for the texts of an address. -/
def text_address (getaddrinfo : List Char → List Char → Option Addr) (a : Addr) : Option Addr := do
  let nodeIp ← (int_addr_to_str a.ip).text
  let nodePort ← (int_port_to_str a.port).text
  getaddrinfo nodeIp nodePort

/-- **An address stands for its texts**, exactly if it can be used. -/
theorem text_address_iff {getaddrinfo : List Char → List Char → Option Addr}
    (hg : NumericLookup getaddrinfo) (a : Addr) :
    text_address getaddrinfo a = some a ↔ Usable a := by
  constructor
  · intro h
    obtain ⟨nodeIp, -, h⟩ := Option.bind_eq_some_iff.1 h
    obtain ⟨nodePort, hport, -⟩ := Option.bind_eq_some_iff.1 h
    exact (usable_iff a).2 ((port_fits_iff _).1 (TextArray.fits_of_text hport))
  · intro h
    have hip : (int_addr_to_str a.ip).text = some (dotted (le32 a.ip)) := by
      rw [h.addr_fits.text, int_addr_to_str_written, c_str_stored (NUL_not_mem_dotted _)]
    have hport : (int_port_to_str a.port).text = some (decimal a.port.toNat) := by
      rw [h.port_fits.text, int_port_to_str, c_str_stored (NUL_not_mem_decimal _)]
    rw [text_address, hip, hport]
    exact hg a

/-! ## The addresses that a peer contacts -/

/-- A message makes the peer send something to an address. -/
def Contacts (hash : List UInt8 → UInt32) (g : Globals) (a : Arrival) (addr : Addr) : Prop :=
  ∃ kernel s' out data, Handled hash ⟨g, kernel⟩ a s' ∧
    packets s'.kernel.trace = packets kernel.trace ++ out ∧ ⟨addr, data⟩ ∈ out

/-- A message of another peer carried the address. -/
def Learned (as : List Arrival) (addr : Addr) : Prop :=
  ∃ a ∈ as, isPeerProtocol a.msg = true ∧ (decode_peerProtocol a.msg).node = addr

/-- One of the two neighbour records. -/
def PeerInfo.Neighbour (i : PeerInfo) (p : Peer) : Prop := i.next = some p ∨ i.prev = some p

section
variable {stack d : PeerProtocol} {i i' : PeerInfo} {raw : List UInt8} {out : List Packet}
  {p : Packet} {q : Peer}

/-- A record that is not new keeps its address. -/
theorem InfoStep.neighbour (h : InfoStep i d i') (hq : i'.Neighbour q) :
    q.addr = d.node ∨ i.Neighbour q := by
  cases h with
  | none => exact .inr hq
  | both =>
    rcases hq with hq | hq <;> cases hq
    · exact .inl rfl
    · exact .inl rfl
  | prev | prev_new =>
    rcases hq with hq | hq
    · exact .inr (.inl hq)
    · cases hq
      exact .inl rfl
  | next =>
    rcases hq with hq | hq
    · cases hq
      exact .inl rfl
    · exact .inr (.inr hq)

/-- The node of the message, or the next peer. -/
def Reached (i : PeerInfo) (d : PeerProtocol) (a : Addr) : Prop :=
  a = d.node ∨ ∃ nx, i.next = some nx ∧ a = nx.addr

theorem step_reached (h : Peer.step stack i d raw = .ok (i', out)) (hp : p ∈ out) :
    Reached i d p.dest := by
  cases Peer.step_inv h with
  | ignored | notify | stabilize_first => exact absurd hp List.not_mem_nil
  | fingers _ hn =>
    obtain ⟨k, -, rfl⟩ := List.mem_map.1 hp
    exact .inr ⟨_, hn, rfl⟩
  | join_first | join_taken | stabilize_answered =>
    rw [List.mem_singleton.1 hp]
    exact .inl rfl
  | join_passed _ hn | stabilize_passed _ hn | lookup_found _ hn | lookup_passed _ hn =>
    rw [List.mem_singleton.1 hp]
    exact .inr ⟨_, hn, rfl⟩

end

section
variable {hash : List UInt8 → UInt32} {g g' : Globals} {a : Arrival} {as : List Arrival}
  {addr : Addr} {q : Peer}

/-- What is contacted is the node of the message, or the next peer. -/
theorem Contacts.reached (h : Contacts hash g a addr) :
    (isPeerProtocol a.msg = true ∧ (decode_peerProtocol a.msg).node = addr) ∨
      ∃ nx, g.peer_info.next = some nx ∧ addr = nx.addr := by
  obtain ⟨kernel, s', out, data, h, hp, hout⟩ := h
  cases arrival_cases h.sock.fd h.run with
  | @peer i out' hc hstep =>
    rw [Proc.packets_sentAll] at hp
    obtain rfl := List.append_cancel_left hp
    rcases step_reached hstep (List.mem_of_mem_filter hout) with hd | hn
    · exact .inl ⟨hc, hd.symm⟩
    · exact .inr hn
  | client hc h' =>
    cases h' with
    | own =>
      rw [packets_answered h.sock.peer] at hp
      obtain rfl : out = [] := by simpa [Proc.withTable] using hp
      exact absurd hout List.not_mem_nil
    | @forward nx heap data' _ hn =>
      rw [packets_forwarded h.sock.peer] at hp
      obtain rfl := List.append_cancel_left hp
      have hq := List.mem_singleton.1 (List.mem_of_mem_filter hout)
      exact .inr ⟨nx, hn, congrArg Packet.dest hq⟩
    | drop =>
      obtain rfl : out = [] := by simpa using hp
      exact absurd hout List.not_mem_nil

theorem Turn.neighbour (h : Turn hash g a g') (hq : g'.peer_info.Neighbour q) :
    Learned [a] q.addr ∨ g.peer_info.Neighbour q := by
  rcases h.cases with ⟨hc, stack, out, hstep⟩ | h
  · rcases (Peer.step_cases hstep).neighbour hq with hd | hq
    · exact .inl ⟨a, List.mem_singleton_self a, hc, hd.symm⟩
    · exact .inr hq
  · rw [h] at hq
    exact .inr hq

theorem Learned.mono {bs : List Arrival} (h : Learned as addr) (hs : ∀ a ∈ as, a ∈ bs) :
    Learned bs addr := by
  obtain ⟨a, ha, hc, hd⟩ := h
  exact ⟨a, hs a ha, hc, hd⟩

theorem turns_neighbour (h : Machine.Trace (Turn hash) g as g') (hq : g'.peer_info.Neighbour q) :
    Learned as q.addr ∨ g.peer_info.Neighbour q := by
  induction h with
  | nil => exact .inr hq
  | @cons g a t as g' ha _ ih =>
    rcases ih hq with hl | hq
    · exact .inl (hl.mono fun b hb => List.mem_cons_of_mem a hb)
    · rcases ha.neighbour hq with hl | hq
      · exact .inl (hl.mono (by simp))
      · exact .inr hq

/-- **Where the addresses come from.**  An address that a peer contacts came in
    this message or in one before. -/
theorem contacts_learned {this : Peer} {join : Option Peer}
    (h : Machine.Trace (Turn hash) (.start ⟨this, none, none, join⟩) as g)
    (hc : Contacts hash g a addr) : Learned (as ++ [a]) addr := by
  rcases hc.reached with ⟨hp, hd⟩ | ⟨nx, hn, rfl⟩
  · exact ⟨a, by simp, hp, hd⟩
  · rcases turns_neighbour h (.inl hn) with hl | hq
    · exact hl.mono fun b hb => List.mem_append_left [a] hb
    · rcases hq with hq | hq <;> cases hq

end

/-! ## Which of them can be used -/

/-- In every run from the start of a peer, the address can be used when it came
    in a message and is contacted. -/
def LearnedUsable (hash : List UInt8 → UInt32) (addr : Addr) : Prop :=
  ∀ (this : Peer) (join : Option Peer) (as : List Arrival) (g : Globals) (a : Arrival),
    this.next_finger = none → this.is_base = 0 →
    Machine.Trace (Turn hash) (.start ⟨this, none, none, join⟩) as g →
    Learned (as ++ [a]) addr → Contacts hash g a addr → Usable addr

/-- The join of a node with some address. -/
def join_from (addr : Addr) : List UInt8 :=
  (join_request .zero ⟨addr.ip, addr.port, 50, 0, none⟩).wire

theorem join_from_node (addr : Addr) : (parse (join_from addr)).node = addr := by
  rw [join_from, parse_wire (join_request_masked _)]
  rfl

/-- A peer that is alone answers it with a notify. -/
theorem contacts_join_from (hash : List UInt8 → UInt32) (addr : Addr) :
    Contacts hash base_peer ⟨join_from addr, fun _ => 0, ⟨4, none⟩, .reliable .zero⟩ addr := by
  have hm : Message JOIN_MESSAGE (join_from addr) := join_request_message _
  have hstep := step_join_alone .zero hm (i := base_peer.peer_info) rfl
  have hs : Socket.Accepted ⟨4, none⟩ := ⟨by decide, rfl⟩
  have hh : Handled hash ⟨base_peer, .fresh⟩
      ⟨join_from addr, fun _ => 0, ⟨4, none⟩, .reliable .zero⟩ _ :=
    handled_message hm.length (by rw [hm.flags.1]; decide) hs hstep
  refine ⟨.fresh, _, _, (notify_request .zero peer_10).wire, hh, Proc.packets_sentAll _ _ _, ?_⟩
  rw [join_from_node]
  exact List.mem_singleton_self _

/-- An address that can be contacted can be used only if its port is short. -/
theorem LearnedUsable.usable {hash : List UInt8 → UInt32} {addr : Addr}
    (h : LearnedUsable hash addr) : Usable addr := by
  have hc := contacts_join_from hash addr
  exact h peer_10 none [] base_peer _ rfl rfl .nil (contacts_learned .nil hc) hc

/-- **The texts of an address.**  The text of the `ip` always fits, and both are
    read back; the text of the port fits up to 9999. -/
theorem learnedUsable_iff (hash : List UInt8 → UInt32) (addr : Addr) :
    (LearnedUsable hash addr ↔ addr.port.toNat < 10000) ∧ (int_addr_to_str addr.ip).Fits ∧
      str_addr_to_int (c_str (int_addr_to_str addr.ip).written) = addr.ip ∧
      str_port_to_int (c_str (int_port_to_str addr.port).written) = addr.port := by
  refine ⟨⟨fun h => ?_, fun h => ?_⟩, addr_fits _, addr_read_back _, port_read_back _⟩
  · exact (usable_iff addr).1 h.usable
  · intro this join as g a _ _ _ _ _
    exact (usable_iff addr).2 h

/-- The first port with five digits. -/
theorem not_learnedUsable : ¬ ∀ (hash : List UInt8 → UInt32) (addr : Addr),
    LearnedUsable hash addr := by
  intro h
  have hport := (usable_iff _).1 (h HASH_JEN ⟨0x7f000001, 10000⟩).usable
  exact absurd hport (by decide)

end ChordPeer
