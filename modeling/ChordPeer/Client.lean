/-
  The client (`client.c`, with the argument macros of
  `helper/wulkanat/commander.h`): the request that `main` makes of its
  arguments, and what the peer decodes of it.

  * `client_main` is `main` up to its `send`;
  * `Arguments.received_eq`: the peer gets the key cut to its length modulo
    2^16;
  * `addresses_iff`: so a request arrives as its arguments say exactly when
    the length of the key fits into `key_length`.
-/
import ChordPeer.Codec
import Mathlib.Data.List.TakeDrop

namespace ChordPeer

open CBytes

/-! ## Arguments -/

/-- A string of C: its bytes in front of the terminator. -/
structure CString where
  bytes : List UInt8
  nul : 0 ∉ bytes

def CString.strlen (s : CString) : ℕ := s.bytes.length

def CString.empty : CString := ⟨[], List.not_mem_nil⟩

theorem CString.bytes_injective {s t : CString} (h : s.bytes = t.bytes) : s = t := by
  cases s
  cases t
  congr

/-- `DEFAULT_STR_ARG`. -/
def default_str_arg (argv : List CString) (pos : ℕ) (default_value : CString) : CString :=
  argv[pos + 1]?.getD default_value

/-- `BINARY_ARG`: the value and its length, `NULL` and `0` without an argument. -/
def binary_arg (argv : List CString) (pos : ℕ) : List UInt8 × ℕ :=
  match argv[pos + 1]? with
  | none => ([], 0)
  | some name => (name.bytes, name.strlen)

/-! ## `main` -/

namespace client

def GET : CString := ⟨[0x47, 0x45, 0x54], by decide⟩
def SET : CString := ⟨[0x53, 0x45, 0x54], by decide⟩
def DELETE : CString := ⟨[0x44, 0x45, 0x4c, 0x45, 0x54, 0x45], by decide⟩

/-- `"localhost"`, `"4711"` and `"key"`. -/
def default_address : CString := ⟨[0x6c, 0x6f, 0x63, 0x61, 0x6c, 0x68, 0x6f, 0x73, 0x74], by decide⟩
def default_port : CString := ⟨[0x34, 0x37, 0x31, 0x31], by decide⟩
def default_key : CString := ⟨[0x6b, 0x65, 0x79], by decide⟩

/-- The chain of `strcmp`: which flag is set. -/
def set_method (method : CString) (data : ClientProtocol) : ClientProtocol :=
  if method.bytes = GET.bytes then { data with get := GET_BIT }
  else if method.bytes = SET.bytes then { data with set := SET_BIT }
  else if method.bytes = DELETE.bytes then { data with delete := DELETE_BIT }
  else data

/-- The request.  `key_length` and `value_length` take what of a `size_t` fits
    into them. -/
def request (argv : List CString) : ClientProtocol :=
  let method := default_str_arg argv 2 GET
  let key := default_str_arg argv 3 default_key
  let (value, value_length) := binary_arg argv 4
  let data := set_method method
    { act := 0, get := 0, set := 0, delete := 0, key_length := 0, value_length := 0,
      key := [], value := [] }
  let data : ClientProtocol :=
    { data with key_length := UInt16.ofNat key.strlen, key := key.bytes }
  if data.set ≠ 0 then { data with value_length := UInt32.ofNat value_length, value := value }
  else { data with value_length := 0, value := [] }

/-- What `main` hands to `setup_as_client` and to `send`. -/
structure Call where
  address : CString
  port : CString
  data : List UInt8

end client

open client in
def client_main (argv : List CString) : client.Call where
  address := default_str_arg argv 0 default_address
  port := default_str_arg argv 1 default_port
  data := (request argv).encoded

/-! ## What the peer decodes -/

namespace ClientProtocol

/-- A record with the key and the value cut to its length fields. -/
def cut (d : ClientProtocol) : ClientProtocol :=
  { d with key := d.key.take d.key_length.toNat, value := d.value.take d.value_length.toNat }

/-- The encoder copies no more than the length fields say. -/
theorem encoded_cut (d : ClientProtocol) : d.cut.encoded = d.encoded := by
  have hstores : encode_clientProtocol_stores d.cut = encode_clientProtocol_stores d := by
    simp [encode_clientProtocol_stores, cut, List.take_take]
  rw [encoded, encode_clientProtocol, hstores]
  rfl

theorem cut_sized {d : ClientProtocol} (hk : d.key_length.toNat ≤ d.key.length)
    (hv : d.value_length.toNat ≤ d.value.length) : d.cut.Sized :=
  ⟨List.length_take_of_le hk, List.length_take_of_le hv⟩

end ClientProtocol

/-- The operations that `main` knows by name. -/
inductive Method where
  | get
  | set
  | delete
  deriving DecidableEq

namespace Method

def arg : Method → CString
  | .get => client.GET
  | .set => client.SET
  | .delete => client.DELETE

/-- The operation flags of a request: `get`, `set`, `delete`. -/
def flags : Method → UInt8 × UInt8 × UInt8
  | .get => (GET_BIT, 0, 0)
  | .set => (0, SET_BIT, 0)
  | .delete => (0, 0, DELETE_BIT)

/-- The record that stands for an operation on a key. -/
def record (m : Method) (key value : List UInt8) (key_length : UInt16) (value_length : UInt32) :
    ClientProtocol where
  act := 0
  get := m.flags.1
  set := m.flags.2.1
  delete := m.flags.2.2
  key_length := key_length
  value_length := if m = .set then value_length else 0
  key := key
  value := if m = .set then value else []

end Method

/-- The arguments that `main` is called with. -/
structure Arguments where
  prog : CString
  address : CString
  port : CString
  method : Method
  key : CString
  value : CString

namespace Arguments

def argv (a : Arguments) : List CString :=
  [a.prog, a.address, a.port, a.method.arg, a.key, a.value]

/-- What the peer decodes of the message, with `rest` in the memory behind it. -/
def received (a : Arguments) (rest : Mem) : ClientProtocol :=
  decode_clientProtocol (Mem.ofList (client_main a.argv).data rest)

theorem request_argv (a : Arguments) :
    client.request a.argv = a.method.record a.key.bytes a.value.bytes (UInt16.ofNat a.key.strlen)
      (UInt32.ofNat a.value.strlen) := by
  obtain ⟨prog, address, port, m, key, value⟩ := a
  cases m <;> rfl

/-- **What the peer decodes.**  The key is cut to its length modulo 2^16. -/
theorem received_eq {a : Arguments} (hv : a.value.strlen < 2 ^ 32) (rest : Mem) :
    a.received rest = a.method.record (a.key.bytes.take (a.key.strlen % 2 ^ 16)) a.value.bytes
      (UInt16.ofNat a.key.strlen) (UInt32.ofNat a.value.strlen) := by
  have hkl : (UInt16.ofNat a.key.strlen).toNat = a.key.strlen % 2 ^ 16 := UInt16.toNat_ofNat'
  have hvl : (UInt32.ofNat a.value.strlen).toNat = a.value.strlen := by
    rw [UInt32.toNat_ofNat', Nat.mod_eq_of_lt hv]
  have hcut : (a.method.record a.key.bytes a.value.bytes (UInt16.ofNat a.key.strlen)
        (UInt32.ofNat a.value.strlen)).cut =
      a.method.record (a.key.bytes.take (a.key.strlen % 2 ^ 16)) a.value.bytes
        (UInt16.ofNat a.key.strlen) (UInt32.ofNat a.value.strlen) := by
    have hvalue : a.value.bytes.take a.value.strlen = a.value.bytes := List.take_length
    cases a.method <;> simp [ClientProtocol.cut, Method.record, hkl, hvl, hvalue]
  have hmasked : (a.method.record (a.key.bytes.take (a.key.strlen % 2 ^ 16)) a.value.bytes
      (UInt16.ofNat a.key.strlen) (UInt32.ofNat a.value.strlen)).Masked := by
    cases a.method <;> constructor <;> simp [Method.record, Method.flags]
  have hsized : (a.method.record a.key.bytes a.value.bytes (UInt16.ofNat a.key.strlen)
      (UInt32.ofNat a.value.strlen)).cut.Sized := by
    refine ClientProtocol.cut_sized ?_ ?_
    · exact hkl.trans_le (Nat.mod_le _ _)
    · cases a.method
      case set => exact hvl.le
      all_goals exact Nat.zero_le _
  show decode_clientProtocol (Mem.ofList (client.request _).encoded rest) = _
  rw [request_argv, ← ClientProtocol.encoded_cut, ClientProtocol.encoded_eq_wire hsized]
  rw [hcut] at hsized ⊢
  exact decode_encode_clientProtocol hmasked hsized rest

/-- The peer gets the operation, the key and, for a SET, the value of the
    arguments. -/
def Addressed (a : Arguments) : Prop :=
  ∀ rest, ((a.received rest).get, (a.received rest).set, (a.received rest).delete) =
      a.method.flags ∧ (a.received rest).key = a.key.bytes ∧
    (a.method = .set → (a.received rest).value = a.value.bytes)

end Arguments

/-! ## Which key a request addresses -/

namespace CString

/-- The key that the peer sees. -/
def wrapped (key : CString) : CString :=
  ⟨key.bytes.take (key.strlen % 2 ^ 16), fun h => key.nul (List.mem_of_mem_take h)⟩

theorem wrapped_eq_iff (key : CString) : key.wrapped.bytes = key.bytes ↔ key.strlen < 2 ^ 16 := by
  have htake : key.wrapped.bytes = key.bytes ↔ key.strlen ≤ key.strlen % 2 ^ 16 :=
    List.take_eq_self_iff key.bytes
  rw [htake]
  constructor
  · intro h
    exact h.trans_lt (Nat.mod_lt _ (by norm_num))
  · intro h
    exact (Nat.mod_eq_of_lt h).ge

theorem wrapped_strlen_lt (key : CString) : key.wrapped.strlen < 2 ^ 16 := by
  have hlen : key.wrapped.strlen = key.strlen % 2 ^ 16 :=
    List.length_take_of_le (Nat.mod_le _ _)
  rw [hlen]
  exact Nat.mod_lt _ (by norm_num)

end CString

theorem Arguments.addressed_iff {a : Arguments} (hv : a.value.strlen < 2 ^ 32) :
    a.Addressed ↔ a.key.strlen < 2 ^ 16 := by
  rw [← a.key.wrapped_eq_iff]
  constructor
  · intro h
    obtain ⟨-, hkey, -⟩ := h fun _ => 0
    rwa [Arguments.received_eq hv] at hkey
  · intro h rest
    rw [Arguments.received_eq hv]
    refine ⟨rfl, h, fun hm => ?_⟩
    simp [Method.record, hm]

/-- **Which requests arrive.**  A request arrives as its arguments say exactly
    when the length of the key fits into `key_length`; two such keys address
    different entries, and every longer key the entry of another key. -/
theorem addresses_iff (a b : Arguments) (hva : a.value.strlen < 2 ^ 32)
    (hvb : b.value.strlen < 2 ^ 32) :
    (a.Addressed ↔ a.key.strlen < 2 ^ 16) ∧
    (a.key.strlen < 2 ^ 16 → b.key.strlen < 2 ^ 16 → a.key ≠ b.key →
      ∀ rest rest', (a.received rest).key ≠ (b.received rest').key) ∧
    (2 ^ 16 ≤ a.key.strlen → ∃ key : CString, key ≠ a.key ∧ ∀ rest rest',
      (a.received rest).key = (Arguments.received { a with key := key } rest').key) := by
  refine ⟨Arguments.addressed_iff hva, ?_, ?_⟩
  · intro hka hkb hne rest rest' h
    rw [Arguments.received_eq hva, Arguments.received_eq hvb] at h
    have hkeys : a.key.wrapped.bytes = b.key.wrapped.bytes := h
    rw [a.key.wrapped_eq_iff.2 hka, b.key.wrapped_eq_iff.2 hkb] at hkeys
    exact hne (CString.bytes_injective hkeys)
  · intro hk
    refine ⟨a.key.wrapped, ?_, fun rest rest' => ?_⟩
    · intro h
      have := a.key.wrapped_strlen_lt
      rw [h] at this
      omega
    · have hb : (a.received rest).key = a.key.wrapped.bytes := by
        rw [Arguments.received_eq hva]
        rfl
      rw [hb, Arguments.received_eq (a := { a with key := a.key.wrapped }) hva]
      exact (a.key.wrapped.wrapped_eq_iff.2 a.key.wrapped_strlen_lt).symm

theorem addresses_iff_key :
    (⟨.empty, .empty, .empty, .set, client.default_key, client.default_key⟩ : Arguments).Addressed ∧
      ∀ rest rest',
        (Arguments.received ⟨.empty, .empty, .empty, .get, client.default_key, .empty⟩ rest).key ≠
          (Arguments.received ⟨.empty, .empty, .empty, .get, client.GET, .empty⟩ rest').key := by
  constructor
  · have hv : client.default_key.strlen < 2 ^ 32 := by decide
    exact (addresses_iff ⟨.empty, .empty, .empty, .set, client.default_key, client.default_key⟩
      ⟨.empty, .empty, .empty, .set, client.default_key, client.default_key⟩ hv hv).1.2 (by decide)
  · refine (addresses_iff _ _ (by decide) (by decide)).2.1 (by decide) (by decide) fun h => ?_
    exact absurd (congrArg CString.bytes h) (by decide)

/-- `n` times the letter `a`. -/
def letters (n : ℕ) : CString :=
  ⟨List.replicate n 0x61, fun h => absurd (List.eq_of_mem_replicate h) (by decide)⟩

theorem letters_strlen (n : ℕ) : (letters n).strlen = n := List.length_replicate

/-- A GET of the key of 65537 letters asks for the key `a`. -/
theorem not_addressed_letters :
    ¬ (⟨.empty, .empty, .empty, .get, letters 65537, .empty⟩ : Arguments).Addressed ∧
      ∀ rest, (Arguments.received ⟨.empty, .empty, .empty, .get, letters 65537, .empty⟩ rest).key =
        [0x61] := by
  have hv : CString.empty.strlen < 2 ^ 32 := by decide
  have hmod : 65537 % 2 ^ 16 = 1 := by norm_num
  refine ⟨?_, fun rest => ?_⟩
  · rw [Arguments.addressed_iff hv, letters_strlen]
    omega
  · rw [Arguments.received_eq hv, letters_strlen, hmod]
    exact List.take_replicate

end ChordPeer
