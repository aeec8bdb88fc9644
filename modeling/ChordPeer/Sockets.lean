/-
  `setup_as_client` and `setup_as_server` (`generic/network.c`), candidate by
  candidate, with the descriptors and the lists of `getaddrinfo` that they
  leave behind.  A socket that does not listen counts as a connection here.

  * `Sockets.calls_spec`: after any calls of `setup_as_client` the descriptors
    are `connected` as often as one of them found somebody, and a list stays
    behind for each that tried in vain;
  * `Sockets.setup_as_server_iff`: when there is a listening socket, and what
    is left of the attempt when there is none.
-/
import Mathlib.Data.List.ReduceOption
import ChordPeer.Addresses
import ChordPeer.Serving

namespace ChordPeer.Sockets

open CText

/-- What the two functions change: the descriptors, and the number of lists
    that were not handed to `freeaddrinfo`. -/
structure Resources where
  files : Descriptors
  lists : ℕ

/-! ## Clients -/

/-- What the calls for an entry of the list come to. -/
inductive Attempt where
  /-- `socket` fails -/
  | no_socket
  /-- `connect` fails -/
  | refused
  | connected
  deriving DecidableEq, Repr

/-- The loop over the list: the socket it breaks with, `none` where `p` becomes
    `NULL`. -/
def connect_loop : List Attempt → Descriptors → Option ℕ × Descriptors
  | [], files => (none, files)
  | .no_socket :: p, files => connect_loop p files
  | .refused :: p, files =>
    let (sock_fd, files) := Slots.alloc .connection files
    connect_loop p (Slots.release files sock_fd)
  | .connected :: _, files =>
    let (sock_fd, files) := Slots.alloc .connection files
    (some sock_fd, files)

/-- `setup_as_client`; `server_info` is `none` where `getaddrinfo` fails, and
    so is the result for `-1`. -/
def setup_as_client (server_info : Option (List Attempt)) (r : Resources) : Option ℕ × Resources :=
  match server_info with
  | none => (none, r)
  | some p =>
    match connect_loop p r.files with
    | (none, files) => (none, ⟨files, r.lists + 1⟩)
    | (some sock_fd, files) => (some sock_fd, ⟨files, r.lists⟩)

/-- Calls one after the other: what they return, and what is there then. -/
def calls : List (Option (List Attempt)) → Resources → List (Option ℕ) × Resources
  | [], r => ([], r)
  | c :: cs, r =>
    let (sock_fd, r) := setup_as_client c r
    ((sock_fd :: (calls cs r).1), (calls cs r).2)

theorem calls_cons (c : Option (List Attempt)) (cs : List (Option (List Attempt))) (r : Resources) :
    calls (c :: cs) r =
      let (sock_fd, r') := setup_as_client c r
      (sock_fd :: (calls cs r').1, (calls cs r').2) := rfl

/-- Somebody is found. -/
def connects : Option (List Attempt) → Bool
  | none => false
  | some p => p.contains .connected

/-- There are addresses, and nobody at them. -/
def in_vain : Option (List Attempt) → Bool
  | none => false
  | some p => !p.contains .connected

section
variable {files files' : Descriptors} {r r' : Resources}

theorem connected_congr (h : Slots.Same files files') (k : ℕ) :
    Slots.Same (connected files k) (connected files' k) := by
  induction k generalizing files files' with
  | zero => exact h
  | succ k ih => exact ih (Slots.alloc_congr h .connection)

/-- The sockets of the attempts before are closed again. -/
theorem connect_loop_spec (p : List Attempt) (files : Descriptors) :
    ∃ files', connect_loop p files = (if p.contains .connected then
        some (Slots.alloc OpenFile.connection files).1 else none, files') ∧
      Slots.Same files' (connected files (if p.contains .connected then 1 else 0)) := by
  induction p generalizing files with
  | nil => exact ⟨files, rfl, Slots.Same.refl _⟩
  | cons a p ih =>
    cases a with
    | no_socket => exact ih files
    | refused =>
      have hsame := Slots.release_alloc OpenFile.connection files
      obtain ⟨files', hloop, hfiles⟩ := ih (Slots.release (Slots.alloc .connection files).2
        (Slots.alloc .connection files).1)
      rw [hsame.alloc_fst .connection .connection] at hloop
      exact ⟨files', hloop, hfiles.trans (connected_congr hsame _)⟩
    | connected => exact ⟨_, rfl, Slots.Same.refl _⟩

theorem setup_as_client_spec (c : Option (List Attempt)) (r : Resources) :
    (setup_as_client c r).1 =
        (if connects c then some (Slots.alloc OpenFile.connection r.files).1 else none) ∧
      Slots.Same (setup_as_client c r).2.files (connected r.files (if connects c then 1 else 0)) ∧
      (setup_as_client c r).2.lists = r.lists + if in_vain c then 1 else 0 := by
  cases c with
  | none => exact ⟨rfl, Slots.Same.refl _, rfl⟩
  | some p =>
    obtain ⟨files', hloop, hfiles⟩ := connect_loop_spec p r.files
    rw [connects, in_vain, setup_as_client, hloop]
    cases hp : p.contains .connected with
    | true =>
      rw [hp] at hfiles
      exact ⟨rfl, hfiles, rfl⟩
    | false =>
      rw [hp] at hfiles
      exact ⟨rfl, hfiles, rfl⟩

theorem connected_add (files : Descriptors) (k l : ℕ) :
    connected files (k + l) = connected (connected files k) l := by
  induction k generalizing files with
  | zero => rw [Nat.zero_add]; rfl
  | succ k ih =>
    rw [Nat.succ_add]
    exact ih _

theorem countP_cons_add {α : Type*} (q : α → Bool) (a : α) (as : List α) :
    (a :: as).countP q = (if q a then 1 else 0) + as.countP q := by
  rw [List.countP_cons, Nat.add_comm]

/-- **The calls of `setup_as_client`, one after the other.** -/
theorem calls_spec (cs : List (Option (List Attempt))) (r : Resources) :
    (calls cs r).1.map Option.isSome = cs.map connects ∧
      Slots.Same (calls cs r).2.files (connected r.files (cs.countP connects)) ∧
      (calls cs r).2.lists = r.lists + cs.countP in_vain := by
  induction cs generalizing r with
  | nil => exact ⟨rfl, Slots.Same.refl _, rfl⟩
  | cons c cs ih =>
    obtain ⟨hfd, hfiles, hlists⟩ := setup_as_client_spec c r
    obtain ⟨ihfd, ihfiles, ihlists⟩ := ih (setup_as_client c r).2
    rw [calls_cons]
    refine ⟨?_, ?_, ?_⟩
    · rw [List.map_cons, List.map_cons, ihfd, hfd]
      cases connects c <;> rfl
    · rw [countP_cons_add, connected_add]
      exact ihfiles.trans (connected_congr hfiles _)
    · rw [countP_cons_add, ← Nat.add_assoc, ← hlists]
      exact ihlists

/-- No call closes the socket of another. -/
theorem calls_increasing (cs : List (Option (List Attempt))) (r : Resources) :
    (∀ fd ∈ (calls cs r).1.reduceOption, (Slots.alloc OpenFile.connection r.files).1 ≤ fd) ∧
      (calls cs r).1.reduceOption.Pairwise (· < ·) := by
  induction cs generalizing r with
  | nil => exact ⟨fun fd h => absurd h List.not_mem_nil, .nil⟩
  | cons c cs ih =>
    obtain ⟨hfd, hfiles, -⟩ := setup_as_client_spec c r
    obtain ⟨ihle, ihlt⟩ := ih (setup_as_client c r).2
    rw [hfiles.alloc_fst .connection .connection] at ihle
    rw [calls_cons]
    dsimp only
    rw [hfd]
    cases hc : connects c with
    | false =>
      rw [hc] at ihle
      exact ⟨ihle, ihlt⟩
    | true =>
      rw [hc] at ihle
      -- the socket of this call is in use from here on
      have hlt : ∀ fd ∈ (calls cs (setup_as_client c r).2).1.reduceOption,
          (Slots.alloc OpenFile.connection r.files).1 < fd := fun fd h =>
        (Slots.alloc_lt_alloc _ _ _).trans_le (ihle fd h)
      simp only [if_true, List.reduceOption_cons_of_some]
      exact ⟨List.forall_mem_cons.2 ⟨le_rfl, fun fd h => (hlt fd h).le⟩,
        List.pairwise_cons.2 ⟨hlt, ihlt⟩⟩

/-- **Whatever `setup_as_client` meets in its calls**, it returns a socket where
    somebody is found, and these are later and later ones; nothing else becomes
    of the descriptors.  A list stays behind for each call that finds addresses
    and nobody at them. -/
theorem calls_connected (cs : List (Option (List Attempt))) (r : Resources) :
    (calls cs r).1.map Option.isSome = cs.map connects ∧
      (calls cs r).1.reduceOption.Pairwise (· < ·) ∧
      Slots.Same (calls cs r).2.files (connected r.files (cs.countP connects)) ∧
      (calls cs r).2.lists = r.lists + cs.countP in_vain := by
  obtain ⟨hfd, hfiles, hlists⟩ := calls_spec cs r
  exact ⟨hfd, (calls_increasing cs r).2, hfiles, hlists⟩

end

/-! ## Servers -/

/-- What the calls for an entry of the list come to. -/
inductive BindAttempt where
  /-- `socket` fails -/
  | no_socket
  /-- `setsockopt` fails -/
  | no_option
  /-- `bind` fails -/
  | not_bound
  | bound
  deriving DecidableEq, Repr

/-- What `setup_as_server` meets: what `getaddrinfo` finds, if it does not fail,
    and whether `listen` and `sigaction` succeed. -/
structure ServerCalls where
  server_info : Option (List BindAttempt)
  listen : Bool
  sigaction : Bool

/-- The loop over the list: the socket it breaks with, `none` where `p` becomes
    `NULL`.  The error is the `return` in its middle. -/
def bind_loop : List BindAttempt → Descriptors → Except Descriptors (Option ℕ × Descriptors)
  | [], files => .ok (none, files)
  | .no_socket :: p, files => bind_loop p files
  | .no_option :: _, files => .error (Slots.alloc .connection files).2
  | .not_bound :: p, files =>
    let (sock_fd, files) := Slots.alloc .connection files
    bind_loop p (Slots.release files sock_fd)
  | .bound :: _, files =>
    let (sock_fd, files) := Slots.alloc .connection files
    .ok (some sock_fd, files)

/-- `setup_as_server`; `none` is `-1`. -/
def setup_as_server (port : List Char) (c : ServerCalls) (r : Resources) : Option ℕ × Resources :=
  if atoi port < 0 ∨ 65535 < atoi port then (none, r)
  else match c.server_info with
    | none => (none, r)
    | some p =>
      match bind_loop p r.files with
      | .error files => (none, ⟨files, r.lists + 1⟩)
      | .ok (none, files) => (none, ⟨files, r.lists⟩)
      | .ok (some sock_fd, files) =>
        if c.listen = false then (none, ⟨files, r.lists⟩)
        else
          let files := files.set sock_fd (some .listening)
          if c.sigaction = false then (none, ⟨files, r.lists⟩)
          else (some sock_fd, ⟨files, r.lists⟩)

/-- The loop goes no further. -/
def BindAttempt.last : BindAttempt → Bool
  | no_socket | not_bound => false
  | no_option | bound => true

/-- The number of a port. -/
def IsPort (port : List Char) : Prop := 0 ≤ atoi port ∧ atoi port ≤ 65535

/-- There are addresses, and the loop over them ends at this attempt. -/
def ServerCalls.EndsAt (c : ServerCalls) (a : BindAttempt) : Prop :=
  ∃ p, c.server_info = some p ∧ p.find? BindAttempt.last = some a

/-- Everything goes well. -/
structure Listens (port : List Char) (c : ServerCalls) : Prop where
  port : IsPort port
  bound : c.EndsAt .bound
  listen : c.listen = true
  sigaction : c.sigaction = true

/-- There is a socket, and it comes to nothing. -/
structure Abandons (port : List Char) (c : ServerCalls) : Prop where
  port : IsPort port
  socket : c.EndsAt .no_option ∨ c.EndsAt .bound ∧ (c.listen = false ∨ c.sigaction = false)

section
variable {port : List Char} {c : ServerCalls} {r : Resources}

/-- The table with one socket more. -/
def with_socket (files : Descriptors) (f : OpenFile) : Descriptors := (Slots.alloc f files).2

/-- How the loop ends, by the attempt that it ends at. -/
inductive BindEnd (files : Descriptors) :
    Option BindAttempt → Except Descriptors (Option ℕ × Descriptors) → Prop where
  | null {files' : Descriptors} (h : Slots.Same files' files) : BindEnd files none (.ok (none, files'))
  | no_option {files' : Descriptors} (h : Slots.Same files' (with_socket files .connection)) :
      BindEnd files (some .no_option) (.error files')
  | bound {files' : Descriptors} (h : Slots.Same files' (with_socket files .connection)) :
      BindEnd files (some .bound) (.ok (some (Slots.alloc OpenFile.connection files).1, files'))

theorem BindEnd.congr {files files₀ : Descriptors} (h : Slots.Same files files₀)
    {a : Option BindAttempt} {o : Except Descriptors (Option ℕ × Descriptors)}
    (ho : BindEnd files a o) : BindEnd files₀ a o := by
  have halloc := Slots.alloc_congr h OpenFile.connection
  cases ho with
  | null hf => exact .null (hf.trans h)
  | no_option hf => exact .no_option (hf.trans halloc)
  | bound hf =>
    rw [h.alloc_fst .connection .connection]
    exact .bound (hf.trans halloc)

/-- The sockets of the attempts before are closed again. -/
theorem bind_loop_cases (p : List BindAttempt) (files : Descriptors) :
    BindEnd files (p.find? BindAttempt.last) (bind_loop p files) := by
  induction p generalizing files with
  | nil => exact .null (Slots.Same.refl _)
  | cons a p ih =>
    cases a with
    | no_socket => exact ih files
    | no_option => exact .no_option (Slots.Same.refl _)
    | not_bound => exact (ih _).congr (Slots.release_alloc OpenFile.connection files)
    | bound => exact .bound (Slots.Same.refl _)

/-- What `setup_as_server` can come to. -/
inductive ServerEnd (port : List Char) (c : ServerCalls) (r : Resources) :
    Option ℕ × Resources → Prop where
  | untouched {files : Descriptors} (hl : ¬ Listens port c) (ha : ¬ Abandons port c)
      (h : Slots.Same files r.files) : ServerEnd port c r (none, ⟨files, r.lists⟩)
  | no_option {files : Descriptors} (ha : Abandons port c) (hp : c.EndsAt .no_option)
      (h : Slots.Same files (with_socket r.files .connection)) :
      ServerEnd port c r (none, ⟨files, r.lists + 1⟩)
  | abandoned {files : Descriptors} (ha : Abandons port c) (hp : c.EndsAt .bound)
      (h : Slots.Same files (with_socket r.files (if c.listen then .listening else .connection))) :
      ServerEnd port c r (none, ⟨files, r.lists⟩)
  | listening {files : Descriptors} (hl : Listens port c)
      (h : Slots.Same files (with_socket r.files .listening)) :
      ServerEnd port c r (some (Slots.alloc OpenFile.listening r.files).1, ⟨files, r.lists⟩)

theorem ServerCalls.EndsAt.eq {a b : BindAttempt} (ha : c.EndsAt a) (hb : c.EndsAt b) : a = b := by
  obtain ⟨p, hp, ha⟩ := ha
  obtain ⟨q, hq, hb⟩ := hb
  cases hp.symm.trans hq
  exact Option.some.inj (ha.symm.trans hb)

theorem isPort_iff (port : List Char) : IsPort port ↔ ¬ (atoi port < 0 ∨ 65535 < atoi port) := by
  rw [IsPort, not_or, not_lt, not_lt]

theorem same_with_listening {files files' : Descriptors}
    (h : Slots.Same files' (with_socket files .connection)) :
    Slots.Same (files'.set (Slots.alloc OpenFile.connection files).1 (some .listening))
      (with_socket files .listening) := by
  have hfd := (Slots.Same.refl files).alloc_fst OpenFile.connection OpenFile.listening
  have hget : Slots.get files' (Slots.alloc OpenFile.connection files).1 = some .connection := by
    rw [h, with_socket, Slots.get_alloc, if_pos rfl]
  intro n
  rw [Slots.get_set hget, with_socket, Slots.get_alloc, ← hfd, h, with_socket, Slots.get_alloc]
  split <;> rfl

theorem setup_as_server_cases (port : List Char) (c : ServerCalls) (r : Resources) :
    ServerEnd port c r (setup_as_server port c r) := by
  unfold setup_as_server
  by_cases hport : atoi port < 0 ∨ 65535 < atoi port
  · have hno : ¬ IsPort port := fun h => (isPort_iff port).1 h hport
    rw [if_pos hport]
    exact .untouched (fun h => hno h.port) (fun h => hno h.port) (Slots.Same.refl _)
  rw [if_neg hport]
  have hport : IsPort port := (isPort_iff port).2 hport
  cases hinfo : c.server_info with
  | none =>
    have hno : ∀ a, ¬ c.EndsAt a := by
      rintro a ⟨p, hp, -⟩
      cases hinfo.symm.trans hp
    exact .untouched (fun h => hno _ h.bound)
      (fun h => h.socket.elim (hno _) fun h => hno _ h.1) (Slots.Same.refl _)
  | some p =>
    have hends : ∀ a, c.EndsAt a ↔ p.find? BindAttempt.last = some a := fun a =>
      ⟨fun ⟨q, hq, ha⟩ => by cases hinfo.symm.trans hq; exact ha, fun h => ⟨p, hinfo, h⟩⟩
    have hcases := bind_loop_cases p r.files
    dsimp only
    generalize hfind : p.find? BindAttempt.last = a at hcases
    generalize bind_loop p r.files = o at hcases
    rw [hfind] at hends
    cases hcases with
    | null h =>
      have hno : ∀ a, ¬ c.EndsAt a := by
        intro a ha
        cases (hends a).1 ha
      exact .untouched (fun h => hno _ h.bound)
        (fun h => h.socket.elim (hno _) fun h => hno _ h.1) h
    | no_option h =>
      have hend : c.EndsAt .no_option := (hends _).2 rfl
      exact .no_option ⟨hport, .inl hend⟩ hend h
    | bound h =>
      have hend : c.EndsAt .bound := (hends _).2 rfl
      dsimp only
      cases hlisten : c.listen with
      | false =>
        refine .abandoned ⟨hport, .inr ⟨hend, .inl hlisten⟩⟩ hend ?_
        rw [hlisten]
        exact h
      | true =>
        cases hsig : c.sigaction with
        | false =>
          refine .abandoned ⟨hport, .inr ⟨hend, .inr hsig⟩⟩ hend ?_
          rw [hlisten]
          exact same_with_listening h
        | true =>
          have hfd := (Slots.Same.refl r.files).alloc_fst OpenFile.connection OpenFile.listening
          have hsame := same_with_listening h
          rw [hfd] at hsame ⊢
          exact .listening ⟨hport, hend, hlisten, hsig⟩ hsame

theorem Listens.not_abandons (hl : Listens port c) : ¬ Abandons port c := by
  rintro ⟨-, hend | ⟨-, h | h⟩⟩
  · cases hl.bound.eq hend
  · cases hl.listen.symm.trans h
  · cases hl.sigaction.symm.trans h

theorem not_same_with_socket {files files' : Descriptors} {f : OpenFile}
    (h : Slots.Same files' (with_socket files f)) : ¬ Slots.Same files' files := by
  intro hsame
  have hget := (hsame _).symm.trans (h (Slots.alloc f files).1)
  rw [Slots.get_alloc_free, with_socket, Slots.get_alloc, if_pos rfl] at hget
  cases hget

/-- **What `setup_as_server` leaves behind.**  It returns the first free
    descriptor, listening, where everything goes well.  Otherwise the
    descriptors are as before but where a socket was abandoned: the one that
    `setsockopt` failed on, with the list of addresses, or the one that was
    bound. -/
theorem setup_as_server_iff (port : List Char) (c : ServerCalls) (r : Resources) :
    ∃ sock_fd r', setup_as_server port c r = (sock_fd, r') ∧ (sock_fd.isSome ↔ Listens port c) ∧
      (∀ fd, sock_fd = some fd → fd = (Slots.alloc OpenFile.listening r.files).1 ∧
        Slots.Same r'.files (with_socket r.files .listening)) ∧
      (sock_fd = none → ((∃ f, Slots.Same r'.files (with_socket r.files f)) ↔ Abandons port c) ∧
        (Slots.Same r'.files r.files ↔ ¬ Abandons port c)) ∧
      (r'.lists = r.lists + 1 ↔ IsPort port ∧ c.EndsAt .no_option) ∧ r'.lists ≤ r.lists + 1 := by
  have hend := setup_as_server_cases port c r
  generalize setup_as_server port c r = o at hend ⊢
  cases hend with
  | untouched hl ha h =>
    refine ⟨_, _, rfl, iff_of_false Bool.false_ne_true hl, ?_, fun _ => ⟨?_, ?_⟩, ?_, ?_⟩
    · exact fun fd hfd => nomatch hfd
    · exact iff_of_false (fun ⟨f, hf⟩ => not_same_with_socket hf h) ha
    · exact iff_of_true h ha
    · exact iff_of_false (by simp) fun ⟨hport, hopt⟩ => ha ⟨hport, .inl hopt⟩
    · exact Nat.le_succ _
  | no_option ha hp h =>
    refine ⟨_, _, rfl, iff_of_false Bool.false_ne_true fun hl => hl.not_abandons ha, ?_,
      fun _ => ⟨iff_of_true ⟨_, h⟩ ha, ?_⟩, iff_of_true rfl ⟨ha.port, hp⟩, le_rfl⟩
    · exact fun fd hfd => nomatch hfd
    · exact iff_of_false (not_same_with_socket h) (not_not.2 ha)
  | abandoned ha hp h =>
    refine ⟨_, _, rfl, iff_of_false Bool.false_ne_true fun hl => hl.not_abandons ha, ?_,
      fun _ => ⟨iff_of_true ⟨_, h⟩ ha, ?_⟩, ?_, Nat.le_succ _⟩
    · exact fun fd hfd => nomatch hfd
    · exact iff_of_false (not_same_with_socket h) (not_not.2 ha)
    · exact iff_of_false (by simp) fun ⟨_, hopt⟩ => nomatch hp.eq hopt
  | listening hl h =>
    refine ⟨_, _, rfl, iff_of_true rfl hl, ?_, ?_, ?_, Nat.le_succ _⟩
    · intro fd hfd
      cases hfd
      exact ⟨rfl, h⟩
    · intro hnone
      cases hnone
    · exact iff_of_false (by simp) fun ⟨_, hopt⟩ => nomatch hl.bound.eq hopt

end

end ChordPeer.Sockets
