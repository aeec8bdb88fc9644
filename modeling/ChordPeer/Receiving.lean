/-
  Reading from a socket (`direct_receive` of `generic/network.c`).

  A call of `direct_receive` reads once.  If that fills its buffer, it calls
  itself for the rest, resizes its block and copies the rest behind; but it
  goes on with the pointer that it had before.

  * `Assembled`: what a call that comes to its end has done to the heap;
  * `direct_receive_ends`, `direct_receive_error`, `direct_receive_blocked`:
    what comes of the results of `recv`, by the first that leaves room;
  * `reassembled_iff`: so a message longer than the buffer is put together
    without a fault or a leak in one case only.
-/
import ChordPeer.Steps

namespace ChordPeer

open CBytes

/-! ## The results of `recv` -/

/-- The buffer was filled. -/
def RecvResult.Full (r : RecvResult) : Prop := r.count = BUFFER_SIZE

/-- There was room left. -/
def RecvResult.Short (r : RecvResult) : Prop := r.count < BUFFER_SIZE

instance (r : RecvResult) : Decidable r.Full := inferInstanceAs (Decidable (_ = _))

instance (r : RecvResult) : Decidable r.Short := inferInstanceAs (Decidable (_ < _))

/-- What was stored, in order. -/
def received_bytes (rs : List RecvResult) : List UInt8 := rs.flatMap RecvResult.stored

@[simp] theorem received_bytes_nil : received_bytes [] = [] := rfl

@[simp] theorem received_bytes_cons (r : RecvResult) (rs : List RecvResult) :
    received_bytes (r :: rs) = r.stored ++ received_bytes rs := rfl

@[simp] theorem received_bytes_append (rs rs' : List RecvResult) :
    received_bytes (rs ++ rs') = received_bytes rs ++ received_bytes rs' :=
  List.flatMap_append

theorem BUFFER_SIZE_pos : 0 < BUFFER_SIZE := Nat.succ_pos _

theorem BUFFER_SIZE_lt : BUFFER_SIZE < SIZE_MAX := by decide

theorem RecvResult.not_full_error : ¬ RecvResult.error.Full := BUFFER_SIZE_lt.ne'

theorem RecvResult.not_short_error : ¬ RecvResult.error.Short := BUFFER_SIZE_lt.not_gt

theorem RecvResult.short_nil (hd : [].length ≤ BUFFER_SIZE) : (RecvResult.received [] hd).Short :=
  BUFFER_SIZE_pos

section
variable {r : RecvResult}

theorem RecvResult.Full.stored_length (hr : r.Full) : r.stored.length = BUFFER_SIZE := by
  cases r with
  | received data h => exact hr
  | error => exact absurd hr RecvResult.not_full_error

theorem RecvResult.Short.stored_length (hr : r.Short) : r.stored.length = r.count := by
  cases r with
  | received data h => rfl
  | error => exact absurd hr RecvResult.not_short_error

theorem RecvResult.full_or (r : RecvResult) : r.Full ∨ r.Short ∨ r = .error := by
  cases r with
  | received data h =>
    rcases h.lt_or_eq with hlt | heq
    · exact .inr (.inl hlt)
    · exact .inl heq
  | error => exact .inr (.inr rfl)

/-- Where the recursion ends. -/
theorem results_cases (rs : List RecvResult) : (∀ r ∈ rs, r.Full) ∨
    ∃ fulls last rest, rs = fulls ++ last :: rest ∧ (∀ r ∈ fulls, r.Full) ∧
      (last.Short ∨ last = .error) := by
  induction rs with
  | nil => exact .inl fun r hr => absurd hr List.not_mem_nil
  | cons r rs ih =>
    rcases r.full_or with hr | hr
    · rcases ih with hall | ⟨fulls, last, rest, rfl, hfulls, hlast⟩
      · exact .inl (List.forall_mem_cons.2 ⟨hr, hall⟩)
      · exact .inr ⟨r :: fulls, last, rest, rfl, List.forall_mem_cons.2 ⟨hr, hfulls⟩, hlast⟩
    · exact .inr ⟨[], r, rs, rfl, fun _ h => absurd h List.not_mem_nil, hr⟩

end

/-! ## One call -/

/-- From the heap `h` to `h'` the `bytes` came into the block of `response`,
    with `k` calls of `realloc`. -/
structure Assembled (h h' : Heap) (k : ℕ) (response : Response) (bytes : List UInt8) : Prop where
  length : response.data_length = bytes.length
  null : response.data = none ↔ bytes = []
  block : ∀ b, response.data = some b → h.next ≤ b ∧ b < h'.next ∧ h'.block b = some bytes
  grows : Heap.Grows h h'
  moves : h'.moves = h.moves
  reallocs : h'.reallocs = h.reallocs + k

theorem Assembled.read {h h' : Heap} {k : ℕ} {response : Response} {bytes : List UInt8}
    (ha : Assembled h h' k response bytes) :
    h'.read response.data 0 response.data_length = .ok bytes := by
  rw [ha.length]
  cases hd : response.data with
  | none =>
    rw [ha.null.1 hd]
    rfl
  | some b => rw [Heap.read_live (ha.block b hd).2.2 le_rfl, List.take_length]

/-- The blocks that are new in `h'` are released, but for `p`. -/
def Released (h h' : Heap) (p : Heap.Ptr) : Prop :=
  ∀ b, h.next ≤ b → b < h'.next → p ≠ some b → h'.block b = none

/-- The heap after `recv` stored `data` in a new block. -/
def stored_heap (h : Heap) (data : List UInt8) : Heap :=
  { h with next := h.next + 1 }.setBlock h.next
    (some (data ++ h.junk.bytes data.length (BUFFER_SIZE - data.length)))

section
variable {r : RecvResult} {rs : List RecvResult} {status : Bool} {h : Heap}

theorem stored_heap_eq {data : List UInt8} (hd : data.length ≤ BUFFER_SIZE) :
    (h.malloc BUFFER_SIZE).2.write (h.malloc BUFFER_SIZE).1 0 data = .ok (stored_heap h data) := by
  have hb := Heap.malloc_block h BUFFER_SIZE
  have hn : 0 + data.length ≤ (h.junk.bytes 0 BUFFER_SIZE).length := by simpa using hd
  refine (Heap.write_block hb hn).trans ?_
  have hrest : (h.junk.bytes 0 BUFFER_SIZE).drop data.length =
      h.junk.bytes data.length (BUFFER_SIZE - data.length) := by
    have happ := h.junk.bytes_append 0 data.length (BUFFER_SIZE - data.length)
    rw [Nat.add_sub_cancel' hd, Nat.zero_add] at happ
    rw [← happ, List.drop_left' (Mem.bytes_length _ _ _)]
  simp [stored_heap, Heap.malloc, Heap.setBlock, hrest]

theorem stored_heap_block (h : Heap) (data : List UInt8) : ∃ tail,
    (stored_heap h data).block h.next = some (data ++ tail) :=
  ⟨_, Heap.setBlock_block _ _ _⟩

theorem grows_stored_heap (h : Heap) (data : List UInt8) : Heap.Grows h (stored_heap h data) where
  next := Nat.le_succ _
  block _ hb := Heap.setBlock_block_of_ne hb.ne _

/-- What a call gives its caller for the status. -/
def status_code (status : Bool) : Option ℕ := if status then some STATUS_OK else none

/-- What a call does after the one for the rest, `conc`, has come back. -/
def take_rest (status : Bool) (data : Heap.Ptr) (conc : Response) (h : Heap) :
    Except Stop (Response × Heap) := do
  let (data_conc, h) ← heapFault (h.realloc data ((conc.data_length + BUFFER_SIZE) % 2 ^ 64))
  let block ← heapFault (h.read data 0 BUFFER_SIZE)
  let h ← heapFault (h.write data_conc 0 block)
  let block ← heapFault (h.read conc.data 0 conc.data_length)
  let h ← heapFault (h.write data_conc BUFFER_SIZE block)
  let h ← if status then pure h else heapFault (h.free conc.data)
  return (⟨(BUFFER_SIZE + conc.data_length) % 2 ^ 64, data, status_code status⟩, h)

theorem direct_receive_cons_short (hr : r.Short) : direct_receive (r :: rs) status h =
    heapFault ((stored_heap h r.stored).realloc (some h.next) r.count) >>= fun q =>
      .ok (⟨r.count, q.1, status_code status⟩, q.2) := by
  have hd : r.stored.length ≤ BUFFER_SIZE := by
    rw [hr.stored_length]
    exact le_of_lt hr
  have hlt : r.count < BUFFER_SIZE := hr
  simp only [direct_receive, stored_heap_eq hd, heapFault, ok_bind, if_pos hlt]
  rfl

theorem direct_receive_cons_full (hr : r.Full) : direct_receive (r :: rs) status h =
    direct_receive rs false (stored_heap h r.stored) >>= fun q =>
      take_rest status (some h.next) q.1 q.2 := by
  have hd : r.stored.length ≤ BUFFER_SIZE := hr.stored_length.le
  have hcount : r.count = BUFFER_SIZE := hr
  simp only [direct_receive, stored_heap_eq hd, heapFault, ok_bind, hcount, lt_irrefl, if_false,
    if_true]
  rfl

theorem direct_receive_cons_error : direct_receive (.error :: rs) status h =
    .ok (⟨SIZE_MAX, some h.next, status_code status⟩, (stored_heap h []).setBlock h.next none) := by
  obtain ⟨tail, hb⟩ := stored_heap_block h []
  have hnlt : ¬ SIZE_MAX < BUFFER_SIZE := BUFFER_SIZE_lt.not_gt
  have hne : SIZE_MAX ≠ BUFFER_SIZE := BUFFER_SIZE_lt.ne'
  have hw := @stored_heap_eq h [] (Nat.zero_le _)
  simp only [direct_receive, RecvResult.stored, RecvResult.count, hw, heapFault, ok_bind, hnlt, hne,
    if_false]
  rw [show (h.malloc BUFFER_SIZE).1 = some h.next from rfl, Heap.free_block hb]
  rfl

/-- **The last call.**  Its block is cut down to what was received, in place or
    not. -/
theorem direct_receive_last (hr : r.Short) (rs : List RecvResult) (status : Bool) (h : Heap) :
    ∃ p h', direct_receive (r :: rs) status h = .ok (⟨r.count, p, status_code status⟩, h') ∧
      Assembled h h' 1 ⟨r.count, p, status_code status⟩ r.stored ∧ Released h h' p := by
  rw [direct_receive_cons_short hr, ← hr.stored_length]
  obtain ⟨tail, hb⟩ := stored_heap_block h r.stored
  have hn : r.stored.length ≤ (r.stored ++ tail).length := by simp
  obtain ⟨p, h', hrun, hres⟩ := Heap.realloc_take hb (Nat.lt_succ_self _) hn
  rw [List.take_left] at hres
  rw [hrun]
  refine ⟨p, h', rfl, ?_, ?_⟩
  · constructor
    · rfl
    · exact hres.null
    · intro b hb
      obtain ⟨hle, hlt, hblock⟩ := hres.block b hb
      refine ⟨?_, hlt, hblock⟩
      rcases hle with rfl | hle
      · exact le_rfl
      · exact Nat.le_of_succ_le hle
    · refine ⟨Nat.le_of_succ_le hres.next, fun b hlt => ?_⟩
      rw [hres.other b (Nat.lt_succ_of_lt hlt) hlt.ne]
      exact (grows_stored_heap h r.stored).block b hlt
    · exact hres.moves
    · exact hres.reallocs
  · intro b hle hlt hp
    by_cases hb : b = h.next
    · rw [hb]
      exact hres.old (by rw [← hb]; exact hp)
    · exact absurd (hres.new b (Nat.succ_le_of_lt (Nat.lt_of_le_of_ne hle (Ne.symm hb))) hlt) hp

end

/-! ## One result -/

/-- A response that one `recv` brings whole is received as it is. -/
theorem direct_receive_whole {data : List UInt8} (hd : data.length ≤ BUFFER_SIZE)
    (hlt : data.length < BUFFER_SIZE) (rs : List RecvResult) (h : Heap) :
    ∃ response h', direct_receive (.received data hd :: rs) true h = .ok (response, h') ∧
      response.status_code = some STATUS_OK ∧
      h'.read response.data 0 response.data_length = .ok data := by
  have hshort : RecvResult.Short (.received data hd) := hlt
  obtain ⟨p, h', hrun, ha, -⟩ := direct_receive_last hshort rs true h
  exact ⟨_, h', hrun, rfl, ha.read⟩

theorem redirect_run {env : Env} {sock_from sock_to : Socket} {data : List UInt8}
    {hd : data.length ≤ BUFFER_SIZE} {rs : List RecvResult}
    (hr : env.recvs sock_from = .received data hd :: rs) (hlt : data.length < BUFFER_SIZE)
    (ht : sock_to.fd ≠ -1) (s : Proc) :
    ∃ heap, (redirect env sock_from sock_to).run s =
      .ok (some STATUS_OK, (s.withHeap heap).emitted [.send sock_to data]) := by
  obtain ⟨response, h', h₁, h₂, h₃⟩ := direct_receive_whole hd hlt rs s.kernel.heap
  refine ⟨h', ?_⟩
  have hread : (s.withHeap h').kernel.heap.read response.data 0 response.data_length = .ok data := h₃
  simp only [redirect, StateT.run_bind, onHeap_run, hr, h₁, ok_bind, hread, heapFault, send_run ht,
    h₂]
  rfl

/-! ## What a call does with the rest -/

section
variable {status : Bool} {h : Heap} {b : ℕ} {bs cb : List UInt8} {conc : Response}

/-- The block `b` resized in place. -/
def grown_heap (h : Heap) (b : ℕ) (bs : List UInt8) : Heap :=
  { h.setBlock b (some bs) with reallocs := h.reallocs + 1 }

@[simp] theorem grown_heap_block (h : Heap) (b : ℕ) (bs : List UInt8) :
    (grown_heap h b bs).block b = some bs :=
  Heap.setBlock_block _ _ _

theorem grown_heap_write {x : List UInt8} {i : ℕ} {data : List UInt8}
    (hn : i + data.length ≤ x.length) : (grown_heap h b x).write (some b) i data =
      .ok (grown_heap h b (x.take i ++ data ++ x.drop (i + data.length))) := by
  rw [Heap.write_block (grown_heap_block h b x) hn]
  simp [grown_heap, Heap.setBlock]

theorem take_rest_ok (hb : h.block b = some bs) (hbs : bs.length = BUFFER_SIZE)
    (hlen : conc.data_length = cb.length) (hnull : conc.data = none → cb = [])
    (hblock : ∀ c, conc.data = some c → c ≠ b ∧ h.block c = some cb)
    (hm : h.moves h.reallocs = false) (hlt : BUFFER_SIZE + cb.length < 2 ^ 64) :
    take_rest status (some b) conc h = .ok (⟨BUFFER_SIZE + cb.length, some b, status_code status⟩,
      if status then grown_heap h b (bs ++ cb)
      else (grown_heap h b (bs ++ cb)).release conc.data) := by
  have hsize : (cb.length + bs.length) % 2 ^ 64 = bs.length + cb.length := by
    rw [hbs, Nat.mod_eq_of_lt (by omega), Nat.add_comm]
  have hpos : bs.length + cb.length ≠ 0 := by
    rw [hbs, BUFFER_SIZE]
    omega
  have hrealloc := Heap.realloc_in_place hb hpos hm
  generalize hx : (Mem.ofList bs h.junk).bytes 0 (bs.length + cb.length) = x at hrealloc
  have hxlen : x.length = bs.length + cb.length := by rw [← hx, Mem.bytes_length]
  have hxbs : x.take bs.length = bs := by
    rw [← hx, ← Mem.bytes_append, Nat.zero_add, List.take_left' (Mem.bytes_length _ _ _),
      Mem.bytes_ofList_all]
  have hother : ∀ y c, conc.data = some c → (grown_heap h b y).block c = some cb := by
    intro y c hc
    obtain ⟨hne, hcb⟩ := hblock c hc
    exact (Heap.setBlock_block_of_ne hne _).trans hcb
  have hread : (grown_heap h b x).read (some b) 0 bs.length = .ok bs := by
    rw [Heap.read_live (grown_heap_block h b x) (by omega), hxbs]
  -- the old bytes are copied to where they are
  have hwrite : (grown_heap h b x).write (some b) 0 bs = .ok (grown_heap h b x) := by
    rw [grown_heap_write (by omega), List.take_zero, List.nil_append, Nat.zero_add]
    conv_rhs => rw [← List.take_append_drop bs.length x, hxbs]
  have hreadc : (grown_heap h b x).read conc.data 0 cb.length = .ok cb := by
    cases hc : conc.data with
    | none =>
      rw [hnull hc]
      rfl
    | some c => rw [Heap.read_live (hother x c hc) le_rfl, List.take_length]
  have hwritec : (grown_heap h b x).write (some b) bs.length cb =
      .ok (grown_heap h b (bs ++ cb)) := by
    rw [grown_heap_write (by omega), hxbs, List.drop_of_length_le (by omega), List.append_nil]
  have hfree : (grown_heap h b (bs ++ cb)).free conc.data =
      .ok ((grown_heap h b (bs ++ cb)).release conc.data) :=
    Heap.free_release fun c hc => by simp [hother _ c hc]
  have hrealloc : h.realloc (some b) (bs.length + cb.length) = .ok (some b, grown_heap h b x) :=
    hrealloc
  have hmod : (bs.length + cb.length) % 2 ^ 64 = bs.length + cb.length :=
    Nat.mod_eq_of_lt (by omega)
  simp only [take_rest, ← hbs, hlen, hsize, hrealloc, heapFault, ok_bind, hread, hwrite, hreadc,
    hwritec, hmod]
  cases status with
  | true => rfl
  | false =>
    rw [hfree]
    rfl

/-- The old block is gone, or too small. -/
theorem take_rest_fault (hb : h.block b = some bs) (hlt : b < h.next)
    (hm : h.moves h.reallocs = true ∨ (conc.data_length + BUFFER_SIZE) % 2 ^ 64 < BUFFER_SIZE) :
    ∃ f, take_rest status (some b) conc h = .error (.fault f) := by
  obtain ⟨p, h', f, hrealloc, hread⟩ := Heap.realloc_read_fault hb hlt BUFFER_SIZE_pos.ne' hm
  refine ⟨.heap f, ?_⟩
  simp only [take_rest, hrealloc, heapFault, ok_bind, hread]
  rfl

/-- The block of a call whose buffer was filled. -/
theorem stored_heap_full (h : Heap) {data : List UInt8} (hd : data.length = BUFFER_SIZE) :
    (stored_heap h data).block h.next = some data := by
  refine (Heap.setBlock_block _ _ _).trans ?_
  rw [hd, Nat.sub_self, Mem.bytes_zero, List.append_nil]

theorem Assembled.grown {h₂ : Heap} {k : ℕ} (ha : Assembled (stored_heap h bs) h₂ k conc cb)
    (hbs : bs.length = BUFFER_SIZE) (status : Bool) :
    Assembled h (if status then grown_heap h₂ h.next (bs ++ cb)
      else (grown_heap h₂ h.next (bs ++ cb)).release conc.data) (k + 1)
      ⟨BUFFER_SIZE + cb.length, some h.next, status_code status⟩ (bs ++ cb) := by
  have hnext : h.next + 1 ≤ h₂.next := ha.grows.next
  have hconc : ∀ b ≤ h.next, conc.data ≠ some b := by
    intro b hb hc
    have hle : h.next + 1 ≤ b := (ha.block b hc).1
    omega
  have hne : bs ++ cb ≠ [] := by
    intro hnil
    rw [(List.append_eq_nil_iff.1 hnil).1] at hbs
    exact absurd hbs BUFFER_SIZE_pos.ne
  -- the block of the rest is another one, released or not
  have hblock : ∀ b ≤ h.next, (if status then grown_heap h₂ h.next (bs ++ cb)
      else (grown_heap h₂ h.next (bs ++ cb)).release conc.data).block b =
        (grown_heap h₂ h.next (bs ++ cb)).block b := by
    intro b hb
    cases status with
    | true => rfl
    | false => exact Heap.release_block_of_ne (hconc b hb)
  constructor
  · rw [List.length_append, hbs]
  · exact iff_of_false (by simp) hne
  · intro b hb
    cases hb
    refine ⟨le_rfl, ?_, ?_⟩
    · cases status <;> simpa [grown_heap] using Nat.lt_of_succ_le hnext
    · rw [hblock _ le_rfl, grown_heap_block]
  · constructor
    · cases status <;> simpa [grown_heap] using Nat.le_of_succ_le hnext
    · intro b hb
      rw [hblock b hb.le, ← (grows_stored_heap h bs).block b hb,
        ← ha.grows.block b (Nat.lt_succ_of_lt hb)]
      exact Heap.setBlock_block_of_ne hb.ne _
  · have hmoves : h₂.moves = h.moves := ha.moves
    cases status <;> simp [grown_heap, hmoves]
  · have hre : h₂.reallocs = h.reallocs + k := ha.reallocs
    cases status <;> simp [grown_heap, hre, Nat.add_assoc]

end

/-! ## All the results -/

/-- The `n` calls of `realloc` that follow the next one do not move their block. -/
def InPlace (h : Heap) (n : ℕ) : Prop := ∀ i < n, h.moves (h.reallocs + i + 1) = false

theorem inPlace_succ (h : Heap) (data : List UInt8) (n : ℕ) :
    InPlace h (n + 1) ↔
      InPlace (stored_heap h data) n ∧ h.moves (h.reallocs + n + 1) = false :=
  Nat.forall_lt_succ_right

/-- A call whose buffer was filled, once the rest came into the block of `conc`. -/
theorem direct_receive_grown {r : RecvResult} {rs : List RecvResult} {h h₂ : Heap} {k : ℕ}
    {conc : Response} {cb : List UInt8} (hr : r.Full)
    (hrun : direct_receive rs false (stored_heap h r.stored) = .ok (conc, h₂))
    (ha : Assembled (stored_heap h r.stored) h₂ k conc cb) (status : Bool) :
    (h.moves (h.reallocs + k) = false → BUFFER_SIZE + cb.length < 2 ^ 64 →
      direct_receive (r :: rs) status h =
        .ok (⟨BUFFER_SIZE + cb.length, some h.next, status_code status⟩,
          if status then grown_heap h₂ h.next (r.stored ++ cb)
          else (grown_heap h₂ h.next (r.stored ++ cb)).release conc.data)) ∧
    (h.moves (h.reallocs + k) = true ∨ (cb.length + BUFFER_SIZE) % 2 ^ 64 < BUFFER_SIZE →
      ∃ f, direct_receive (r :: rs) status h = .error (.fault f)) := by
  have hb : h₂.block h.next = some r.stored :=
    (ha.grows.block _ (Nat.lt_succ_self _)).trans (stored_heap_full h hr.stored_length)
  have hm : h₂.moves h₂.reallocs = h.moves (h.reallocs + k) := by
    rw [ha.moves, ha.reallocs]
    rfl
  rw [direct_receive_cons_full hr, hrun, ok_bind, ← hm]
  constructor
  · intro hplace hlt
    refine take_rest_ok hb hr.stored_length ha.length ha.null.1 (fun c hc => ?_) hplace hlt
    obtain ⟨hle, -, hcb⟩ := ha.block c hc
    exact ⟨(Nat.lt_of_succ_le hle).ne', hcb⟩
  · rw [← ha.length]
    exact take_rest_fault hb (Nat.lt_of_succ_le ha.grows.next)

section
variable {fulls : List RecvResult} (hfulls : ∀ r ∈ fulls, r.Full) (rest : List RecvResult)
  (status : Bool) (h : Heap)
include hfulls

/-- **The results up to one that leaves room** are in the block in the end,
    exactly if no `realloc` that makes room for the rest moves its block. -/
theorem direct_receive_ends {last : RecvResult} (hlast : last.Short) :
    (InPlace h fulls.length ∧ (received_bytes fulls ++ last.stored).length < 2 ^ 64 →
      ∃ response h', direct_receive (fulls ++ last :: rest) status h = .ok (response, h') ∧
        response.status_code = status_code status ∧
        Assembled h h' (fulls.length + 1) response (received_bytes fulls ++ last.stored)) ∧
    (¬ (InPlace h fulls.length ∧ (received_bytes fulls ++ last.stored).length < 2 ^ 64) →
      ∃ f, direct_receive (fulls ++ last :: rest) status h = .error (.fault f)) := by
  induction fulls generalizing status h with
  | nil =>
    obtain ⟨p, h', hrun, ha, -⟩ := direct_receive_last hlast rest status h
    refine ⟨fun _ => ⟨_, h', hrun, rfl, ha⟩, fun hno => absurd ⟨?_, ?_⟩ hno⟩
    · intro i hi
      exact absurd hi (Nat.not_lt_zero i)
    · have hlt : last.stored.length < BUFFER_SIZE := by
        rw [hlast.stored_length]
        exact hlast
      rw [BUFFER_SIZE] at hlt
      rw [received_bytes_nil, List.nil_append]
      omega
  | cons r fulls ih =>
    obtain ⟨hr, hfulls⟩ := List.forall_mem_cons.1 hfulls
    have hbs : r.stored.length = BUFFER_SIZE := hr.stored_length
    obtain ⟨hok, hfault⟩ := ih hfulls false (stored_heap h r.stored)
    rw [List.cons_append, List.length_cons, inPlace_succ h r.stored, received_bytes_cons,
      List.append_assoc, List.length_append, hbs]
    by_cases hin : InPlace (stored_heap h r.stored) fulls.length ∧
        (received_bytes fulls ++ last.stored).length < 2 ^ 64
    · obtain ⟨conc, h₂, hrun, -, ha⟩ := hok hin
      obtain ⟨hgrown, hgone⟩ := direct_receive_grown hr hrun ha status
      constructor
      · rintro ⟨⟨-, hplace⟩, hlt⟩
        exact ⟨_, _, hgrown hplace hlt, rfl, ha.grown hbs status⟩
      · intro hno
        refine hgone ?_
        cases hplace : h.moves (h.reallocs + (fulls.length + 1)) with
        | true => exact .inl rfl
        | false =>
          -- the lengths do not fit a `size_t`
          have hge : ¬ BUFFER_SIZE + (received_bytes fulls ++ last.stored).length < 2 ^ 64 :=
            fun hlt => hno ⟨⟨hin.1, hplace⟩, hlt⟩
          have hlt := hin.2
          have hsmall : BUFFER_SIZE < 2 ^ 64 := BUFFER_SIZE_lt.trans (Nat.sub_one_lt (by simp))
          right
          omega
    · obtain ⟨f, hrun⟩ := hfault hin
      rw [direct_receive_cons_full hr, hrun, error_bind]
      exact ⟨fun ⟨⟨hplace, _⟩, hlt⟩ => absurd ⟨hplace, by omega⟩ hin, fun _ => ⟨f, rfl⟩⟩

/-- An error that another call meets breaks off. -/
theorem direct_receive_error (hne : fulls ≠ []) :
    ∃ f, direct_receive (fulls ++ .error :: rest) status h = .error (.fault f) := by
  induction fulls generalizing status h with
  | nil => exact absurd rfl hne
  | cons r fulls ih =>
    obtain ⟨hr, hfulls⟩ := List.forall_mem_cons.1 hfulls
    rw [List.cons_append, direct_receive_cons_full hr]
    cases fulls with
    | nil =>
      -- `-1` is taken for the length of the rest
      have hwrap : (SIZE_MAX + BUFFER_SIZE) % 2 ^ 64 < BUFFER_SIZE := by decide
      have hb : ((stored_heap (stored_heap h r.stored) []).setBlock (h.next + 1) none).block
          h.next = some r.stored := by
        rw [Heap.setBlock_block_of_ne (Nat.ne_of_lt (Nat.lt_succ_self _)),
          (grows_stored_heap _ []).block _ (Nat.lt_succ_self _)]
        exact stored_heap_full h hr.stored_length
      rw [List.nil_append, direct_receive_cons_error, ok_bind]
      exact take_rest_fault hb (Nat.lt_succ_of_lt (Nat.lt_succ_self _)) (.inr hwrap)
    | cons r' fulls =>
      obtain ⟨f, hrun⟩ := ih hfulls false (stored_heap h r.stored) (List.cons_ne_nil _ _)
      exact ⟨f, by rw [hrun, error_bind]⟩

/-- With every buffer filled the last call waits. -/
theorem direct_receive_blocked : direct_receive fulls status h = .error .blocked := by
  induction fulls generalizing status h with
  | nil => rfl
  | cons r fulls ih =>
    obtain ⟨hr, hfulls⟩ := List.forall_mem_cons.1 hfulls
    rw [direct_receive_cons_full hr, ih hfulls, error_bind]

end

/-! ## Reassembly -/

/-- `direct_receive(sock, 1)` comes to its end without a fault and returns a live
    block of the `bytes`; every other block that it allocated is released. -/
def Reassembled (results : List RecvResult) (bytes : List UInt8) (h : Heap) : Prop :=
  ∃ response h' b, direct_receive results true h = .ok (response, h') ∧
    response.data_length = bytes.length ∧ response.data = some b ∧ h'.block b = some bytes ∧
    Released h h' response.data

section
variable {last : RecvResult} {fulls : List RecvResult} {rest : List RecvResult} {h : Heap}

theorem received_bytes_full (hfulls : ∀ r ∈ fulls, r.Full) (h : received_bytes fulls = []) :
    fulls = [] := by
  cases fulls with
  | nil => rfl
  | cons r fulls =>
    have hr := (hfulls r List.mem_cons_self).stored_length
    rw [received_bytes_cons] at h
    rw [(List.append_eq_nil_iff.1 h).1] at hr
    exact absurd hr BUFFER_SIZE_pos.ne

section
variable (hfulls : ∀ r ∈ fulls, r.Full) (hne : fulls ≠ []) (hlast : last.Short)
  (rest : List RecvResult) (h : Heap)
include hfulls hne hlast

/-- The block of the rest is never released by the first call; only an empty
    rest has none. -/
theorem Reassembled.one (hre : Reassembled (fulls ++ last :: rest)
    (received_bytes fulls ++ last.stored) h) :
    fulls.length = 1 ∧ last.stored = [] ∧ h.moves (h.reallocs + 1) = false := by
  obtain ⟨r, fulls, rfl⟩ := List.exists_cons_of_ne_nil hne
  obtain ⟨hr, hfulls'⟩ := List.forall_mem_cons.1 hfulls
  obtain ⟨response, h', b, hrun, -, -, -, hreleased⟩ := hre
  have hin : InPlace h (r :: fulls).length ∧
      (received_bytes (r :: fulls) ++ last.stored).length < 2 ^ 64 := by
    by_contra hno
    obtain ⟨f, hfault⟩ := (direct_receive_ends hfulls rest true h hlast).2 hno
    rw [hrun] at hfault
    cases hfault
  obtain ⟨hplace, hlt⟩ := hin
  rw [List.length_cons, inPlace_succ h r.stored] at hplace
  rw [received_bytes_cons, List.append_assoc, List.length_append, hr.stored_length] at hlt
  obtain ⟨conc, h₂, hconc, -, ha⟩ := (direct_receive_ends hfulls' rest false
    (stored_heap h r.stored) hlast).1 ⟨hplace.1, by omega⟩
  have hgrown := (direct_receive_grown hr hconc ha true).1 hplace.2 hlt
  rw [List.cons_append, hgrown] at hrun
  cases hrun
  have hrest : received_bytes fulls ++ last.stored = [] := by
    cases hc : conc.data with
    | none => exact ha.null.1 hc
    | some c =>
      obtain ⟨hle, hc', hblock⟩ := ha.block c hc
      have hnext : h.next < c := hle
      have hgone := hreleased c hnext.le hc' (by simpa using hnext.ne)
      rw [if_pos rfl, grown_heap, Heap.setBlock_block_of_ne hnext.ne', hblock] at hgone
      cases hgone
  obtain ⟨hbytes, hlast'⟩ := List.append_eq_nil_iff.1 hrest
  obtain rfl := received_bytes_full hfulls' hbytes
  exact ⟨rfl, hlast', hplace.2⟩

theorem reassembled_one (hone : fulls.length = 1) (hlast' : last.stored = [])
    (hm : h.moves (h.reallocs + 1) = false) :
    Reassembled (fulls ++ last :: rest) (received_bytes fulls ++ last.stored) h := by
  obtain ⟨r, rfl⟩ := List.length_eq_one_iff.1 hone
  have hr : r.Full := hfulls r List.mem_cons_self
  obtain ⟨p, h₂, hrun, ha, hreleased⟩ :=
    direct_receive_last hlast rest false (stored_heap h r.stored)
  obtain rfl : p = none := ha.null.2 hlast'
  rw [hlast'] at ha
  have hsmall : BUFFER_SIZE + ([] : List UInt8).length < 2 ^ 64 := by decide
  refine ⟨_, _, h.next, (direct_receive_grown hr hrun ha true).1 hm hsmall, ?_, rfl, ?_, ?_⟩
  · simp [hlast', hr.stored_length]
  · simp [hlast']
  · intro b hle hlt hb
    have hne : b ≠ h.next := fun h => hb (by rw [h])
    refine (Heap.setBlock_block_of_ne hne _).trans ?_
    exact hreleased b (by show h.next + 1 ≤ b; omega) hlt (by simp)

end

/-- **When long messages are put together.**  Only where the second of two reads
    brings nothing, and the block is resized in place for that. -/
theorem reassembled_iff (hfulls : ∀ r ∈ fulls, r.Full) (hne : fulls ≠ []) (hlast : last.Short)
    (rest : List RecvResult) (h : Heap) :
    Reassembled (fulls ++ last :: rest) (received_bytes fulls ++ last.stored) h ↔
      fulls.length = 1 ∧ last.stored = [] ∧ h.moves (h.reallocs + 1) = false := by
  constructor
  · intro hre
    exact hre.one hfulls hne hlast
  · rintro ⟨hone, hlast', hm⟩
    exact reassembled_one hfulls hne hlast rest h hone hlast' hm

end

/-- A buffer full of zeros. -/
def full_chunk : RecvResult := .received (List.replicate BUFFER_SIZE 0) List.length_replicate.le

theorem full_chunk_full : ∀ r ∈ [full_chunk], r.Full := by
  intro r hr
  rw [List.mem_singleton.1 hr]
  exact List.length_replicate

theorem reassembled_iff_full_chunk :
    Reassembled ([full_chunk] ++ .received [] (Nat.zero_le _) :: [])
      (received_bytes [full_chunk] ++ []) Kernel.fresh.heap :=
  (reassembled_iff full_chunk_full (List.cons_ne_nil _ _)
    (RecvResult.short_nil (Nat.zero_le _)) [] _).2 ⟨rfl, rfl, rfl⟩

/-- One byte more, and its block stays. -/
theorem not_reassembled : ¬ ∀ (fulls : List RecvResult) (last : RecvResult) (rest : List RecvResult)
    (h : Heap), (∀ r ∈ fulls, r.Full) → fulls ≠ [] → last.Short →
    Reassembled (fulls ++ last :: rest) (received_bytes fulls ++ last.stored) h := by
  intro hall
  have hlast : RecvResult.Short (.received [0x6b] (by decide)) := by decide
  have hre := hall [full_chunk] _ [] Kernel.fresh.heap full_chunk_full (List.cons_ne_nil _ _) hlast
  obtain ⟨-, hnil, -⟩ := hre.one full_chunk_full (List.cons_ne_nil _ _) hlast
  cases hnil

end ChordPeer
