/-
  C texts — numbers and IPv4 addresses as the C library writes and reads them.

  * `stored`, `c_str`: a text in memory with its terminator, and the text that
    a function reads there;
  * `decimal` (`"%d"`), `strtol` and `atoi` with a `long` of 64 bits and an
    `int` of 32: `atoi_decimal` for the numbers that are an `int`;
  * `inet_ntop`, `inet_pton`: `inet_ntop_eq`, `inet_pton_dotted`;
  * `length_decimal_le_iff`: how long the text of a number is.
-/
import Mathlib.Algebra.Group.Nat.Defs
import Mathlib.Data.List.Basic
import Mathlib.Data.List.TakeWhile

namespace CText

/-! ## Texts in memory -/

def NUL : Char := Char.ofNat 0

def stored (text : List Char) : List Char := text ++ [NUL]

def c_str (mem : List Char) : List Char := mem.takeWhile (· != NUL)

/-- A text without a terminator of its own is read back. -/
theorem c_str_stored {text : List Char} (h : NUL ∉ text) : c_str (stored text) = text := by
  have hne : ∀ c ∈ text, (c != NUL) = true := by
    intro c hc
    simp only [bne_iff_ne]
    rintro rfl
    exact h hc
  rw [c_str, stored, List.takeWhile_append_of_pos hne]
  simp

/-! ## Decimal numbers -/

theorem isDigit_toDigits (n : ℕ) : ∀ c ∈ Nat.toDigits 10 n, c.isDigit = true :=
  fun _ hc => Nat.isDigit_of_mem_toDigits (by omega) (by omega) hc

theorem NUL_not_mem_toDigits (n : ℕ) : NUL ∉ Nat.toDigits 10 n := fun h =>
  absurd (isDigit_toDigits n _ h) Bool.false_ne_true

/-- No leading zero. -/
theorem toDigits_head {n : ℕ} (hn : 0 < n) : (Nat.toDigits 10 n).head? ≠ some '0' := by
  induction n using Nat.strongRecOn with
  | ind n ih =>
    rw [Nat.toDigits_eq_if (by omega)]
    split
    · simp [hn.ne']
    · have hdiv := ih (n / 10) (by omega) (by omega)
      rwa [List.head?_append_of_ne_nil _ Nat.toDigits_ne_nil]

/-- What `"%d"` writes. -/
def decimal : ℤ → List Char
  | .ofNat n => Nat.toDigits 10 n
  | .negSucc n => '-' :: Nat.toDigits 10 (n + 1)

def isspace (c : Char) : Bool := c == ' ' || (9 ≤ c.toNat && c.toNat ≤ 13)

/-- The number at the start of a text, `0` if there is none. -/
def digits_value (text : List Char) : ℕ := Nat.ofDigitChars 10 (text.takeWhile Char.isDigit) 0

/-- The number that a text stands for, blanks and a sign before it. -/
def number (text : List Char) : ℤ :=
  match text.dropWhile isspace with
  | '-' :: cs => -digits_value cs
  | '+' :: cs => digits_value cs
  | cs => digits_value cs

def LONG_MIN : ℤ := -9223372036854775808

def LONG_MAX : ℤ := 9223372036854775807

def INT_MIN : ℤ := -2147483648

def INT_MAX : ℤ := 2147483647

/-- `strtol` to the base 10: a number beyond a `long` becomes the last one on
    its side. -/
def strtol (text : List Char) : ℤ := max LONG_MIN (min (number text) LONG_MAX)

/-- `atoi` is `(int) strtol`, so of a longer number the low 32 bits. -/
def atoi (text : List Char) : ℤ := (strtol text).bmod (2 ^ 32)

/-- A number that is an `int` is what `atoi` gives. -/
theorem atoi_eq_number {text : List Char} (hlow : INT_MIN ≤ number text)
    (hhigh : number text ≤ INT_MAX) : atoi text = number text := by
  rw [INT_MIN] at hlow
  rw [INT_MAX] at hhigh
  have hlong : strtol text = number text := by
    rw [strtol, LONG_MIN, LONG_MAX]
    omega
  rw [atoi, hlong]
  apply Int.bmod_eq_of_le
  · omega
  · omega

example : atoi "4294971296".toList = 4000 := by decide

example : atoi "9223372036854775808".toList = -1 := by decide

theorem digits_value_toDigits (n : ℕ) : digits_value (Nat.toDigits 10 n) = n := by
  rw [digits_value, List.takeWhile_eq_self_iff.2 (isDigit_toDigits n),
    Nat.ofDigitChars_ten_toDigits]

theorem isDigit_bounds {c : Char} (hc : c.isDigit = true) : 48 ≤ c.toNat ∧ c.toNat ≤ 57 := by
  simpa [Char.isDigit, UInt32.le_iff_toNat_le] using hc

theorem not_isspace_of_isDigit {c : Char} (hc : c.isDigit = true) : isspace c = false := by
  have hb := isDigit_bounds hc
  have hne : c ≠ ' ' := by
    rintro rfl
    exact absurd hc Bool.false_ne_true
  simp [isspace, hne]
  omega

/-- The text of a number is neither blank nor signed. -/
theorem number_toDigits (n : ℕ) : number (Nat.toDigits 10 n) = n := by
  obtain ⟨c, cs, hcs⟩ := List.exists_cons_of_ne_nil (Nat.toDigits_ne_nil (n := n) (b := 10))
  have hc : c.isDigit = true := isDigit_toDigits n c (by simp [hcs])
  have hdrop : (Nat.toDigits 10 n).dropWhile isspace = Nat.toDigits 10 n := by
    rw [hcs, List.dropWhile_cons, not_isspace_of_isDigit hc]
    rfl
  rw [number, hdrop]
  split
  · next h =>
    cases hcs.symm.trans h
    exact absurd hc Bool.false_ne_true
  · next h =>
    cases hcs.symm.trans h
    exact absurd hc Bool.false_ne_true
  · rw [digits_value_toDigits]

theorem number_decimal (n : ℤ) : number (decimal n) = n := by
  cases n with
  | ofNat n => exact number_toDigits n
  | negSucc n =>
    show -((digits_value (Nat.toDigits 10 (n + 1)) : ℕ) : ℤ) = Int.negSucc n
    rw [digits_value_toDigits]
    rfl

/-- **Numbers are read back**, those that are an `int`. -/
theorem atoi_decimal {n : ℤ} (hlow : INT_MIN ≤ n) (hhigh : n ≤ INT_MAX) : atoi (decimal n) = n := by
  have h := number_decimal n
  rw [atoi_eq_number (by rwa [h]) (by rwa [h]), h]

/-- A number of 16 bits is one of them. -/
theorem ofInt_atoi_decimal (k : UInt16) : UInt16.ofInt (atoi (decimal k.toNat)) = k := by
  have hlt := k.toNat_lt
  have hlow : INT_MIN ≤ k.toNat := by
    rw [INT_MIN]
    omega
  have hhigh : k.toNat ≤ INT_MAX := by
    rw [INT_MAX]
    omega
  have hmod : (k.toNat : ℤ) % 2 ^ 16 = k.toNat := Int.emod_eq_of_lt (by omega) (by omega)
  rw [atoi_decimal hlow hhigh, UInt16.ofInt, hmod, Int.toNat_natCast, UInt16.ofNat_toNat]

theorem NUL_not_mem_decimal (n : ℤ) : NUL ∉ decimal n := by
  cases n with
  | ofNat n => exact NUL_not_mem_toDigits n
  | negSucc n =>
    intro h
    rcases List.mem_cons.1 h with h | h
    · exact absurd h (by decide)
    · exact NUL_not_mem_toDigits _ h

theorem length_decimal_le_iff {n k : ℕ} (hk : 0 < k) : (decimal n).length ≤ k ↔ n < 10 ^ k :=
  Nat.length_toDigits_le_iff (by omega) hk

/-! ## IPv4 addresses -/

/-- The text of the bytes of an address. -/
def dotted (bytes : List UInt8) : List Char :=
  ['.'].intercalate (bytes.map fun b => Nat.toDigits 10 b.toNat)

/-- `inet_ntop` for `AF_INET`: the text, if there is room for it. -/
def inet_ntop (src : List UInt8) (size : ℕ) : Option (List Char) :=
  if (dotted src).length < size then some (dotted src) else none

/-- A decimal number up to 255 without leading zeros. -/
def octet (part : List Char) : Option UInt8 :=
  if part ≠ [] ∧ part.all Char.isDigit ∧ (part.length = 1 ∨ part.head? ≠ some '0') ∧
      Nat.ofDigitChars 10 part 0 ≤ 255 then
    some (UInt8.ofNat (Nat.ofDigitChars 10 part 0))
  else none

/-- `inet_pton` for `AF_INET`: the bytes, if the text has the form `ddd.ddd.ddd.ddd`. -/
def inet_pton (text : List Char) : Option (List UInt8) := do
  let bytes ← (text.splitOn '.').mapM octet
  if bytes.length = 4 then some bytes else none

theorem octet_toDigits (b : UInt8) : octet (Nat.toDigits 10 b.toNat) = some b := by
  have hlt : b.toNat < 256 := b.toNat_lt
  have hall : (Nat.toDigits 10 b.toNat).all Char.isDigit = true :=
    List.all_eq_true.2 (isDigit_toDigits _)
  have hhead : (Nat.toDigits 10 b.toNat).length = 1 ∨
      (Nat.toDigits 10 b.toNat).head? ≠ some '0' := by
    rcases Nat.eq_zero_or_pos b.toNat with h | h
    · rw [h]
      exact .inl rfl
    · exact .inr (toDigits_head h)
  rw [octet, Nat.ofDigitChars_ten_toDigits, if_pos ⟨Nat.toDigits_ne_nil, hall, hhead, by omega⟩,
    UInt8.ofNat_toNat]

theorem mapM_octet (bytes : List UInt8) :
    (bytes.map fun b => Nat.toDigits 10 b.toNat).mapM octet = some bytes := by
  induction bytes with
  | nil => rfl
  | cons b bytes ih =>
    rw [List.map_cons, List.mapM_cons, octet_toDigits, ih]
    rfl

/-- No digit is a dot. -/
theorem dot_not_mem_toDigits (n : ℕ) : '.' ∉ Nat.toDigits 10 n := fun h =>
  absurd (isDigit_toDigits n _ h) Bool.false_ne_true

theorem octets_ne_nil {bytes : List UInt8} (h : bytes.length = 4) :
    bytes.map (fun b => Nat.toDigits 10 b.toNat) ≠ [] := by
  intro hnil
  rw [List.map_eq_nil_iff.1 hnil] at h
  cases h

/-- **Addresses are read back.** -/
theorem inet_pton_dotted {bytes : List UInt8} (h : bytes.length = 4) :
    inet_pton (dotted bytes) = some bytes := by
  have hdots : ∀ l ∈ bytes.map fun b => Nat.toDigits 10 b.toNat, '.' ∉ l := by
    intro l hl
    obtain ⟨b, -, rfl⟩ := List.mem_map.1 hl
    exact dot_not_mem_toDigits _
  rw [inet_pton, dotted, List.splitOn_intercalate _ hdots (octets_ne_nil h), mapM_octet]
  exact if_pos h

theorem mem_intercalate {α : Type*} {x c : α} {ls : List (List α)} (h : c ∈ [x].intercalate ls) :
    c = x ∨ ∃ l ∈ ls, c ∈ l := by
  induction ls with
  | nil => exact absurd h List.not_mem_nil
  | cons l ls ih =>
    cases ls with
    | nil =>
      rw [List.intercalate_singleton] at h
      exact .inr ⟨l, List.mem_cons_self, h⟩
    | cons l' ls =>
      rw [List.intercalate_cons_cons, List.mem_append, List.mem_append, List.mem_singleton] at h
      rcases h with (h | h) | h
      · exact .inr ⟨l, List.mem_cons_self, h⟩
      · exact .inl h
      · rcases ih h with h | ⟨l'', hl, hc⟩
        · exact .inl h
        · exact .inr ⟨l'', List.mem_cons_of_mem l hl, hc⟩

theorem NUL_not_mem_dotted (bytes : List UInt8) : NUL ∉ dotted bytes := by
  intro h
  rcases mem_intercalate h with h | ⟨l, hl, h⟩
  · exact absurd h (by decide)
  · obtain ⟨b, -, rfl⟩ := List.mem_map.1 hl
    exact NUL_not_mem_toDigits _ h

theorem length_intercalate_le {α : Type*} (x : α) {k : ℕ} {ls : List (List α)}
    (hl : ∀ l ∈ ls, l.length ≤ k) (hne : ls ≠ []) :
    ([x].intercalate ls).length + 1 ≤ ls.length * (k + 1) := by
  induction ls with
  | nil => exact absurd rfl hne
  | cons l ls ih =>
    have hlen := hl l List.mem_cons_self
    cases ls with
    | nil =>
      rw [List.intercalate_singleton, List.length_singleton]
      omega
    | cons l' ls =>
      have ih := ih (fun x hx => hl x (List.mem_cons_of_mem l hx)) (List.cons_ne_nil l' ls)
      rw [List.intercalate_cons_cons, List.length_cons, Nat.succ_mul, List.length_append,
        List.length_append, List.length_singleton]
      omega

theorem length_dotted_le (bytes : List UInt8) (h : bytes.length = 4) :
    (dotted bytes).length ≤ 15 := by
  have hlen : ∀ l ∈ bytes.map fun b => Nat.toDigits 10 b.toNat, l.length ≤ 3 := by
    intro l hl
    obtain ⟨b, -, rfl⟩ := List.mem_map.1 hl
    have hlt : b.toNat < 256 := b.toNat_lt
    exact (Nat.length_toDigits_le_iff (by omega) (by omega)).2 (by omega)
  have hle := length_intercalate_le '.' hlen (octets_ne_nil h)
  rw [List.length_map, h] at hle
  rw [dotted]
  omega

end CText
