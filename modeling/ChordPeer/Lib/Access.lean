/-
  Accesses to memory — loads that are logged, and the bytes that loads and
  stores touch.

  * `LoadM` runs a function of memory with a log of its loads;
  * `mem_touched`: the bytes that logged loads touch;
  * `mem_written_layout`: stores side by side touch every byte from the first
    to the last.
-/
import ChordPeer.Lib.Bytes

namespace CBytes

/-- A load of `width` bytes. -/
structure Access where
  off : ℕ
  width : ℕ
  deriving DecidableEq, Repr

/-- A function of memory that logs its loads. -/
abbrev LoadM (α : Type) := ReaderT Mem (StateM (List Access)) α

namespace LoadM

def access (off width : ℕ) : LoadM Mem := do
  modify (· ++ [⟨off, width⟩])
  read

def load8 (i : ℕ) : LoadM UInt8 := do return (← access i 1) i

def load16 (i : ℕ) : LoadM UInt16 := do return (← access i 2).load16 i

def load32 (i : ℕ) : LoadM UInt32 := do return (← access i 4).load32 i

def bytes (i n : ℕ) : LoadM (List UInt8) := do return (← access i n).bytes i n

/-- The result on a memory, and the loads. -/
def on {α : Type} (f : LoadM α) (m : Mem) : α × List Access := (f.run m).run []

end LoadM

/-- The offsets that loads touch. -/
def touched (as : List Access) : List ℕ := as.flatMap fun a => List.range' a.off a.width

/-- The offsets that stores touch. -/
def written (ws : List Write) : List ℕ := ws.flatMap fun w => List.range' w.off w.data.length

theorem mem_touched {as : List Access} {i : ℕ} :
    i ∈ touched as ↔ ∃ a ∈ as, a.off ≤ i ∧ i < a.off + a.width := by
  simp [touched, List.mem_range'_1]

theorem mem_written_layout {ds : List (List UInt8)} {o i : ℕ} :
    i ∈ written (Mem.layout o ds) ↔ o ≤ i ∧ i < o + ds.flatten.length := by
  induction ds generalizing o with
  | nil =>
    simp only [written, Mem.layout, List.flatMap_nil, List.not_mem_nil, List.flatten_nil,
      List.length_nil, false_iff]
    omega
  | cons d ds ih =>
    have hcons : written (Mem.layout o (d :: ds)) =
        List.range' o d.length ++ written (Mem.layout (o + d.length) ds) := by
      simp [written, Mem.layout]
    rw [hcons, List.mem_append, ih, List.mem_range'_1, List.flatten_cons, List.length_append]
    omega

end CBytes
