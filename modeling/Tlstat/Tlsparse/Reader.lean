import Mathlib.Tactic.Common
import Mathlib.Data.List.Infix

/-! The bounds-checked big-endian cursor of the handshake parser. The cursor
carries the proof that its offset stays inside the slice, so no operation below
can index out of range. -/

namespace Tlstat

/-- A Go byte slice; Go strings are byte strings too. -/
abbrev Bytes := List UInt8

/-- `b[i:j]` -/
def slice (b : Bytes) (i j : ℕ) : Bytes := (b.drop i).take (j - i)

theorem slice_eq_of_isPrefix {b' b : Bytes} (h : b' <+: b) {i j : ℕ} (hj : j ≤ b'.length) :
    slice b' i j = slice b i j := by
  obtain ⟨t, rfl⟩ := h
  simp only [slice, ← List.drop_take, List.take_append_of_le_length hj]

namespace Tlsparse

def be16 (a b : UInt8) : UInt16 := a.toUInt16 <<< 8 ||| b.toUInt16

def be24 (a b c : UInt8) : UInt32 := a.toUInt32 <<< 16 ||| b.toUInt32 <<< 8 ||| c.toUInt32

structure Reader where
  b : Bytes
  off : ℕ
  off_le : off ≤ b.length

namespace Reader

def start (b : Bytes) : Reader := ⟨b, 0, Nat.zero_le _⟩

def rest (r : Reader) : Bytes := r.b.drop r.off

def advance (r : Reader) (n : ℕ) (h : r.off + n ≤ r.b.length) : Reader := ⟨r.b, r.off + n, h⟩

def u8 (r : Reader) : Option (UInt8 × Reader) :=
  if h : r.off + 1 ≤ r.b.length then some (r.b[r.off], r.advance 1 h) else none

def u16 (r : Reader) : Option (UInt16 × Reader) :=
  if h : r.off + 2 ≤ r.b.length then
    some (be16 r.b[r.off] r.b[r.off + 1], r.advance 2 h)
  else none

def u24 (r : Reader) : Option (UInt32 × Reader) :=
  if h : r.off + 3 ≤ r.b.length then
    some (be24 r.b[r.off] r.b[r.off + 1] r.b[r.off + 2], r.advance 3 h)
  else none

/-- Lengths come from unsigned words, so the source's `n < 0` test never fires. -/
def bytes (r : Reader) (n : ℕ) : Option (Bytes × Reader) :=
  if h : r.off + n ≤ r.b.length then some (slice r.b r.off (r.off + n), r.advance n h) else none

/-- A failed skip moves the cursor to the end of the slice. -/
def skip (r : Reader) (n : ℕ) : Bool × Reader :=
  if h : r.off + n ≤ r.b.length then (true, r.advance n h)
  else (false, ⟨r.b, r.b.length, le_rfl⟩)

def skipVec8 (r : Reader) : Bool × Reader :=
  match r.u8 with
  | none => (false, r)
  | some (l, r) => r.skip l.toNat

-- the callers that drop the `ok` result see a zero and an unmoved cursor on failure
def u8D (r : Reader) : UInt8 × Reader := r.u8.getD (0, r)
def u16D (r : Reader) : UInt16 × Reader := r.u16.getD (0, r)
def u24D (r : Reader) : UInt32 × Reader := r.u24.getD (0, r)

section Bounds
variable {r : Reader} {n : ℕ}

theorem u8D_of_le (h : r.off + 1 ≤ r.b.length) : r.u8D = (r.b[r.off], r.advance 1 h) := by
  simp only [u8D, u8, dif_pos h, Option.getD_some]

theorem u16D_of_le (h : r.off + 2 ≤ r.b.length) :
    r.u16D = (be16 r.b[r.off] r.b[r.off + 1], r.advance 2 h) := by
  simp only [u16D, u16, dif_pos h, Option.getD_some]

theorem u24D_of_le (h : r.off + 3 ≤ r.b.length) :
    r.u24D = (be24 r.b[r.off] r.b[r.off + 1] r.b[r.off + 2], r.advance 3 h) := by
  simp only [u24D, u24, dif_pos h, Option.getD_some]

theorem u8D_moves (h : r.off + 1 ≤ r.b.length) :
    r.u8D.2.b = r.b ∧ r.u8D.2.off = r.off + 1 := by
  rw [u8D_of_le h]
  exact ⟨rfl, rfl⟩

theorem u16D_moves (h : r.off + 2 ≤ r.b.length) :
    r.u16D.2.b = r.b ∧ r.u16D.2.off = r.off + 2 := by
  rw [u16D_of_le h]
  exact ⟨rfl, rfl⟩

theorem bytes_moves {d : Bytes} {r' : Reader} (h : r.bytes n = some (d, r')) :
    r'.b = r.b ∧ r'.off = r.off + n := by
  simp only [bytes] at h
  split_ifs at h
  simp only [Option.some.injEq, Prod.mk.injEq] at h
  obtain ⟨rfl, rfl⟩ := h
  exact ⟨rfl, rfl⟩

end Bounds

/-- The same position in a slice and in a longer one. -/
structure Le (r' r : Reader) : Prop where
  b : r'.b <+: r.b
  off : r'.off = r.off

namespace Le
variable {r' r : Reader}

theorem start {b' b : Bytes} (h : b' <+: b) : Le (Reader.start b') (Reader.start b) := ⟨h, rfl⟩

theorem length_le (h : Le r' r) : r'.b.length ≤ r.b.length := h.b.length_le

theorem advance (h : Le r' r) {n : ℕ} (hn : r'.off + n ≤ r'.b.length)
    (hn' : r.off + n ≤ r.b.length) : Le (r'.advance n hn) (r.advance n hn') :=
  ⟨h.b, by simp only [Reader.advance, h.off]⟩

theorem bound (h : Le r' r) {n : ℕ} (hn : r'.off + n ≤ r'.b.length) :
    r.off + n ≤ r.b.length := h.off ▸ hn.trans h.length_le

theorem u8 (h : Le r' r) {v : UInt8} {q' : Reader} (hu : r'.u8 = some (v, q')) :
    ∃ q, r.u8 = some (v, q) ∧ Le q' q := by
  simp only [Reader.u8] at hu
  split_ifs at hu with hn
  simp only [Option.some.injEq, Prod.mk.injEq] at hu
  obtain ⟨rfl, rfl⟩ := hu
  refine ⟨r.advance 1 (h.bound hn), ?_, h.advance hn _⟩
  simp only [Reader.u8, dif_pos (h.bound hn), h.b.getElem, h.off]

theorem u16 (h : Le r' r) {v : UInt16} {q' : Reader} (hu : r'.u16 = some (v, q')) :
    ∃ q, r.u16 = some (v, q) ∧ Le q' q := by
  simp only [Reader.u16] at hu
  split_ifs at hu with hn
  simp only [Option.some.injEq, Prod.mk.injEq] at hu
  obtain ⟨rfl, rfl⟩ := hu
  refine ⟨r.advance 2 (h.bound hn), ?_, h.advance hn _⟩
  simp only [Reader.u16, dif_pos (h.bound hn), h.b.getElem, h.off]

theorem u24 (h : Le r' r) {v : UInt32} {q' : Reader} (hu : r'.u24 = some (v, q')) :
    ∃ q, r.u24 = some (v, q) ∧ Le q' q := by
  simp only [Reader.u24] at hu
  split_ifs at hu with hn
  simp only [Option.some.injEq, Prod.mk.injEq] at hu
  obtain ⟨rfl, rfl⟩ := hu
  refine ⟨r.advance 3 (h.bound hn), ?_, h.advance hn _⟩
  simp only [Reader.u24, dif_pos (h.bound hn), h.b.getElem, h.off]

theorem u8D (h : Le r' r) (hn : r'.off + 1 ≤ r'.b.length) :
    r'.u8D.1 = r.u8D.1 ∧ Le r'.u8D.2 r.u8D.2 := by
  obtain ⟨q, hq, hle⟩ := h.u8 (dif_pos hn)
  simp only [Reader.u8D, Reader.u8, dif_pos hn] at hq ⊢
  rw [hq]
  exact ⟨rfl, hle⟩

theorem u16D (h : Le r' r) (hn : r'.off + 2 ≤ r'.b.length) :
    r'.u16D.1 = r.u16D.1 ∧ Le r'.u16D.2 r.u16D.2 := by
  obtain ⟨q, hq, hle⟩ := h.u16 (dif_pos hn)
  simp only [Reader.u16D, Reader.u16, dif_pos hn] at hq ⊢
  rw [hq]
  exact ⟨rfl, hle⟩

theorem u24D (h : Le r' r) (hn : r'.off + 3 ≤ r'.b.length) :
    r'.u24D.1 = r.u24D.1 ∧ Le r'.u24D.2 r.u24D.2 := by
  obtain ⟨q, hq, hle⟩ := h.u24 (dif_pos hn)
  simp only [Reader.u24D, Reader.u24, dif_pos hn] at hq ⊢
  rw [hq]
  exact ⟨rfl, hle⟩

theorem rest (h : Le r' r) : r'.rest <+: r.rest := by
  unfold Reader.rest
  rw [h.off]
  exact h.b.drop r.off

theorem bytes (h : Le r' r) {n : ℕ} {d : Bytes} {q' : Reader}
    (hu : r'.bytes n = some (d, q')) : ∃ q, r.bytes n = some (d, q) ∧ Le q' q := by
  simp only [Reader.bytes] at hu
  split_ifs at hu with hn
  simp only [Option.some.injEq, Prod.mk.injEq] at hu
  obtain ⟨rfl, rfl⟩ := hu
  refine ⟨r.advance n (h.bound hn), ?_, h.advance hn _⟩
  rw [slice_eq_of_isPrefix h.b hn, h.off]
  exact dif_pos (h.bound hn)

theorem skip (h : Le r' r) {n : ℕ} (hs : (r'.skip n).1 = true) :
    (r.skip n).1 = true ∧ Le (r'.skip n).2 (r.skip n).2 := by
  simp only [Reader.skip] at hs ⊢
  split_ifs at hs with hn
  rw [dif_pos hn, dif_pos (h.bound hn)]
  exact ⟨rfl, h.advance hn _⟩

theorem skipVec8 (h : Le r' r) (hs : r'.skipVec8.1 = true) :
    r.skipVec8.1 = true ∧ Le r'.skipVec8.2 r.skipVec8.2 := by
  simp only [Reader.skipVec8] at hs ⊢
  rcases hu : r'.u8 with _ | ⟨l, q'⟩
  · simp [hu] at hs
  · obtain ⟨q, hq, hle⟩ := h.u8 hu
    rw [hu] at hs
    rw [hq]
    exact hle.skip hs

end Le
end Reader
end Tlsparse
end Tlstat
