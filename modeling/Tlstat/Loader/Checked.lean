import Tlstat.Base.Checked
import Tlstat.Loader.Codec

/-! `ReadEvent` once more with Go's run-time checks: every index and slice expression on the raw
sample may fault, and the three pointers it returns are kept apart. No sample makes it fault, and
what it returns is the event of the decoder above. -/

namespace Tlstat.Loader.Checked
open Base Base.Checked

/-- `b[i:]` -/
def suffix (b : Bytes) (i : ℤ) : Checked Bytes := subslice b i b.length

def le16 (b : Bytes) : Checked UInt16 := do
  let b₀ ← index b 0
  let b₁ ← index b 1
  return b₀.toUInt16 ||| b₁.toUInt16 <<< 8

def le32 (b : Bytes) : Checked UInt32 := do
  let b₀ ← index b 0
  let b₁ ← index b 1
  let b₂ ← index b 2
  let b₃ ← index b 3
  return b₀.toUInt32 ||| b₁.toUInt32 <<< 8 ||| b₂.toUInt32 <<< 16 ||| b₃.toUInt32 <<< 24

def le64 (b : Bytes) : Checked UInt64 := do
  let low ← le32 b
  let high ← le32 (← suffix b 4)
  return low.toUInt64 ||| high.toUInt64 <<< 32

/-- The pointers `ReadEvent` returns beside its error. -/
structure Pointers where
  wire : Option WireEvent := none
  data : Option DataEvent := none
  close : Option CloseEvent := none
deriving DecidableEq, Repr

def Pointers.nonNil (p : Pointers) : ℕ :=
  p.wire.isSome.toNat + p.data.isSome.toNat + p.close.isSome.toNat

/-- `if i+n <= len(b) { Data = append([]byte(nil), b[i:i+n]...) }` -/
def captured (b : Bytes) (i n : ℤ) : Checked Bytes :=
  if i + n ≤ b.length then subslice b i (i + n) else return []

def readEvent (b : Bytes) : Checked Pointers :=
  if (b.length : ℤ) < 1 then return {}
  else do
    let type ← index b 0
    if type = 1 then -- EVENT_WIRE
      if (b.length : ℤ) < 12 then return {}
      else do
        let dir ← index b 1
        let sock ← le64 (← suffix b 4)
        let n ← le16 (← suffix b 2)
        let data ← captured b 12 n.toNat
        return { wire := some { dir, sock, data } }
    else if type = 2 then -- EVENT_DATA
      if (b.length : ℤ) < 24 then return {}
      else do
        let dir ← index b 1
        let pid ← le32 (← suffix b 4)
        let tid ← le32 (← suffix b 8)
        let fd ← le32 (← suffix b 12)
        let ssl ← le64 (← suffix b 16)
        let n ← le16 (← suffix b 2)
        let data ← captured b 24 n.toNat
        return { data := some { dir, pid, tid, fd := fd.toInt32, ssl, data } }
    else if type = 3 then -- EVENT_CLOSE
      if (b.length : ℤ) < 36 then return {}
      else do
        let pid ← le32 (← suffix b 4)
        let fd ← le32 (← suffix b 8)
        let ssl ← le64 (← suffix b 12)
        let ptx ← le64 (← suffix b 20)
        let prx ← le64 (← suffix b 28)
        return { close := some { pid, fd := fd.toInt32, ssl, ptx, prx } }
    else return {}

/-! ### Every access is in bounds -/

theorem suffix_ok {b : Bytes} {i : ℤ} {n : ℕ} (hi : i = n) (h : n ≤ b.length) :
    suffix b i = .ok (b.drop n) := by
  rw [suffix, subslice_ok hi rfl h (Nat.le_refl _)]
  refine congrArg Except.ok (List.take_of_length_le ?_)
  rw [List.length_drop]

theorem le16_ok {b : Bytes} (h : 2 ≤ b.length) : le16 b = .ok (Loader.le16 b h) := by
  have h₀ : index b 0 = .ok b[0] := index_ok (n := 0) rfl (by omega)
  have h₁ : index b 1 = .ok b[1] := index_ok (n := 1) rfl (by omega)
  rw [le16, h₀, h₁]
  rfl

theorem le32_ok {b : Bytes} (h : 4 ≤ b.length) : le32 b = .ok (Loader.le32 b h) := by
  have h₀ : index b 0 = .ok b[0] := index_ok (n := 0) rfl (by omega)
  have h₁ : index b 1 = .ok b[1] := index_ok (n := 1) rfl (by omega)
  have h₂ : index b 2 = .ok b[2] := index_ok (n := 2) rfl (by omega)
  have h₃ : index b 3 = .ok b[3] := index_ok (n := 3) rfl (by omega)
  rw [le32, h₀, h₁, h₂, h₃]
  rfl

theorem le64_ok {b : Bytes} (h : 8 ≤ b.length) : le64 b = .ok (Loader.le64 b h) := by
  have hrest : 4 ≤ (b.drop 4).length := by
    rw [List.length_drop]
    omega
  have hlow : le32 b = .ok (Loader.le32 b _) := le32_ok (by omega)
  have hhigh : suffix b 4 = .ok (b.drop 4) := suffix_ok (n := 4) rfl (by omega)
  rw [le64, hlow, hhigh, ok_bind, ok_bind, le32_ok hrest]
  rfl

section Fields
variable {b : Bytes} {size : ℕ} (h : ¬b.length < size) {α : Type} (i : ℤ) (n : ℕ) (hi : i = n)
include h hi

/-! A field at a fixed offset, in a sample that holds the whole header. -/

theorem field16 (hn : n + 2 ≤ size) (f : UInt16 → Checked α) :
    (suffix b i >>= fun t => le16 t >>= f) =
      f (Loader.le16 (b.drop n) (le_length_drop h hn)) := by
  rw [suffix_ok hi (by omega), ok_bind, le16_ok, ok_bind]

theorem field32 (hn : n + 4 ≤ size) (f : UInt32 → Checked α) :
    (suffix b i >>= fun t => le32 t >>= f) =
      f (Loader.le32 (b.drop n) (le_length_drop h hn)) := by
  rw [suffix_ok hi (by omega), ok_bind, le32_ok, ok_bind]

theorem field64 (hn : n + 8 ≤ size) (f : UInt64 → Checked α) :
    (suffix b i >>= fun t => le64 t >>= f) =
      f (Loader.le64 (b.drop n) (le_length_drop h hn)) := by
  rw [suffix_ok hi (by omega), ok_bind, le64_ok, ok_bind]

end Fields

theorem captured_ok (b : Bytes) (i : ℤ) (m n : ℕ) (hi : i = m) :
    captured b i n = .ok (if m + n ≤ b.length then slice b m (m + n) else []) := by
  unfold captured
  by_cases h : m + n ≤ b.length
  · rw [if_pos h, if_pos (by omega)]
    exact subslice_ok hi (by omega) (by omega) h
  · rw [if_neg h, if_neg (by omega)]
    rfl

/-- The pointers of an event. -/
def Pointers.of : Event → Pointers
  | .wire w => { wire := some w }
  | .data d => { data := some d }
  | .close c => { close := some c }
  | .none => {}

theorem Pointers.nonNil_of_le (e : Event) : (Pointers.of e).nonNil ≤ 1 := by
  cases e <;> simp [Pointers.of, Pointers.nonNil]

theorem readEvent_eq (b : Bytes) : readEvent b = .ok (Pointers.of (Loader.readEvent b)) := by
  unfold readEvent Loader.readEvent
  by_cases h₀ : b.length < 1
  · rw [if_pos (by omega), dif_pos h₀]
    rfl
  have htype : index b 0 = .ok b[0] := index_ok (n := 0) rfl (by omega)
  rw [if_neg (by omega), dif_neg h₀, htype, ok_bind]
  by_cases h₁ : b[0] = 1
  · rw [if_pos h₁, if_pos h₁]
    by_cases h : b.length < 12
    · rw [if_pos (by omega), dif_pos h]
      rfl
    have hdir : index b 1 = .ok b[1] := index_ok (n := 1) rfl (by omega)
    rw [if_neg (by omega), dif_neg h, hdir, ok_bind, field64 h 4 4 rfl (by decide),
      field16 h 2 2 rfl (by decide), captured_ok b 12 12 _ rfl]
    rfl
  rw [if_neg h₁, if_neg h₁]
  by_cases h₂ : b[0] = 2
  · rw [if_pos h₂, if_pos h₂]
    by_cases h : b.length < 24
    · rw [if_pos (by omega), dif_pos h]
      rfl
    have hdir : index b 1 = .ok b[1] := index_ok (n := 1) rfl (by omega)
    rw [if_neg (by omega), dif_neg h, hdir, ok_bind, field32 h 4 4 rfl (by decide),
      field32 h 8 8 rfl (by decide), field32 h 12 12 rfl (by decide),
      field64 h 16 16 rfl (by decide), field16 h 2 2 rfl (by decide),
      captured_ok b 24 24 _ rfl]
    rfl
  rw [if_neg h₂, if_neg h₂]
  by_cases h₃ : b[0] = 3
  · rw [if_pos h₃, if_pos h₃]
    by_cases h : b.length < 36
    · rw [if_pos (by omega), dif_pos h]
      rfl
    rw [if_neg (by omega), dif_neg h, field32 h 4 4 rfl (by decide),
      field32 h 8 8 rfl (by decide), field64 h 12 12 rfl (by decide),
      field64 h 20 20 rfl (by decide), field64 h 28 28 rfl (by decide)]
    rfl
  rw [if_neg h₃, if_neg h₃]
  rfl

theorem readEvent_encode (e : Bpf.Event) (he : e.Fits) (pad : Bytes) :
    readEvent (e.encode ++ pad) = .ok (Pointers.of e.decoded) := by
  rw [readEvent_eq, Bpf.readEvent_encode e he pad]

/-- **The two sides of the ring agree on the layout.** A record of `tlstat.h`, with anything after
it, comes back as its own event and no other, field by field, with the captured bytes cut at the
length field; and any sample at all is read in bounds and gives at most one event. -/
theorem readEvent_codec :
    (∀ (e : Bpf.WireEvent) (pad : Bytes), e.len.toNat ≤ Bpf.wireCap →
      readEvent ((Bpf.Event.wire e).encode ++ pad) = .ok
        { wire := some
            { dir := e.direction, sock := e.sk, data := e.data.take e.len.toNat } }) ∧
    (∀ (e : Bpf.DataEvent) (pad : Bytes), e.len.toNat ≤ Bpf.dataCap →
      readEvent ((Bpf.Event.data e).encode ++ pad) = .ok
        { data := some
            { dir := e.direction, pid := e.pid, tid := e.tid, fd := e.fd, ssl := e.ssl
              data := e.data.take e.len.toNat } }) ∧
    (∀ (e : Bpf.CloseEvent) (pad : Bytes),
      readEvent ((Bpf.Event.close e).encode ++ pad) = .ok
        { close := some
            { pid := e.pid, fd := e.fd, ssl := e.ssl, ptx := e.ptx, prx := e.prx } }) ∧
    ∀ b, ∃ p, readEvent b = .ok p ∧ p.nonNil ≤ 1 := by
  refine ⟨?_, ?_, ?_, ?_⟩
  · intro e pad he
    exact readEvent_encode (.wire e) he pad
  · intro e pad he
    exact readEvent_encode (.data e) he pad
  · intro e pad
    exact readEvent_encode (.close e) trivial pad
  · intro b
    exact ⟨_, readEvent_eq b, Pointers.nonNil_of_le _⟩

end Tlstat.Loader.Checked
