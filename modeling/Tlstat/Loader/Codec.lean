import Tlstat.Bpf.Types
import Tlstat.Loader.Types

/-! The packed little-endian layout of the ring records, and that `ReadEvent` undoes it. -/

namespace Tlstat.Bpf
open Loader

def store16 (x : UInt16) : Bytes := [x.toUInt8, (x >>> 8).toUInt8]

def store32 (x : UInt32) : Bytes :=
  [x.toUInt8, (x >>> 8).toUInt8, (x >>> 16).toUInt8, (x >>> 24).toUInt8]

def store64 (x : UInt64) : Bytes := store32 x.toUInt32 ++ store32 (x >>> 32).toUInt32

/-- The bytes of a record as they lie in the ring. -/
def Event.encode : Event → Bytes
  | .wire e => 1 :: e.direction :: store16 e.len ++ store64 e.sk ++ e.data
  | .data e =>
    2 :: e.direction :: store16 e.len ++ store32 e.pid ++ store32 e.tid ++ store32 e.fd.toUInt32 ++
      store64 e.ssl ++ e.data
  | .close e =>
    3 :: e.pad.1 :: e.pad.2.1 :: e.pad.2.2 :: store32 e.pid ++ store32 e.fd.toUInt32 ++
      store64 e.ssl ++ store64 e.ptx ++ store64 e.prx

theorem le16_store16 (x : UInt16) (rest : Bytes) (h : 2 ≤ (store16 x ++ rest).length) :
    le16 (store16 x ++ rest) h = x := by
  change x.toUInt8.toUInt16 ||| (x >>> 8).toUInt8.toUInt16 <<< 8 = x
  apply UInt16.eq_of_toBitVec_eq
  ext i hi
  have h8 : (8#16 % 16).toNat = 8 := by decide
  simp only [UInt16.toBitVec_or, UInt16.toBitVec_shiftLeft, UInt8.toBitVec_toUInt16,
    UInt16.toBitVec_toUInt8, UInt16.toBitVec_shiftRight, UInt16.toBitVec_ofNat,
    BitVec.shiftLeft_eq', BitVec.ushiftRight_eq', h8]
  rcases Nat.lt_or_ge i 8 with h₁ | h₁ <;> grind

theorem le32_store32 (x : UInt32) (rest : Bytes) (h : 4 ≤ (store32 x ++ rest).length) :
    le32 (store32 x ++ rest) h = x := by
  change x.toUInt8.toUInt32 ||| (x >>> 8).toUInt8.toUInt32 <<< 8 |||
    (x >>> 16).toUInt8.toUInt32 <<< 16 ||| (x >>> 24).toUInt8.toUInt32 <<< 24 = x
  apply UInt32.eq_of_toBitVec_eq
  ext i hi
  have h8 : (8#32 % 32).toNat = 8 := by decide
  have h16 : (16#32 % 32).toNat = 16 := by decide
  have h24 : (24#32 % 32).toNat = 24 := by decide
  simp only [UInt32.toBitVec_or, UInt32.toBitVec_shiftLeft, UInt8.toBitVec_toUInt32,
    UInt32.toBitVec_toUInt8, UInt32.toBitVec_shiftRight, UInt32.toBitVec_ofNat,
    BitVec.shiftLeft_eq', BitVec.ushiftRight_eq', BitVec.getElem_or, BitVec.getElem_setWidth,
    BitVec.getLsbD_setWidth, BitVec.getElem_shiftLeft, BitVec.getLsbD_ushiftRight, h8, h16, h24]
  rw [← BitVec.getLsbD_eq_getElem hi]
  rcases Nat.lt_or_ge i 8 with h₁ | h₁
  · grind
  · rcases Nat.lt_or_ge i 16 with h₂ | h₂
    · grind
    · rcases Nat.lt_or_ge i 24 with h₃ | h₃ <;> grind

theorem le64_store64 (x : UInt64) (rest : Bytes) (h : 8 ≤ (store64 x ++ rest).length) :
    le64 (store64 x ++ rest) h = x := by
  have hlow : le32 (store64 x ++ rest) (by omega) = x.toUInt32 :=
    le32_store32 x.toUInt32 (store32 (x >>> 32).toUInt32 ++ rest) (by simp [store32])
  have hhigh : le32 ((store64 x ++ rest).drop 4) (by rw [List.length_drop]; omega) =
      (x >>> 32).toUInt32 :=
    le32_store32 (x >>> 32).toUInt32 rest (by simp [store32])
  unfold le64
  rw [hlow, hhigh]
  apply UInt64.eq_of_toBitVec_eq
  ext i hi
  have h32 : (32#64 % 64).toNat = 32 := by decide
  simp only [UInt64.toBitVec_or, UInt64.toBitVec_shiftLeft, UInt32.toBitVec_toUInt64,
    UInt64.toBitVec_toUInt32, UInt64.toBitVec_shiftRight, UInt64.toBitVec_ofNat,
    BitVec.shiftLeft_eq', BitVec.ushiftRight_eq', h32]
  rcases Nat.lt_or_ge i 32 with h₁ | h₁ <;> grind

/-- What user space sees of a record. -/
def Event.decoded : Event → Loader.Event
  | .wire e => .wire { dir := e.direction, sock := e.sk, data := e.data.take e.len.toNat }
  | .data e => .data
    { dir := e.direction, pid := e.pid, tid := e.tid, fd := e.fd, ssl := e.ssl
      data := e.data.take e.len.toNat }
  | .close e => .close { pid := e.pid, fd := e.fd, ssl := e.ssl, ptx := e.ptx, prx := e.prx }

/-- The length field of a record stays within its array. -/
def Event.Fits : Event → Prop
  | .wire e => e.len.toNat ≤ wireCap
  | .data e => e.len.toNat ≤ dataCap
  | .close _ => True

theorem slice_of_append {a b : Bytes} {i n : ℕ} (h : a.length = i) :
    slice (a ++ b) i (i + n) = b.take n := by
  subst h
  unfold slice
  rw [List.drop_left, Nat.add_sub_cancel_left]

theorem slice_captured {a data pad : Bytes} {i n : ℕ} (ha : a.length = i) (hn : n ≤ data.length) :
    (if i + n ≤ (a ++ (data ++ pad)).length then slice (a ++ (data ++ pad)) i (i + n) else []) =
      data.take n := by
  rw [if_pos, slice_of_append ha, List.take_append_of_le_length hn]
  rw [List.length_append, List.length_append]
  omega

theorem readEvent_wire (e : WireEvent) (he : (Event.wire e).Fits) (pad : Bytes) :
    readEvent ((Event.wire e).encode ++ pad) = (Event.wire e).decoded := by
  have hn : e.len.toNat ≤ e.data.length := e.size ▸ he
  have hb : (Event.wire e).encode ++ pad =
      (1 :: e.direction :: (store16 e.len ++ store64 e.sk)) ++ (e.data ++ pad) := by
    simp [Event.encode]
  have hlong : ¬((1 :: e.direction :: (store16 e.len ++ store64 e.sk)) ++ (e.data ++ pad)).length
      < 12 := by
    simp [store16, store64, store32]
  have hlen := le16_store16 e.len (store64 e.sk ++ (e.data ++ pad)) (by simp [store16])
  have hsk := le64_store64 e.sk (e.data ++ pad) (by simp [store64, store32])
  rw [hb]
  refine (dif_neg (by simp)).trans ((if_pos rfl).trans ((dif_neg hlong).trans ?_))
  change Loader.Event.wire ⟨e.direction, le64 (store64 e.sk ++ (e.data ++ pad)) _,
    if 12 + (le16 (store16 e.len ++ (store64 e.sk ++ (e.data ++ pad))) _).toNat ≤ _ then
      slice _ 12 (12 + (le16 (store16 e.len ++ (store64 e.sk ++ (e.data ++ pad))) _).toNat) else []⟩ = _
  rw [hsk, hlen]
  exact congrArg (fun d => Loader.Event.wire ⟨e.direction, e.sk, d⟩)
    (slice_captured (i := 12) rfl hn)

theorem readEvent_data (e : DataEvent) (he : (Event.data e).Fits) (pad : Bytes) :
    readEvent ((Event.data e).encode ++ pad) = (Event.data e).decoded := by
  have hn : e.len.toNat ≤ e.data.length := e.size ▸ he
  have hb : (Event.data e).encode ++ pad =
      (2 :: e.direction :: (store16 e.len ++ (store32 e.pid ++ (store32 e.tid ++
        (store32 e.fd.toUInt32 ++ store64 e.ssl))))) ++ (e.data ++ pad) := by
    simp [Event.encode]
  have hlong : ¬((2 :: e.direction :: (store16 e.len ++ (store32 e.pid ++ (store32 e.tid ++
      (store32 e.fd.toUInt32 ++ store64 e.ssl))))) ++ (e.data ++ pad)).length < 24 := by
    simp [store16, store64, store32]
  have hlen := le16_store16 e.len (store32 e.pid ++ (store32 e.tid ++ (store32 e.fd.toUInt32 ++
    (store64 e.ssl ++ (e.data ++ pad))))) (by simp [store16])
  have hpid := le32_store32 e.pid (store32 e.tid ++ (store32 e.fd.toUInt32 ++
    (store64 e.ssl ++ (e.data ++ pad)))) (by simp [store32])
  have htid := le32_store32 e.tid (store32 e.fd.toUInt32 ++ (store64 e.ssl ++ (e.data ++ pad)))
    (by simp [store32])
  have hfd := le32_store32 e.fd.toUInt32 (store64 e.ssl ++ (e.data ++ pad)) (by simp [store32])
  have hssl := le64_store64 e.ssl (e.data ++ pad) (by simp [store64, store32])
  rw [hb]
  refine (dif_neg (by simp)).trans ((if_neg (by decide : ¬(2 : UInt8) = 1)).trans
    ((if_pos rfl).trans ((dif_neg hlong).trans ?_)))
  change Loader.Event.data ⟨e.direction,
    le32 (store32 e.pid ++ (store32 e.tid ++ (store32 e.fd.toUInt32 ++
      (store64 e.ssl ++ (e.data ++ pad))))) _,
    le32 (store32 e.tid ++ (store32 e.fd.toUInt32 ++ (store64 e.ssl ++ (e.data ++ pad)))) _,
    (le32 (store32 e.fd.toUInt32 ++ (store64 e.ssl ++ (e.data ++ pad))) _).toInt32,
    le64 (store64 e.ssl ++ (e.data ++ pad)) _,
    if 24 + (le16 (store16 e.len ++ (store32 e.pid ++ (store32 e.tid ++ (store32 e.fd.toUInt32 ++
      (store64 e.ssl ++ (e.data ++ pad)))))) _).toNat ≤ _ then
      slice _ 24 (24 + (le16 (store16 e.len ++ (store32 e.pid ++ (store32 e.tid ++
        (store32 e.fd.toUInt32 ++ (store64 e.ssl ++ (e.data ++ pad)))))) _).toNat) else []⟩ = _
  rw [hpid, htid, hfd, hssl, hlen, show e.fd.toUInt32.toInt32 = e.fd from rfl]
  exact congrArg (fun d => Loader.Event.data ⟨e.direction, e.pid, e.tid, e.fd, e.ssl, d⟩)
    (slice_captured (i := 24) rfl hn)

theorem readEvent_close (e : CloseEvent) (pad : Bytes) :
    readEvent ((Event.close e).encode ++ pad) = (Event.close e).decoded := by
  have hb : (Event.close e).encode ++ pad =
      3 :: e.pad.1 :: e.pad.2.1 :: e.pad.2.2 :: (store32 e.pid ++ (store32 e.fd.toUInt32 ++
        (store64 e.ssl ++ (store64 e.ptx ++ (store64 e.prx ++ pad))))) := by
    simp [Event.encode]
  have hlong : ¬(3 :: e.pad.1 :: e.pad.2.1 :: e.pad.2.2 :: (store32 e.pid ++
      (store32 e.fd.toUInt32 ++ (store64 e.ssl ++ (store64 e.ptx ++ (store64 e.prx ++
        pad)))))).length < 36 := by
    simp [store64, store32]
  have hpid := le32_store32 e.pid (store32 e.fd.toUInt32 ++ (store64 e.ssl ++ (store64 e.ptx ++
    (store64 e.prx ++ pad)))) (by simp [store32])
  have hfd := le32_store32 e.fd.toUInt32 (store64 e.ssl ++ (store64 e.ptx ++ (store64 e.prx ++ pad)))
    (by simp [store32])
  have hssl := le64_store64 e.ssl (store64 e.ptx ++ (store64 e.prx ++ pad))
    (by simp [store64, store32])
  have hptx := le64_store64 e.ptx (store64 e.prx ++ pad) (by simp [store64, store32])
  have hprx := le64_store64 e.prx pad (by simp [store64, store32])
  rw [hb]
  refine (dif_neg (by simp)).trans ((if_neg (by decide : ¬(3 : UInt8) = 1)).trans
    ((if_neg (by decide : ¬(3 : UInt8) = 2)).trans ((if_pos rfl).trans ((dif_neg hlong).trans ?_))))
  change Loader.Event.close ⟨
    le32 (store32 e.pid ++ (store32 e.fd.toUInt32 ++ (store64 e.ssl ++ (store64 e.ptx ++
      (store64 e.prx ++ pad))))) _,
    (le32 (store32 e.fd.toUInt32 ++ (store64 e.ssl ++ (store64 e.ptx ++ (store64 e.prx ++ pad)))) _).toInt32,
    le64 (store64 e.ssl ++ (store64 e.ptx ++ (store64 e.prx ++ pad))) _,
    le64 (store64 e.ptx ++ (store64 e.prx ++ pad)) _, le64 (store64 e.prx ++ pad) _⟩ = _
  rw [hpid, hfd, hssl, hptx, hprx]
  rfl

/-- **`ReadEvent` undoes the layout**, whatever the ring memory past the length field held and
whatever follows the record. -/
theorem readEvent_encode (e : Event) (he : e.Fits) (pad : Bytes) :
    readEvent (e.encode ++ pad) = e.decoded := by
  cases e with
  | wire e => exact readEvent_wire e he pad
  | data e => exact readEvent_data e he pad
  | close e => exact readEvent_close e pad

end Tlstat.Bpf
