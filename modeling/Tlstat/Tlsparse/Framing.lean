import Tlstat.Tlsparse.Effect

/-! The handshake layer as a sender writes it: messages with their headers, cut anywhere into
handshake records. The two walks of the parser undo it, wherever the records are cut and whatever
follows them. -/

namespace Tlstat.Tlsparse

/-! ### Big-endian words -/

def put16 (n : ℕ) : Bytes := [UInt8.ofNat (n / 256), UInt8.ofNat n]

def put24 (n : ℕ) : Bytes := [UInt8.ofNat (n / 65536), UInt8.ofNat (n / 256), UInt8.ofNat n]

theorem shiftLeft_or_toNat (a : ℕ) (b : UInt8) : a <<< 8 ||| b.toNat = a * 256 + b.toNat := by
  rw [← Nat.shiftLeft_add_eq_or_of_lt (i := 8) b.toNat_lt, Nat.shiftLeft_eq]

theorem nat16_put {n : ℕ} (h : n < 65536) :
    (UInt8.ofNat (n / 256)).toNat <<< 8 ||| (UInt8.ofNat n).toNat = n := by
  rw [shiftLeft_or_toNat, UInt8.toNat_ofNat', UInt8.toNat_ofNat']
  omega

theorem nat24_put {n : ℕ} (h : n < 16777216) :
    (UInt8.ofNat (n / 65536)).toNat <<< 16 ||| (UInt8.ofNat (n / 256)).toNat <<< 8 |||
      (UInt8.ofNat n).toNat = n := by
  have hhi : (UInt8.ofNat (n / 65536)).toNat <<< 16 =
      (UInt8.ofNat (n / 65536)).toNat <<< 8 <<< 8 := by
    rw [← Nat.shiftLeft_add]
  rw [hhi, ← Nat.shiftLeft_or_distrib, shiftLeft_or_toNat, shiftLeft_or_toNat,
    UInt8.toNat_ofNat', UInt8.toNat_ofNat', UInt8.toNat_ofNat']
  omega

/-! ### Records -/

structure Record where
  major : UInt8
  minor : UInt8
  payload : Bytes
  payload_le : payload.length ≤ 65535

def Record.encode (r : Record) : Bytes :=
  ctHandshake :: r.major :: r.minor :: (put16 r.payload.length ++ r.payload)

theorem Record.length_encode (r : Record) : r.encode.length = 5 + r.payload.length := by
  simp only [Record.encode, put16, List.length_cons, List.length_append, List.length_nil]
  omega

theorem length_of_drop {s t : Bytes} {p : ℕ} (h : s.drop p = t) (hp : p ≤ s.length) :
    s.length = p + t.length := by
  rw [← h, List.length_drop]
  omega

theorem collectLoop_record {buf rest : Bytes} {p : ℕ} (r : Record) (hp : p ≤ buf.length)
    (h : buf.drop p = r.encode ++ rest) (out : Bytes) :
    collectLoop buf p out = collectLoop buf (p + r.encode.length) (out ++ r.payload) := by
  have hlen := length_of_drop h hp
  rw [List.length_append, r.length_encode] at hlen
  have hb : p + 5 ≤ buf.length := by omega
  have hat : ∀ k, buf[p + k]? = (r.encode ++ rest)[k]? := fun k => by
    rw [← h, List.getElem?_drop]
  have h₀ : buf[p] = ctHandshake := (List.getElem_eq_iff _).mpr (hat 0)
  have h₃ : buf[p + 3] = UInt8.ofNat (r.payload.length / 256) := (List.getElem_eq_iff _).mpr (hat 3)
  have h₄ : buf[p + 4] = UInt8.ofNat r.payload.length := (List.getElem_eq_iff _).mpr (hat 4)
  have hpay : buf.drop (p + 5) = r.payload ++ rest := by
    rw [← List.drop_drop, h]
    rfl
  have hle := r.payload_le
  -- the record is all there, so its payload is not cut and the walk goes on behind it
  have hfit : ¬(p + 5 + r.payload.length > buf.length) := by omega
  rw [collectLoop, dif_pos hb]
  dsimp only
  rw [if_neg (not_not.mpr h₀), h₃, h₄, nat16_put (by omega), if_neg hfit, slice, hpay,
    Nat.add_sub_cancel_left, List.take_left, r.length_encode, Nat.add_assoc]

theorem collectLoop_tail {buf : Bytes} {p : ℕ}
    (h : (buf.drop p).length < 5 ∨ (buf.drop p).head? ≠ some ctHandshake) (out : Bytes) :
    collectLoop buf p out = out := by
  rw [collectLoop]
  by_cases hb : p + 5 ≤ buf.length
  · have hne : buf[p] ≠ ctHandshake := by
      rcases h with h | h
      · rw [List.length_drop] at h
        omega
      · intro hp
        rw [List.head?_drop, List.getElem?_eq_getElem (by omega), hp] at h
        exact h rfl
    rw [dif_pos hb]
    dsimp only
    rw [if_pos hne]
  · exact dif_neg hb

theorem collectLoop_records (rs : List Record) {buf tail : Bytes} {p : ℕ} (hp : p ≤ buf.length)
    (h : buf.drop p = rs.flatMap Record.encode ++ tail)
    (htail : tail.length < 5 ∨ tail.head? ≠ some ctHandshake) (out : Bytes) :
    collectLoop buf p out = out ++ rs.flatMap Record.payload := by
  induction rs generalizing p out with
  | nil =>
    have htail' : buf.drop p = tail := h
    rw [collectLoop_tail (by rwa [htail']), List.flatMap_nil, List.append_nil]
  | cons r rs ih =>
    rw [List.flatMap_cons, List.append_assoc] at h
    have hlen := length_of_drop h hp
    rw [List.length_append] at hlen
    have hnext : buf.drop (p + r.encode.length) = rs.flatMap Record.encode ++ tail := by
      rw [← List.drop_drop, h, List.drop_left]
    rw [collectLoop_record r hp h, ih (by omega) hnext, List.flatMap_cons, List.append_assoc]

/-- The payloads of the leading handshake records, whatever stops the walk. -/
theorem collectHandshake_records (rs : List Record) {tail : Bytes}
    (htail : tail.length < 5 ∨ tail.head? ≠ some ctHandshake) :
    collectHandshake (rs.flatMap Record.encode ++ tail) = rs.flatMap Record.payload :=
  collectLoop_records rs (Nat.zero_le _) rfl htail []

/-! ### Messages -/

structure Message where
  mtype : UInt8
  body : Bytes
  body_lt : body.length < 2 ^ 24

def Message.encode (m : Message) : Bytes := m.mtype :: (put24 m.body.length ++ m.body)

theorem Message.length_encode (m : Message) : m.encode.length = 4 + m.body.length := by
  simp only [Message.encode, put24, List.length_cons, List.length_append, List.length_nil]
  omega

theorem messagesLoop_message {s rest : Bytes} {p : ℕ} (m : Message) (hp : p ≤ s.length)
    (h : s.drop p = m.encode ++ rest) :
    messagesLoop s p = (m.mtype, m.body) :: messagesLoop s (p + m.encode.length) := by
  have hlen := length_of_drop h hp
  rw [List.length_append, m.length_encode] at hlen
  have hb : p + 4 ≤ s.length := by omega
  have hat : ∀ k, s[p + k]? = (m.encode ++ rest)[k]? := fun k => by
    rw [← h, List.getElem?_drop]
  have h₀ : s[p] = m.mtype := (List.getElem_eq_iff _).mpr (hat 0)
  have h₁ : s[p + 1] = UInt8.ofNat (m.body.length / 65536) := (List.getElem_eq_iff _).mpr (hat 1)
  have h₂ : s[p + 2] = UInt8.ofNat (m.body.length / 256) := (List.getElem_eq_iff _).mpr (hat 2)
  have h₃ : s[p + 3] = UInt8.ofNat m.body.length := (List.getElem_eq_iff _).mpr (hat 3)
  have hbody : s.drop (p + 4) = m.body ++ rest := by
    rw [← List.drop_drop, h]
    rfl
  have hfit : ¬(m.body.length > (m.body ++ rest).length) := by
    rw [List.length_append]
    omega
  rw [messagesLoop, dif_pos hb]
  dsimp only
  rw [h₀, h₁, h₂, h₃, nat24_put m.body_lt, hbody, if_neg hfit, List.take_left, m.length_encode,
    Nat.add_assoc]

theorem messagesLoop_messages (ms : List Message) {s : Bytes} {p : ℕ} (hp : p ≤ s.length)
    (h : s.drop p = ms.flatMap Message.encode) :
    messagesLoop s p = ms.map fun m => (m.mtype, m.body) := by
  induction ms generalizing p with
  | nil =>
    have hlen := length_of_drop h hp
    simp only [List.flatMap_nil, List.length_nil] at hlen
    rw [messagesLoop, dif_neg (by omega), List.map_nil]
  | cons m ms ih =>
    rw [List.flatMap_cons] at h
    have hlen := length_of_drop h hp
    rw [List.length_append] at hlen
    have hnext : s.drop (p + m.encode.length) = ms.flatMap Message.encode := by
      rw [← List.drop_drop, h, List.drop_left]
    rw [messagesLoop_message m hp h, ih (by omega) hnext, List.map_cons]

theorem messages_encode (ms : List Message) :
    messages (ms.flatMap Message.encode) = ms.map fun m => (m.mtype, m.body) :=
  messagesLoop_messages ms (Nat.zero_le _) rfl

/-! ### Both layers -/

theorem messages_records {ms : List Message} {rs : List Record} {tail : Bytes}
    (hcut : rs.flatMap Record.payload = ms.flatMap Message.encode)
    (htail : tail.length < 5 ∨ tail.head? ≠ some ctHandshake) :
    messages (collectHandshake (rs.flatMap Record.encode ++ tail)) =
      ms.map fun m => (m.mtype, m.body) := by
  rw [collectHandshake_records rs htail, hcut, messages_encode]

/-- **Record boundaries and message boundaries leave no trace.** However a sequence of messages is
cut into handshake records, the parser decodes exactly the bodies of the messages, in order. -/
theorem parse_framed (x509 : X509) (i : Info) (ms : List Message) (rs : List Record) (tail : Bytes)
    (hcut : rs.flatMap Record.payload = ms.flatMap Message.encode)
    (htail : tail.length < 5 ∨ tail.head? ≠ some ctHandshake) :
    parse x509 (rs.flatMap Record.encode ++ tail) i =
      ms.foldl (fun i m => parseMessage x509 m.mtype m.body i) i := by
  rw [parse_foldl, messages_records hcut htail, List.foldl_map]

/-- A ServerHello whose header is split by a record boundary, an empty record, and a second
message in the last one. -/
def splitHello : List Record :=
  [⟨3, 1, [2, 0], by decide⟩, ⟨3, 3, [], by decide⟩,
    ⟨3, 3, [0, 2, 3, 3, 14, 0, 0, 0], by decide⟩]

theorem parse_framed_splitHello :
    parse (fun _ => none) (splitHello.flatMap Record.encode ++ [20, 3, 3, 0, 1, 1]) {} =
      { hasServerHello := true, negVersion := 0x0303 } := by
  have h := parse_framed (fun _ => none) {}
    [⟨hsServerHello, [3, 3], by decide⟩, ⟨14, [], by decide⟩] splitHello [20, 3, 3, 0, 1, 1]
    (by decide) (by decide)
  rw [h]
  decide +kernel

end Tlstat.Tlsparse
