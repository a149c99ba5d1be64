import Tlstat.Base.Checked
import Tlstat.Tlsparse.Vectors

/-! The handshake parser once more, statement by statement and with Go's run-time checks: the
cursor is a bare slice and a signed offset, every index and slice expression may fault, every
reader operation ends with the assertion that the offset lies in the slice, and every loop must
move forward and end. No input makes it fault, and it computes what the parser above computes. -/

namespace Tlstat.Tlsparse.Checked
open Base Base.Checked

/-! ### The cursor -/

structure Cursor where
  b : Bytes
  off : ℤ

namespace Cursor

def len (r : Cursor) : ℤ := r.b.length

def inBounds (r : Cursor) : Checked Unit := assert (0 ≤ r.off ∧ r.off ≤ r.len)

def u8 (r : Cursor) : Checked (UInt8 × Bool × Cursor) :=
  if r.off + 1 > r.len then do
    r.inBounds
    return (0, false, r)
  else do
    let v ← index r.b r.off
    let r' := { r with off := r.off + 1 }
    r'.inBounds
    return (v, true, r')

def u16 (r : Cursor) : Checked (UInt16 × Bool × Cursor) :=
  if r.off + 2 > r.len then do
    r.inBounds
    return (0, false, r)
  else do
    let v₀ ← index r.b r.off
    let v₁ ← index r.b (r.off + 1)
    let r' := { r with off := r.off + 2 }
    r'.inBounds
    return (be16 v₀ v₁, true, r')

def u24 (r : Cursor) : Checked (UInt32 × Bool × Cursor) :=
  if r.off + 3 > r.len then do
    r.inBounds
    return (0, false, r)
  else do
    let v₀ ← index r.b r.off
    let v₁ ← index r.b (r.off + 1)
    let v₂ ← index r.b (r.off + 2)
    let r' := { r with off := r.off + 3 }
    r'.inBounds
    return (be24 v₀ v₁ v₂, true, r')

def bytes (r : Cursor) (n : ℤ) : Checked (Bytes × Bool × Cursor) :=
  if n < 0 ∨ r.off + n > r.len then do
    r.inBounds
    return ([], false, r)
  else do
    let v ← subslice r.b r.off (r.off + n)
    let r' := { r with off := r.off + n }
    r'.inBounds
    return (v, true, r')

def skip (r : Cursor) (n : ℤ) : Checked (Bool × Cursor) :=
  if n < 0 ∨ r.off + n > r.len then do
    let r' := { r with off := r.len }
    r'.inBounds
    return (false, r')
  else do
    let r' := { r with off := r.off + n }
    r'.inBounds
    return (true, r')

def skipVec8 (r : Cursor) : Checked (Bool × Cursor) := do
  let (l, ok, r) ← r.u8
  if !ok then return (false, r) else r.skip l.toNat

/-- The cursor as the model above has it. -/
def of (r : Reader) : Cursor := ⟨r.b, r.off⟩

theorem inBounds_of {r : Cursor} {n : ℕ} (hoff : r.off = n) (h : n ≤ r.b.length) :
    r.inBounds = .ok () := by
  refine assert_ok ?_
  rw [hoff, len]
  omega

section Of
variable (r : Reader)

theorem u8_of : (of r).u8 = .ok (r.u8D.1, r.u8.isSome, of r.u8D.2) := by
  have hle := r.off_le
  unfold u8
  by_cases h : r.off + 1 ≤ r.b.length
  · have h₀ : index (of r).b (of r).off = .ok r.b[r.off] :=
      index_ok rfl (show r.off < r.b.length by omega)
    rw [Reader.u8D_of_le h, Reader.u8, dif_pos h, if_neg (by simp only [of, len]; omega), h₀]
    simp only [ok_bind, pure_eq]
    rw [inBounds_of (n := r.off + 1) rfl h]
    rfl
  · rw [Reader.u8D, Reader.u8, dif_neg h, if_pos (by simp only [of, len]; omega),
      inBounds_of (n := r.off) rfl hle]
    rfl

theorem u16_of : (of r).u16 = .ok (r.u16D.1, r.u16.isSome, of r.u16D.2) := by
  have hle := r.off_le
  unfold u16
  by_cases h : r.off + 2 ≤ r.b.length
  · have h₀ : index (of r).b (of r).off = .ok r.b[r.off] :=
      index_ok rfl (show r.off < r.b.length by omega)
    have h₁ : index (of r).b ((of r).off + 1) = .ok r.b[r.off + 1] :=
      index_ok rfl (show r.off + 1 < r.b.length by omega)
    rw [Reader.u16D_of_le h, Reader.u16, dif_pos h, if_neg (by simp only [of, len]; omega), h₀, h₁]
    simp only [ok_bind, pure_eq]
    rw [inBounds_of (n := r.off + 2) rfl h]
    rfl
  · rw [Reader.u16D, Reader.u16, dif_neg h, if_pos (by simp only [of, len]; omega),
      inBounds_of (n := r.off) rfl hle]
    rfl

theorem u24_of : (of r).u24 = .ok (r.u24D.1, r.u24.isSome, of r.u24D.2) := by
  have hle := r.off_le
  unfold u24
  by_cases h : r.off + 3 ≤ r.b.length
  · have h₀ : index (of r).b (of r).off = .ok r.b[r.off] :=
      index_ok rfl (show r.off < r.b.length by omega)
    have h₁ : index (of r).b ((of r).off + 1) = .ok r.b[r.off + 1] :=
      index_ok rfl (show r.off + 1 < r.b.length by omega)
    have h₂ : index (of r).b ((of r).off + 2) = .ok r.b[r.off + 2] :=
      index_ok rfl (show r.off + 2 < r.b.length by omega)
    rw [Reader.u24D_of_le h, Reader.u24, dif_pos h, if_neg (by simp only [of, len]; omega), h₀, h₁,
      h₂]
    simp only [ok_bind, pure_eq]
    rw [inBounds_of (n := r.off + 3) rfl h]
    rfl
  · rw [Reader.u24D, Reader.u24, dif_neg h, if_pos (by simp only [of, len]; omega),
      inBounds_of (n := r.off) rfl hle]
    rfl

theorem bytes_some {r r' : Reader} {n : ℕ} {d : Bytes} (h : r.bytes n = some (d, r')) :
    (of r).bytes n = .ok (d, true, of r') := by
  rw [Reader.bytes] at h
  split_ifs at h with hn
  simp only [Option.some.injEq, Prod.mk.injEq] at h
  obtain ⟨rfl, rfl⟩ := h
  have hs : subslice (of r).b (of r).off ((of r).off + n) = .ok (slice r.b r.off (r.off + n)) :=
    subslice_ok rfl rfl (Nat.le_add_right r.off n) hn
  rw [bytes, if_neg (by simp only [of, len]; omega), hs]
  simp only [ok_bind, pure_eq]
  rw [inBounds_of (n := r.off + n) (by simp [of]) hn]
  rfl

theorem bytes_none {r : Reader} {n : ℕ} (h : r.bytes n = none) :
    (of r).bytes n = .ok ([], false, of r) := by
  rw [Reader.bytes] at h
  split_ifs at h with hn
  rw [bytes, if_pos (by simp only [of, len]; omega), inBounds_of (n := r.off) rfl r.off_le]
  rfl

theorem skip_of (n : ℕ) : (of r).skip n = .ok ((r.skip n).1, of (r.skip n).2) := by
  unfold skip Reader.skip
  by_cases h : r.off + n ≤ r.b.length
  · rw [dif_pos h, if_neg (by simp only [of, len]; omega)]
    dsimp only
    rw [inBounds_of (n := r.off + n) (by simp [of]) h]
    rfl
  · rw [dif_neg h, if_pos (by simp only [of, len]; omega)]
    dsimp only
    rw [inBounds_of (n := r.b.length) rfl le_rfl]
    rfl

theorem skipVec8_of : (of r).skipVec8 = .ok (r.skipVec8.1, of r.skipVec8.2) := by
  unfold skipVec8 Reader.skipVec8
  rw [u8_of]
  unfold Reader.u8D
  rcases r.u8 with _ | ⟨l, q⟩
  · rfl
  · exact skip_of q l.toNat

end Of
end Cursor

/-! ### Records -/

def collectBody (buf : Bytes) (s : ℤ × Bytes) : Checked (Step (ℤ × Bytes) Bytes) :=
  let (p, out) := s
  if p + 5 ≤ buf.length then do
    let ct ← index buf p
    let l₀ ← index buf (p + 3)
    let l₁ ← index buf (p + 4)
    let length : ℤ := ↑(l₀.toNat <<< 8 ||| l₁.toNat)
    if ct ≠ ctHandshake then return .done out
    else
      let start := p + 5
      let stop := if start + length > buf.length then ↑buf.length else start + length
      let chunk ← subslice buf start stop
      if stop ≠ start + length then return .done (out ++ chunk)
      else return .next (stop, out ++ chunk)
  else return .done out

def collectHandshake (buf : Bytes) : Checked Bytes :=
  loop (·.1) (collectBody buf) (buf.length + 1) (0, [])

theorem collectHandshake_eq (buf : Bytes) :
    collectHandshake buf = .ok (Tlsparse.collectHandshake buf) := by
  have hfuel : (buf.length : ℤ) - ((0 : ℕ) : ℤ) < ((buf.length + 1 : ℕ) : ℤ) := by omega
  refine loop_eq (fun t : ℕ × Bytes => ((t.1 : ℤ), t.2)) (fun t => collectLoop buf t.1 t.2)
    (fun t => t.1 ≤ buf.length) buf.length ?_ (t := (0, [])) (Nat.zero_le _) hfuel
  rintro ⟨p, out⟩ hp
  refine ⟨by simpa using hp, ?_⟩
  rw [collectLoop.eq_def]
  unfold collectBody
  dsimp only
  by_cases h : p + 5 ≤ buf.length
  · have h₀ : index buf ↑p = .ok buf[p] := index_ok rfl (show p < buf.length by omega)
    have h₃ : index buf (↑p + 3) = .ok buf[p + 3] :=
      index_ok rfl (show p + 3 < buf.length by omega)
    have h₄ : index buf (↑p + 4) = .ok buf[p + 4] :=
      index_ok rfl (show p + 4 < buf.length by omega)
    rw [dif_pos h, if_pos (by omega), h₀, h₃, h₄]
    simp only [ok_bind, pure_eq]
    generalize buf[p + 3].toNat <<< 8 ||| buf[p + 4].toNat = length
    by_cases hct : buf[p] = ctHandshake
    · rw [if_neg (not_not.mpr hct), if_neg (not_not.mpr hct)]
      by_cases hend : p + 5 + length > buf.length
      · -- the record runs past the end: the rest of the buffer is its payload
        have hs : subslice buf (↑p + 5) ↑buf.length = .ok (slice buf (p + 5) buf.length) :=
          subslice_ok rfl rfl h le_rfl
        rw [if_pos hend, if_pos (by omega), hs]
        simp only [ok_bind]
        rw [if_pos (by omega)]
        exact .inl rfl
      · have hs : subslice buf (↑p + 5) (↑p + 5 + ↑length) =
            .ok (slice buf (p + 5) (p + 5 + length)) :=
          subslice_ok rfl rfl (Nat.le_add_right (p + 5) length) (not_lt.mp hend)
        rw [if_neg hend, if_neg (by omega), hs]
        simp only [ok_bind, ne_eq, not_true_eq_false, if_false]
        exact .inr ⟨(p + 5 + length, _), rfl, by push_cast; omega, not_lt.mp hend, rfl⟩
    · rw [if_pos hct, if_pos hct]
      exact .inl rfl
  · rw [dif_neg h, if_neg (by omega)]
    exact .inl rfl

/-! ### Extensions -/

def parseSNIBody (stop : ℤ) (r : Cursor) : Checked (Step Cursor Bytes) :=
  if r.off + 3 ≤ stop ∧ r.off + 3 ≤ r.len then do
    let (ntype, _, r) ← r.u8
    let (nlen, _, r) ← r.u16
    let (name, ok, r) ← r.bytes nlen.toNat
    if !ok then return .done []
    else if ntype = 0 then return .done name
    else return .next r
  else return .done []

def parseSNI (b : Bytes) : Checked Bytes :=
  if b.length < 2 then return []
  else do
    let (listLen, _, r) ← (Cursor.mk b 0).u16
    loop (·.off) (parseSNIBody (r.off + listLen.toNat)) (b.length + 1) r

def parseALPNBody (stop : ℤ) (s : Cursor × List Bytes) :
    Checked (Step (Cursor × List Bytes) (List Bytes)) :=
  let (r, out) := s
  if r.off + 1 ≤ stop ∧ r.off < r.len then do
    let (l, _, r) ← r.u8
    let (name, ok, r) ← r.bytes l.toNat
    if !ok then return .done out else return .next (r, out ++ [name])
  else return .done out

def parseALPN (b : Bytes) : Checked (List Bytes) :=
  if b.length < 2 then return []
  else do
    let (listLen, _, r) ← (Cursor.mk b 0).u16
    loop (·.1.off) (parseALPNBody (r.off + listLen.toNat)) (b.length + 1) (r, [])

def parseU16Body (stop : ℤ) (s : Cursor × List UInt16) :
    Checked (Step (Cursor × List UInt16) (List UInt16)) :=
  let (r, out) := s
  if r.off + 2 ≤ stop ∧ r.off + 2 ≤ r.len then do
    let (v, _, r) ← r.u16
    return .next (r, out ++ [v])
  else return .done out

def parseU16List (b : Bytes) : Checked (List UInt16) :=
  if b.length < 2 then return []
  else do
    let (l, _, r) ← (Cursor.mk b 0).u16
    loop (·.1.off) (parseU16Body (r.off + l.toNat)) (b.length + 1) (r, [])

theorem le_of_at {b : Bytes} {r : Reader} (hr : r.b = b) : (Cursor.of r).off ≤ b.length := by
  have := r.off_le
  rw [hr] at this
  simp only [Cursor.of]
  omega

theorem start_u16 {b : Bytes} (h : ¬b.length < 2) :
    (Cursor.mk b 0).u16 = .ok ((Reader.start b).u16D.1, true, Cursor.of (Reader.start b).u16D.2) ∧
      (Reader.start b).u16D.2.b = b := by
  have hle : (Reader.start b).off + 2 ≤ (Reader.start b).b.length := by
    simp only [Reader.start]
    omega
  refine ⟨?_, (Reader.u16D_moves hle).1⟩
  have hu := Cursor.u16_of (Reader.start b)
  rw [Reader.u16, dif_pos hle] at hu
  exact hu

/-- The three list parsers read the length of their vector in the same way. -/
theorem vector_eq {α : Type} {b : Bytes} {e : α} {f : UInt16 → Cursor → Checked α}
    {g : UInt16 → Reader → α} (h : ∀ l r, r.b = b → f l (Cursor.of r) = .ok (g l r)) :
    (if b.length < 2 then return e
      else do
        let (l, _, r) ← (Cursor.mk b 0).u16
        f l r) =
      .ok (if b.length < 2 then e
        else g (Reader.start b).u16D.1 (Reader.start b).u16D.2) := by
  by_cases hb : b.length < 2
  · rw [if_pos hb, if_pos hb]
    rfl
  · obtain ⟨hu, hub⟩ := start_u16 hb
    rw [if_neg hb, if_neg hb, hu]
    exact h _ _ hub

theorem fuel_enough (b : Bytes) (r : Reader) :
    (b.length : ℤ) - (Cursor.of r).off < ↑(b.length + 1) := by
  simp only [Cursor.of]
  omega

theorem parseSNILoop_short {stop : ℕ} {r : Reader}
    (h : r.off + 3 ≤ stop ∧ r.off + 3 ≤ r.b.length)
    (hd : r.u8D.2.u16D.2.bytes r.u8D.2.u16D.1.toNat = none) : parseSNILoop stop r = [] := by
  rw [parseSNILoop, dif_pos h]
  dsimp only
  split <;> simp_all

theorem parseSNILoop_eq (stop : ℕ) {b : Bytes} {r : Reader} (hr : r.b = b) :
    loop (·.off) (parseSNIBody stop) (b.length + 1) (Cursor.of r) = .ok (parseSNILoop stop r) := by
  refine loop_eq Cursor.of (parseSNILoop stop) (·.b = b) b.length ?_ hr (fuel_enough b r)
  intro r hr
  refine ⟨le_of_at hr, ?_⟩
  unfold parseSNIBody
  by_cases h : r.off + 3 ≤ stop ∧ r.off + 3 ≤ r.b.length
  · obtain ⟨hb₁, ho₁⟩ := Reader.u8D_moves (r := r) (by omega)
    obtain ⟨hb₂, ho₂⟩ := Reader.u16D_moves (r := r.u8D.2) (by rw [hb₁, ho₁]; omega)
    rw [if_pos (by simp only [Cursor.of, Cursor.len]; omega), Cursor.u8_of]
    simp only [ok_bind]
    rw [Cursor.u16_of]
    simp only [ok_bind]
    rcases hd : r.u8D.2.u16D.2.bytes r.u8D.2.u16D.1.toNat with _ | ⟨name, q⟩
    · rw [Cursor.bytes_none hd, parseSNILoop_short h hd]
      exact .inl rfl
    · obtain ⟨hb₃, ho₃⟩ := Reader.bytes_moves hd
      rw [Cursor.bytes_some hd, parseSNILoop_step h hd]
      by_cases h₀ : r.u8D.1 = 0
      · rw [if_pos h₀]
        exact .inl (by simp [h₀])
      · rw [if_neg h₀]
        refine .inr ⟨q, by simp [h₀], ?_, ?_, rfl⟩
        · simp only [Cursor.of]
          omega
        · rw [hb₃, hb₂, hb₁, hr]
  · rw [if_neg (by simp only [Cursor.of, Cursor.len]; omega), parseSNILoop, dif_neg h]
    exact .inl rfl

theorem parseSNI_eq (b : Bytes) : parseSNI b = .ok (Tlsparse.parseSNI b) := by
  unfold parseSNI Tlsparse.parseSNI
  refine vector_eq (g := fun l r => parseSNILoop (r.off + l.toNat) r)
    (f := fun l r => loop (·.off) (parseSNIBody (r.off + l.toNat)) (b.length + 1) r)
    fun l r hr => ?_
  exact parseSNILoop_eq _ hr

theorem parseALPNLoop_eq (stop : ℕ) {b : Bytes} {r : Reader} (hr : r.b = b) (out : List Bytes) :
    loop (·.1.off) (parseALPNBody stop) (b.length + 1) (Cursor.of r, out) =
      .ok (parseALPNLoop stop r out) := by
  refine loop_eq (fun t : Reader × List Bytes => (Cursor.of t.1, t.2))
    (fun t => parseALPNLoop stop t.1 t.2) (·.1.b = b) b.length ?_ (t := (r, out)) hr
    (fuel_enough b r)
  rintro ⟨r, out⟩ hr
  refine ⟨le_of_at hr, ?_⟩
  unfold parseALPNBody
  dsimp only
  by_cases h : r.off + 1 ≤ stop ∧ r.off < r.b.length
  · obtain ⟨hb₁, ho₁⟩ := Reader.u8D_moves (r := r) h.2
    rw [if_pos (by simp only [Cursor.of, Cursor.len]; omega), Cursor.u8_of]
    simp only [ok_bind]
    rcases hd : r.u8D.2.bytes r.u8D.1.toNat with _ | ⟨name, q⟩
    · rw [Cursor.bytes_none hd, parseALPNLoop, dif_pos h]
      dsimp only
      refine .inl ?_
      split <;> simp_all
    · obtain ⟨hb₂, ho₂⟩ := Reader.bytes_moves hd
      rw [Cursor.bytes_some hd, parseALPNLoop_step h hd]
      refine .inr ⟨(q, out ++ [name]), rfl, ?_, ?_, rfl⟩
      · simp only [Cursor.of]
        omega
      · change q.b = b
        rw [hb₂, hb₁]
        exact hr
  · rw [if_neg (by simp only [Cursor.of, Cursor.len]; omega), parseALPNLoop, dif_neg h]
    exact .inl rfl

theorem parseALPN_eq (b : Bytes) : parseALPN b = .ok (Tlsparse.parseALPN b) := by
  unfold parseALPN Tlsparse.parseALPN
  refine vector_eq (g := fun l r => parseALPNLoop (r.off + l.toNat) r [])
    (f := fun l r => loop (·.1.off) (parseALPNBody (r.off + l.toNat)) (b.length + 1) (r, []))
    fun l r hr => ?_
  exact parseALPNLoop_eq _ hr []

theorem parseU16Loop_eq (stop : ℕ) {b : Bytes} {r : Reader} (hr : r.b = b) (out : List UInt16) :
    loop (·.1.off) (parseU16Body stop) (b.length + 1) (Cursor.of r, out) =
      .ok (parseU16Loop stop r out) := by
  refine loop_eq (fun t : Reader × List UInt16 => (Cursor.of t.1, t.2))
    (fun t => parseU16Loop stop t.1 t.2) (·.1.b = b) b.length ?_ (t := (r, out)) hr
    (fuel_enough b r)
  rintro ⟨r, out⟩ hr
  refine ⟨le_of_at hr, ?_⟩
  unfold parseU16Body
  dsimp only
  by_cases h : r.off + 2 ≤ stop ∧ r.off + 2 ≤ r.b.length
  · obtain ⟨hb₁, ho₁⟩ := Reader.u16D_moves (r := r) h.2
    rw [if_pos (by simp only [Cursor.of, Cursor.len]; omega), Cursor.u16_of]
    refine .inr ⟨(r.u16D.2, out ++ [r.u16D.1]), rfl, ?_, ?_, ?_⟩
    · simp only [Cursor.of]
      omega
    · exact hb₁.trans hr
    · rw [parseU16Loop, dif_pos h]
  · rw [if_neg (by simp only [Cursor.of, Cursor.len]; omega), parseU16Loop, dif_neg h]
    exact .inl rfl

theorem parseU16List_eq (b : Bytes) : parseU16List b = .ok (Tlsparse.parseU16List b) := by
  unfold parseU16List Tlsparse.parseU16List
  refine vector_eq (g := fun l r => parseU16Loop (r.off + l.toNat) r [])
    (f := fun l r => loop (·.1.off) (parseU16Body (r.off + l.toNat)) (b.length + 1) (r, []))
    fun l r hr => ?_
  exact parseU16Loop_eq _ hr []

def handleExtension (etype : UInt16) (data : Bytes) (info : Info) (server : Bool) : Checked Info :=
  if etype = 0 then
    if !server then do
      let s ← parseSNI data
      if s ≠ [] then return { info with sni := s } else return info
    else return info
  else if etype = 13 then
    if !server then do
      let l ← parseU16List data
      return { info with offeredSigs := l }
    else return info
  else if etype = 16 then do
    let l ← parseALPN data
    return { info with alpn := l }
  else if etype = 43 then
    if server ∧ 2 ≤ data.length then do
      let d₀ ← index data 0
      let d₁ ← index data 1
      return { info with negVersion := be16 d₀ d₁ }
    else return info
  else if etype = 51 then
    if server ∧ 2 ≤ data.length then do
      let d₀ ← index data 0
      let d₁ ← index data 1
      return { info with group := be16 d₀ d₁ }
    else return info
  else return info

theorem handleExtension_ok (t : UInt16) (d : Bytes) (i : Info) (server : Bool) :
    handleExtension t d i server = .ok (Tlsparse.handleExtension t d i server) := by
  unfold handleExtension Tlsparse.handleExtension
  rw [parseSNI_eq, parseU16List_eq, parseALPN_eq]
  simp only [ok_bind, pure_eq]
  by_cases h : server ∧ 2 ≤ d.length
  · have h₀ : index d 0 = .ok d[0] := index_ok rfl (show 0 < d.length by omega)
    have h₁ : index d 1 = .ok d[1] := index_ok rfl (show 1 < d.length by omega)
    simp only [h₀, h₁, ok_bind, if_pos h, dif_pos h]
    split_ifs <;> simp_all
  · simp only [if_neg h, dif_neg h]
    split_ifs <;> simp_all

def parseExtensionsBody (server : Bool) (stop : ℤ) (s : Cursor × Info) :
    Checked (Step (Cursor × Info) Info) :=
  let (r, info) := s
  if r.off + 4 ≤ stop ∧ r.off + 4 ≤ r.len then do
    let (etype, _, r) ← r.u16
    let (elen, _, r) ← r.u16
    let (data, ok, r) ← r.bytes elen.toNat
    if !ok then
      let rest ← subslice r.b r.off r.len
      let info ← handleExtension etype rest info server
      return .done info
    else
      let info ← handleExtension etype data info server
      return .next (r, info)
  else return .done info

def parseExtensions (r : Cursor) (info : Info) (server : Bool) : Checked Info := do
  let (extLen, ok, r) ← r.u16
  if !ok then return info
  else
    loop (·.1.off) (parseExtensionsBody server (r.off + extLen.toNat)) (r.b.length + 1) (r, info)

theorem parseExtensionsLoop_step {server : Bool} {stop : ℕ} {r r' : Reader} {data : Bytes}
    (h : r.off + 4 ≤ stop ∧ r.off + 4 ≤ r.b.length)
    (hd : r.u16D.2.u16D.2.bytes r.u16D.2.u16D.1.toNat = some (data, r')) (i : Info) :
    parseExtensionsLoop server stop r i = parseExtensionsLoop server stop r'
      (Tlsparse.handleExtension r.u16D.1 data i server) := by
  rw [parseExtensionsLoop, dif_pos h]
  dsimp only
  split <;> simp_all

theorem parseExtensionsLoop_short {server : Bool} {stop : ℕ} {r : Reader}
    (h : r.off + 4 ≤ stop ∧ r.off + 4 ≤ r.b.length)
    (hd : r.u16D.2.u16D.2.bytes r.u16D.2.u16D.1.toNat = none) (i : Info) :
    parseExtensionsLoop server stop r i =
      Tlsparse.handleExtension r.u16D.1 r.u16D.2.u16D.2.rest i server := by
  rw [parseExtensionsLoop, dif_pos h]
  dsimp only
  split <;> simp_all

theorem rest_of (r : Reader) :
    subslice (Cursor.of r).b (Cursor.of r).off (Cursor.of r).len = .ok r.rest := by
  have hs : subslice (Cursor.of r).b (Cursor.of r).off (Cursor.of r).len = _ :=
    subslice_ok (n := r.b.length) rfl rfl r.off_le le_rfl
  rw [hs]
  simp only [Reader.rest, Cursor.of]
  rw [List.take_of_length_le (by simp)]

theorem parseExtensionsLoop_ok (server : Bool) (stop : ℕ) {b : Bytes} {r : Reader} (hr : r.b = b)
    (i : Info) :
    loop (·.1.off) (parseExtensionsBody server stop) (b.length + 1) (Cursor.of r, i) =
      .ok (parseExtensionsLoop server stop r i) := by
  refine loop_eq (fun t : Reader × Info => (Cursor.of t.1, t.2))
    (fun t => parseExtensionsLoop server stop t.1 t.2) (·.1.b = b) b.length ?_ (t := (r, i)) hr
    (fuel_enough b r)
  rintro ⟨r, i⟩ hr
  refine ⟨le_of_at hr, ?_⟩
  unfold parseExtensionsBody
  dsimp only
  by_cases h : r.off + 4 ≤ stop ∧ r.off + 4 ≤ r.b.length
  · obtain ⟨hb₁, ho₁⟩ := Reader.u16D_moves (r := r) (by omega)
    obtain ⟨hb₂, ho₂⟩ := Reader.u16D_moves (r := r.u16D.2) (by rw [hb₁, ho₁]; omega)
    rw [if_pos (by simp only [Cursor.of, Cursor.len]; omega), Cursor.u16_of]
    simp only [ok_bind]
    rw [Cursor.u16_of]
    simp only [ok_bind]
    rcases hd : r.u16D.2.u16D.2.bytes r.u16D.2.u16D.1.toNat with _ | ⟨data, q⟩
    · -- the capture stops inside the extension, whose rest is handled as it is
      rw [Cursor.bytes_none hd, parseExtensionsLoop_short h hd]
      simp only [ok_bind, Bool.not_false, if_true, rest_of, handleExtension_ok]
      exact .inl rfl
    · obtain ⟨hb₃, ho₃⟩ := Reader.bytes_moves hd
      rw [Cursor.bytes_some hd, parseExtensionsLoop_step h hd]
      simp only [ok_bind, Bool.not_true, Bool.false_eq_true, if_false, handleExtension_ok]
      refine .inr ⟨(q, _), rfl, ?_, ?_, rfl⟩
      · simp only [Cursor.of]
        omega
      · change q.b = b
        rw [hb₃, hb₂, hb₁]
        exact hr
  · rw [if_neg (by simp only [Cursor.of, Cursor.len]; omega), parseExtensionsLoop, dif_neg h]
    exact .inl rfl

theorem parseExtensions_ok (r : Reader) (i : Info) (server : Bool) :
    parseExtensions (Cursor.of r) i server = .ok (Tlsparse.parseExtensions r i server) := by
  unfold parseExtensions Tlsparse.parseExtensions
  rw [Cursor.u16_of]
  unfold Reader.u16D
  rcases r.u16 with _ | ⟨extLen, q⟩
  · rfl
  · exact parseExtensionsLoop_ok server _ rfl i

/-! ### Handshake messages -/

def parseClientHello (b : Bytes) (info : Info) : Checked Info := do
  let (ver, ok, r) ← (Cursor.mk b 0).u16
  if !ok then return info
  else
    let info := { info with
      hasClientHello := true
      clientVersion := ver
      negVersion := if info.negVersion = 0 then ver else info.negVersion }
    let (ok, r) ← r.skip 32
    if !ok then return info
    else
      let (ok, r) ← r.skipVec8
      if !ok then return info
      else
        let (csLen, ok, r) ← r.u16
        if !ok then return info
        else
          let (_, r) ← r.skip csLen.toNat
          let (ok, r) ← r.skipVec8
          if !ok then return info else parseExtensions r info false

def parseServerHello (b : Bytes) (info : Info) : Checked Info := do
  let (ver, ok, r) ← (Cursor.mk b 0).u16
  if !ok then return info
  else
    let info := { info with hasServerHello := true, negVersion := ver }
    let (ok, r) ← r.skip 32
    if !ok then return info
    else
      let (ok, r) ← r.skipVec8
      if !ok then return info
      else
        let (cs, ok, r) ← r.u16
        if !ok then return info
        else
          let info := { info with cipherSuite := cs }
          let (_, ok, r) ← r.u8
          if !ok then return info
          else
            let info ← parseExtensions r info true
            if info.negVersion < 0x0304 && isTLS13Cipher cs then
              return { info with negVersion := 0x0304 }
            else return info

theorem parseClientHello_ok (b : Bytes) (i : Info) :
    parseClientHello b i = .ok (Tlsparse.parseClientHello b i) := by
  have hstart : Cursor.mk b 0 = Cursor.of (Reader.start b) := rfl
  unfold parseClientHello Tlsparse.parseClientHello
  rw [hstart, Cursor.u16_of]
  unfold Reader.u16D
  rcases (Reader.start b).u16 with _ | ⟨ver, r⟩
  · rfl
  simp only [ok_bind, Option.isSome_some, Option.getD_some, Bool.not_true, Bool.false_eq_true,
    if_false]
  generalize ({ i with
    hasClientHello := true
    clientVersion := ver
    negVersion := if i.negVersion = 0 then ver else i.negVersion } : Info) = j
  have hskip : (Cursor.of r).skip 32 = .ok ((r.skip 32).1, Cursor.of (r.skip 32).2) :=
    Cursor.skip_of r 32
  rw [hskip]
  simp only [ok_bind]
  rcases r.skip 32 with ⟨_ | _, r₁⟩
  · rfl
  simp only [Bool.not_true, Bool.false_eq_true, if_false]
  rw [Cursor.skipVec8_of]
  simp only [ok_bind]
  rcases r₁.skipVec8 with ⟨_ | _, r₂⟩
  · rfl
  simp only [Bool.not_true, Bool.false_eq_true, if_false]
  rw [Cursor.u16_of]
  unfold Reader.u16D
  rcases r₂.u16 with _ | ⟨csLen, q⟩
  · rfl
  simp only [ok_bind, Option.isSome_some, Option.getD_some, Bool.not_true, Bool.false_eq_true,
    if_false]
  rw [Cursor.skip_of]
  simp only [ok_bind]
  rw [Cursor.skipVec8_of]
  simp only [ok_bind]
  rcases (q.skip csLen.toNat).2.skipVec8 with ⟨_ | _, r₃⟩
  · rfl
  · exact parseExtensions_ok ..

theorem parseServerHello_ok (b : Bytes) (i : Info) :
    parseServerHello b i = .ok (Tlsparse.parseServerHello b i) := by
  have hstart : Cursor.mk b 0 = Cursor.of (Reader.start b) := rfl
  unfold parseServerHello Tlsparse.parseServerHello
  rw [hstart, Cursor.u16_of]
  unfold Reader.u16D
  rcases (Reader.start b).u16 with _ | ⟨ver, r⟩
  · rfl
  simp only [ok_bind, Option.isSome_some, Option.getD_some, Bool.not_true, Bool.false_eq_true,
    if_false]
  have hskip : (Cursor.of r).skip 32 = .ok ((r.skip 32).1, Cursor.of (r.skip 32).2) :=
    Cursor.skip_of r 32
  rw [hskip]
  simp only [ok_bind]
  rcases r.skip 32 with ⟨_ | _, r₁⟩
  · rfl
  simp only [Bool.not_true, Bool.false_eq_true, if_false]
  rw [Cursor.skipVec8_of]
  simp only [ok_bind]
  rcases r₁.skipVec8 with ⟨_ | _, r₂⟩
  · rfl
  simp only [Bool.not_true, Bool.false_eq_true, if_false]
  rw [Cursor.u16_of]
  unfold Reader.u16D
  rcases r₂.u16 with _ | ⟨cs, q⟩
  · rfl
  simp only [ok_bind, Option.isSome_some, Option.getD_some, Bool.not_true, Bool.false_eq_true,
    if_false]
  rw [Cursor.u8_of]
  unfold Reader.u8D
  rcases q.u8 with _ | ⟨c, q'⟩
  · rfl
  simp only [ok_bind, Option.isSome_some, Option.getD_some, Bool.not_true, Bool.false_eq_true,
    if_false, parseExtensions_ok]
  split_ifs <;> rfl

def certSubject (cert : Certificate) : Checked Bytes :=
  if cert.subjectCommonName = [] ∧ cert.subjectOrganization.length > 0 then
    index cert.subjectOrganization 0
  else return cert.subjectCommonName

def parseCertificate (x509 : X509) (b : Bytes) (info : Info) : Checked Info :=
  if b.length < 3 then return info
  else do
    let (total, _, r) ← (Cursor.mk b 0).u24
    let stop := if r.off + total.toNat > b.length then ↑b.length else r.off + total.toNat
    if r.off + 3 > stop then return info
    else
      let (clen, _, r) ← r.u24
      let (der, ok, _) ← r.bytes clen.toNat
      if !ok ∨ der.length = 0 then return info
      else
        match x509 der with
        | none => return info
        | some cert =>
          let subject ← certSubject cert
          return { info with
            hasCert := true
            certSubject := subject
            certIssuer := cert.issuerCommonName
            certSANs := cert.dnsNames
            certSigAlg := trimSuffix cert.signatureAlgorithm dash }

theorem certSubject_ok (cert : Certificate) : certSubject cert = .ok (certSubjectOf cert) := by
  obtain ⟨cn, org, issuer, names, alg⟩ := cert
  unfold certSubject certSubjectOf
  cases cn with
  | nil => cases org <;> rfl
  | cons c cn => rfl

theorem parseCertificate_ok (x509 : X509) (b : Bytes) (i : Info) :
    parseCertificate x509 b i = .ok (Tlsparse.parseCertificate x509 b i) := by
  have hstart : Cursor.mk b 0 = Cursor.of (Reader.start b) := rfl
  unfold parseCertificate Tlsparse.parseCertificate
  by_cases h₃ : b.length < 3
  · rw [if_pos h₃, if_pos h₃]
    rfl
  rw [if_neg h₃, if_neg h₃, hstart, Cursor.u24_of]
  simp only [ok_bind]
  generalize (Reader.start b).u24D.1.toNat = total
  generalize (Reader.start b).u24D.2 = r
  have hstop : (if (Cursor.of r).off + ↑total > ↑b.length then (↑b.length : ℤ)
      else (Cursor.of r).off + ↑total) = ↑(min (r.off + total) b.length) := by
    simp only [Cursor.of]
    split_ifs <;> omega
  rw [hstop]
  by_cases hend : r.off + 3 > min (r.off + total) b.length
  · rw [if_pos hend, if_pos (by simp only [Cursor.of]; omega)]
    rfl
  rw [if_neg hend, if_neg (by simp only [Cursor.of]; omega), Cursor.u24_of]
  simp only [ok_bind]
  rcases hd : r.u24D.2.bytes r.u24D.1.toNat with _ | ⟨der, q⟩
  · rw [Cursor.bytes_none hd]
    rfl
  rw [Cursor.bytes_some hd]
  rcases der with _ | ⟨d, der⟩
  · rfl
  simp only [ok_bind, Bool.not_true, Bool.false_eq_true, List.length_cons, Nat.add_one_ne_zero,
    or_self, if_false]
  rcases x509 (d :: der) with _ | cert
  · rfl
  · dsimp only
    rw [certSubject_ok]
    rfl

def parseMessage (x509 : X509) (mtype : UInt8) (body : Bytes) (info : Info) : Checked Info :=
  if mtype = hsClientHello then parseClientHello body info
  else if mtype = hsServerHello then parseServerHello body info
  else if mtype = hsCertificate then parseCertificate x509 body info
  else return info

theorem parseMessage_ok (x509 : X509) (t : UInt8) (b : Bytes) (i : Info) :
    parseMessage x509 t b i = .ok (Tlsparse.parseMessage x509 t b i) := by
  unfold parseMessage Tlsparse.parseMessage
  rw [parseClientHello_ok, parseServerHello_ok, parseCertificate_ok]
  split_ifs <;> rfl

def parseHandshakeBody (x509 : X509) (s : Bytes) (t : ℤ × Info) : Checked (Step (ℤ × Info) Info) :=
  let (p, info) := t
  if p + 4 ≤ s.length then do
    let mtype ← index s p
    let m₁ ← index s (p + 1)
    let m₂ ← index s (p + 2)
    let m₃ ← index s (p + 3)
    let body ← subslice s (p + 4) s.length
    let mlen := m₁.toNat <<< 16 ||| m₂.toNat <<< 8 ||| m₃.toNat
    let mlen := if mlen > body.length then body.length else mlen
    let body ← subslice body 0 mlen
    let info ← parseMessage x509 mtype body info
    return .next (p + 4 + mlen, info)
  else return .done info

def parseHandshakeStream (x509 : X509) (s : Bytes) (info : Info) : Checked Info :=
  loop (·.1) (parseHandshakeBody x509 s) (s.length + 1) (0, info)

def parse (x509 : X509) (buf : Bytes) (info : Info) : Checked Info := do
  let stream ← collectHandshake buf
  if stream.length = 0 then return info else parseHandshakeStream x509 stream info

theorem parseHandshakeStream_ok (x509 : X509) (s : Bytes) (i : Info) :
    parseHandshakeStream x509 s i = .ok (Tlsparse.parseHandshakeStream x509 s i) := by
  have hfuel : (s.length : ℤ) - ((0 : ℕ) : ℤ) < ((s.length + 1 : ℕ) : ℤ) := by omega
  refine loop_eq (fun t : ℕ × Info => ((t.1 : ℤ), t.2))
    (fun t => parseHandshakeLoop x509 s t.1 t.2) (·.1 ≤ s.length) s.length ?_ (t := (0, i))
    (Nat.zero_le _) hfuel
  rintro ⟨p, i⟩ hp
  refine ⟨by simpa using hp, ?_⟩
  unfold parseHandshakeBody
  dsimp only
  by_cases h : p + 4 ≤ s.length
  · have h₀ : index s ↑p = .ok s[p] := index_ok rfl (show p < s.length by omega)
    have h₁ : index s (↑p + 1) = .ok s[p + 1] := index_ok rfl (show p + 1 < s.length by omega)
    have h₂ : index s (↑p + 2) = .ok s[p + 2] := index_ok rfl (show p + 2 < s.length by omega)
    have h₃ : index s (↑p + 3) = .ok s[p + 3] := index_ok rfl (show p + 3 < s.length by omega)
    have hbody : subslice s (↑p + 4) ↑s.length = .ok (s.drop (p + 4)) := by
      have hs : subslice s (↑p + 4) ↑s.length = .ok (slice s (p + 4) s.length) :=
        subslice_ok rfl rfl h le_rfl
      rw [hs, slice, List.take_of_length_le (by simp)]
    rw [if_pos (by omega), h₀, h₁, h₂, h₃, hbody, parseHandshakeLoop, dif_pos h]
    simp only [ok_bind, pure_eq]
    generalize hlen : (if s[p + 1].toNat <<< 16 ||| s[p + 2].toNat <<< 8 ||| s[p + 3].toNat >
      (s.drop (p + 4)).length then (s.drop (p + 4)).length
      else s[p + 1].toNat <<< 16 ||| s[p + 2].toNat <<< 8 ||| s[p + 3].toNat) = mlen
    have hle : mlen ≤ (s.drop (p + 4)).length := by
      rw [← hlen]
      split_ifs <;> omega
    have htake : subslice (s.drop (p + 4)) 0 ↑mlen = .ok ((s.drop (p + 4)).take mlen) :=
      subslice_ok rfl rfl (Nat.zero_le mlen) hle
    rw [htake]
    simp only [ok_bind, parseMessage_ok]
    rw [List.length_drop] at hle
    refine .inr ⟨(p + 4 + mlen, _), rfl, ?_, ?_, rfl⟩
    · dsimp only
      omega
    · dsimp only
      omega
  · rw [if_neg (by omega), parseHandshakeLoop, dif_neg h]
    exact .inl rfl

/-- **No input makes the parser fault.** Every index and slice expression is in range, the cursor
stays inside its slice, every loop moves forward and ends, and the result is the parse above. -/
theorem parse_ok (x509 : X509) (buf : Bytes) (i : Info) :
    parse x509 buf i = .ok (Tlsparse.parse x509 buf i) := by
  unfold parse Tlsparse.parse
  rw [collectHandshake_eq]
  simp only [ok_bind]
  split_ifs
  · rfl
  · exact parseHandshakeStream_ok ..

end Tlstat.Tlsparse.Checked
