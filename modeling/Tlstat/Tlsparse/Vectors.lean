import Tlstat.Tlsparse.Framing

/-! Length-prefixed vectors, and what the cursor and the three inner list parsers read from a
well-formed one. -/

namespace Tlstat.Tlsparse

def vec8 (b : Bytes) : Bytes := UInt8.ofNat b.length :: b

def vec16 (b : Bytes) : Bytes := put16 b.length ++ b

theorem be16_put (n : ℕ) : be16 (UInt8.ofNat (n / 256)) (UInt8.ofNat n) = UInt16.ofNat n := by
  apply UInt16.toNat_inj.mp
  have hhi := (UInt8.ofNat (n / 256)).toNat_lt
  unfold be16
  rw [UInt16.toNat_or, UInt16.toNat_shiftLeft, UInt8.toNat_toUInt16, UInt8.toNat_toUInt16]
  change (UInt8.ofNat (n / 256)).toNat <<< 8 % 65536 ||| (UInt8.ofNat n).toNat = _
  rw [Nat.mod_eq_of_lt (by rw [Nat.shiftLeft_eq]; omega), shiftLeft_or_toNat, UInt8.toNat_ofNat',
    UInt8.toNat_ofNat', UInt16.toNat_ofNat']
  omega

theorem toNat_ofNat16 {n : ℕ} (h : n < 65536) : (UInt16.ofNat n).toNat = n := by
  rw [UInt16.toNat_ofNat']
  exact Nat.mod_eq_of_lt h

namespace Reader

/-- The cursor stands in `b` with `s` still to read. -/
structure At (r : Reader) (b s : Bytes) : Prop where
  b : r.b = b
  rest : r.rest = s

namespace At
variable {r : Reader} {b s t : Bytes}

theorem start (b : Bytes) : At (Reader.start b) b b := ⟨rfl, rfl⟩

theorem length (h : At r b s) : r.off + s.length = b.length := by
  rw [← h.rest, ← h.b, Reader.rest, List.length_drop]
  have := r.off_le
  omega

theorem bound (h : At r b (s ++ t)) : r.off + s.length ≤ r.b.length := by
  have := h.length
  rw [List.length_append, ← h.b] at this
  omega

theorem advance (h : At r b (s ++ t)) : At (r.advance s.length h.bound) b t := by
  refine ⟨h.b, ?_⟩
  have hrest := h.rest
  unfold Reader.rest Reader.advance at *
  rw [← List.drop_drop, hrest, List.drop_left]

theorem getElem? (h : At r b s) (k : ℕ) : r.b[r.off + k]? = s[k]? := by
  rw [← h.rest, Reader.rest, List.getElem?_drop]

theorem u8 {v : UInt8} (h : At r b (v :: t)) : ∃ q, r.u8 = some (v, q) ∧ At q b t := by
  have h' : At r b ([v] ++ t) := h
  have hb : r.off + 1 ≤ r.b.length := h'.bound
  have hv : r.b[r.off] = v := (List.getElem_eq_iff _).mpr (h.getElem? 0)
  refine ⟨_, ?_, h'.advance⟩
  rw [Reader.u8, dif_pos hb, hv]
  rfl

theorem u16 {n : ℕ} (h : At r b (put16 n ++ t)) :
    ∃ q, r.u16 = some (UInt16.ofNat n, q) ∧ At q b t := by
  have hb : r.off + 2 ≤ r.b.length := h.bound
  have h₀ : r.b[r.off] = UInt8.ofNat (n / 256) := (List.getElem_eq_iff _).mpr (h.getElem? 0)
  have h₁ : r.b[r.off + 1] = UInt8.ofNat n := (List.getElem_eq_iff _).mpr (h.getElem? 1)
  refine ⟨_, ?_, h.advance⟩
  rw [Reader.u16, dif_pos hb, h₀, h₁, be16_put]
  rfl

theorem u8D {v : UInt8} (h : At r b (v :: t)) : r.u8D.1 = v ∧ At r.u8D.2 b t := by
  obtain ⟨q, hq, hat⟩ := h.u8
  rw [Reader.u8D, hq]
  exact ⟨rfl, hat⟩

theorem u16D {n : ℕ} (h : At r b (put16 n ++ t)) : r.u16D.1 = UInt16.ofNat n ∧ At r.u16D.2 b t := by
  obtain ⟨q, hq, hat⟩ := h.u16
  rw [Reader.u16D, hq]
  exact ⟨rfl, hat⟩

theorem bytes (h : At r b (s ++ t)) : ∃ q, r.bytes s.length = some (s, q) ∧ At q b t := by
  refine ⟨_, ?_, h.advance⟩
  have hrest := h.rest
  rw [Reader.bytes, dif_pos h.bound, slice, Nat.add_sub_cancel_left]
  unfold Reader.rest at hrest
  rw [hrest, List.take_left]

theorem skip (h : At r b (s ++ t)) : ∃ q, r.skip s.length = (true, q) ∧ At q b t := by
  refine ⟨_, ?_, h.advance⟩
  rw [Reader.skip, dif_pos h.bound]

theorem skipVec8 (h : At r b (vec8 s ++ t)) (hs : s.length ≤ 255) :
    ∃ q, r.skipVec8 = (true, q) ∧ At q b t := by
  obtain ⟨q, hq, hat⟩ := At.u8 (t := s ++ t) h
  obtain ⟨q', hq', hat'⟩ := hat.skip
  refine ⟨q', ?_, hat'⟩
  rw [Reader.skipVec8, hq]
  dsimp only
  rw [UInt8.toNat_ofNat', Nat.mod_eq_of_lt (by omega), hq']

end At
end Reader

/-! ### Server names -/

def serverNameEntry (e : UInt8 × Bytes) : Bytes := e.1 :: vec16 e.2

/-- The first host_name entry; entries of other name types are stepped over. -/
def hostName (names : List (UInt8 × Bytes)) : Option Bytes := (names.find? (·.1 = 0)).map (·.2)

theorem parseSNILoop_entries (names : List (UInt8 × Bytes)) {r : Reader} {b : Bytes}
    (h : r.At b (names.flatMap serverNameEntry)) (hlen : b.length < 65538) :
    parseSNILoop b.length r = (hostName names).getD [] := by
  induction names generalizing r with
  | nil =>
    have hoff := h.length
    simp only [List.flatMap_nil, List.length_nil] at hoff
    rw [parseSNILoop, dif_neg (by omega)]
    rfl
  | cons e names ih =>
    obtain ⟨t, name⟩ := e
    have hoff := h.length
    simp only [List.flatMap_cons, serverNameEntry, vec16, put16, List.length_append,
      List.length_cons, List.length_nil] at hoff
    have h' : r.At b (t :: (put16 name.length ++ (name ++ names.flatMap serverNameEntry))) := by
      simpa only [List.flatMap_cons, serverNameEntry, vec16, List.cons_append,
        List.append_assoc] using h
    -- type, length and name in turn; the cursor then stands before the other entries
    obtain ⟨ht, h₁⟩ := h'.u8D
    obtain ⟨hl, h₂⟩ := h₁.u16D
    obtain ⟨q, hq, h₃⟩ := h₂.bytes
    have hb : r.u8D.2.u16D.2.bytes r.u8D.2.u16D.1.toNat = some (name, q) := by
      rw [hl, toNat_ofNat16 (by omega), hq]
    rw [parseSNILoop_step ⟨by omega, by rw [h.b]; omega⟩ hb, ht]
    by_cases h₀ : t = 0
    · rw [if_pos h₀, hostName, List.find?_cons_of_pos (by simpa using h₀)]
      rfl
    · rw [if_neg h₀, ih h₃, hostName, hostName, List.find?_cons_of_neg (by simpa using h₀)]

/-- A reader over a two-byte vector stands at its content, which ends where the slice does. -/
theorem vec16_at {b : Bytes} (h : b.length < 65536) :
    ¬(vec16 b).length < 2 ∧ (Reader.start (vec16 b)).u16D.2.At (vec16 b) b ∧
      (Reader.start (vec16 b)).u16D.2.off + (Reader.start (vec16 b)).u16D.1.toNat =
        (vec16 b).length := by
  obtain ⟨hn, hat⟩ := (Reader.At.start (vec16 b)).u16D
  refine ⟨?_, hat, ?_⟩
  · simp only [vec16, put16, List.length_append, List.length_cons, List.length_nil]
    omega
  · rw [hn, toNat_ofNat16 h, hat.length]

theorem length_vec8 (b : Bytes) : (vec8 b).length = 1 + b.length := by
  rw [vec8, List.length_cons, Nat.add_comm]

theorem length_vec16 (b : Bytes) : (vec16 b).length = 2 + b.length := by
  simp only [vec16, put16, List.length_append, List.length_cons, List.length_nil]

theorem parseSNI_encode {names : List (UInt8 × Bytes)}
    (hlen : (names.flatMap serverNameEntry).length < 65536) :
    parseSNI (vec16 (names.flatMap serverNameEntry)) = (hostName names).getD [] := by
  obtain ⟨htwo, hat, hstop⟩ := vec16_at hlen
  rw [parseSNI, if_neg htwo]
  dsimp only
  rw [hstop]
  refine parseSNILoop_entries names hat ?_
  rw [length_vec16]
  omega

/-! ### Protocol names -/

theorem parseALPNLoop_step {stop : ℕ} {r r' : Reader} {name : Bytes}
    (h : r.off + 1 ≤ stop ∧ r.off < r.b.length)
    (hb : r.u8D.2.bytes r.u8D.1.toNat = some (name, r')) (out : List Bytes) :
    parseALPNLoop stop r out = parseALPNLoop stop r' (out ++ [name]) := by
  rw [parseALPNLoop, dif_pos h]
  dsimp only
  split <;> simp_all

theorem parseALPNLoop_names (ps : List Bytes) (hps : ∀ p ∈ ps, p.length ≤ 255) {r : Reader}
    {b : Bytes} (h : r.At b (ps.flatMap vec8)) (out : List Bytes) :
    parseALPNLoop b.length r out = out ++ ps := by
  induction ps generalizing r out with
  | nil =>
    have hoff := h.length
    simp only [List.flatMap_nil, List.length_nil] at hoff
    rw [parseALPNLoop, dif_neg (by omega), List.append_nil]
  | cons p ps ih =>
    have hp := hps p List.mem_cons_self
    have hoff := h.length
    simp only [List.flatMap_cons, vec8, List.length_append, List.length_cons] at hoff
    have h' : r.At b (UInt8.ofNat p.length :: (p ++ ps.flatMap vec8)) := by
      simpa only [List.flatMap_cons, vec8, List.cons_append] using h
    obtain ⟨hl, h₁⟩ := h'.u8D
    obtain ⟨q, hq, h₂⟩ := h₁.bytes
    have hb : r.u8D.2.bytes r.u8D.1.toNat = some (p, q) := by
      rw [hl, UInt8.toNat_ofNat', Nat.mod_eq_of_lt (by omega), hq]
    rw [parseALPNLoop_step ⟨by omega, by rw [h.b]; omega⟩ hb,
      ih (fun p' hp' => hps p' (List.mem_cons_of_mem _ hp')) h₂, List.append_assoc,
      List.singleton_append]

theorem parseALPN_encode {ps : List Bytes} (hps : ∀ p ∈ ps, p.length ≤ 255)
    (hlen : (ps.flatMap vec8).length < 65536) : parseALPN (vec16 (ps.flatMap vec8)) = ps := by
  obtain ⟨htwo, hat, hstop⟩ := vec16_at hlen
  rw [parseALPN, if_neg htwo]
  dsimp only
  rw [hstop, parseALPNLoop_names ps hps hat, List.nil_append]

/-! ### Lists of words -/

def word (v : UInt16) : Bytes := put16 v.toNat

theorem length_word (v : UInt16) : (word v).length = 2 := rfl

theorem parseU16Loop_words (vs : List UInt16) {r : Reader} {b : Bytes}
    (h : r.At b (vs.flatMap word)) (out : List UInt16) :
    parseU16Loop b.length r out = out ++ vs := by
  induction vs generalizing r out with
  | nil =>
    have hoff := h.length
    simp only [List.flatMap_nil, List.length_nil] at hoff
    rw [parseU16Loop, dif_neg (by omega), List.append_nil]
  | cons v vs ih =>
    have hoff := h.length
    simp only [List.flatMap_cons, word, put16, List.length_append, List.length_cons,
      List.length_nil] at hoff
    rw [List.flatMap_cons] at h
    obtain ⟨hv, h₁⟩ := Reader.At.u16D h
    rw [parseU16Loop, dif_pos ⟨by omega, by rw [h.b]; omega⟩]
    dsimp only
    rw [ih h₁, hv, UInt16.ofNat_toNat, List.append_assoc, List.singleton_append]

theorem parseU16List_encode {vs : List UInt16} (hlen : (vs.flatMap word).length < 65536) :
    parseU16List (vec16 (vs.flatMap word)) = vs := by
  obtain ⟨htwo, hat, hstop⟩ := vec16_at hlen
  rw [parseU16List, if_neg htwo]
  dsimp only
  rw [hstop, parseU16Loop_words vs hat, List.nil_append]

/-! ### Extension blocks -/

def extension (e : UInt16 × Bytes) : Bytes := word e.1 ++ vec16 e.2

theorem extensionsLoop_extensions (es : List (UInt16 × Bytes)) {r : Reader} {b : Bytes}
    (h : r.At b (es.flatMap extension)) (hlen : (es.flatMap extension).length < 65536) :
    extensionsLoop b.length r = es := by
  induction es generalizing r with
  | nil =>
    have hoff := h.length
    simp only [List.flatMap_nil, List.length_nil] at hoff
    exact extensionsLoop_stop (by omega)
  | cons e es ih =>
    obtain ⟨t, d⟩ := e
    have hoff := h.length
    simp only [List.flatMap_cons, extension, word, vec16, put16, List.length_append,
      List.length_cons, List.length_nil] at hoff hlen
    have h' : r.At b (put16 t.toNat ++ (put16 d.length ++ (d ++ es.flatMap extension))) := by
      simpa only [List.flatMap_cons, extension, word, vec16, List.append_assoc] using h
    obtain ⟨ht, h₁⟩ := h'.u16D
    obtain ⟨hd, h₂⟩ := h₁.u16D
    obtain ⟨q, hq, h₃⟩ := h₂.bytes
    have hb : r.u16D.2.u16D.2.bytes r.u16D.2.u16D.1.toNat = some (d, q) := by
      rw [hd, toNat_ofNat16 (by omega), hq]
    rw [extensionsLoop_step ⟨by omega, by rw [h.b]; omega⟩ hb, ht, UInt16.ofNat_toNat,
      ih h₃ (by omega)]

/-- The extensions at the end of a hello: no block at all, or one that fills the rest. -/
def extensionBlock : Option (List (UInt16 × Bytes)) → Bytes
  | none => []
  | some es => vec16 (es.flatMap extension)

theorem length_extensionBlock_le (es : Option (List (UInt16 × Bytes))) :
    (extensionBlock es).length ≤ 2 + ((es.getD []).flatMap extension).length := by
  cases es with
  | none => exact Nat.zero_le _
  | some es => exact (length_vec16 _).le

theorem extensions_encode {es : Option (List (UInt16 × Bytes))} {r : Reader} {b : Bytes}
    (h : r.At b (extensionBlock es)) (hlen : ((es.getD []).flatMap extension).length < 65536) :
    extensions r = es.getD [] := by
  unfold extensions
  rcases es with _ | es
  · have hoff := h.length
    simp only [extensionBlock, List.length_nil] at hoff
    rw [Reader.u16, dif_neg (by rw [h.b]; omega)]
    rfl
  · obtain ⟨q, hq, hat⟩ := Reader.At.u16 h
    rw [Option.getD_some] at hlen ⊢
    rw [hq]
    dsimp only
    rw [toNat_ofNat16 hlen, hat.length]
    exact extensionsLoop_extensions es hat hlen

end Tlstat.Tlsparse
