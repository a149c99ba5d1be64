import Tlstat.Tlsparse.Leaf

/-! What the cursor has read is there. Of any bytes at all, an extension that the walk of a hello
gets to stands behind everything the format puts in front of it, and what is taken from it stands in
it. -/

namespace Tlstat.Tlsparse
open Base

/-! ### What the cursor read -/

theorem ofNat_eq {n : ℕ} {v : UInt8} (h : n % 256 = v.toNat) : UInt8.ofNat n = v :=
  UInt8.toNat_inj.mp ((UInt8.toNat_ofNat' ..).trans h)

theorem put16_toNat (a c : UInt8) : put16 (a.toNat * 256 + c.toNat) = [a, c] := by
  have ha := a.toNat_lt
  have hc := c.toNat_lt
  unfold put16
  rw [ofNat_eq (v := a) (by omega), ofNat_eq (v := c) (by omega)]

theorem put24_toNat (a b c : UInt8) :
    put24 ((a.toNat * 256 + b.toNat) * 256 + c.toNat) = [a, b, c] := by
  have ha := a.toNat_lt
  have hb := b.toNat_lt
  have hc := c.toNat_lt
  unfold put24
  rw [ofNat_eq (v := a) (by omega), ofNat_eq (v := b) (by omega), ofNat_eq (v := c) (by omega)]

theorem nat24_eq (a b c : UInt8) : a.toNat <<< 16 ||| b.toNat <<< 8 ||| c.toNat =
    (a.toNat * 256 + b.toNat) * 256 + c.toNat := by
  have hhi : a.toNat <<< 16 = a.toNat <<< 8 <<< 8 := by rw [← Nat.shiftLeft_add]
  rw [hhi, ← Nat.shiftLeft_or_distrib, shiftLeft_or_toNat, shiftLeft_or_toNat]

theorem be16_toNat (a c : UInt8) : (be16 a c).toNat = a.toNat * 256 + c.toNat := by
  have ha := a.toNat_lt
  unfold be16
  rw [UInt16.toNat_or, UInt16.toNat_shiftLeft, UInt8.toNat_toUInt16, UInt8.toNat_toUInt16]
  change a.toNat <<< 8 % 65536 ||| c.toNat = _
  rw [Nat.mod_eq_of_lt (by rw [Nat.shiftLeft_eq]; omega), shiftLeft_or_toNat]

theorem be24_toNat (a b c : UInt8) :
    (be24 a b c).toNat = (a.toNat * 256 + b.toNat) * 256 + c.toNat := by
  have ha := a.toNat_lt
  have hb := b.toNat_lt
  unfold be24
  rw [UInt32.toNat_or, UInt32.toNat_or, UInt32.toNat_shiftLeft, UInt32.toNat_shiftLeft,
    UInt8.toNat_toUInt32, UInt8.toNat_toUInt32, UInt8.toNat_toUInt32]
  change a.toNat <<< 16 % 4294967296 ||| b.toNat <<< 8 % 4294967296 ||| c.toNat = _
  rw [Nat.mod_eq_of_lt (by rw [Nat.shiftLeft_eq]; omega),
    Nat.mod_eq_of_lt (by rw [Nat.shiftLeft_eq]; omega), nat24_eq]

theorem word_be16 (a c : UInt8) : word (be16 a c) = [a, c] := by
  rw [word, be16_toNat, put16_toNat]

theorem put24_be24 (a b c : UInt8) : put24 (be24 a b c).toNat = [a, b, c] := by
  rw [be24_toNat, put24_toNat]

theorem be24_lt (a b c : UInt8) : (be24 a b c).toNat < 16777216 := by
  have ha := a.toNat_lt
  have hb := b.toNat_lt
  have hc := c.toNat_lt
  rw [be24_toNat]
  omega

namespace Reader.At
variable {r q : Reader} {b s d : Bytes} {n : ℕ}

theorem split (h : r.At b s) (hn : r.off + n ≤ r.b.length) : ∃ d t, s = d ++ t ∧ d.length = n := by
  have hlen := h.length
  rw [← h.b] at hlen
  refine ⟨s.take n, s.drop n, (List.take_append_drop n s).symm, ?_⟩
  rw [List.length_take]
  omega

theorem u8D_inv (h : r.At b s) (hn : r.off + 1 ≤ r.b.length) :
    ∃ t, s = r.u8D.1 :: t ∧ r.u8D.2.At b t := by
  obtain ⟨d, t, rfl, hd⟩ := h.split hn
  obtain ⟨v, rfl⟩ := List.length_eq_one_iff.mp hd
  obtain ⟨hv, hat⟩ := At.u8D (t := t) h
  refine ⟨t, ?_, hat⟩
  rw [hv]
  rfl

theorem u16D_inv (h : r.At b s) (hn : r.off + 2 ≤ r.b.length) :
    ∃ t, s = word r.u16D.1 ++ t ∧ r.u16D.2.At b t := by
  obtain ⟨d, t, rfl, hd⟩ := h.split hn
  obtain ⟨x, y, rfl⟩ := List.length_eq_two.mp hd
  rw [← word_be16] at h ⊢
  obtain ⟨hv, hat⟩ := At.u16D h
  refine ⟨t, ?_, hat⟩
  rw [hv, UInt16.ofNat_toNat]

theorem u24D_inv (h : r.At b s) (hn : r.off + 3 ≤ r.b.length) :
    ∃ t, s = put24 r.u24D.1.toNat ++ t ∧ r.u24D.2.At b t := by
  obtain ⟨d, t, rfl, hd⟩ := h.split hn
  obtain ⟨x, y, z, rfl⟩ := List.length_eq_three.mp hd
  rw [← put24_be24] at h ⊢
  obtain ⟨hv, hat⟩ := At.u24D h (be24_lt x y z)
  refine ⟨t, ?_, hat⟩
  rw [hv]

theorem bytes_inv (h : r.At b s) (hr : r.bytes n = some (d, q)) :
    ∃ t, s = d ++ t ∧ d.length = n ∧ q.At b t := by
  have hn : r.off + n ≤ r.b.length := by
    unfold Reader.bytes at hr
    split_ifs at hr with hn
    exact hn
  obtain ⟨d', t, rfl, rfl⟩ := h.split hn
  obtain ⟨q', hq, hat⟩ := h.bytes
  obtain ⟨rfl, rfl⟩ := Prod.mk.inj (Option.some.inj (hr.symm.trans hq))
  exact ⟨t, rfl, rfl, hat⟩

theorem skip_inv (h : r.At b s) (hr : (r.skip n).1 = true) :
    ∃ d t, s = d ++ t ∧ d.length = n ∧ (r.skip n).2.At b t := by
  have hn : r.off + n ≤ r.b.length := by
    unfold Reader.skip at hr
    split_ifs at hr with hn
    exact hn
  obtain ⟨d, t, rfl, rfl⟩ := h.split hn
  obtain ⟨q, hq, hat⟩ := h.skip
  refine ⟨d, t, rfl, rfl, ?_⟩
  rw [hq]
  exact hat

theorem u8_inv {v : UInt8} (h : r.At b s) (hr : r.u8 = some (v, q)) :
    ∃ t, s = v :: t ∧ q.At b t := by
  have hn : r.off + 1 ≤ r.b.length := by
    unfold Reader.u8 at hr
    split_ifs at hr with hn
    exact hn
  obtain ⟨t, hs, hat⟩ := h.u8D_inv hn
  unfold Reader.u8D at hs hat
  rw [hr] at hs hat
  exact ⟨t, hs, hat⟩

theorem u16_inv {v : UInt16} (h : r.At b s) (hr : r.u16 = some (v, q)) :
    ∃ t, s = word v ++ t ∧ q.At b t := by
  have hn : r.off + 2 ≤ r.b.length := by
    unfold Reader.u16 at hr
    split_ifs at hr with hn
    exact hn
  obtain ⟨t, hs, hat⟩ := h.u16D_inv hn
  unfold Reader.u16D at hs hat
  rw [hr] at hs hat
  exact ⟨t, hs, hat⟩

theorem skipVec8_inv (h : r.At b s) (hr : r.skipVec8.1 = true) :
    ∃ d t, s = vec8 d ++ t ∧ d.length ≤ 255 ∧ r.skipVec8.2.At b t := by
  unfold Reader.skipVec8 at hr ⊢
  rcases hu : r.u8 with _ | ⟨l, q⟩
  · rw [hu] at hr
    cases hr
  · rw [hu] at hr
    obtain ⟨t, rfl, hat⟩ := h.u8_inv hu
    obtain ⟨d, t', rfl, hd, hat'⟩ := hat.skip_inv hr
    have hl := l.toNat_lt
    refine ⟨d, t', ?_, by omega, hat'⟩
    rw [vec8, hd, UInt8.ofNat_toNat]
    rfl

end Reader.At

/-- A skip that fails leaves nothing to read. -/
theorem skip_of_skipVec8 {r : Reader} {n : ℕ} (h : (r.skip n).2.skipVec8.1 = true) :
    (r.skip n).1 = true := by
  unfold Reader.skip at h ⊢
  split_ifs at h ⊢
  · rfl
  · unfold Reader.skipVec8 Reader.u8 at h
    rw [dif_neg (by simp)] at h
    cases h

/-! ### Extensions -/

/-- `s` reads up to the extension `e`: whole extensions come first, and of `e` there is what is
reported, all of it or as far as `s` goes. -/
def UpTo (e : UInt16 × Bytes) (s : Bytes) : Prop := ∃ (before : List (UInt16 × Bytes)) (n : UInt16)
  (behind : Bytes), s = before.flatMap extension ++ (word e.1 ++ (word n ++ (e.2 ++ behind))) ∧
    (e.2.length = n.toNat ∨ e.2.length < n.toNat ∧ behind = [])

/-- Type and length of an extension, and the cursor behind them. -/
theorem extensionHead_inv {r : Reader} {b s : Bytes} (h : r.At b s) (hn : r.off + 4 ≤ r.b.length) :
    ∃ t, s = word r.u16D.1 ++ (word r.u16D.2.u16D.1 ++ t) ∧ r.u16D.2.u16D.2.At b t := by
  obtain ⟨t, rfl, h₁⟩ := h.u16D_inv (by omega)
  obtain ⟨hb, hoff⟩ := Reader.u16D_moves (r := r) (by omega)
  obtain ⟨t', rfl, h₂⟩ := h₁.u16D_inv (by rw [hb, hoff]; omega)
  exact ⟨t', rfl, h₂⟩

theorem extensionsLoop_inv {stop : ℕ} {r : Reader} {b s : Bytes} (h : r.At b s)
    {e : UInt16 × Bytes} (he : e ∈ extensionsLoop stop r) : UpTo e s := by
  fun_induction extensionsLoop stop r generalizing s with
  | case1 r hr etype elen =>
    rename_i hcut
    obtain ⟨t, rfl, hat⟩ := extensionHead_inv h hr.2
    obtain rfl := List.mem_singleton.mp he
    have hlen : t.length < elen.1.toNat := by
      unfold Reader.bytes at hcut
      have hout := hat.length
      rw [← hat.b] at hout
      split_ifs at hcut with hn
      have hout' : elen.2.off + t.length = elen.2.b.length := hout
      omega
    have hrest : elen.2.rest = t := hat.rest
    refine ⟨[], elen.1, [], ?_, .inr ⟨hrest ▸ hlen, rfl⟩⟩
    rw [hrest, List.append_nil]
    rfl
  | case2 r hr etype elen data r' hb =>
    rename_i ih
    obtain ⟨t, rfl, hat⟩ := extensionHead_inv h hr.2
    obtain ⟨t', rfl, hlen, hat'⟩ := hat.bytes_inv hb
    rcases List.mem_cons.mp he with rfl | he
    · exact ⟨[], elen.1, t', rfl, .inl hlen⟩
    · obtain ⟨before, n, behind, rfl, hn⟩ := ih hat' he
      refine ⟨(etype.1, data) :: before, n, behind, ?_, hn⟩
      have hword : word elen.1 = put16 data.length := by
        rw [hlen]
        rfl
      rw [List.flatMap_cons]
      unfold extension vec16
      simp only [List.append_assoc]
      rw [← hword]
  | case3 r hr => cases he

theorem extensions_inv {r : Reader} {b s : Bytes} (h : r.At b s) {e : UInt16 × Bytes}
    (he : e ∈ extensions r) : ∃ (total : UInt16) (t : Bytes), s = word total ++ t ∧ UpTo e t := by
  unfold extensions at he
  rcases hu : r.u16 with _ | ⟨total, q⟩
  · rw [hu] at he
    cases he
  · rw [hu] at he
    obtain ⟨t, rfl, hat⟩ := h.u16_inv hu
    exact ⟨total, t, rfl, extensionsLoop_inv hat he⟩

/-! ### Server names -/

/-- `d` reads up to the host name `name`: entries of other types come first. -/
def UpToName (name : Bytes) (d : Bytes) : Prop := ∃ (total : UInt16) (others : List (UInt8 × Bytes))
  (behind : Bytes), d = word total ++ (others.flatMap serverNameEntry ++
    (serverNameEntry (0, name) ++ behind)) ∧ ∀ o ∈ others, o.1 ≠ 0

/-- An entry whose name is all there. -/
theorem nameEntry_inv {r r' : Reader} {b s name : Bytes} (h : r.At b s)
    (hn : r.off + 3 ≤ r.b.length)
    (hb : r.u8D.2.u16D.2.bytes r.u8D.2.u16D.1.toNat = some (name, r')) :
    ∃ t, s = r.u8D.1 :: (word r.u8D.2.u16D.1 ++ (name ++ t)) ∧
      name.length = r.u8D.2.u16D.1.toNat ∧ r'.At b t := by
  obtain ⟨t, rfl, h₁⟩ := h.u8D_inv (by omega)
  obtain ⟨hb₁, hoff⟩ := Reader.u8D_moves (r := r) (by omega)
  obtain ⟨t, rfl, h₂⟩ := h₁.u16D_inv (by rw [hb₁, hoff]; omega)
  obtain ⟨t, rfl, hlen, h₃⟩ := h₂.bytes_inv hb
  exact ⟨t, rfl, hlen, h₃⟩

theorem parseSNILoop_inv {stop : ℕ} {r : Reader} {b s : Bytes} (h : r.At b s)
    (hne : parseSNILoop stop r ≠ []) : ∃ (others : List (UInt8 × Bytes)) (behind : Bytes),
      s = others.flatMap serverNameEntry ++
        (serverNameEntry (0, parseSNILoop stop r) ++ behind) ∧ ∀ o ∈ others, o.1 ≠ 0 := by
  fun_induction parseSNILoop stop r generalizing s with
  | case1 r hr ntype nlen => exact absurd rfl hne
  | case2 r hr ntype nlen name r' hb =>
    rename_i hzero
    obtain ⟨t, rfl, hlen, hat⟩ := nameEntry_inv h hr.2 hb
    refine ⟨[], t, ?_, fun o ho => absurd ho List.not_mem_nil⟩
    change (ntype.1 :: (put16 nlen.1.toNat ++ (name ++ t))) = _
    rw [hzero, ← hlen]
    exact (List.append_assoc (0 :: put16 name.length) name t).symm
  | case3 r hr ntype nlen name r' hb =>
    rename_i hother ih
    obtain ⟨t, rfl, hlen, hat⟩ := nameEntry_inv h hr.2 hb
    obtain ⟨others, behind, rfl, hothers⟩ := ih hat hne
    refine ⟨(ntype.1, name) :: others, behind, ?_, List.forall_mem_cons.mpr ⟨hother, hothers⟩⟩
    change (ntype.1 :: (put16 nlen.1.toNat ++ (name ++ _))) = _
    rw [← hlen, List.flatMap_cons]
    unfold serverNameEntry vec16
    simp only [List.append_assoc, List.cons_append]
  | case4 r hr => exact absurd rfl hne

theorem parseSNI_inv {d : Bytes} (hne : parseSNI d ≠ []) : UpToName (parseSNI d) d := by
  unfold parseSNI at hne ⊢
  split_ifs at hne ⊢ with hlen
  · exact absurd rfl hne
  · obtain ⟨t, hd, hat⟩ := (Reader.At.start d).u16D_inv (by
      change 0 + 2 ≤ d.length
      omega)
    obtain ⟨others, behind, rfl, hothers⟩ := parseSNILoop_inv hat hne
    exact ⟨_, others, behind, hd, hothers⟩

/-! ### Protocols -/

/-- `d` reads as a protocol list that starts with `ps`. -/
def UpToProtocols (ps : List Bytes) (d : Bytes) : Prop := ∃ (total : UInt16) (behind : Bytes),
  d = word total ++ (ps.flatMap vec8 ++ behind) ∧ ∀ p ∈ ps, p.length ≤ 255

theorem parseALPNLoop_inv {stop : ℕ} {r : Reader} {b s : Bytes} (h : r.At b s) (out : List Bytes) :
    ∃ (ps : List Bytes) (behind : Bytes), parseALPNLoop stop r out = out ++ ps ∧
      s = ps.flatMap vec8 ++ behind ∧ ∀ p ∈ ps, p.length ≤ 255 := by
  fun_induction parseALPNLoop stop r out generalizing s with
  | case1 r out hr l =>
    exact ⟨[], s, (List.append_nil out).symm, rfl, fun p hp => absurd hp List.not_mem_nil⟩
  | case2 r out hr l name r' hb =>
    rename_i ih
    obtain ⟨t, rfl, h₁⟩ := h.u8D_inv hr.2
    obtain ⟨t, rfl, hlen, h₂⟩ := h₁.bytes_inv hb
    obtain ⟨ps, behind, hloop, rfl, hps⟩ := ih h₂
    have hl := l.1.toNat_lt
    have hname : l.1 = UInt8.ofNat name.length := by rw [hlen, UInt8.ofNat_toNat]
    refine ⟨name :: ps, behind, ?_, ?_, List.forall_mem_cons.mpr ⟨by omega, hps⟩⟩
    · rw [hloop, List.append_assoc, List.singleton_append]
    · change l.1 :: (name ++ _) = _
      rw [hname, List.flatMap_cons]
      unfold vec8
      rw [List.append_assoc, List.cons_append]
  | case3 r out hr =>
    exact ⟨[], s, (List.append_nil out).symm, rfl, fun p hp => absurd hp List.not_mem_nil⟩

theorem parseALPN_inv {d : Bytes} (hne : parseALPN d ≠ []) : UpToProtocols (parseALPN d) d := by
  unfold parseALPN at hne ⊢
  split_ifs at hne ⊢ with hlen
  · exact absurd rfl hne
  · obtain ⟨t, hd, hat⟩ := (Reader.At.start d).u16D_inv (by
      change 0 + 2 ≤ d.length
      omega)
    obtain ⟨ps, behind, hloop, rfl, hps⟩ := parseALPNLoop_inv hat []
    dsimp only
    rw [hloop]
    exact ⟨_, behind, hd, hps⟩

/-! ### Signature schemes -/

/-- `d` reads as a list of schemes that starts with `vs`. -/
def UpToSchemes (vs : List UInt16) (d : Bytes) : Prop := ∃ (total : UInt16) (behind : Bytes),
  d = word total ++ (vs.flatMap word ++ behind)

theorem parseU16Loop_inv {stop : ℕ} {r : Reader} {b s : Bytes} (h : r.At b s) (out : List UInt16) :
    ∃ (vs : List UInt16) (behind : Bytes), parseU16Loop stop r out = out ++ vs ∧
      s = vs.flatMap word ++ behind := by
  fun_induction parseU16Loop stop r out generalizing s with
  | case1 r out hr v =>
    rename_i ih
    obtain ⟨t, rfl, hat⟩ := h.u16D_inv hr.2
    obtain ⟨vs, behind, hloop, rfl⟩ := ih hat
    refine ⟨v.1 :: vs, behind, ?_, ?_⟩
    · rw [hloop, List.append_assoc, List.singleton_append]
    · rw [List.flatMap_cons, List.append_assoc]
  | case2 r out hr => exact ⟨[], s, (List.append_nil out).symm, rfl⟩

theorem parseU16List_inv {d : Bytes} (hne : parseU16List d ≠ []) :
    UpToSchemes (parseU16List d) d := by
  unfold parseU16List at hne ⊢
  split_ifs at hne ⊢ with hlen
  · exact absurd rfl hne
  · obtain ⟨t, hd, hat⟩ := (Reader.At.start d).u16D_inv (by
      change 0 + 2 ≤ d.length
      omega)
    obtain ⟨vs, behind, hloop, rfl⟩ := parseU16Loop_inv hat []
    dsimp only
    rw [hloop]
    exact ⟨_, behind, hd⟩

/-! ### What an extension says -/

section Says
variable {e : UInt16 × Bytes}

theorem sniOf_inv {name : Bytes} (h : sniOf e = some name) : e.1 = 0 ∧ UpToName name e.2 := by
  refine ⟨sniOf_key h, ?_⟩
  unfold sniOf at h
  split_ifs at h with ht hempty
  obtain rfl := Option.some.inj h
  exact parseSNI_inv hempty

theorem sigsOf_inv {vs : List UInt16} (h : sigsOf e = some vs) (hne : vs ≠ []) :
    e.1 = 13 ∧ UpToSchemes vs e.2 := by
  refine ⟨sigsOf_key h, ?_⟩
  unfold sigsOf at h
  split_ifs at h with ht
  obtain rfl := Option.some.inj h
  exact parseU16List_inv hne

theorem alpnOf_inv {ps : List Bytes} (h : alpnOf e = some ps) (hne : ps ≠ []) :
    e.1 = 16 ∧ UpToProtocols ps e.2 := by
  refine ⟨alpnOf_key h, ?_⟩
  unfold alpnOf at h
  split_ifs at h with ht
  obtain rfl := Option.some.inj h
  exact parseALPN_inv hne

theorem wordOf_inv {t v : UInt16} (h : wordOf t e = some v) : e.1 = t ∧ word v <+: e.2 := by
  obtain ⟨t', d⟩ := e
  unfold wordOf at h
  split_ifs at h with ht
  refine ⟨ht, ?_⟩
  match d, h with
  | x :: y :: rest, h =>
    obtain rfl := Option.some.inj h
    rw [word_be16]
    exact ⟨rest, rfl⟩

end Says

/-! ### The bodies of the two hellos -/

/-- `b` reads as a ClientHello up to the extension `e`. -/
def HelloUpTo (e : UInt16 × Bytes) (b : Bytes) : Prop :=
  ∃ (version : UInt16) (random sessionId cipherSuites compression : Bytes) (total : UInt16)
    (t : Bytes),
    b = word version ++ (random ++ (vec8 sessionId ++ (vec16 cipherSuites ++ (vec8 compression ++
      (word total ++ t))))) ∧ random.length = 32 ∧ sessionId.length ≤ 255 ∧
    cipherSuites.length < 65536 ∧ compression.length ≤ 255 ∧ UpTo e t

/-- `b` reads as a ServerHello up to the extension `e`. -/
def AnswerUpTo (e : UInt16 × Bytes) (b : Bytes) : Prop :=
  ∃ (version : UInt16) (random sessionId : Bytes) (cipherSuite : UInt16) (compression : UInt8)
    (total : UInt16) (t : Bytes),
    b = word version ++ (random ++ (vec8 sessionId ++ (word cipherSuite ++ (compression ::
      (word total ++ t))))) ∧ random.length = 32 ∧ sessionId.length ≤ 255 ∧ UpTo e t

/-- `b` reads as a ServerHello of the suite `cs`. -/
def Selects (cs : UInt16) (b : Bytes) : Prop :=
  ∃ (version : UInt16) (random sessionId behind : Bytes),
    b = word version ++ (random ++ (vec8 sessionId ++ (word cs ++ behind))) ∧
      random.length = 32 ∧ sessionId.length ≤ 255

/-- What both hellos start with, and the cursor behind it. -/
theorem preamble_inv {b : Bytes} {version : UInt16} {r : Reader}
    (hu : (Reader.start b).u16 = some (version, r)) (hrandom : (r.skip 32).1 = true)
    (hid : (r.skip 32).2.skipVec8.1 = true) : ∃ random sessionId t,
      b = word version ++ (random ++ (vec8 sessionId ++ t)) ∧ random.length = 32 ∧
      sessionId.length ≤ 255 ∧ (r.skip 32).2.skipVec8.2.At b t := by
  obtain ⟨t, hb, h₁⟩ := (Reader.At.start b).u16_inv hu
  obtain ⟨random, t, rfl, hlen, h₂⟩ := h₁.skip_inv hrandom
  obtain ⟨sessionId, t, rfl, hsession, h₃⟩ := h₂.skipVec8_inv hid
  exact ⟨random, sessionId, t, hb, hlen, hsession, h₃⟩

theorem clientWalk_inv {b : Bytes} {version : UInt16} {r : Reader} {e : UInt16 × Bytes}
    (hu : (Reader.start b).u16 = some (version, r)) (he : e ∈ clientWalk r) : HelloUpTo e b := by
  unfold clientWalk at he
  dsimp only at he
  split_ifs at he with hrandom hid
  · cases he
  · cases he
  obtain ⟨random, sessionId, t, hb, hrandom, hid, h₁⟩ :=
    preamble_inv hu (by simpa using hrandom) (by simpa using hid)
  rcases hsuites : (r.skip 32).2.skipVec8.2.u16 with _ | ⟨csLen, q⟩
  · rw [hsuites] at he
    cases he
  · rw [hsuites] at he
    dsimp only at he
    split_ifs at he with hcomp
    · cases he
    · have hcomp : (q.skip csLen.toNat).2.skipVec8.1 = true := by simpa using hcomp
      obtain ⟨t, rfl, h₂⟩ := h₁.u16_inv hsuites
      obtain ⟨suites, t, rfl, hlen, h₃⟩ := h₂.skip_inv (skip_of_skipVec8 hcomp)
      obtain ⟨compression, t, rfl, hcompression, h₄⟩ := h₃.skipVec8_inv hcomp
      obtain ⟨total, t, rfl, hupTo⟩ := extensions_inv h₄ he
      have hlt := csLen.toNat_lt
      refine ⟨version, random, sessionId, suites, compression, total, t, ?_, hrandom, hid, ?_,
        hcompression, hupTo⟩
      · rw [hb, vec16, hlen, List.append_assoc]
        rfl
      · omega

theorem serverWalk_inv {b : Bytes} {version cs : UInt16} {r : Reader}
    {es : Option (List (UInt16 × Bytes))} (hu : (Reader.start b).u16 = some (version, r))
    (hw : serverWalk r = some (cs, es)) : Selects cs b ∧ ∀ e ∈ es.getD [], AnswerUpTo e b := by
  unfold serverWalk at hw
  dsimp only at hw
  split_ifs at hw with hrandom hid
  obtain ⟨random, sessionId, t, hb, hrandom, hid, h₁⟩ :=
    preamble_inv hu (by simpa using hrandom) (by simpa using hid)
  rcases hsuite : (r.skip 32).2.skipVec8.2.u16 with _ | ⟨cs', q⟩
  · rw [hsuite] at hw
    cases hw
  · rw [hsuite] at hw
    dsimp only at hw
    obtain ⟨t, rfl, h₂⟩ := h₁.u16_inv hsuite
    rcases hv : q.u8 with _ | ⟨compression, q'⟩
    · rw [hv] at hw
      obtain ⟨rfl, rfl⟩ := Prod.mk.inj (Option.some.inj hw)
      exact ⟨⟨version, random, sessionId, t, hb, hrandom, hid⟩, fun e he => nomatch he⟩
    · rw [hv] at hw
      obtain ⟨rfl, rfl⟩ := Prod.mk.inj (Option.some.inj hw)
      obtain ⟨t, rfl, h₃⟩ := h₂.u8_inv hv
      refine ⟨⟨version, random, sessionId, _, hb, hrandom, hid⟩, fun e he => ?_⟩
      obtain ⟨total, t, rfl, hupTo⟩ := extensions_inv h₃ he
      exact ⟨version, random, sessionId, cs', compression, total, t, hb, hrandom, hid, hupTo⟩

end Tlstat.Tlsparse
