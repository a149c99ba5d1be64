import Tlstat.Tlsparse.Effect

/-! Parsing a growing buffer. Each walk over a prefix visits the same items as the
walk over the whole, the last one cut short, and what a cut item writes the whole
item writes again. Hence a parse of a prefix is absorbed by a parse of the whole. -/

namespace Tlstat.Tlsparse
open Base

def Cut {α : Type*} (x y : α × Bytes) : Prop := x.1 = y.1 ∧ x.2 <+: y.2

/-! ### Records -/

theorem slice_isPrefix_slice {a b : Bytes} (h : a <+: b) {i j : ℕ} (hj : a.length ≤ j) :
    slice a i a.length <+: slice b i j := by
  unfold slice
  rw [List.take_of_length_le (by simp), List.prefix_take_iff]
  refine ⟨h.drop i, ?_⟩
  rw [List.length_drop]
  omega

theorem isPrefix_collectLoop (buf : Bytes) (p : ℕ) (out : Bytes) :
    out <+: collectLoop buf p out := by
  fun_induction collectLoop buf p out with
  | case1 p out h hct => exact List.prefix_rfl
  | case2 p out h length hct start hend => exact List.prefix_append ..
  | case3 p out h length hct start hend ih => exact (List.prefix_append ..).trans ih
  | case4 p out h => exact List.prefix_rfl

theorem collectLoop_isPrefix {a b : Bytes} (hab : a <+: b) (p : ℕ) (out : Bytes) :
    collectLoop a p out <+: collectLoop b p out := by
  have hlen := hab.length_le
  fun_induction collectLoop a p out with
  | case1 p out h hct => exact isPrefix_collectLoop ..
  | case2 p out h length hct start hend =>
    have hb : p + 5 ≤ b.length := h.trans hlen
    have h₀ : a[p] = b[p] := hab.getElem _
    rw [collectLoop, dif_pos hb, if_neg (h₀ ▸ hct)]
    dsimp only
    split_ifs
    · exact (List.prefix_append_right_inj out).mpr (slice_isPrefix_slice hab hlen)
    · have h₃ : a[p + 3] = b[p + 3] := hab.getElem _
      have h₄ : a[p + 4] = b[p + 4] := hab.getElem _
      refine List.IsPrefix.trans ?_ (isPrefix_collectLoop ..)
      rw [← h₃, ← h₄]
      exact (List.prefix_append_right_inj out).mpr (slice_isPrefix_slice hab hend.le)
  | case3 p out h length hct start hend ih =>
    have hb : p + 5 ≤ b.length := h.trans hlen
    have h₀ : a[p] = b[p] := hab.getElem _
    have h₃ : a[p + 3] = b[p + 3] := hab.getElem _
    have h₄ : a[p + 4] = b[p + 4] := hab.getElem _
    have hfit : ¬(start + length > b.length) := not_lt.mpr ((not_lt.mp hend).trans hlen)
    rw [collectLoop.eq_def b, dif_pos hb, if_neg (h₀ ▸ hct)]
    dsimp only
    rw [← h₃, ← h₄, if_neg hfit]
    rw [slice_eq_of_isPrefix hab (not_lt.mp hend)] at ih ⊢
    exact ih
  | case4 p out h => exact isPrefix_collectLoop ..

theorem collectHandshake_isPrefix {a b : Bytes} (h : a <+: b) :
    collectHandshake a <+: collectHandshake b := collectLoop_isPrefix h 0 []

/-! ### Messages -/

theorem messagesLoop_truncates {s' s : Bytes} (hs : s' <+: s) (p : ℕ) :
    Truncates Cut (messagesLoop s' p) (messagesLoop s p) := by
  have hlen := hs.length_le
  fun_induction messagesLoop s' p with
  | case1 p h raw body mlen ih =>
    have hb : p + 4 ≤ s.length := h.trans hlen
    have h₀ : s'[p] = s[p] := hs.getElem _
    have h₁ : s'[p + 1] = s[p + 1] := hs.getElem _
    have h₂ : s'[p + 2] = s[p + 2] := hs.getElem _
    have h₃ : s'[p + 3] = s[p + 3] := hs.getElem _
    rw [messagesLoop.eq_def s, dif_pos hb]
    dsimp only
    rw [← h₀, ← h₁, ← h₂, ← h₃]
    have hbody : body <+: s.drop (p + 4) := hs.drop (p + 4)
    have hblen := hbody.length_le
    by_cases hcut : raw > body.length
    · -- the message runs past the end of the prefix, which has no further message
      have hm : mlen = body.length := if_pos hcut
      have hstop : ¬(p + 4 + mlen + 4 ≤ s'.length) := by
        rw [hm, List.length_drop]
        omega
      rw [messagesLoop.eq_def s' (p + 4 + mlen), dif_neg hstop, hm, List.take_length]
      refine Truncates.last ⟨rfl, ?_⟩ _
      rw [List.prefix_take_iff]
      refine ⟨hbody, ?_⟩
      split_ifs
      · exact hblen
      · exact hcut.le
    · have hm : mlen = raw := if_neg hcut
      have hfit : ¬(raw > (s.drop (p + 4)).length) := by omega
      have htake : body.take raw = (s.drop (p + 4)).take raw := by
        obtain ⟨t, ht⟩ := hbody
        rw [← ht, List.take_append_of_le_length (not_lt.mp hcut)]
      rw [if_neg hfit, hm, htake]
      rw [hm] at ih
      exact Truncates.cons _ ih
  | case2 p h => exact Truncates.nil _

/-! ### Extensions -/

theorem extension_header_eq {r' r : Reader} (hr : Reader.Le r' r)
    (h : r'.off + 4 ≤ r'.b.length) :
    r.off + 4 ≤ r.b.length ∧ r'.u16D.1 = r.u16D.1 ∧
      r'.u16D.2.u16D.1 = r.u16D.2.u16D.1 ∧ Reader.Le r'.u16D.2.u16D.2 r.u16D.2.u16D.2 := by
  obtain ⟨ht, h₁⟩ := hr.u16D (by omega)
  obtain ⟨hb, ho⟩ := Reader.u16D_moves (r := r') (by omega)
  obtain ⟨hl, h₂⟩ := h₁.u16D (by rw [hb, ho]; omega)
  exact ⟨hr.bound h, ht, hl, h₂⟩

theorem bytes_none_rest {r' r : Reader} (hr : Reader.Le r' r) {n : ℕ} (h : r'.bytes n = none) :
    (r.bytes n = none) ∨ ∃ d q, r.bytes n = some (d, q) ∧ r'.rest <+: d := by
  simp only [Reader.bytes] at h ⊢
  split_ifs at h ⊢ with h₁ h₂
  · refine Or.inr ⟨_, _, rfl, ?_⟩
    have hle := slice_isPrefix_slice (i := r.off) (j := r.off + n) hr.b (by have := hr.off; omega)
    unfold Reader.rest
    unfold slice at hle
    rw [List.take_of_length_le (by simp)] at hle
    rw [hr.off]
    exact hle
  · exact Or.inl rfl

theorem extensionsLoop_truncates (stop : ℕ) {r' r : Reader} (hr : Reader.Le r' r) :
    Truncates Cut (extensionsLoop stop r') (extensionsLoop stop r) := by
  fun_induction extensionsLoop stop r' generalizing r with
  | case1 r' h etype elen =>
    rename_i hb
    obtain ⟨hlen, ht, hl, hle⟩ := extension_header_eq hr h.2
    have h' : r.off + 4 ≤ stop ∧ r.off + 4 ≤ r.b.length := ⟨hr.off ▸ h.1, hlen⟩
    rcases bytes_none_rest hle hb with hn | ⟨d, q, hd, hpre⟩
    · rw [hl] at hn
      rw [extensionsLoop_cut h' hn]
      exact Truncates.last ⟨ht, hle.rest⟩ _
    · rw [hl] at hd
      rw [extensionsLoop_step h' hd]
      exact Truncates.last ⟨ht, hpre⟩ _
  | case2 r' h etype elen data q' hb =>
    rename_i ih
    obtain ⟨hlen, ht, hl, hle⟩ := extension_header_eq hr h.2
    have h' : r.off + 4 ≤ stop ∧ r.off + 4 ≤ r.b.length := ⟨hr.off ▸ h.1, hlen⟩
    obtain ⟨q, hq, hqle⟩ := hle.bytes hb
    rw [hl] at hq
    rw [extensionsLoop_step h' hq, ← ht]
    exact Truncates.cons _ (ih hqle)
  | case3 r' h => exact Truncates.nil _

/-- A server name list cut short gives no name, or the name of the whole. -/
theorem parseSNILoop_cut (stop : ℕ) {r' r : Reader} (hr : Reader.Le r' r) :
    parseSNILoop stop r' = [] ∨ parseSNILoop stop r' = parseSNILoop stop r := by
  -- an entry the shorter walk reads in full is the same entry in the longer one
  have hstep : ∀ {r' r q' : Reader} {name : Bytes}, Reader.Le r' r →
      r'.off + 3 ≤ stop ∧ r'.off + 3 ≤ r'.b.length →
      r'.u8D.2.u16D.2.bytes r'.u8D.2.u16D.1.toNat = some (name, q') →
      ∃ q, Reader.Le q' q ∧ parseSNILoop stop r =
        if r'.u8D.1 = 0 then name else parseSNILoop stop q := by
    intro r' r q' name hr h hb
    obtain ⟨hn, h₁⟩ := hr.u8D (by omega)
    obtain ⟨hb₁, ho₁⟩ := Reader.u8D_moves (r := r') (by omega)
    obtain ⟨hl, h₂⟩ := h₁.u16D (by rw [hb₁, ho₁]; omega)
    obtain ⟨q, hq, hle⟩ := h₂.bytes hb
    rw [hl] at hq
    refine ⟨q, hle, ?_⟩
    rw [parseSNILoop_step ⟨hr.off ▸ h.1, hr.bound h.2⟩ hq, hn]
  fun_induction parseSNILoop stop r' generalizing r with
  | case1 r' h ntype nlen => exact Or.inl rfl
  | case2 r' h ntype nlen name q' hb =>
    rename_i h0
    obtain ⟨q, -, hq⟩ := hstep hr h hb
    rw [hq, if_pos h0]
    exact Or.inr rfl
  | case3 r' h ntype nlen name q' hb h0 =>
    rename_i ih
    obtain ⟨q, hle, hq⟩ := hstep hr h hb
    rw [hq, if_neg h0]
    exact ih hle
  | case4 r' h => exact Or.inl rfl

theorem parseSNI_cut {d' d : Bytes} (h : d' <+: d) :
    parseSNI d' = [] ∨ parseSNI d' = parseSNI d := by
  unfold parseSNI
  by_cases hd : d'.length < 2
  · exact Or.inl (if_pos hd)
  · have hlen := h.length_le
    obtain ⟨hl, hle⟩ := (Reader.Le.start h).u16D (by simp only [Reader.start]; omega)
    rw [if_neg hd, if_neg (by omega)]
    dsimp only
    rw [hl, hle.off]
    exact parseSNILoop_cut _ hle

/-! ### Effects -/

theorem extensionEffect_absorbed (server : Bool) {x y : UInt16 × Bytes} (h : Cut x y) :
    Absorbed (extensionEffect server x) (extensionEffect server y) := by
  obtain ⟨t, d'⟩ := x
  obtain ⟨t', d⟩ := y
  obtain ⟨ht, hd⟩ := h
  obtain rfl : t = t' := ht
  have hlen : d'.length ≤ d.length := hd.length_le
  unfold extensionEffect
  dsimp only
  by_cases h₀ : t = 0
  · rw [if_pos h₀, if_pos h₀]
    cases server with
    | true => exact one_absorbed _
    | false =>
      rcases parseSNI_cut hd with hs | hs
      · rw [hs]
        exact one_absorbed _
      · rw [hs]
        exact Absorbed.refl _
  rw [if_neg h₀, if_neg h₀]
  by_cases h₁₃ : t = 13
  · rw [if_pos h₁₃, if_pos h₁₃]
    cases server with
    | true => exact one_absorbed _
    | false =>
      rw [Effect.absorbed_iff]
      simp only [Bool.false_eq_true, if_false, Slot.keep_absorbed, Slot.absorbed_put, and_self]
  rw [if_neg h₁₃, if_neg h₁₃]
  by_cases h₁₆ : t = 16
  · rw [if_pos h₁₆, if_pos h₁₆, Effect.absorbed_iff]
    simp only [Slot.keep_absorbed, Slot.absorbed_put, and_self]
  rw [if_neg h₁₆, if_neg h₁₆]
  -- the two remaining extensions read the first two bytes, which a longer cut keeps
  by_cases hs : server ∧ 2 ≤ d'.length
  · have hs' : server ∧ 2 ≤ d.length := ⟨hs.1, hs.2.trans hlen⟩
    have e₀ : d'[0] = d[0] := hd.getElem _
    have e₁ : d'[1] = d[1] := hd.getElem _
    simp only [dif_pos hs, dif_pos hs', e₀, e₁]
    exact Absorbed.refl _
  · simp only [dif_neg hs, ite_self]
    exact one_absorbed _

theorem extensions_truncates {r' r : Reader} (hr : Reader.Le r' r) :
    Truncates Cut (extensions r') (extensions r) := by
  unfold extensions
  rcases hu : r'.u16 with _ | ⟨extLen, q'⟩
  · exact Truncates.nil _
  · obtain ⟨q, hq, hle⟩ := hr.u16 hu
    rw [hq]
    dsimp only
    rw [hle.off]
    exact extensionsLoop_truncates _ hle

theorem skipVec8_of_skip_fails {r : Reader} {n : ℕ} (h : (r.skip n).1 = false) :
    (r.skip n).2.skipVec8.1 = false := by
  unfold Reader.skip at h ⊢
  split_ifs at h ⊢
  unfold Reader.skipVec8 Reader.u8
  rw [dif_neg (by simp)]

theorem clientWalk_truncates {r' r : Reader} (hr : Reader.Le r' r) :
    Truncates Cut (clientWalk r') (clientWalk r) := by
  unfold clientWalk
  dsimp only
  rcases hrnd : (r'.skip 32).1 with _ | _
  · exact Truncates.nil _
  obtain ⟨hrnd', hle₁⟩ := hr.skip hrnd
  rcases hsid : (r'.skip 32).2.skipVec8.1 with _ | _
  · exact Truncates.nil _
  obtain ⟨hsid', hle₂⟩ := hle₁.skipVec8 hsid
  rcases hcs : (r'.skip 32).2.skipVec8.2.u16 with _ | ⟨csLen, q'⟩
  · exact Truncates.nil _
  obtain ⟨q, hq, hle₃⟩ := hle₂.u16 hcs
  rcases hcm : (q'.skip csLen.toNat).2.skipVec8.1 with _ | _
  · simp only [hcm]
    exact Truncates.nil _
  -- the suite list is skipped without a check, but a failed skip leaves no byte for the next
  have hskip : (q'.skip csLen.toNat).1 = true := by
    by_contra hf
    rw [skipVec8_of_skip_fails (by simpa using hf)] at hcm
    exact Bool.false_ne_true hcm
  obtain ⟨hskip', hle₄⟩ := hle₃.skip hskip
  obtain ⟨hcm', hle₅⟩ := hle₄.skipVec8 hcm
  simp only [hrnd', hsid', hq, hcm, hcm']
  exact extensions_truncates hle₅

theorem clientHelloEffect_absorbed {b' b : Bytes} (h : b' <+: b) :
    Absorbed (clientHelloEffect b') (clientHelloEffect b) := by
  unfold clientHelloEffect
  rcases hu : (Reader.start b').u16 with _ | ⟨ver, r'⟩
  · exact one_absorbed _
  · obtain ⟨r, hr, hle⟩ := (Reader.Le.start h).u16 hu
    rw [hr]
    exact ((clientWalk_truncates hle).absorbed fun _ _ h => extensionEffect_absorbed false h).mul_left _

/-- A walk over a prefix stops before the suite, right after it, or among the same extensions. -/
theorem serverWalk_cut {r' r : Reader} (hr : Reader.Le r' r) :
    serverWalk r' = none ∨
    (∃ cs w, serverWalk r' = some (cs, none) ∧ serverWalk r = some (cs, w)) ∨
    ∃ cs es' es, serverWalk r' = some (cs, some es') ∧ serverWalk r = some (cs, some es) ∧
      Truncates Cut es' es := by
  unfold serverWalk
  dsimp only
  rcases hrnd : (r'.skip 32).1 with _ | _
  · exact .inl rfl
  obtain ⟨hrnd', hle₁⟩ := hr.skip hrnd
  rcases hsid : (r'.skip 32).2.skipVec8.1 with _ | _
  · exact .inl rfl
  obtain ⟨hsid', hle₂⟩ := hle₁.skipVec8 hsid
  rcases hcs : (r'.skip 32).2.skipVec8.2.u16 with _ | ⟨cs, q'⟩
  · exact .inl rfl
  obtain ⟨q, hq, hle₃⟩ := hle₂.u16 hcs
  simp only [hrnd', hsid', hq]
  rcases hcm : q'.u8 with _ | ⟨c, p'⟩
  · refine .inr (.inl ⟨cs, ?_⟩)
    rcases q.u8 with _ | ⟨c, p⟩
    · exact ⟨none, rfl, rfl⟩
    · exact ⟨_, rfl, rfl⟩
  · obtain ⟨p, hp, hle₄⟩ := hle₃.u8 hcm
    rw [hp]
    exact .inr (.inr ⟨cs, _, _, rfl, rfl, extensions_truncates hle₄⟩)

theorem serverHelloRest_absorbed {r' r : Reader} (hr : Reader.Le r' r) :
    Absorbed (serverHelloRest r').1 (serverHelloRest r).1 := by
  unfold serverHelloRest
  rcases serverWalk_cut hr with hw' | ⟨cs, w, hw', hw⟩ | ⟨cs, es', es, hw', hw, hes⟩
  · rw [hw']
    exact one_absorbed _
  · rw [hw', hw]
    rcases w with _ | es
    · exact Absorbed.refl _
    · exact (Absorbed.refl _).mul_right _
  · rw [hw', hw]
    exact (hes.absorbed fun _ _ h => extensionEffect_absorbed true h).mul_left _

/-- A ServerHello sets the version, whatever its upgrade makes of it. -/
theorem serverHelloEffect_eq {b : Bytes} {ver : UInt16} {r : Reader}
    (h : (Reader.start b).u16 = some (ver, r)) :
    ∃ v, serverHelloEffect b =
      { ({ hasServerHello := .put true, negVersion := .put ver } : Effect) *
          (serverHelloRest r).1 with negVersion := .put v } := by
  unfold serverHelloEffect
  rw [h]
  obtain ⟨v, hv⟩ := serverHello_negVersion_put ver (serverHelloRest r).1
  dsimp only
  rcases (serverHelloRest r).2 with _ | cs
  · exact ⟨v, by rw [← hv]⟩
  · dsimp only
    unfold Effect.raise
    rw [hv]
    exact ⟨_, rfl⟩

theorem Effect.absorbed_put_negVersion {a b : Effect} (h : Absorbed a b) (s : Slot UInt16)
    (v : UInt16) : Absorbed { a with negVersion := s } { b with negVersion := .put v } := by
  rw [Effect.absorbed_iff] at h ⊢
  obtain ⟨h₁, h₂, h₃, h₄, h₅, h₆, -, h₈⟩ := h
  exact ⟨h₁, h₂, h₃, h₄, h₅, h₆, Slot.absorbed_put s v, h₈⟩

theorem serverHelloEffect_absorbed {b' b : Bytes} (h : b' <+: b) :
    Absorbed (serverHelloEffect b') (serverHelloEffect b) := by
  rcases hu : (Reader.start b').u16 with _ | ⟨ver, r'⟩
  · unfold serverHelloEffect
    rw [hu]
    exact one_absorbed _
  · obtain ⟨r, hr, hle⟩ := (Reader.Le.start h).u16 hu
    obtain ⟨v', hv'⟩ := serverHelloEffect_eq hu
    obtain ⟨v, hv⟩ := serverHelloEffect_eq hr
    rw [hv', hv]
    exact Effect.absorbed_put_negVersion ((serverHelloRest_absorbed hle).mul_left _) _ _

theorem certificateEffect_cut (x509 : X509) {b' b : Bytes} (h : b' <+: b) :
    certificateEffect x509 b' = 1 ∨ certificateEffect x509 b' = certificateEffect x509 b := by
  have hlen := h.length_le
  unfold certificateEffect
  by_cases h₃ : b'.length < 3
  · exact Or.inl (if_pos h₃)
  obtain ⟨ht, hle⟩ := (Reader.Le.start h).u24D (by simp only [Reader.start]; omega)
  have hoff : (Reader.start b').u24D.2.off = 3 := by
    rw [Reader.u24D_of_le (r := Reader.start b') (by simp only [Reader.start]; omega)]
    rfl
  have hb : (Reader.start b').u24D.2.b = b' := by
    rw [Reader.u24D_of_le (r := Reader.start b') (by simp only [Reader.start]; omega)]
    rfl
  have h₃' : ¬b.length < 3 := by omega
  rw [if_neg h₃, if_neg h₃']
  dsimp only
  rw [← ht, ← hle.off]
  by_cases hstop : (Reader.start b').u24D.2.off + 3 >
      min ((Reader.start b').u24D.2.off + (Reader.start b').u24D.1.toNat) b'.length
  · exact Or.inl (if_pos hstop)
  have hstop' : ¬((Reader.start b').u24D.2.off + 3 >
      min ((Reader.start b').u24D.2.off + (Reader.start b').u24D.1.toNat) b.length) := by omega
  rw [if_neg hstop, if_neg hstop']
  obtain ⟨hc, hle'⟩ := hle.u24D (by rw [hb]; omega)
  rcases hd : (Reader.start b').u24D.2.u24D.2.bytes (Reader.start b').u24D.2.u24D.1.toNat with
    _ | ⟨der, q'⟩
  · exact Or.inl rfl
  · obtain ⟨q, hq, -⟩ := hle'.bytes hd
    rw [hc] at hq
    rw [hq]
    refine Or.inr ?_
    rcases der with _ | ⟨d, ds⟩ <;> rfl

theorem messageEffect_absorbed (x509 : X509) {x y : UInt8 × Bytes} (h : Cut x y) :
    Absorbed (messageEffect x509 x) (messageEffect x509 y) := by
  unfold messageEffect
  rw [h.1]
  split_ifs
  · exact clientHelloEffect_absorbed h.2
  · exact serverHelloEffect_absorbed h.2
  · rcases certificateEffect_cut x509 h.2 with hc | hc
    · rw [hc]
      exact one_absorbed _
    · rw [hc]
      exact Absorbed.refl _
  · exact Absorbed.refl _

theorem messages_truncates {a b : Bytes} (h : a <+: b) :
    Truncates Cut (messages (collectHandshake a)) (messages (collectHandshake b)) :=
  messagesLoop_truncates (collectHandshake_isPrefix h) 0

theorem effect_absorbed (x509 : X509) {a b : Bytes} (h : a <+: b) :
    Absorbed (effect x509 a) (effect x509 b) :=
  (messages_truncates h).absorbed fun _ _ hxy => messageEffect_absorbed x509 hxy

/-! ### Re-parsing -/

/-- Append each chunk to the buffer and parse the whole buffer again. -/
def reparse (x509 : X509) (buf : Bytes) : List Bytes → Info → Info
  | [], i => i
  | c :: cs, i => reparse x509 (buf ++ c) cs (parse x509 (buf ++ c) i)

theorem parse_absorbs (x509 : X509) (a b : Bytes) (i : Info) :
    parse x509 (a ++ b) (parse x509 a i) = parse x509 (a ++ b) i := by
  simp only [parse_eq_effect]
  rw [← Effect.apply_mul, (effect_absorbed x509 (List.prefix_append a b)).mul_eq]

theorem reparse_parse (x509 : X509) (chunks : List Bytes) (buf : Bytes) (i : Info) :
    reparse x509 buf chunks (parse x509 buf i) = parse x509 (buf ++ chunks.flatten) i := by
  induction chunks generalizing buf i with
  | nil => simp only [reparse, List.flatten_nil, List.append_nil]
  | cons c cs ih =>
    rw [reparse, parse_absorbs, ih, List.flatten_cons, List.append_assoc]

theorem collectHandshake_nil : collectHandshake [] = [] := by
  rw [collectHandshake, collectLoop, dif_neg (by simp)]

theorem parse_nil (x509 : X509) (i : Info) : parse x509 [] i = i := by
  rw [parse, collectHandshake_nil]
  exact if_pos rfl

/-- **A parse of a growing buffer absorbs every earlier one**, so the chunk
boundaries of the reassembly leave no trace, and parsing twice is parsing once. -/
theorem parse_growing (x509 : X509) (i : Info) :
    (∀ a b : Bytes, parse x509 (a ++ b) (parse x509 a i) = parse x509 (a ++ b) i) ∧
    (∀ chunks : List Bytes, reparse x509 [] chunks i = parse x509 chunks.flatten i) ∧
    ∀ a : Bytes, parse x509 a (parse x509 a i) = parse x509 a i := by
  refine ⟨fun a b => parse_absorbs x509 a b i, fun chunks => ?_, fun a => ?_⟩
  · have h := reparse_parse x509 chunks [] i
    rwa [parse_nil, List.nil_append] at h
  · have h := parse_absorbs x509 a [] i
    rwa [List.append_nil] at h

end Tlstat.Tlsparse
