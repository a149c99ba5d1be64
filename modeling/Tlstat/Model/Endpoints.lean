import Tlstat.Model.Proc

/-! The two readings of an address: the words of a flow, stored little-endian, and the token of a
`/proc/net` row, parsed as hex. `resolve` compares the two with `==`. -/

namespace Tlstat.Model
open Loader

def IsHexDigit (c : UInt8) : Prop :=
  (0x30 ≤ c ∧ c ≤ 0x39) ∨ (0x41 ≤ c ∧ c ≤ 0x46) ∨ (0x61 ≤ c ∧ c ≤ 0x66)

/-- The number a text writes in base 16. -/
def numeral (s : Bytes) : ℕ := s.foldl (fun n c => n * 16 + (hexDigit c).getD 0) 0

/-- `HEXADDR:HEXPORT`, with an IPv4 or an IPv6 address and a port of 16 bits. -/
def IsToken (tok : Bytes) : Prop :=
  ∃ addr port, tok = addr ++ colon :: port ∧
    (addr.length = 8 ∨ addr.length = 32) ∧ (∀ c ∈ addr, IsHexDigit c) ∧
    port ≠ [] ∧ (∀ c ∈ port, IsHexDigit c) ∧ numeral port ≤ 0xFFFF

/-! ### Numbers in base 16 -/

theorem hexDigit_isSome {c : UInt8} : (hexDigit c).isSome = true ↔ IsHexDigit c := by
  unfold hexDigit IsHexDigit
  split_ifs with h09 haf hAF
  · simp [h09]
  · simp [haf]
  · simp [hAF]
  · simp [h09, haf, hAF]

theorem hexDigit_lt {c : UInt8} {d : ℕ} (h : hexDigit c = some d) : d < 16 := by
  have hle : ∀ {a b : UInt8}, a ≤ b → a.toNat ≤ b.toNat := fun h => h
  unfold hexDigit at h
  split_ifs at h with h09 haf hAF
  · have hc : c.toNat ≤ 0x39 := hle h09.2
    have hd := Option.some.inj h
    omega
  · have hc : c.toNat ≤ 0x66 := hle haf.2
    have hd := Option.some.inj h
    omega
  · have hc : c.toNat ≤ 0x46 := hle hAF.2
    have hd := Option.some.inj h
    omega

theorem not_isHexDigit_colon : ¬IsHexDigit colon := by
  unfold IsHexDigit colon
  decide

theorem hexValue_eq_some {s : Bytes} {n m : ℕ} : hexValue s n = some m ↔
    (∀ c ∈ s, IsHexDigit c) ∧ s.foldl (fun n c => n * 16 + (hexDigit c).getD 0) n = m := by
  induction s generalizing n with
  | nil => simp [hexValue]
  | cons c s ih =>
    have hstep : hexValue (c :: s) n =
        (hexDigit c).bind fun d => hexValue s (n * 16 + d) := by
      unfold hexValue
      rw [List.foldlM_cons]
      cases hexDigit c <;> rfl
    rw [hstep, List.forall_mem_cons, List.foldl_cons, ← hexDigit_isSome]
    cases hc : hexDigit c with
    | none => simp
    | some d =>
      rw [Option.bind_some, ih]
      simp

theorem numeral_lt (s : Bytes) : numeral s < 16 ^ s.length := by
  have hfold : ∀ (s : Bytes) (n : ℕ), s.foldl (fun n c => n * 16 + (hexDigit c).getD 0) n <
      (n + 1) * 16 ^ s.length := by
    intro s
    induction s with
    | nil => simp
    | cons c s ih =>
      intro n
      have hd : (hexDigit c).getD 0 < 16 := by
        cases hc : hexDigit c with
        | none => decide
        | some d => exact hexDigit_lt hc
      rw [List.foldl_cons, List.length_cons, Nat.pow_succ, Nat.mul_comm (16 ^ s.length),
        ← Nat.mul_assoc]
      exact (ih _).trans_le (Nat.mul_le_mul_right _ (by omega))
  simpa [numeral] using hfold s 0

theorem parseUint_isSome {bits : ℕ} {s : Bytes} : (parseUint bits s).isSome = true ↔
    s ≠ [] ∧ (∀ c ∈ s, IsHexDigit c) ∧ numeral s < 2 ^ bits := by
  unfold parseUint
  split_ifs with hnil
  · simp [hnil]
  · rw [Option.isSome_iff_exists]
    simp only [Option.filter_eq_some_iff, hexValue_eq_some, decide_eq_true_eq, ne_eq, hnil,
      not_false_eq_true, true_and]
    constructor
    · rintro ⟨n, ⟨hdigits, hn⟩, hlt⟩
      exact ⟨hdigits, hn.trans_lt hlt⟩
    · rintro ⟨hdigits, hlt⟩
      exact ⟨_, ⟨hdigits, rfl⟩, hlt⟩

/-- Eight digits always fit a word. -/
theorem hexWord_isSome {s : Bytes} (hlen : s.length = 8) :
    (hexWord s).isSome = true ↔ ∀ c ∈ s, IsHexDigit c := by
  unfold hexWord
  rw [Option.isSome_map, parseUint_isSome]
  have hne : s ≠ [] := List.length_pos_iff.mp (by omega)
  have hlt : numeral s < 2 ^ 32 := by
    have h := numeral_lt s
    rw [hlen] at h
    exact h
  exact ⟨fun h => h.2.1, fun h => ⟨hne, h, hlt⟩⟩

/-! ### What is accepted -/

theorem slices {a : Bytes} (hlen : a.length = 32) :
    a = slice a 0 8 ++ (slice a 8 16 ++ (slice a 16 24 ++ slice a 24 32)) ∧
    (slice a 0 8).length = 8 ∧ (slice a 8 16).length = 8 ∧ (slice a 16 24).length = 8 ∧
    (slice a 24 32).length = 8 := by
  refine ⟨?_, by simp [slice, hlen], by simp [slice, hlen], by simp [slice, hlen],
    by simp [slice, hlen]⟩
  have hcut : ∀ n, n ≤ 24 → a.drop n = slice a n (n + 8) ++ a.drop (n + 8) := by
    intro n _
    rw [slice, Nat.add_sub_cancel_left, ← List.drop_drop, List.take_append_drop]
  have hend : a.drop 32 = [] := List.drop_eq_nil_of_le (by omega)
  calc a = a.drop 0 := rfl
    _ = slice a 0 8 ++ (slice a 8 16 ++ (slice a 16 24 ++ (slice a 24 32 ++ a.drop 32))) := by
        rw [hcut 0 (by omega), hcut 8 (by omega), hcut 16 (by omega), hcut 24 (by omega)]
    _ = _ := by rw [hend, List.append_nil]

/-- The token cut at its first colon. -/
theorem parseHexAddr_cut {addr port : Bytes} (haddr : colon ∉ addr) :
    (parseHexAddr (addr ++ colon :: port)).isSome = true ↔
      (addr.length = 8 ∨ addr.length = 32) ∧ (∀ c ∈ addr, IsHexDigit c) ∧
      port ≠ [] ∧ (∀ c ∈ port, IsHexDigit c) ∧ numeral port ≤ 0xFFFF := by
  have htake : (addr ++ colon :: port).takeWhile (· ≠ colon) = addr := by
    rw [List.takeWhile_append_of_pos fun c hc => by
      simpa using fun h : c = colon => haddr (h ▸ hc), List.takeWhile_cons_of_neg (by simp),
      List.append_nil]
  have hdrop : (addr ++ colon :: port).drop (addr.length + 1) = port := by
    rw [← List.drop_drop, List.drop_left]
    rfl
  have hport : (parseUint 16 port).isSome = true ↔
      port ≠ [] ∧ (∀ c ∈ port, IsHexDigit c) ∧ numeral port ≤ 0xFFFF := by
    rw [parseUint_isSome]
    exact and_congr_right' (and_congr_right' Nat.lt_succ_iff)
  unfold parseHexAddr
  rw [if_pos (by simp)]
  dsimp only
  rw [htake, hdrop, ← hport]
  cases parseUint 16 port with
  | none => simp
  | some p =>
    rw [Option.bind_eq_bind, Option.bind_some]
    split_ifs with h8 h32
    · rw [← hexWord_isSome h8]
      cases hexWord addr <;> simp [h8]
    · obtain ⟨hsplit, h₀, h₁, h₂, h₃⟩ := slices h32
      have hall : (∀ c ∈ addr, IsHexDigit c) ↔ (hexWord (slice addr 0 8)).isSome = true ∧
          (hexWord (slice addr 8 16)).isSome = true ∧ (hexWord (slice addr 16 24)).isSome = true ∧
          (hexWord (slice addr 24 32)).isSome = true := by
        rw [hexWord_isSome h₀, hexWord_isSome h₁, hexWord_isSome h₂, hexWord_isSome h₃]
        conv_lhs => rw [hsplit]
        simp only [List.forall_mem_append]
      rw [hall]
      cases hexWord (slice addr 0 8) <;> cases hexWord (slice addr 8 16) <;>
        cases hexWord (slice addr 16 24) <;> cases hexWord (slice addr 24 32) <;> simp [h32]
    · simp [h8, h32]

/-- Exactly the tokens are accepted. -/
theorem parseHexAddr_isSome (tok : Bytes) : (parseHexAddr tok).isSome = true ↔ IsToken tok := by
  constructor
  · intro h
    have hcolon : colon ∈ tok := by
      by_contra hno
      rw [parseHexAddr, if_neg hno] at h
      cases h
    obtain ⟨addr, port, rfl, haddr⟩ := List.eq_append_cons_of_mem hcolon
    exact ⟨addr, port, rfl, (parseHexAddr_cut haddr).mp h⟩
  · rintro ⟨addr, port, rfl, hlen, haddr, hport⟩
    exact (parseHexAddr_cut fun hc => not_isHexDigit_colon (haddr _ hc)).mpr ⟨hlen, haddr, hport⟩

/-! ### The endpoints -/

/-- The bytes of a word, as the digits of its value in base 256. -/
theorem putUint32_inj {w w' : UInt32} (h : putUint32 w = putUint32 w') : w = w' := by
  unfold putUint32 at h
  simp only [List.cons.injEq, and_true, ← UInt8.toNat_inj, UInt32.toNat_toUInt8,
    UInt32.toNat_shiftRight, UInt32.reduceToNat, Nat.reduceMod, Nat.shiftRight_eq_div_pow,
    Nat.reducePow] at h
  have hw := w.toNat_lt
  have hw' := w'.toNat_lt
  refine UInt32.toNat_inj.mp ?_
  omega

theorem ipFrom_v6_inj {w w' : Words} (h : ipFrom w true = ipFrom w' true) : w = w' := by
  unfold ipFrom at h
  rw [if_pos rfl, if_pos rfl] at h
  have hbytes := Addr.v6.inj h
  obtain ⟨h₀₁₂, h₃⟩ := List.append_inj' hbytes rfl
  obtain ⟨h₀₁, h₂⟩ := List.append_inj' h₀₁₂ rfl
  obtain ⟨h₀, h₁⟩ := List.append_inj' h₀₁ rfl
  cases w
  cases w'
  exact Words.mk.injEq .. |>.mpr
    ⟨putUint32_inj h₀, putUint32_inj h₁, putUint32_inj h₂, putUint32_inj h₃⟩

theorem ipFrom_v4_inj {w w' : Words} (h : ipFrom w false = ipFrom w' false) : w.w₀ = w'.w₀ := by
  unfold ipFrom at h
  exact putUint32_inj (Addr.v4.inj h)

/-- The words of an address that count: all four of an IPv6 address, the first of an IPv4 one. -/
def Words.Agree (v6 : Bool) (w w' : Words) : Prop := if v6 then w = w' else w.w₀ = w'.w₀

theorem ipFrom_inj {w w' : Words} {v6 v6' : Bool} :
    ipFrom w v6 = ipFrom w' v6' ↔ v6 = v6' ∧ Words.Agree v6 w w' := by
  cases v6 <;> cases v6'
  · constructor
    · intro h
      exact ⟨rfl, ipFrom_v4_inj h⟩
    · rintro ⟨-, h⟩
      exact congrArg (fun w => Addr.v4 (putUint32 w)) h
  · simp [ipFrom]
  · simp [ipFrom]
  · constructor
    · intro h
      exact ⟨rfl, ipFrom_v6_inj h⟩
    · rintro ⟨-, h⟩
      exact congrArg (ipFrom · true) h

/-- **The token of a row reads as the endpoint of the flow with the same words; the endpoints of two
flows are equal only where their words are; and nothing but a token is accepted.** -/
theorem address_paths_agree :
    (∀ f : Flow, parseHexAddr (Endpoint.token ⟨f.daddr, f.isIPv6, f.dport⟩) = some (remoteOf f)) ∧
    (∀ f f' : Flow, remoteOf f = remoteOf f' ↔
      f.isIPv6 = f'.isIPv6 ∧ Words.Agree f.isIPv6 f.daddr f'.daddr ∧ f.dport = f'.dport) ∧
    ∀ tok : Bytes, (parseHexAddr tok).isSome = true ↔ IsToken tok := by
  refine ⟨fun f => parseHexAddr_token _, fun f f' => ?_, parseHexAddr_isSome⟩
  unfold remoteOf
  rw [AddrPort.mk.injEq, ipFrom_inj, and_assoc]

example : parseHexAddr [0x30, 0x31, 0x30, 0x30, 0x30, 0x30, 0x37, 0x46, colon, 0x35, 0x30] =
    some ⟨.v4 [0x7f, 0, 0, 1], 0x50⟩ := by decide

end Tlstat.Model
