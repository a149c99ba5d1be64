import Mathlib.Tactic.Linarith
import Tlstat.Ui.Format

/-! The byte columns, read back. Two sizes are shown in their order, and each is off by little more
than half of its last digit, though it is rounded twice. -/

namespace Tlstat.Ui
open Base

/-! ### Rounding -/

section Round
variable {m n d : ℕ}

theorem roundEven_mono (d : ℕ) (h : m ≤ n) : roundEven m d ≤ roundEven n d := by
  have hdiv : m / d ≤ n / d := Nat.div_le_div_right h
  have hm := Nat.div_add_mod m d
  have hn := Nat.div_add_mod n d
  unfold roundEven
  rcases hdiv.lt_or_eq with hlt | heq
  · split_ifs <;> omega
  · rw [heq] at hm ⊢
    have hmod : m % d ≤ n % d := by omega
    split_ifs <;> omega

theorem roundEven_mul (a : ℕ) (hd : 0 < d) : roundEven (a * d) d = a := by
  unfold roundEven
  rw [Nat.mul_mod_left, if_pos (.inl (by omega)), Nat.mul_div_cancel a hd]

theorem roundEven_near (n : ℕ) (hd : 0 < d) :
    2 * (roundEven n d * d) ≤ 2 * n + d ∧ 2 * n ≤ 2 * (roundEven n d * d) + d := by
  have hn := Nat.div_add_mod n d
  have hmod := Nat.mod_lt n hd
  rw [Nat.mul_comm] at hn
  unfold roundEven
  split_ifs with hdown
  · omega
  · rw [Nat.add_mul, Nat.one_mul]
    omega

/-- The unit in the last place of `float64`. -/
def ulp (n : ℕ) : ℕ := 2 ^ (n.log2 - 52)

theorem ulp_pos (n : ℕ) : 0 < ulp n := Nat.two_pow_pos _

theorem float64_near (n : ℕ) : 2 * float64 n ≤ 2 * n + ulp n ∧ 2 * n ≤ 2 * float64 n + ulp n :=
  roundEven_near n (ulp_pos n)

/-- A power of two between the place of the last bit and beyond is a whole number of them. -/
theorem pow_eq_mul_ulp {k : ℕ} (hk : n.log2 ≤ k) : 2 ^ k = 2 ^ (k - (n.log2 - 52)) * ulp n := by
  unfold ulp
  rw [← Nat.pow_add]
  congr 1
  omega

/-- Rounding does not leave the powers of two that a number lies between. -/
theorem float64_between (hn : n ≠ 0) : 2 ^ n.log2 ≤ float64 n ∧ float64 n ≤ 2 ^ (n.log2 + 1) := by
  have hfloor : ∀ {k}, n.log2 ≤ k → roundEven (2 ^ k) (ulp n) * ulp n = 2 ^ k := by
    intro k hk
    rw [pow_eq_mul_ulp hk, roundEven_mul _ (ulp_pos n)]
  constructor
  · rw [← hfloor le_rfl]
    exact Nat.mul_le_mul_right _ (roundEven_mono _ (Nat.log2_self_le hn))
  · rw [← hfloor (Nat.le_succ _)]
    exact Nat.mul_le_mul_right _ (roundEven_mono _ Nat.lt_log2_self.le)

theorem float64_mono (h : m ≤ n) : float64 m ≤ float64 n := by
  rcases Nat.eq_zero_or_pos m with rfl | hm
  · exact Nat.zero_le _
  have hlog : m.log2 ≤ n.log2 := (Nat.le_log2 (by omega)).mpr ((Nat.log2_self_le hm.ne').trans h)
  rcases hlog.lt_or_eq with hlt | heq
  · calc float64 m ≤ 2 ^ (m.log2 + 1) := (float64_between hm.ne').2
      _ ≤ 2 ^ n.log2 := Nat.pow_le_pow_right (by decide) hlt
      _ ≤ float64 n := (float64_between (by omega)).1
  · unfold float64
    rw [heq]
    exact Nat.mul_le_mul_right _ (roundEven_mono _ h)

theorem float64_pow (k : ℕ) : float64 (2 ^ k) = 2 ^ k := by
  have hpow : 2 ^ k = 2 ^ (k - ((2 ^ k).log2 - 52)) * ulp (2 ^ k) := pow_eq_mul_ulp Nat.log2_two_pow.le
  have hround := roundEven_mul (2 ^ (k - ((2 ^ k).log2 - 52))) (ulp_pos (2 ^ k))
  rw [← hpow] at hround
  change roundEven (2 ^ k) (ulp (2 ^ k)) * ulp (2 ^ k) = 2 ^ k
  rw [hround]
  exact hpow.symm

/-- The last place is far below a unit that the number has less than 1024 of. -/
theorem float64_near_of_lt (hd : 1024 ≤ d) (hn : n < 1024 * d) :
    50 * float64 n ≤ 50 * n + d / 2 ∧ 50 * n ≤ 50 * float64 n + d / 2 := by
  obtain ⟨hup, hdown⟩ := float64_near n
  by_cases hlog : n.log2 ≤ 52
  · -- all bits of the number are kept
    have hone : ulp n = 1 := by
      unfold ulp
      rw [Nat.sub_eq_zero_of_le hlog, Nat.pow_zero]
    omega
  · have hne : n ≠ 0 := by
      rintro rfl
      exact hlog (by decide)
    have hsplit : 2 ^ n.log2 = 2 ^ 52 * ulp n := by
      unfold ulp
      rw [← Nat.pow_add]
      congr 1
      omega
    have hle := Nat.log2_self_le hne
    rw [hsplit] at hle
    omega

end Round

/-! ### Reading a size -/

/-- The number that the digits of a text make, a point left out. -/
def decimal (t : Bytes) : ℕ :=
  (t.filter (· ≠ 0x2e)).foldl (fun a c => 10 * a + (c.toNat - 0x30)) 0

/-- What the last digit before the letter stands for, in tenths of a byte. -/
def worth (letter : UInt8) : ℕ := if letter = 0x42 then 10 else 1024 ^ (units.idxOf letter + 1)

/-- The size and what its last digit stands for, in tenths of a byte. -/
def readSize (t : Bytes) : ℕ × ℕ :=
  match t.getLast? with
  | none => (0, 0)
  | some letter => (decimal t.dropLast * worth letter, worth letter)

theorem decimal_append (s t : Bytes) : decimal (s ++ t) =
    (t.filter (· ≠ 0x2e)).foldl (fun a c => 10 * a + (c.toNat - 0x30)) (decimal s) := by
  unfold decimal
  rw [List.filter_append, List.foldl_append]

theorem foldl_digits (n a : ℕ) : ((digits 10 n).filter (· ≠ 0x2e)).foldl
    (fun a c => 10 * a + (c.toNat - 0x30)) a = Nat.ofDigitChars 10 (Nat.toDigits 10 n) a := by
  have hdigit : ∀ c ∈ Nat.toDigits 10 n, c.isDigit = true :=
    fun c hc => Nat.isDigit_of_mem_toDigits (by decide) (by decide) hc
  unfold digits
  generalize Nat.toDigits 10 n = cs at hdigit
  induction cs generalizing a with
  | nil => rfl
  | cons c cs ih =>
    have hc : 48 ≤ c.toNat ∧ c.toNat ≤ 57 := Char.isDigit_iff_toNat.mp (hdigit c List.mem_cons_self)
    have hbyte : c.toNat.toUInt8.toNat = c.toNat :=
      UInt8.toNat_ofNat_of_lt' (show c.toNat < 256 by omega)
    have hpoint : c.toNat.toUInt8 ≠ 0x2e := by
      intro heq
      rw [heq] at hbyte
      have hbyte' : 46 = c.toNat := hbyte
      omega
    rw [List.map_cons, List.filter_cons_of_pos (by simpa using hpoint), List.foldl_cons, hbyte,
      Nat.ofDigitChars_cons, ih _ fun d hd => hdigit d (List.mem_cons_of_mem c hd)]
    rfl

theorem decimal_digits (n : ℕ) : decimal (digits 10 n) = n :=
  (foldl_digits n 0).trans Nat.ofDigitChars_ten_toDigits

/-- A text with one digit behind the point reads as its tenths. -/
theorem decimal_fixed1 (n d : ℕ) : decimal (fixed1 n d) = roundEven (10 * float64 n) d := by
  have hlt : roundEven (10 * float64 n) d % 10 < 10 := Nat.mod_lt _ (by decide)
  have hpoint : decimal (digits 10 (roundEven (10 * float64 n) d / 10) ++ [0x2e]) =
      roundEven (10 * float64 n) d / 10 := (decimal_append _ _).trans (decimal_digits _)
  unfold fixed1
  dsimp only
  rw [decimal_append, hpoint, foldl_digits, Nat.toDigits_of_lt_base hlt,
    Nat.ofDigitChars_cons_digitChar_of_lt_ten hlt, Nat.ofDigitChars_nil]
  exact Nat.div_add_mod _ 10

theorem readSize_concat (t : Bytes) (letter : UInt8) :
    readSize (t ++ [letter]) = (decimal t * worth letter, worth letter) := by
  unfold readSize
  rw [List.getLast?_concat, List.dropLast_concat]

theorem worth_unit : ∀ i < 6, ∀ letter ∈ units[i]?, worth letter = 1024 ^ (i + 1) := by
  decide +kernel

/-! ### The sizes -/

section Sizes
variable {m n : UInt64}

theorem readSize_small (h : n < 1024) : ∃ t, humanBytes n = .ok t ∧ readSize t = (n.toNat * 10, 10) := by
  refine ⟨digits 10 n.toNat ++ [0x42], if_pos h, ?_⟩
  rw [readSize_concat, decimal_digits]
  rfl

theorem readSize_large (h : 1024 ≤ n) : ∃ t, humanBytes n = .ok t ∧ readSize t =
    (roundEven (10 * float64 n.toNat) (scaleOf n).div.toNat * (scaleOf n).div.toNat,
      (scaleOf n).div.toNat) := by
  obtain ⟨letter, hletter, hok⟩ := humanBytes_unit h
  have hscaled := scaled_scaleOf h
  have hworth : worth letter = (scaleOf n).div.toNat :=
    (worth_unit _ (Nat.lt_succ_of_le hscaled.exp_le) letter hletter).trans hscaled.div.symm
  exact ⟨_, hok, by rw [readSize_concat, decimal_fixed1, hworth]⟩

theorem le_div_scaleOf (h : 1024 ≤ n) : 1024 ≤ (scaleOf n).div.toNat := by
  rw [(scaled_scaleOf h).div, Nat.pow_succ]
  exact Nat.le_mul_of_pos_left _ (Nat.pow_pos (by decide))

theorem scaleOf_lt (h : 1024 ≤ n) : n.toNat < 1024 * (scaleOf n).div.toNat := by
  obtain ⟨k, -, hstop, -⟩ := (Scale.scaled_start h).loop
  exact (scaled_scaleOf h).lt hstop

/-- What is shown in a unit lies between one and 1024 of it. -/
theorem shown_between (h : 1024 ≤ n) :
    10 * (scaleOf n).div.toNat ≤
      roundEven (10 * float64 n.toNat) (scaleOf n).div.toNat * (scaleOf n).div.toNat ∧
    roundEven (10 * float64 n.toNat) (scaleOf n).div.toNat * (scaleOf n).div.toNat ≤
      10 * (1024 * (scaleOf n).div.toNat) := by
  have hscaled := scaled_scaleOf h
  have hle := hscaled.le
  have hlt := (scaleOf_lt h).le
  have hdiv : (scaleOf n).div.toNat = 2 ^ (10 * ((scaleOf n).exp + 1)) := by
    rw [hscaled.div, Nat.pow_mul]
  generalize (scaleOf n).div.toNat = d at hle hlt hdiv ⊢
  have hpos : 0 < d := hdiv ▸ Nat.two_pow_pos _
  have hunit : float64 d = d := hdiv ▸ float64_pow _
  have htop : float64 (1024 * d) = 1024 * d := by
    have hpow : 1024 * d = 2 ^ (10 + 10 * ((scaleOf n).exp + 1)) := by rw [Nat.pow_add, ← hdiv]
    rw [hpow]
    exact float64_pow _
  have hlow := float64_mono hle
  have hhigh := float64_mono hlt
  rw [hunit] at hlow
  rw [htop] at hhigh
  constructor
  · refine Nat.mul_le_mul_right d ?_
    calc 10 = roundEven (10 * d) d := (roundEven_mul 10 hpos).symm
      _ ≤ _ := roundEven_mono d (Nat.mul_le_mul_left 10 hlow)
  · rw [← Nat.mul_assoc]
    refine Nat.mul_le_mul_right d ?_
    calc _ ≤ roundEven (10 * 1024 * d) d := roundEven_mono d (by omega)
      _ = 10 * 1024 := roundEven_mul _ hpos

/-- A larger number has no smaller unit, and if its unit is another one, it is 1024 times as large
at least. -/
theorem units_in_order (hm : 1024 ≤ m) (hn : 1024 ≤ n) (h : m ≤ n) :
    (scaleOf m).div.toNat = (scaleOf n).div.toNat ∨
    1024 * (scaleOf m).div.toNat ≤ (scaleOf n).div.toNat := by
  have hle : m.toNat ≤ n.toNat := h
  have hlow := (scaled_scaleOf hm).le
  have hhigh := scaleOf_lt hn
  have hdm := (scaled_scaleOf hm).div
  have hdn := (scaled_scaleOf hn).div
  rcases Nat.lt_trichotomy (scaleOf m).exp (scaleOf n).exp with hlt | heq | hgt
  · refine .inr ?_
    rw [hdm, hdn, Nat.mul_comm, ← Nat.pow_succ]
    exact Nat.pow_le_pow_right (by decide) (Nat.succ_le_succ hlt)
  · exact .inl (by rw [hdm, hdn, heq])
  · have hpow : 1024 * (scaleOf n).div.toNat ≤ (scaleOf m).div.toNat := by
      rw [hdm, hdn, Nat.mul_comm, ← Nat.pow_succ]
      exact Nat.pow_le_pow_right (by decide) (Nat.succ_le_succ hgt)
    omega

theorem shown_mono (hm : 1024 ≤ m) (hn : 1024 ≤ n) (h : m ≤ n) :
    roundEven (10 * float64 m.toNat) (scaleOf m).div.toNat * (scaleOf m).div.toNat ≤
      roundEven (10 * float64 n.toNat) (scaleOf n).div.toNat * (scaleOf n).div.toNat := by
  have hle : m.toNat ≤ n.toNat := h
  rcases units_in_order hm hn h with hunit | hunit
  · rw [hunit]
    exact Nat.mul_le_mul_right _ (roundEven_mono _ (Nat.mul_le_mul_left 10 (float64_mono hle)))
  · have hhigh := (shown_between hm).2
    have hlow := (shown_between hn).1
    omega

/-- Rounded to 53 bits and then to a tenth, a number is off by no more than six hundredths of its
unit. -/
theorem shown_near (hn : 1024 ≤ n) :
    5 * (roundEven (10 * float64 n.toNat) (scaleOf n).div.toNat * (scaleOf n).div.toNat) ≤
      50 * n.toNat + 3 * (scaleOf n).div.toNat ∧
    50 * n.toNat ≤ 5 * (roundEven (10 * float64 n.toNat) (scaleOf n).div.toNat *
      (scaleOf n).div.toNat) + 3 * (scaleOf n).div.toNat := by
  have hunit := le_div_scaleOf hn
  obtain ⟨hup, hdown⟩ := float64_near_of_lt hunit (scaleOf_lt hn)
  obtain ⟨hup', hdown'⟩ := roundEven_near (10 * float64 n.toNat) (Nat.zero_lt_of_lt hunit)
  omega

/-- A size is shown close to what it is, in a unit that is not larger than it. -/
theorem humanBytes_near (n : UInt64) : ∃ t, humanBytes n = .ok t ∧
    5 * (readSize t).1 ≤ 50 * n.toNat + 3 * (readSize t).2 ∧
    50 * n.toNat ≤ 5 * (readSize t).1 + 3 * (readSize t).2 ∧
    (readSize t).2 ≤ max 10 n.toNat := by
  by_cases hn : n < 1024
  · obtain ⟨t, ht, hread⟩ := readSize_small hn
    refine ⟨t, ht, ?_⟩
    rw [hread]
    dsimp only
    omega
  · have hlarge := UInt64.not_lt.mp hn
    obtain ⟨t, ht, hread⟩ := readSize_large hlarge
    obtain ⟨hup, hdown⟩ := shown_near hlarge
    refine ⟨t, ht, ?_⟩
    rw [hread]
    exact ⟨hup, hdown, (scaled_scaleOf hlarge).le.trans (Nat.le_max_right _ _)⟩

/-- No text of a smaller size reads as a larger one, whatever their units. -/
theorem readSize_mono {s t : Bytes} (hs : humanBytes m = .ok s) (ht : humanBytes n = .ok t)
    (h : m ≤ n) : (readSize s).1 ≤ (readSize t).1 := by
  by_cases hm : m < 1024
  · obtain ⟨s', hs', hreads⟩ := readSize_small hm
    obtain rfl := Except.ok.inj (hs.symm.trans hs')
    rw [hreads]
    by_cases hn : n < 1024
    · obtain ⟨t', ht', hreadt⟩ := readSize_small hn
      obtain rfl := Except.ok.inj (ht.symm.trans ht')
      rw [hreadt]
      exact Nat.mul_le_mul_right 10 h
    · have hlarge := UInt64.not_lt.mp hn
      obtain ⟨t', ht', hreadt⟩ := readSize_large hlarge
      obtain rfl := Except.ok.inj (ht.symm.trans ht')
      have hlow := (shown_between hlarge).1
      have hunit := le_div_scaleOf hlarge
      have hm' : m.toNat < 1024 := hm
      rw [hreadt]
      dsimp only
      omega
  · have hmlarge := UInt64.not_lt.mp hm
    have hnlarge : 1024 ≤ n := UInt64.le_trans hmlarge h
    obtain ⟨s', hs', hreads⟩ := readSize_large hmlarge
    obtain ⟨t', ht', hreadt⟩ := readSize_large hnlarge
    obtain rfl := Except.ok.inj (hs.symm.trans hs')
    obtain rfl := Except.ok.inj (ht.symm.trans ht')
    rw [hreads, hreadt]
    exact shown_mono hmlarge hnlarge h

/-- **Sizes are shown in their order and close to what they are.** `humanBytes` always returns a
text. Read back, the text of the smaller of two sizes is never the larger one, also where one is
rounded up to the next unit; no size is off by more than six hundredths of the unit it is shown in;
and that unit is not larger than the size. -/
theorem sizes_in_order (m n : UInt64) : ∃ s t, humanBytes m = .ok s ∧ humanBytes n = .ok t ∧
    (m ≤ n → (readSize s).1 ≤ (readSize t).1) ∧
    5 * (readSize t).1 ≤ 50 * n.toNat + 3 * (readSize t).2 ∧
    50 * n.toNat ≤ 5 * (readSize t).1 + 3 * (readSize t).2 ∧
    (readSize t).2 ≤ max 10 n.toNat := by
  obtain ⟨s, hs, -⟩ := humanBytes_near m
  obtain ⟨t, ht, hnear⟩ := humanBytes_near n
  exact ⟨s, t, hs, ht, readSize_mono hs ht, hnear⟩

end Sizes

end Tlstat.Ui
