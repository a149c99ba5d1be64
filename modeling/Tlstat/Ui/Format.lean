import Mathlib.Logic.Function.Iterate
import Tlstat.Base.Checked
import Tlstat.Ui.Text

/-! `humanBytes`. The loop divides `x` and multiplies `div` by the unit; what it leaves is the
largest power of the unit that the number reaches. -/

namespace Tlstat.Ui
open Base

/-! ### The loop -/

/-- The variables of the loop. -/
structure Scale where
  x : UInt64
  div : UInt64 := 1024
  exp : ℕ := 0

namespace Scale

def start (n : UInt64) : Scale := { x := n / 1024 }

def turn (s : Scale) : Scale := { x := s.x / 1024, div := s.div * 1024, exp := s.exp + 1 }

theorem turn_lt {s : Scale} (h : s.x ≥ 1024) : s.turn.x.toNat < s.x.toNat := by
  have hx : 1024 ≤ s.x.toNat := h
  change (s.x / 1024).toNat < s.x.toNat
  rw [UInt64.toNat_div]
  exact Nat.div_lt_self (by omega) (by decide)

def loop (s : Scale) : Scale :=
  if s.x ≥ 1024 then loop s.turn else s
termination_by s.x.toNat
decreasing_by exact turn_lt ‹_›

/-- The loop has come to the `exp`-th power above the unit, and the number reaches it. -/
structure Scaled (n : UInt64) (s : Scale) : Prop where
  x : s.x.toNat = n.toNat / 1024 ^ (s.exp + 1)
  div : s.div.toNat = 1024 ^ (s.exp + 1)
  le : s.div.toNat ≤ n.toNat

variable {n : UInt64} {s : Scale}

theorem scaled_start (h : 1024 ≤ n) : Scaled n (start n) := by
  refine ⟨?_, ?_, h⟩
  · change (n / 1024).toNat = n.toNat / 1024 ^ 1
    rw [UInt64.toNat_div, Nat.pow_one]
    rfl
  · change (1024 : UInt64).toNat = 1024 ^ 1
    rw [Nat.pow_one]
    rfl

/-- The number is below `2 ^ 64`, so a power that it reaches does not overflow. -/
theorem Scaled.turn (h : Scaled n s) (hx : s.x ≥ 1024) : Scaled n s.turn := by
  have hpos : 0 < 1024 ^ (s.exp + 1) := Nat.pow_pos (by decide)
  have hreach : 1024 * 1024 ^ (s.exp + 1) ≤ n.toNat := by
    have hx' : 1024 ≤ s.x.toNat := hx
    rw [h.x] at hx'
    exact (Nat.le_div_iff_mul_le hpos).mp hx'
  have hdiv : (s.div * 1024).toNat = 1024 ^ (s.exp + 1 + 1) := by
    have hlt : s.div.toNat * 1024 < 2 ^ 64 := by
      rw [h.div, Nat.mul_comm]
      exact hreach.trans_lt n.toNat_lt
    rw [UInt64.toNat_mul]
    change s.div.toNat * 1024 % 2 ^ 64 = _
    rw [Nat.mod_eq_of_lt hlt, h.div, ← Nat.pow_succ]
  refine ⟨?_, hdiv, ?_⟩
  · change (s.x / 1024).toNat = n.toNat / 1024 ^ (s.exp + 1 + 1)
    rw [UInt64.toNat_div, h.x, Nat.div_div_eq_div_mul, Nat.pow_succ]
    rfl
  · change (s.div * 1024).toNat ≤ n.toNat
    rw [hdiv, Nat.pow_succ, Nat.mul_comm]
    exact hreach

theorem Scaled.exp_le (h : Scaled n s) : s.exp ≤ 5 := by
  have hreach : 1024 ^ (s.exp + 1) < 1024 ^ 7 := by
    rw [← h.div]
    exact h.le.trans_lt (n.toNat_lt.trans (by decide))
  have hexp : s.exp + 1 < 7 := (Nat.pow_lt_pow_iff_right (by decide)).mp hreach
  omega

/-- A number below the unit is left of `x`, so the next power is out of reach. -/
theorem Scaled.lt (h : Scaled n s) (hx : ¬s.x ≥ 1024) : n.toNat < 1024 * s.div.toNat := by
  have hpos : 0 < 1024 ^ (s.exp + 1) := Nat.pow_pos (by decide)
  have hx' : s.x.toNat < 1024 := UInt64.not_le.mp hx
  rw [h.x] at hx'
  rw [h.div]
  exact (Nat.div_lt_iff_lt_mul hpos).mp hx'

/-- The loop is as many turns as `exp` has grown by, each from where the invariant holds. -/
theorem Scaled.loop (h : Scaled n s) : ∃ k, s.loop = Scale.turn^[k] s ∧ ¬s.loop.x ≥ 1024 ∧
    ∀ j ≤ k, Scaled n (Scale.turn^[j] s) := by
  induction s using Scale.loop.induct with
  | case1 s hx ih =>
    obtain ⟨k, hk, hstop, hall⟩ := ih (h.turn hx)
    have hloop : s.loop = s.turn.loop := by
      rw [Scale.loop, if_pos hx]
    refine ⟨k + 1, hloop.trans hk, by rwa [hloop], fun j hj => ?_⟩
    cases j with
    | zero => exact h
    | succ j => exact hall j (Nat.le_of_succ_le_succ hj)
  | case2 s hx =>
    have hloop : s.loop = s := by
      rw [Scale.loop, if_neg hx]
    refine ⟨0, hloop, by rwa [hloop], fun j hj => ?_⟩
    obtain rfl := Nat.le_zero.mp hj
    exact h

theorem iterate_turn_exp (s : Scale) (k : ℕ) : (turn^[k] s).exp = s.exp + k := by
  induction k generalizing s with
  | zero => rfl
  | succ k ih =>
    rw [Function.iterate_succ_apply, ih]
    change s.exp + 1 + k = s.exp + (k + 1)
    omega

end Scale

/-! ### The text -/

/-- `n / d` to the nearest integer, a tie to the even one. -/
def roundEven (n d : ℕ) : ℕ :=
  if 2 * (n % d) < d ∨ (2 * (n % d) = d ∧ n / d % 2 = 0) then n / d else n / d + 1

/-- `float64(n)`, which keeps 53 bits. -/
def float64 (n : ℕ) : ℕ := roundEven n (2 ^ (n.log2 - 52)) * 2 ^ (n.log2 - 52)

/-- `%.1f` of `float64(n) / float64(div)`, for a power of two: the quotient is exact. -/
def fixed1 (n div : ℕ) : Bytes :=
  let tenths := roundEven (10 * float64 n) div
  digits 10 (tenths / 10) ++ [0x2e] ++ digits 10 (tenths % 10)

/-- "1.2": of 1.25, which is exact, the even tenth. -/
example : fixed1 1280 1024 = [0x31, 0x2e, 0x32] := by decide +kernel

/-- What the loop leaves. -/
def scaleOf (n : UInt64) : Scale := (Scale.start n).loop

/-- "KMGTPE" -/
def units : Bytes := [0x4b, 0x4d, 0x47, 0x54, 0x50, 0x45]

def humanBytes (n : UInt64) : Checked Bytes :=
  if n < 1024 then .ok (digits 10 n.toNat ++ [0x42])
  else do
    let s := scaleOf n
    let unit ← Checked.index units s.exp
    return fixed1 n.toNat s.div.toNat ++ [unit]

theorem scaled_scaleOf {n : UInt64} (h : 1024 ≤ n) : Scale.Scaled n (scaleOf n) := by
  obtain ⟨k, hk, -, hall⟩ := (Scale.scaled_start h).loop
  unfold scaleOf
  rw [hk]
  exact hall k le_rfl

theorem humanBytes_unit {n : UInt64} (h : 1024 ≤ n) : ∃ unit, units[(scaleOf n).exp]? = some unit ∧
    humanBytes n = .ok (fixed1 n.toNat (scaleOf n).div.toNat ++ [unit]) := by
  have hunit : (scaleOf n).exp < units.length := Nat.lt_succ_of_le (scaled_scaleOf h).exp_le
  refine ⟨units[(scaleOf n).exp], List.getElem?_eq_getElem hunit, ?_⟩
  unfold humanBytes
  rw [if_neg (UInt64.not_lt.mpr h)]
  change (Checked.index units (scaleOf n).exp >>= fun unit => _) = _
  rw [Checked.index_ok rfl hunit]
  rfl

theorem humanBytes_ok (n : UInt64) : ∃ t, humanBytes n = .ok t := by
  by_cases h : n < 1024
  · exact ⟨_, if_pos h⟩
  · obtain ⟨unit, -, hok⟩ := humanBytes_unit (UInt64.not_lt.mp h)
    exact ⟨_, hok⟩

/-- **From 1024 on, the loop of `humanBytes` ends after `exp ≤ 5` turns at the largest power of
1024 that the number reaches, every product on the way is exact, and the unit is there.** -/
theorem humanBytes_scaled (n : UInt64) (h : 1024 ≤ n) :
    scaleOf n = Scale.turn^[(scaleOf n).exp] (Scale.start n) ∧
    (∀ j ≤ (scaleOf n).exp, (Scale.turn^[j] (Scale.start n)).div.toNat = 1024 ^ (j + 1)) ∧
    (scaleOf n).div.toNat = 1024 ^ ((scaleOf n).exp + 1) ∧ (scaleOf n).exp ≤ 5 ∧
    (scaleOf n).div.toNat ≤ n.toNat ∧ n.toNat < 1024 * (scaleOf n).div.toNat ∧
    ∃ unit, units[(scaleOf n).exp]? = some unit ∧
      humanBytes n = .ok (fixed1 n.toNat (scaleOf n).div.toNat ++ [unit]) := by
  obtain ⟨k, hk, hstop, hall⟩ := (Scale.scaled_start h).loop
  have hexp : ∀ j, (Scale.turn^[j] (Scale.start n)).exp = j := fun j =>
    (Scale.iterate_turn_exp _ j).trans (Nat.zero_add j)
  have hsk : (scaleOf n).exp = k := (congrArg Scale.exp hk).trans (hexp k)
  have hs := scaled_scaleOf h
  refine ⟨hsk ▸ hk, fun j hj => ?_, hs.div, hs.exp_le, hs.le, hs.lt hstop, humanBytes_unit h⟩
  have hdiv := (hall j (hsk ▸ hj)).div
  rwa [hexp] at hdiv

/-- The largest number is some exabytes. -/
theorem largest_scaled : (scaleOf 0xffffffffffffffff).exp = 5 := by
  obtain ⟨-, -, hdiv, hexp, -, hlt, -⟩ := humanBytes_scaled 0xffffffffffffffff (by decide)
  rw [hdiv] at hlt
  by_contra hne
  have hpow : 1024 ^ ((scaleOf 0xffffffffffffffff).exp + 1) ≤ 1024 ^ 5 :=
    Nat.pow_le_pow_right (by decide) (Nat.lt_of_le_of_ne hexp hne)
  have hsmall : 1024 * 1024 ^ ((scaleOf 0xffffffffffffffff).exp + 1) ≤ 1024 * 1024 ^ 5 :=
    Nat.mul_le_mul_left 1024 hpow
  exact absurd (hlt.trans_le hsmall) (by decide)

end Tlstat.Ui
