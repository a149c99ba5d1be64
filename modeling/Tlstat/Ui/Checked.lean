import Mathlib.Data.List.DropRight
import Tlstat.Tlsparse.Labels
import Tlstat.Ui.Format
import Tlstat.Ui.Model
import Tlstat.Ui.Plaintext

/-! The screen with Go's run-time checks: every index and slice expression, and every count of
`strings.Repeat`, may fault. The styles are kept beside the text; what they do to it is left to the
terminal. -/

namespace Tlstat.Ui.Checked
open Base Base.Checked Tlsparse Tlstat.Model

/-- `strings.Repeat` panics on a negative count. -/
def repeated (s : Bytes) (count : ℤ) : Checked Bytes := do
  assert (0 ≤ count)
  return (List.replicate count.toNat s).flatten

def trunc (s : Bytes) (w : ℤ) : Checked Bytes :=
  if w ≤ 0 then return []
  else
    let r := runes s
    if (r.length : ℤ) > w then
      if w = 1 then return ellipsis
      else do
        let cut ← subslice r 0 (w - 1)
        return cut.flatten ++ ellipsis
    else do
      let pad ← repeated [0x20] (w - r.length)
      return s ++ pad

/-! ### Plaintext -/

/-- A turn of the first inner loop of `hexDump`. -/
def hexColumn (b : Bytes) (i stop j : ℤ) : Checked Bytes := do
  let column ← (if j < stop then do
      let c ← index b j
      return hex 2 c.toNat ++ [0x20]
    else pure (spaces 3))
  return column ++ if j = i + 7 then [0x20] else []

/-- A turn of the second one. -/
def asciiColumn (b : Bytes) (j : ℤ) : Checked UInt8 := do
  let c ← index b j
  return if 0x20 ≤ c ∧ c < 0x7f then c else 0x2e

/-- A turn of the outer loop. -/
def hexLine (b : Bytes) (i : ℤ) : Checked Bytes := do
  let stop := if i + 16 > b.length then (b.length : ℤ) else i + 16
  let columns ← (Int.range i (i + 16)).mapM (hexColumn b i stop)
  let ascii ← (Int.range i stop).mapM (asciiColumn b)
  return hex 4 i.toNat ++ spaces 2 ++ columns.flatten ++ [0x20, 0x7c] ++ ascii ++ [0x7c, 0x0a]

def hexDump (b : Bytes) (max : ℤ) : Checked Bytes := do
  let b ← (if (b.length : ℤ) > max then subslice b 0 max else pure b)
  let lines ← (List.range ((b.length + 15) / 16)).mapM fun k => hexLine b (16 * k : ℕ)
  return lines.flatten

def bytesEqualPrefix (head tail : Bytes) : Checked Bool :=
  if tail.length > head.length then return false
  else (Int.range 0 tail.length).allM fun i => do
    let a ← index head i
    let b ← index tail i
    return a = b

def indent (s : Bytes) : Checked Bytes := do
  let lines := (s.rdropWhile (· = 0x0a)).splitOn 0x0a
  let lines ← (Int.range 0 lines.length).mapM fun i => do
    let line ← index lines i
    return spaces 2 ++ line
  return [0x0a].intercalate lines ++ [0x0a]

/-! ### What they compute -/

theorem repeated_ok (s : Bytes) {count : ℤ} (h : 0 ≤ count) :
    repeated s count = .ok (List.replicate count.toNat s).flatten := by
  rw [repeated, assert_ok h]
  rfl

theorem flatten_spaces (n : ℕ) : (List.replicate n [0x20]).flatten = spaces n :=
  List.flatten_replicate_singleton

theorem trunc_eq (s : Bytes) (w : ℤ) : trunc s w = .ok (Ui.trunc s w.toNat) := by
  unfold trunc Ui.trunc
  dsimp only
  by_cases h₀ : w ≤ 0
  · rw [if_pos h₀, if_pos (show w.toNat = 0 by omega)]
    rfl
  · rw [if_neg h₀, if_neg (show ¬w.toNat = 0 by omega)]
    by_cases hlen : ((runes s).length : ℤ) > w
    · rw [if_pos hlen, if_pos (show (runes s).length > w.toNat by omega)]
      by_cases h₁ : w = 1
      · rw [if_pos h₁, if_pos (show w.toNat = 1 by omega)]
        rfl
      · have hcut : subslice (runes s) 0 (w - 1) = .ok ((runes s).take (w.toNat - 1)) :=
          subslice_ok (m := 0) (n := w.toNat - 1) rfl (by omega) (by omega) (by omega)
        rw [if_neg h₁, if_neg (show ¬w.toNat = 1 by omega), hcut]
        rfl
    · have hpad : (w - (runes s).length).toNat = w.toNat - (runes s).length := by omega
      rw [if_neg hlen, if_neg (show ¬(runes s).length > w.toNat by omega),
        repeated_ok _ (by omega), ok_bind, flatten_spaces, hpad]
      rfl

section HexLine
variable {b : Bytes} {i : ℕ} {stop : ℤ}

theorem hexColumn_eq (hstop : stop = min ((i : ℤ) + 16) b.length) {k : ℕ} (hk : k < 16) :
    hexColumn b i stop (i + k) = .ok (Ui.hexColumn b i k) := by
  have hspace : ((i : ℤ) + k = i + 7) = (k = 7) := by
    rw [eq_iff_iff]
    omega
  unfold hexColumn Ui.hexColumn
  by_cases hlt : i + k < b.length
  · have hindex : index b ((i : ℤ) + k) = .ok b[i + k] := index_ok (by omega) hlt
    rw [if_pos (by omega), hindex, List.getElem?_eq_getElem hlt]
    simp only [ok_bind, pure_eq, hspace]
  · rw [if_neg (by omega), List.getElem?_eq_none (by omega)]
    simp only [ok_bind, pure_eq, hspace]

theorem ascii_eq (hstop : stop = min ((i : ℤ) + 16) b.length) (hi : i ≤ b.length) :
    (Int.range i stop).mapM (asciiColumn b) =
      .ok (((b.drop i).take 16).map fun c => if 0x20 ≤ c ∧ c < 0x7f then c else 0x2e) := by
  have hn : stop - i = (min 16 (b.length - i) : ℕ) := by omega
  have hturn : ∀ k < min 16 (b.length - i), asciiColumn b (i + k) =
      .ok (((b.map fun c => if 0x20 ≤ c ∧ c < 0x7f then c else 0x2e)[i + k]?).getD 0) := by
    intro k hk
    have hlt : i + k < b.length := by omega
    have hindex : index b ((i : ℤ) + k) = .ok b[i + k] := index_ok (by omega) hlt
    rw [asciiColumn, hindex, ok_bind, List.getElem?_map, List.getElem?_eq_getElem hlt]
    rfl
  rw [mapM_range hn hturn]
  refine congrArg Except.ok (List.ext_getElem ?_ fun k hk hk' => ?_)
  · simp
  · have hlt : i + k < b.length := by
      rw [List.length_map, List.length_range] at hk
      omega
    simp only [List.getElem_map, List.getElem_range, List.getElem_take, List.getElem_drop,
      List.getElem?_map, List.getElem?_eq_getElem hlt, Option.map_some, Option.getD_some]

theorem hexLine_eq (hi : i ≤ b.length) : hexLine b i = .ok (Ui.hexLine b i ++ [0x0a]) := by
  unfold hexLine Ui.hexLine
  dsimp only
  generalize hstop : (if (i : ℤ) + 16 > b.length then (b.length : ℤ) else i + 16) = stop
  have hmin : stop = min ((i : ℤ) + 16) b.length := by
    split_ifs at hstop <;> omega
  rw [mapM_range (n := 16) (by omega) fun k hk => hexColumn_eq hmin hk, ok_bind, ascii_eq hmin hi,
    ok_bind, List.flatMap_def]
  simp only [pure_eq, List.append_assoc]
  rfl

end HexLine

theorem hexDump_eq (b : Bytes) (max : ℕ) :
    hexDump b max = .ok ((Ui.hexDump b max).flatMap (· ++ [0x0a])) := by
  have hcut : (if (b.length : ℤ) > max then subslice b 0 max else pure b) = .ok (b.take max) := by
    split_ifs with hlen
    · exact subslice_ok (m := 0) rfl rfl (Nat.zero_le max) (by omega)
    · rw [pure_eq, List.take_of_length_le (by omega)]
  unfold hexDump Ui.hexDump
  rw [hcut, ok_bind, mapM_ok (g := fun k => Ui.hexLine (b.take max) (16 * k) ++ [0x0a]), ok_bind,
    List.flatMap_map, List.flatMap_def]
  · rfl
  · intro k hk
    have hlt : k < ((b.take max).length + 15) / 16 := List.mem_range.mp hk
    exact hexLine_eq (by omega)

theorem returns_bytesEqualPrefix (head tail : Bytes) :
    Returns (bytesEqualPrefix head tail) fun _ => True := by
  unfold bytesEqualPrefix
  split_ifs with hlen
  · exact .ok trivial
  · refine .allM fun i hi => ?_
    obtain ⟨h₀, hlt⟩ := Int.mem_range_iff.mp hi
    refine .bind (returns_index h₀ (by omega)) fun a _ => ?_
    refine .bind (returns_index h₀ hlt) fun b _ => ?_
    exact .ok trivial

theorem returns_indent (s : Bytes) : Returns (indent s) fun _ => True := by
  refine .bind (.mapM (R := fun _ _ => True) fun i hi => ?_) fun lines _ => .ok trivial
  obtain ⟨h₀, hlt⟩ := Int.mem_range_iff.mp hi
  exact .bind (returns_index h₀ hlt) fun line _ => .ok trivial

end Tlstat.Ui.Checked
