import Mathlib.Data.List.Infix
import Tlstat.Tlsparse.Labels

/-! The search for a cipher in the name of a suite. It compares slices of the name, byte by byte and
without regard to case, and finds what is there. -/

namespace Tlstat.Tlsparse
open Base Base.Checked

theorem equalFold_eq (a b : Bytes) : equalFold a b = .ok (decide (a.map upper = b.map upper)) := by
  unfold equalFold
  split_ifs with hlen
  · have hne : ¬a.map upper = b.map upper := fun h =>
      hlen (by simpa using congrArg List.length h)
    rw [decide_eq_false hne]
    rfl
  · have hturn : ∀ i ∈ Int.range 0 a.length, (do
        let ca ← index a i
        let cb ← index b i
        return upper ca = upper cb : Checked Bool) =
        .ok (decide ((a.map upper)[i.toNat]? = (b.map upper)[i.toNat]?)) := by
      intro i hi
      obtain ⟨h₀, hlt⟩ := Int.mem_range_iff.mp hi
      have hcast : i = i.toNat := (Int.toNat_of_nonneg h₀).symm
      have ha : i.toNat < a.length := by omega
      have hb : i.toNat < b.length := by omega
      rw [index_ok hcast ha, ok_bind, index_ok hcast hb, ok_bind, List.getElem?_map,
        List.getElem?_map, List.getElem?_eq_getElem ha, List.getElem?_eq_getElem hb]
      simp
    rw [allM_ok hturn]
    congr 1
    rw [Bool.eq_iff_iff, List.all_eq_true, decide_eq_true_iff]
    constructor
    · intro h
      refine List.ext_getElem? fun k => ?_
      by_cases hk : k < a.length
      · exact of_decide_eq_true (h k (Int.mem_range_iff.mpr ⟨by omega, by omega⟩))
      · rw [List.getElem?_eq_none (by simp; omega), List.getElem?_eq_none (by simp; omega)]
    · intro h i _
      exact decide_eq_true (congrArg (fun t : Bytes => t[i.toNat]?) h)

/-- The slices of the length of `sub` are the places where it may be. -/
theorem infix_iff_slice {α : Type*} {t u : List α} :
    t <:+: u ↔ ∃ i, i + t.length ≤ u.length ∧ (u.drop i).take t.length = t := by
  constructor
  · rintro ⟨before, behind, rfl⟩
    refine ⟨before.length, by simp, ?_⟩
    rw [List.append_assoc, List.drop_left, List.take_left]
  · rintro ⟨i, -, h⟩
    rw [← h]
    exact (List.take_prefix _ _).isInfix.trans (List.drop_suffix i u).isInfix

/-- **`containsFold` finds what is there.** It never leaves its slices, and it returns true exactly if
`sub` occurs in `s`, the case of the letters of ASCII apart. -/
theorem containsFold_infix (s sub : Bytes) :
    containsFold s sub = .ok (decide (sub.map upper <:+: s.map upper)) := by
  unfold containsFold
  split_ifs with hlen
  · have hnone : ¬sub.map upper <:+: s.map upper := fun h => by
      have hle := h.length_le
      rw [List.length_map, List.length_map] at hle
      omega
    rw [decide_eq_false hnone]
    rfl
  · have hturn : ∀ i ∈ Int.range 0 (s.length - sub.length + 1), (do
        let part ← subslice s i (i + sub.length)
        equalFold part sub : Checked Bool) =
        .ok (decide (((s.drop i.toNat).take sub.length).map upper = sub.map upper)) := by
      intro i hi
      obtain ⟨h₀, hlt⟩ := Int.mem_range_iff.mp hi
      have hcast : i = i.toNat := (Int.toNat_of_nonneg h₀).symm
      have hend : i + sub.length = (i.toNat + sub.length : ℕ) := by omega
      rw [subslice_ok hcast hend (Nat.le_add_right _ _) (by omega), ok_bind, equalFold_eq,
        Nat.add_sub_cancel_left]
    rw [anyM_ok hturn]
    congr 1
    rw [Bool.eq_iff_iff, List.any_eq_true, decide_eq_true_iff, infix_iff_slice]
    simp only [List.map_take, List.map_drop, List.length_map, decide_eq_true_iff]
    constructor
    · rintro ⟨i, hi, hpart⟩
      obtain ⟨h₀, hlt⟩ := Int.mem_range_iff.mp hi
      exact ⟨i.toNat, by omega, hpart⟩
    · rintro ⟨i, hi, hpart⟩
      exact ⟨i, Int.mem_range_iff.mpr ⟨by omega, by omega⟩, hpart⟩

end Tlstat.Tlsparse
