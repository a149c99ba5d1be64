import Mathlib.Tactic.Common
import Mathlib.Data.List.Perm.Basic

/-! Finite tables keyed by 64-bit words, as extensional tree maps, with their
lookup rules stated with `=` on keys. -/

namespace Base

abbrev Table (β : Type*) := Std.ExtTreeMap UInt64 β compare

namespace Table
variable {β γ : Type*} (t : Table β) (k k' : UInt64)

@[simp] theorem get_empty : (∅ : Table β)[k]? = none := Std.ExtTreeMap.getElem?_empty

theorem get_insert (v : β) : (t.insert k v)[k']? = if k = k' then some v else t[k']? := by
  simp only [Std.ExtTreeMap.getElem?_insert, Std.LawfulEqCmp.compare_eq_iff_eq]

@[simp] theorem get_insert_self (v : β) : (t.insert k v)[k]? = some v := by
  rw [get_insert, if_pos rfl]

theorem get_erase : (t.erase k)[k']? = if k = k' then none else t[k']? := by
  simp only [Std.ExtTreeMap.getElem?_erase, Std.LawfulEqCmp.compare_eq_iff_eq]

@[simp] theorem get_erase_self : (t.erase k)[k]? = none := by
  rw [get_erase, if_pos rfl]

theorem get_modify (f : β → β) :
    (t.modify k f)[k']? = if k = k' then t[k]?.map f else t[k']? := by
  simp only [Std.ExtTreeMap.getElem?_modify, Std.LawfulEqCmp.compare_eq_iff_eq]

@[simp] theorem get_map (f : β → γ) : (t.map fun _ => f)[k]? = t[k]?.map f := by
  simp

theorem get_filter (p : UInt64 → Bool) :
    (t.filter fun k _ => p k)[k]? = if p k then t[k]? else none := by
  rw [Std.ExtTreeMap.getElem?_filter']
  by_cases h : p k <;> cases t[k]? <;> simp [h]

variable {t k}

theorem mem_toList {v : β} : (k, v) ∈ t.toList ↔ t[k]? = some v :=
  Std.ExtTreeMap.mem_toList_iff_getElem?_eq_some

variable (t)

theorem nodup_keys_toList : (t.toList.map Prod.fst).Nodup := by
  rw [Std.ExtTreeMap.map_fst_toList_eq_keys]
  exact Std.ExtTreeMap.nodup_keys

end Table
end Base
