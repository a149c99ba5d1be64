import Mathlib.Data.Nat.Notation
import Mathlib.Tactic.Common

/-! The last values of a stream. A window that appends and then cuts holds the same values as the
cut of the whole stream. -/

namespace Base
variable {α : Type*}

/-- The last `n` values of `l`, or all of them. -/
def lastN (n : ℕ) (l : List α) : List α := l.drop (l.length - min n l.length)

theorem length_lastN (n : ℕ) (l : List α) : (lastN n l).length = min n l.length := by
  unfold lastN
  rw [List.length_drop]
  omega

theorem lastN_eq_drop (n : ℕ) (l : List α) : lastN n l = l.drop (l.length - n) := by
  unfold lastN
  congr 1
  omega

theorem lastN_of_length_le {n : ℕ} {l : List α} (h : l.length ≤ n) : lastN n l = l := by
  rw [lastN_eq_drop, Nat.sub_eq_zero_of_le h, List.drop_zero]

@[simp] theorem lastN_nil (n : ℕ) : lastN n ([] : List α) = [] := by
  rw [lastN_eq_drop, List.drop_nil]

@[simp] theorem lastN_zero (l : List α) : lastN 0 l = [] := by
  rw [lastN_eq_drop, Nat.sub_zero, List.drop_length]

/-- What the window has let go does not come back. -/
theorem lastN_lastN_append (n : ℕ) (l l' : List α) :
    lastN n (lastN n l ++ l') = lastN n (l ++ l') := by
  have hlen := length_lastN n l
  have hdrop : lastN n l ++ l' = (l ++ l').drop (l.length - n) := by
    rw [lastN_eq_drop]
    exact (List.drop_append_of_le_length (Nat.sub_le ..)).symm
  rw [lastN_eq_drop, lastN_eq_drop n (l ++ l'), hdrop, List.drop_drop]
  congr 1
  rw [List.length_drop, List.length_append]
  omega

end Base
