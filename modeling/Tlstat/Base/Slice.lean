import Mathlib.Data.Nat.Notation
import Mathlib.Logic.Function.Basic
import Mathlib.Tactic.Common

/-! Slices of the arrays of a heap, with room behind them up to a capacity. An append writes into
the room if there is enough of it, and moves to a new array otherwise. -/

namespace Base
variable {α : Type}

/-- The arrays that were allocated so far. -/
abbrev Heap (α : Type) := List (List α)

namespace Heap

def array (h : Heap α) (k : ℕ) : List α := h[k]?.getD []

/-- `xs` is written into an array, from the index `i` on. -/
def write (h : Heap α) (k i : ℕ) (xs : List α) : Heap α :=
  h.modify k fun a => a.take i ++ xs ++ a.drop (i + xs.length)

section Array
variable {h : Heap α} {k k' i n : ℕ} {xs a : List α}

@[simp] theorem length_write : (h.write k i xs).length = h.length := List.length_modify ..

theorem lt_of_array_ne (ha : h.array k ≠ []) : k < h.length := by
  by_contra hk
  exact ha (by rw [array, List.getElem?_eq_none (Nat.le_of_not_lt hk)]; rfl)

theorem array_write_self (hk : k < h.length) :
    (h.write k i xs).array k = (h.array k).take i ++ xs ++ (h.array k).drop (i + xs.length) := by
  rw [write, array, array, List.getElem?_modify_eq, List.getElem?_eq_getElem hk]
  rfl

theorem write_nil : h.write k i [] = h := by
  have hid : (fun a : List α => a.take i ++ [] ++ a.drop (i + ([] : List α).length)) = id := by
    funext a
    rw [List.append_nil, List.length_nil, Nat.add_zero, List.take_append_drop]
    rfl
  rw [write, hid, List.modify_id]

theorem array_write_ne (hk : k ≠ k') : (h.write k i xs).array k' = h.array k' := by
  rw [write, array, array, List.getElem?_modify_ne _ _ hk]

theorem array_concat (hk : k < h.length) : array (h ++ [a]) k = h.array k := by
  rw [array, array, List.getElem?_append_left hk]

theorem array_concat_self : array (h ++ [a]) h.length = a := by
  rw [array, List.getElem?_concat_length]
  rfl

/-- What stands before the written part stays. -/
theorem take_write (hi : i ≤ (h.array k).length) (hn : n ≤ i) :
    ((h.write k i xs).array k).take n = (h.array k).take n := by
  by_cases hk : k < h.length
  · rw [array_write_self hk, List.append_assoc, List.take_append_of_le_length, List.take_take,
      Nat.min_eq_left hn]
    rw [List.length_take]
    omega
  · have hnone : ∀ h' : Heap α, h'.length = h.length → h'.array k = [] := by
      intro h' hlen
      rw [array, List.getElem?_eq_none (by omega)]
      rfl
    rw [hnone h rfl, hnone _ length_write]

end Array
end Heap

/-- `len` values of an array from `off` on, and room up to `cap`. A nil slice has none of it. -/
structure Slice where
  arr : ℕ := 0
  off : ℕ := 0
  len : ℕ := 0
  cap : ℕ := 0
deriving DecidableEq, Repr

namespace Slice

def read (s : Slice) (h : Heap α) : List α := ((h.array s.arr).drop s.off).take s.len

/-- `s[:n]` -/
def upTo (s : Slice) (n : ℕ) : Slice := { s with len := n }

/-- `s[n:]` -/
def startAt (s : Slice) (n : ℕ) : Slice :=
  { s with off := s.off + n, len := s.len - n, cap := s.cap - n }

/-- The values of a slice are in its array. -/
structure Valid (s : Slice) (h : Heap α) : Prop where
  len_le : s.len ≤ s.cap
  cap_le : 0 < s.cap → s.off + s.cap ≤ (h.array s.arr).length

/-- The room behind the slice is enough. -/
def Fits (s : Slice) (n : ℕ) : Prop := s.len + n ≤ s.cap

instance (s : Slice) (n : ℕ) : Decidable (s.Fits n) := inferInstanceAs (Decidable (_ ≤ _))

/-- `append(s, xs...)`. `room cap n` is the room that a new array for `n` values has behind
them, where the old one had room for `cap` of them. -/
def append [Inhabited α] (room : ℕ → ℕ → ℕ) (s : Slice) (xs : List α) (h : Heap α) :
    Slice × Heap α :=
  if s.Fits xs.length then
    (s.upTo (s.len + xs.length), h.write s.arr (s.off + s.len) xs)
  else
    let n := s.len + xs.length
    let spare := room s.cap n
    ({ arr := h.length, len := n, cap := n + spare },
      h ++ [s.read h ++ xs ++ List.replicate spare default])

section Valid
variable {s : Slice} {xs : List α} {h h' : Heap α} {n : ℕ}

/-- A slice reads the same where its array starts with the same values. -/
theorem read_congr (heq : (h'.array s.arr).take (s.off + s.len) =
    (h.array s.arr).take (s.off + s.len)) : s.read h' = s.read h := by
  have hread : ∀ g : Heap α, s.read g = ((g.array s.arr).take (s.off + s.len)).drop s.off := by
    intro g
    rw [List.drop_take, Nat.add_sub_cancel_left]
    rfl
  rw [hread, hread, heq]

theorem Valid.upTo (hs : s.Valid h) (hn : n ≤ s.cap) : (s.upTo n).Valid h := ⟨hn, hs.cap_le⟩

theorem read_startAt : (s.startAt n).read h = (s.read h).drop n := by
  unfold read startAt
  dsimp only
  rw [List.drop_take, List.drop_drop]

theorem Valid.length_read (hs : s.Valid h) : (s.read h).length = s.len := by
  have hlen := hs.len_le
  have hcap := hs.cap_le
  rw [read, List.length_take, List.length_drop]
  omega

theorem Valid.arr_lt (hs : s.Valid h) (hcap : 0 < s.cap) : s.arr < h.length := by
  refine Heap.lt_of_array_ne fun hnil => ?_
  have hle := hs.cap_le hcap
  rw [hnil, List.length_nil] at hle
  omega

theorem Valid.len_le_array (hs : s.Valid h) (hcap : 0 < s.cap) :
    s.off + s.len ≤ (h.array s.arr).length :=
  Nat.le_trans (Nat.add_le_add_left hs.len_le s.off) (hs.cap_le hcap)

end Valid

section Append
variable [Inhabited α] {room : ℕ → ℕ → ℕ} {s t : Slice} {xs : List α} {h : Heap α} {k n : ℕ}

theorem append_fits (hfits : s.Fits xs.length) : s.append room xs h =
    (s.upTo (s.len + xs.length), h.write s.arr (s.off + s.len) xs) := if_pos hfits

theorem append_moves (hfits : ¬s.Fits xs.length) : s.append room xs h =
    ({ arr := h.length, len := s.len + xs.length,
       cap := s.len + xs.length + room s.cap (s.len + xs.length) },
      h ++ [s.read h ++ xs ++ List.replicate (room s.cap (s.len + xs.length)) default]) :=
  if_neg hfits

@[simp] theorem len_append : (s.append room xs h).1.len = s.len + xs.length := by
  by_cases hfits : s.Fits xs.length
  · rw [append_fits hfits]
    rfl
  · rw [append_moves hfits]

theorem length_le_append : h.length ≤ (s.append room xs h).2.length := by
  by_cases hfits : s.Fits xs.length
  · rw [append_fits hfits]
    exact Nat.le_of_eq Heap.length_write.symm
  · rw [append_moves hfits, List.length_append]
    exact Nat.le_add_right ..

/-- An append leaves every other array alone. -/
theorem array_append_ne (hk : k < h.length) (hne : s.arr ≠ k) :
    (s.append room xs h).2.array k = h.array k := by
  by_cases hfits : s.Fits xs.length
  · rw [append_fits hfits, Heap.array_write_ne hne]
  · rw [append_moves hfits, Heap.array_concat hk]

/-- An append that moves leaves every array alone. -/
theorem array_append_moves (hk : k < h.length) (hfits : ¬s.Fits xs.length) :
    (s.append room xs h).2.array k = h.array k := by
  rw [append_moves hfits, Heap.array_concat hk]

theorem Valid.append (hs : s.Valid h) : (s.append room xs h).1.Valid (s.append room xs h).2 := by
  by_cases hfits : s.Fits xs.length
  · rw [append_fits hfits]
    refine ⟨hfits, fun hcap => ?_⟩
    have hlen := hs.cap_le hcap
    have hle : s.len + xs.length ≤ s.cap := hfits
    change s.off + s.cap ≤ ((h.write s.arr (s.off + s.len) xs).array s.arr).length
    rw [Heap.array_write_self (hs.arr_lt hcap), List.length_append, List.length_append,
      List.length_take, List.length_drop]
    omega
  · rw [append_moves hfits]
    refine ⟨Nat.le_add_right .., fun _ => ?_⟩
    dsimp only
    rw [Heap.array_concat_self, List.length_append, List.length_append, hs.length_read,
      List.length_replicate]
    omega

/-- The slice that an append returns holds the old values and the new ones. -/
theorem Valid.read_append (hs : s.Valid h) :
    (s.append room xs h).1.read (s.append room xs h).2 = s.read h ++ xs := by
  by_cases hfits : s.Fits xs.length
  · rw [append_fits hfits]
    rcases Nat.eq_zero_or_pos s.cap with hnil | hcap
    · have hle : s.len + xs.length ≤ s.cap := hfits
      have hlen : s.len = 0 := by omega
      have hxs : xs = [] := List.length_eq_zero_iff.mp (by omega)
      rw [hxs, read, read, hlen]
      rfl
    · have hle := hs.len_le_array hcap
      have hold : ((h.array s.arr).take (s.off + s.len)).drop s.off = s.read h := by
        rw [List.drop_take, Nat.add_sub_cancel_left]
        rfl
      have hsize : (s.read h ++ xs).length = s.len + xs.length := by
        rw [List.length_append, hs.length_read]
      change (((h.write s.arr (s.off + s.len) xs).array s.arr).drop s.off).take
        (s.len + xs.length) = s.read h ++ xs
      rw [Heap.array_write_self (hs.arr_lt hcap), List.append_assoc, List.drop_append_of_le_length,
        hold, ← List.append_assoc, List.take_append_of_le_length (Nat.le_of_eq hsize.symm),
        List.take_of_length_le (Nat.le_of_eq hsize)]
      rw [List.length_take]
      omega
  · have hsize : (s.read h ++ xs).length = s.len + xs.length := by
      rw [List.length_append, hs.length_read]
    rw [append_moves hfits, read]
    dsimp only
    rw [Heap.array_concat_self, List.drop_zero,
      List.take_append_of_le_length (Nat.le_of_eq hsize.symm),
      List.take_of_length_le (Nat.le_of_eq hsize)]

/-- What stands in the array before the end of a slice is left alone by an append to it. -/
theorem Valid.take_append (hs : s.Valid h) (hk : s.arr < h.length) (hn : n ≤ s.off + s.len) :
    ((s.append room xs h).2.array s.arr).take n = (h.array s.arr).take n := by
  by_cases hfits : s.Fits xs.length
  · rw [append_fits hfits]
    rcases Nat.eq_zero_or_pos s.cap with hnil | hcap
    · have hle : s.len + xs.length ≤ s.cap := hfits
      have hxs : xs = [] := List.length_eq_zero_iff.mp (by omega)
      rw [hxs, Heap.array_write_self hk, List.append_nil, List.length_nil, Nat.add_zero,
        List.take_append_drop]
    · exact Heap.take_write (hs.len_le_array hcap) hn
  · rw [array_append_moves hk hfits]

/-- What stands at the start of a slice, after an append to it as an empty one in place. -/
theorem Valid.read_overwritten (hs : s.Valid h) (hcap : 0 < s.cap) (hxs : xs.length ≤ s.cap)
    (harr : t.arr = s.arr) (hoff : t.off = s.off) (ht : t.len ≤ xs.length) :
    t.read ((s.upTo 0).append room xs h).2 = xs.take t.len := by
  have hfits : (s.upTo 0).Fits xs.length := by
    change 0 + xs.length ≤ s.cap
    omega
  have hle := hs.cap_le hcap
  have hsize : ((h.array s.arr).take s.off).length = s.off := by
    rw [List.length_take]
    omega
  rw [append_fits hfits, read, harr, hoff]
  change (((h.write s.arr s.off xs).array s.arr).drop s.off).take t.len = xs.take t.len
  rw [Heap.array_write_self (hs.arr_lt hcap), List.append_assoc, List.drop_append_of_le_length
    (Nat.le_of_eq hsize.symm), List.drop_of_length_le (Nat.le_of_eq hsize), List.nil_append,
    List.take_append_of_le_length ht]

end Append

/-! ### Buffers that share no array -/

/-- What growing a buffer does: it stays where it is and gets no shorter, or it is on a new array.
The other arrays stay as they are. -/
structure Grown (buf : Slice) (h : Heap α) (r : Slice × Heap α) : Prop where
  valid : r.1.Valid r.2
  length_le : h.length ≤ r.2.length
  origin : 0 < r.1.cap →
    (0 < buf.cap ∧ r.1.arr = buf.arr ∧ r.1.off = buf.off ∧ buf.len ≤ r.1.len) ∨ h.length ≤ r.1.arr
  frame : ∀ k < h.length, (0 < buf.cap → buf.arr ≠ k) → r.2.array k = h.array k

theorem Valid.grown [Inhabited α] {room : ℕ → ℕ → ℕ} {buf : Slice} {xs : List α} {h : Heap α}
    (hbuf : buf.Valid h) : Grown buf h (buf.append room xs h) where
  valid := hbuf.append
  length_le := length_le_append
  origin := by
    intro hcap
    by_cases hfits : buf.Fits xs.length
    · rw [append_fits hfits] at hcap ⊢
      exact .inl ⟨hcap, rfl, rfl, Nat.le_add_right ..⟩
    · rw [append_moves hfits]
      exact .inr (Nat.le_refl _)
  frame := by
    intro k hk hne
    by_cases hfits : buf.Fits xs.length
    · rcases Nat.eq_zero_or_pos buf.cap with hnil | hcap
      · have hle : buf.len + xs.length ≤ buf.cap := hfits
        have hxs : xs = [] := List.length_eq_zero_iff.mp (by omega)
        rw [append_fits hfits, hxs, Heap.write_nil]
      · exact array_append_ne hk (hne hcap)
    · exact array_append_moves hk hfits

section Buffers
variable {ι : Type} {slot slot' : ι → Slice} {h : Heap α} {r : Slice × Heap α} {t : Slice} {i : ι}

structure Buffers (slot : ι → Slice) (h : Heap α) : Prop where
  valid : ∀ i, (slot i).Valid h
  apart : ∀ i j, 0 < (slot i).cap → 0 < (slot j).cap → (slot i).arr = (slot j).arr → i = j

/-- `t` is what a buffer was at some time: as long as one is on its array, it starts there too and
is no shorter. -/
def Held (slot : ι → Slice) (h : Heap α) (t : Slice) : Prop :=
  0 < t.len → t.arr < h.length ∧
    ∀ i, 0 < (slot i).cap → (slot i).arr = t.arr → (slot i).off = t.off ∧ t.len ≤ (slot i).len

theorem Buffers.held (hs : Buffers slot h) (i : ι) : Held slot h (slot i) := by
  intro hlen
  have hcap : 0 < (slot i).cap := Nat.lt_of_lt_of_le hlen (hs.valid i).len_le
  refine ⟨(hs.valid i).arr_lt hcap, fun j hj harr => ?_⟩
  obtain rfl := hs.apart j i hj hcap harr
  exact ⟨rfl, Nat.le_refl _⟩

/-- A slice on no array of the buffer that grows reads the same. -/
theorem Grown.read_eq {buf : Slice} (hg : Grown buf h r) (ht : 0 < t.len → t.arr < h.length)
    (hne : 0 < buf.cap → buf.arr ≠ t.arr) : t.read r.2 = t.read h := by
  rcases Nat.eq_zero_or_pos t.len with hlen | hlen
  · rw [read, read, hlen, List.take_zero, List.take_zero]
  · refine read_congr ?_
    rw [hg.frame t.arr (ht hlen) hne]

variable [DecidableEq ι]

theorem Buffers.grown (hs : Buffers slot h) (hg : Grown (slot i) h r) :
    Buffers (Function.update slot i r.1) r.2 where
  valid := by
    intro j
    by_cases hj : j = i
    · rw [hj, Function.update_self]
      exact hg.valid
    · rw [Function.update_of_ne hj]
      refine ⟨(hs.valid j).len_le, fun hcap => ?_⟩
      rw [hg.frame _ ((hs.valid j).arr_lt hcap) fun hi harr => hj (hs.apart i j hi hcap harr).symm]
      exact (hs.valid j).cap_le hcap
  apart := by
    -- the grown buffer meets no other one: it is on its old array, or on a new one
    have hmeet : ∀ j, j ≠ i → 0 < r.1.cap → 0 < (slot j).cap → r.1.arr ≠ (slot j).arr := by
      intro j hj hr hcap harr
      rcases hg.origin hr with ⟨hi, hsame, -, -⟩ | hnew
      · exact hj (hs.apart j i hcap hi (harr.symm.trans hsame))
      · have hlt := (hs.valid j).arr_lt hcap
        omega
    intro j k hj hk harr
    by_cases hji : j = i <;> by_cases hki : k = i
    · exact hji.trans hki.symm
    · rw [hji, Function.update_self] at hj harr
      rw [Function.update_of_ne hki] at hk harr
      exact absurd harr (hmeet k hki hj hk)
    · rw [hki, Function.update_self] at hk harr
      rw [Function.update_of_ne hji] at hj harr
      exact absurd harr.symm (hmeet j hji hk hj)
    · rw [Function.update_of_ne hji] at hj harr
      rw [Function.update_of_ne hki] at hk harr
      exact hs.apart j k hj hk harr

theorem Held.grown (ht : Held slot h t) (hg : Grown (slot i) h r) :
    Held (Function.update slot i r.1) r.2 t := by
  intro hlen
  obtain ⟨hlt, hall⟩ := ht hlen
  refine ⟨Nat.lt_of_lt_of_le hlt hg.length_le, fun j hcap harr => ?_⟩
  by_cases hj : j = i
  · rw [hj, Function.update_self] at hcap harr ⊢
    rcases hg.origin hcap with ⟨hi, hsame, hoff, hle⟩ | hnew
    · obtain ⟨hoff', hle'⟩ := hall i hi (hsame.symm.trans harr)
      exact ⟨hoff.trans hoff', Nat.le_trans hle' hle⟩
    · omega
  · rw [Function.update_of_ne hj] at hcap harr ⊢
    exact hall j hcap harr

end Buffers

section Drop
variable {ι : Type} {slot slot' : ι → Slice} {h : Heap α} {t : Slice}

theorem valid_nil : ({} : Slice).Valid h := ⟨Nat.le_refl 0, fun hcap => absurd hcap (Nat.lt_irrefl 0)⟩

/-- Buffers that are dropped are nil slices. -/
theorem Buffers.drop (hs : Buffers slot h) (hdrop : ∀ i, slot' i = slot i ∨ slot' i = {}) :
    Buffers slot' h where
  valid := by
    intro i
    rcases hdrop i with hi | hi
    · rw [hi]
      exact hs.valid i
    · rw [hi]
      exact valid_nil
  apart := by
    have hkept : ∀ i, 0 < (slot' i).cap → slot' i = slot i := by
      intro i hcap
      refine (hdrop i).resolve_right fun hnil => ?_
      rw [hnil] at hcap
      exact Nat.lt_irrefl 0 hcap
    intro i j hi hj harr
    have hi' := hkept i hi
    have hj' := hkept j hj
    rw [hi'] at hi harr
    rw [hj'] at hj harr
    exact hs.apart i j hi hj harr

theorem Held.drop (ht : Held slot h t) (hdrop : ∀ i, slot' i = slot i ∨ slot' i = {}) :
    Held slot' h t := by
  intro hlen
  obtain ⟨hlt, hall⟩ := ht hlen
  refine ⟨hlt, fun i hcap harr => ?_⟩
  rcases hdrop i with hi | hi
  · rw [hi] at hcap harr ⊢
    exact hall i hcap harr
  · rw [hi] at hcap
    exact absurd hcap (Nat.lt_irrefl 0)

end Drop

end Slice
end Base
