import Mathlib.Tactic.Common

/-! Byte strings read as runes, by the rules of UTF-8. An invalid byte is a rune of its own, and is
read as U+FFFD. A rune is kept as its encoding. -/

namespace Base

/-- The encoding of U+FFFD. -/
def runeError : List UInt8 := [0xef, 0xbf, 0xbd]

/-- The first bytes of a string, if each is in its range. -/
def within : List (UInt8 × UInt8) → List UInt8 → Option (List UInt8)
  | [], _ => some []
  | _ :: _, [] => none
  | (lo, hi) :: ranges, b :: s =>
    if lo ≤ b ∧ b ≤ hi then (within ranges s).map (b :: ·) else none

/-- The ranges of the bytes behind `b` in a sequence that `b` starts. -/
def followers (b : UInt8) : Option (List (UInt8 × UInt8)) :=
  if b < 0x80 then some []
  else if 0xc2 ≤ b ∧ b ≤ 0xdf then some [(0x80, 0xbf)]
  else if b = 0xe0 then some [(0xa0, 0xbf), (0x80, 0xbf)]
  else if b = 0xed then some [(0x80, 0x9f), (0x80, 0xbf)]
  else if 0xe1 ≤ b ∧ b ≤ 0xef then some [(0x80, 0xbf), (0x80, 0xbf)]
  else if b = 0xf0 then some [(0x90, 0xbf), (0x80, 0xbf), (0x80, 0xbf)]
  else if 0xf1 ≤ b ∧ b ≤ 0xf3 then some [(0x80, 0xbf), (0x80, 0xbf), (0x80, 0xbf)]
  else if b = 0xf4 then some [(0x80, 0x8f), (0x80, 0xbf), (0x80, 0xbf)]
  else none

/-- The first rune of `b :: s`, and what is behind it. -/
def decodeRune (b : UInt8) (s : List UInt8) : List UInt8 × List UInt8 :=
  match (followers b).bind fun ranges => within ranges s with
  | some t => (b :: t, s.drop t.length)
  | none => (runeError, s)

theorem length_decodeRune_le (b : UInt8) (s : List UInt8) :
    (decodeRune b s).2.length ≤ s.length := by
  unfold decodeRune
  split
  · rw [List.length_drop]
    exact Nat.sub_le ..
  · exact Nat.le_refl _

def runes : List UInt8 → List (List UInt8)
  | [] => []
  | b :: s => (decodeRune b s).1 :: runes (decodeRune b s).2
termination_by s => s.length
decreasing_by exact Nat.lt_succ_of_le (length_decodeRune_le b s)

theorem within_isPrefix {ranges : List (UInt8 × UInt8)} {s t : List UInt8}
    (h : within ranges s = some t) : t <+: s := by
  induction ranges generalizing s t with
  | nil =>
    obtain rfl := Option.some.inj h
    exact List.nil_prefix
  | cons r ranges ih =>
    cases s with
    | nil => cases h
    | cons b s =>
      unfold within at h
      split_ifs at h
      obtain ⟨t', ht', rfl⟩ := Option.map_eq_some_iff.mp h
      exact (List.prefix_cons_inj b).mpr (ih ht')

theorem mem_decodeRune {b x : UInt8} {s : List UInt8} :
    (x ∈ (decodeRune b s).1 → x ∈ b :: s ∨ x ∈ runeError) ∧ (x ∈ (decodeRune b s).2 → x ∈ s) := by
  unfold decodeRune
  cases ht : (followers b).bind fun ranges => within ranges s with
  | none => exact ⟨.inr, id⟩
  | some t =>
    obtain ⟨ranges, -, hwithin⟩ := Option.bind_eq_some_iff.mp ht
    refine ⟨fun hx => .inl ?_, List.mem_of_mem_drop⟩
    rcases List.mem_cons.mp hx with rfl | hx
    · exact List.mem_cons_self
    · exact List.mem_cons_of_mem b ((within_isPrefix hwithin).subset hx)

/-- The runes of a string are made of its bytes, and of U+FFFD. -/
theorem mem_runes {s r : List UInt8} {x : UInt8} (hr : r ∈ runes s) (hx : x ∈ r) :
    x ∈ s ∨ x ∈ runeError := by
  fun_induction runes s with
  | case1 => cases hr
  | case2 b s ih =>
    rcases List.mem_cons.mp hr with rfl | hr
    · exact mem_decodeRune.1 hx
    · rcases ih hr with hs | herr
      · exact .inl (List.mem_cons_of_mem b (mem_decodeRune.2 hs))
      · exact .inr herr

/-- Two bytes that are no sequence, and a sequence of three. -/
example : runes [0xc3, 0x28, 0xe2, 0x82, 0xac] = [runeError, [0x28], [0xe2, 0x82, 0xac]] := by
  decide +kernel

/-! ### Strings that are joined -/

theorem followers_ranges {b : UInt8} {ranges : List (UInt8 × UInt8)} (h : followers b = some ranges) :
    ∀ r ∈ ranges, 0x80 ≤ r.1 ∧ r.2 ≤ 0xbf := by
  unfold followers at h
  split_ifs at h <;> cases h <;> simp

theorem within_self {ranges : List (UInt8 × UInt8)} {s u : List UInt8}
    (h : within ranges s = some u) (t : List UInt8) : within ranges (u ++ t) = some u := by
  induction ranges generalizing s u with
  | nil =>
    obtain rfl := Option.some.inj h
    rfl
  | cons r ranges ih =>
    cases s with
    | nil => cases h
    | cons b s =>
      unfold within at h
      split_ifs at h with hb
      obtain ⟨u', hu', rfl⟩ := Option.map_eq_some_iff.mp h
      rw [List.cons_append, within, if_pos hb, ih hu', Option.map_some]

/-- A string that opens with no byte from inside of a sequence. -/
def Apart (t : List UInt8) : Prop := ∀ b ∈ t.head?, ¬(0x80 ≤ b ∧ b ≤ 0xbf)

theorem within_append {ranges : List (UInt8 × UInt8)} (hranges : ∀ r ∈ ranges, 0x80 ≤ r.1 ∧ r.2 ≤ 0xbf)
    (s : List UInt8) {t : List UInt8} (ht : Apart t) : within ranges (s ++ t) = within ranges s := by
  induction ranges generalizing s with
  | nil => rfl
  | cons r ranges ih =>
    obtain ⟨lo, hi⟩ := r
    cases s with
    | nil =>
      cases t with
      | nil => rfl
      | cons b t =>
        obtain ⟨hlo, hhi⟩ := hranges (lo, hi) List.mem_cons_self
        refine if_neg fun hb => ht b rfl ⟨?_, ?_⟩
        · exact UInt8.le_trans hlo hb.1
        · exact UInt8.le_trans hb.2 hhi
    | cons b s =>
      rw [List.cons_append, within, within, ih fun r hr => hranges r (List.mem_cons_of_mem _ hr)]

theorem decodeRune_append (b : UInt8) (s : List UInt8) {t : List UInt8} (ht : Apart t) :
    decodeRune b (s ++ t) = ((decodeRune b s).1, (decodeRune b s).2 ++ t) := by
  have hwithin : ((followers b).bind fun ranges => within ranges (s ++ t)) =
      (followers b).bind fun ranges => within ranges s := by
    cases hf : followers b with
    | none => rfl
    | some ranges => exact within_append (followers_ranges hf) s ht
  unfold decodeRune
  rw [hwithin]
  cases hu : (followers b).bind fun ranges => within ranges s with
  | none => rfl
  | some u =>
    obtain ⟨ranges, -, hprefix⟩ := Option.bind_eq_some_iff.mp hu
    have hle := (within_isPrefix hprefix).length_le
    dsimp only
    rw [List.drop_append_of_le_length hle]

/-- A string that opens with no byte from inside of a sequence is read by itself. -/
theorem runes_append (s : List UInt8) {t : List UInt8} (ht : Apart t) :
    runes (s ++ t) = runes s ++ runes t := by
  fun_induction runes s with
  | case1 => rfl
  | case2 b s ih =>
    rw [List.cons_append, runes, decodeRune_append b s ht, ih, List.cons_append]

/-- The encoding of one rune. -/
def IsRune (r : List UInt8) : Prop :=
  ∃ b u ranges, r = b :: u ∧ followers b = some ranges ∧ within ranges u = some u

theorem isRune_of_mem {s r : List UInt8} (hr : r ∈ runes s) : IsRune r := by
  have herror : IsRune runeError := ⟨0xef, [0xbf, 0xbd], _, rfl, rfl, by decide⟩
  fun_induction runes s with
  | case1 => cases hr
  | case2 b s ih =>
    rcases List.mem_cons.mp hr with rfl | hr
    · unfold decodeRune
      cases hu : (followers b).bind fun ranges => within ranges s with
      | none => exact herror
      | some u =>
        obtain ⟨ranges, hf, hwithin⟩ := Option.bind_eq_some_iff.mp hu
        have hself := within_self hwithin []
        rw [List.append_nil] at hself
        exact ⟨b, u, ranges, rfl, hf, hself⟩
    · exact ih hr

/-- What encodings are joined to is read as them again. -/
theorem runes_flatten (rs : List (List UInt8)) (h : ∀ r ∈ rs, IsRune r) (t : List UInt8) :
    runes (rs.flatten ++ t) = rs ++ runes t := by
  induction rs with
  | nil => rfl
  | cons r rs ih =>
    obtain ⟨b, u, ranges, rfl, hf, hwithin⟩ := h r List.mem_cons_self
    have hdecode : decodeRune b (u ++ (rs.flatten ++ t)) = (b :: u, rs.flatten ++ t) := by
      unfold decodeRune
      rw [hf, Option.bind_some, within_self hwithin]
      dsimp only
      rw [List.drop_left]
    rw [List.flatten_cons, List.append_assoc, List.cons_append, runes, hdecode,
      ih fun r hr => h r (List.mem_cons_of_mem _ hr), List.cons_append]

end Base
