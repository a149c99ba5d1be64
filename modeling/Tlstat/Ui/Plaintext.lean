import Tlstat.Ui.Text

/-! What the screen and the dump write of captured plaintext. Unlike the names, it is cleaned
first. -/

namespace Tlstat.Ui
open Base Tlstat.Model

/-- The mapping of `peekNote` and `tailNote`, on one rune. -/
def cleanRune : Bytes → Bytes
  | [b] => if b < 0x20 ∨ b > 0x7e then [0x2e] else [b]
  | _ => [0x2e]

/-- `strings.Map` -/
def clean (s : Bytes) : Bytes := (runes s).flatMap cleanRune

/-- `%q`, of a string of printable ASCII. -/
def quote (s : Bytes) : Bytes :=
  [0x22] ++ s.flatMap (fun b => if b = 0x22 ∨ b = 0x5c then [0x5c, b] else [b]) ++ [0x22]

/-- "→" -/
def rightArrow : Bytes := [0xe2, 0x86, 0x92]

/-- "←" -/
def leftArrow : Bytes := [0xe2, 0x86, 0x90]

/-- "  peek" -/
def peekText : Bytes := [0x20, 0x20, 0x70, 0x65, 0x65, 0x6b]

/-- "  tail" -/
def tailText : Bytes := [0x20, 0x20, 0x74, 0x61, 0x69, 0x6c]

/-- "(%dB):" -/
def sizeText (n : ℕ) : Bytes := [0x28] ++ digits 10 n ++ [0x42, 0x29, 0x3a]

/-- The start of the first non-empty plaintext, up to the end of its first line. -/
def peekNote (c : Conn) : Bytes :=
  let (data, arrow) :=
    if c.plain.headOut = [] then (c.plain.headIn, leftArrow) else (c.plain.headOut, rightArrow)
  if data = [] then []
  else
    let s := (data.takeWhile fun b => b ≠ 0x0d ∧ b ≠ 0x0a).take 48
    peekText ++ arrow ++ sizeText data.length ++ [0x20] ++ quote (clean s)

/-- The end of the received plaintext, or of the sent one if nothing was received. -/
def tailNote (c : Conn) : Bytes :=
  let data := if c.plain.tailIn = [] then c.plain.tailOut else c.plain.tailIn
  if data = [] then []
  else tailText ++ sizeText data.length ++ ellipsis ++ quote (clean (data.drop (data.length - 32)))

/-- `%0*x` -/
def hex (width n : ℕ) : Bytes :=
  List.replicate (width - (digits 16 n).length) 0x30 ++ digits 16 n

/-- One column of the middle panel. -/
def hexColumn (b : Bytes) (i j : ℕ) : Bytes :=
  (match b[i + j]? with
    | some c => hex 2 c.toNat ++ [0x20]
    | none => spaces 3) ++ if j = 7 then [0x20] else []

/-- A line of the dump, from the offset `i` on. -/
def hexLine (b : Bytes) (i : ℕ) : Bytes :=
  hex 4 i ++ spaces 2 ++ (List.range 16).flatMap (hexColumn b i) ++ [0x20, 0x7c] ++
    ((b.drop i).take 16).map (fun c => if 0x20 ≤ c ∧ c < 0x7f then c else 0x2e) ++ [0x7c]

/-- The lines of `hexDump`. -/
def hexDump (b : Bytes) (max : ℕ) : List Bytes :=
  let b := b.take max
  (List.range ((b.length + 15) / 16)).map fun k => hexLine b (16 * k)

section Harmless
variable {α : Type}

theorem harmless_flatMap {f : α → Bytes} {xs : List α} (h : ∀ x ∈ xs, Harmless (f x)) :
    Harmless (xs.flatMap f) := by
  intro b hb
  obtain ⟨x, hx, hbx⟩ := List.mem_flatMap.mp hb
  exact h x hx b hbx

theorem harmless_singleton {b : UInt8} : Harmless [b] ↔ ¬IsControl b := List.forall_mem_singleton

theorem not_control_of_printable {b : UInt8} (h : ¬(b < 0x20 ∨ b > 0x7e)) : ¬IsControl b := by
  rintro (hb | rfl)
  · exact h (.inl hb)
  · exact h (.inr (by decide))

/-- Whatever the bytes are. -/
theorem harmless_clean (s : Bytes) : Harmless (clean s) := by
  refine harmless_flatMap fun r _ => ?_
  unfold cleanRune
  split
  · split_ifs with hb
    · decide
    · exact harmless_singleton.mpr (not_control_of_printable hb)
  · decide

theorem harmless_quote {s : Bytes} (h : Harmless s) : Harmless (quote s) := by
  unfold quote
  rw [harmless_append, harmless_append]
  refine ⟨⟨by decide, harmless_flatMap fun b hb => ?_⟩, by decide⟩
  split_ifs
  · exact List.forall_mem_cons.mpr ⟨by decide, harmless_singleton.mpr (h b hb)⟩
  · exact harmless_singleton.mpr (h b hb)

theorem harmless_sizeText (n : ℕ) : Harmless (sizeText n) :=
  harmless_append.mpr ⟨harmless_append.mpr ⟨by decide, harmless_digits (by decide) n⟩, by decide⟩

theorem harmless_hex (width n : ℕ) : Harmless (hex width n) := by
  refine harmless_append.mpr ⟨fun b hb => ?_, harmless_digits (by decide) n⟩
  obtain rfl := List.eq_of_mem_replicate hb
  decide

theorem harmless_hexLine (b : Bytes) (i : ℕ) : Harmless (hexLine b i) := by
  unfold hexLine
  rw [harmless_append, harmless_append, harmless_append, harmless_append, harmless_append]
  refine ⟨⟨⟨⟨⟨harmless_hex 4 i, harmless_spaces 2⟩, ?_⟩, by decide⟩, ?_⟩, by decide⟩
  · refine harmless_flatMap fun j _ => ?_
    refine harmless_append.mpr ⟨?_, ?_⟩
    · cases b[i + j]? with
      | none => exact harmless_spaces 3
      | some c => exact harmless_append.mpr ⟨harmless_hex 2 _, by decide⟩
    · split_ifs <;> decide
  · intro x hx
    obtain ⟨c, -, rfl⟩ := List.mem_map.mp hx
    split_ifs with hc
    · refine not_control_of_printable (not_or.mpr ⟨UInt8.not_lt.mpr hc.1, fun hgt => ?_⟩)
      have hlt : c.toNat < 0x7f := hc.2
      have hgt' : 0x7e < c.toNat := hgt
      omega
    · decide

/-- **No plaintext that was captured puts a control character into the notes of the dump or the
lines of the peek panel.** -/
theorem harmless_plaintext (c : Conn) (data : Bytes) (max : ℕ) :
    Harmless (peekNote c) ∧ Harmless (tailNote c) ∧ ∀ l ∈ hexDump data max, Harmless l := by
  have hquote := fun s => harmless_quote (harmless_clean s)
  refine ⟨?_, ?_, fun l hl => ?_⟩
  · have hnote : ∀ data arrow : Bytes, Harmless arrow → Harmless (if data = [] then [] else
        peekText ++ arrow ++ sizeText data.length ++ [0x20] ++
          quote (clean ((data.takeWhile fun b => b ≠ 0x0d ∧ b ≠ 0x0a).take 48))) := by
      intro data arrow harrow
      split_ifs
      · exact harmless_nil
      · rw [harmless_append, harmless_append, harmless_append, harmless_append]
        exact ⟨⟨⟨⟨by decide, harrow⟩, harmless_sizeText _⟩, by decide⟩, hquote _⟩
    unfold peekNote
    split_ifs
    · exact hnote _ _ (by decide)
    · exact hnote _ _ (by decide)
  · unfold tailNote
    dsimp only
    split_ifs
    all_goals first
      | exact harmless_nil
      | rw [harmless_append, harmless_append, harmless_append]
        exact ⟨⟨⟨by decide, harmless_sizeText _⟩, by decide⟩, hquote _⟩
  · obtain ⟨k, -, rfl⟩ := List.mem_map.mp hl
    exact harmless_hexLine _ _

end Harmless

end Tlstat.Ui
