import Tlstat.Model.Proc
import Tlstat.Ui.Checked

/-! The panel of captured plaintext, read back: its hex columns give the bytes it was made of. -/

namespace Tlstat.Ui
open Base Tlstat.Model

/-! ### Reading a panel -/

/-- Two hex digits. -/
def readByte : Bytes → Option UInt8
  | high :: low :: _ => (hexValue [high, low] 0).map UInt8.ofNat
  | _ => none

/-- The columns `js` of the middle panel, with the gap behind the eighth. -/
def readColumns : List ℕ → Bytes → Bytes
  | [], _ => []
  | j :: js, s => (readByte s).toList ++ readColumns js (s.drop (if j = 7 then 4 else 3))

/-- A line, behind its offset and the two spaces. -/
def readLine (l : Bytes) : Bytes := readColumns (List.range 16) ((l.dropWhile (· ≠ 0x20)).drop 2)

def readDump (text : Bytes) : Bytes := (text.splitOn 0x0a).flatMap readLine

/-! ### A line -/

section Line
variable {b : Bytes} {i j : ℕ}

theorem hexValue_hex : ∀ n < 256, (hex 2 n).length = 2 ∧ hexValue (hex 2 n) 0 = some n := by
  decide +kernel

theorem readByte_hex (c : UInt8) (rest : Bytes) : readByte (hex 2 c.toNat ++ rest) = some c := by
  obtain ⟨hlen, hval⟩ := hexValue_hex c.toNat c.toNat_lt
  obtain ⟨high, low, hdigits⟩ := List.length_eq_two.mp hlen
  rw [hdigits] at hval ⊢
  change (hexValue [high, low] 0).map UInt8.ofNat = some c
  rw [hval, Option.map_some, UInt8.ofNat_toNat]

theorem readColumn (b : Bytes) (i j : ℕ) (rest : Bytes) :
    readByte (hexColumn b i j ++ rest) = b[i + j]? ∧
    (hexColumn b i j ++ rest).drop (if j = 7 then 4 else 3) = rest := by
  have hgap : ∀ column : Bytes, column.length = 3 →
      (column ++ (if j = 7 then [0x20] else []) ++ rest).drop (if j = 7 then 4 else 3) = rest := by
    intro column hlen
    split_ifs
    · exact List.drop_left' (by simp [hlen])
    · exact List.drop_left' (by simp [hlen])
  unfold hexColumn
  cases b[i + j]? with
  | none =>
    exact ⟨rfl, hgap _ rfl⟩
  | some c =>
    have hlen := (hexValue_hex c.toNat c.toNat_lt).1
    refine ⟨?_, hgap _ (by simp [hlen])⟩
    dsimp only
    rw [List.append_assoc, List.append_assoc]
    exact readByte_hex c _

theorem readColumns_hex (b : Bytes) (i : ℕ) (js : List ℕ) (rest : Bytes) :
    readColumns js (js.flatMap (hexColumn b i) ++ rest) = js.filterMap fun j => b[i + j]? := by
  induction js with
  | nil => rfl
  | cons j js ih =>
    obtain ⟨hbyte, hdrop⟩ := readColumn b i j (js.flatMap (hexColumn b i) ++ rest)
    rw [List.flatMap_cons, List.append_assoc]
    unfold readColumns
    rw [hbyte, hdrop, ih]
    rw [List.filterMap_cons]
    cases b[i + j]? with
    | none => rfl
    | some c => rfl

theorem filterMap_range (b : Bytes) (i n : ℕ) :
    ((List.range n).filterMap fun j => b[i + j]?) = (b.drop i).take n := by
  induction n with
  | zero => rw [List.take_zero]; rfl
  | succ n ih =>
    rw [List.range_succ, List.filterMap_append, ih, List.take_add_one, List.getElem?_drop]
    cases h : b[i + n]? <;> simp [h]

theorem digitChar_ne_space : ∀ d < 16, (Nat.digitChar d).toNat.toUInt8 ≠ 0x20 := by decide

theorem space_notMem_hex (width n : ℕ) : ∀ c ∈ hex width n, c ≠ 0x20 := by
  intro c hc
  rcases List.mem_append.mp hc with hc | hc
  · obtain rfl := List.eq_of_mem_replicate hc
    decide
  · obtain ⟨ch, hch, rfl⟩ := List.mem_map.mp hc
    rcases mem_toDigitsCore (by decide) _ _ hch with hnil | ⟨d, hd, rfl⟩
    · cases hnil
    · exact digitChar_ne_space d hd

theorem readLine_hexLine (b : Bytes) (i : ℕ) : readLine (hexLine b i) = (b.drop i).take 16 := by
  unfold readLine hexLine
  simp only [List.append_assoc]
  rw [List.dropWhile_append_of_pos fun c hc => by simpa using space_notMem_hex 4 i c hc]
  change readColumns (List.range 16) ((List.range 16).flatMap (hexColumn b i) ++ _) = _
  rw [readColumns_hex, filterMap_range]

end Line

/-! ### The lines -/

theorem flatMap_chunks (b : Bytes) (n : ℕ) :
    ((List.range n).flatMap fun k => (b.drop (16 * k)).take 16) = b.take (16 * n) := by
  induction n with
  | zero => rfl
  | succ n ih =>
    rw [List.range_succ, List.flatMap_append, ih, List.flatMap_singleton, Nat.mul_succ, List.take_add]

theorem readLines (ls : List Bytes) (h : ∀ l ∈ ls, (0x0a : UInt8) ∉ l) :
    readDump (ls.flatMap (· ++ [0x0a])) = ls.flatMap readLine := by
  unfold readDump
  induction ls with
  | nil =>
    rw [List.flatMap_nil, List.splitOn_nil]
    decide
  | cons l ls ih =>
    rw [List.flatMap_cons, List.append_assoc, List.singleton_append,
      List.splitOn_append_cons_self, List.splitOn_eq_singleton (h l List.mem_cons_self),
      List.flatMap_append, List.flatMap_singleton, List.flatMap_cons,
      ih fun l' hl' => h l' (List.mem_cons_of_mem l hl')]

/-- **A panel shows the bytes it was made of.** For every limit that is not negative `hexDump` indexes
nothing out of range, and whoever reads its hex columns line by line gets the first `max` bytes back,
all of them and in order, whatever they are. -/
theorem readDump_hexDump (b : Bytes) (max : ℕ) :
    ∃ text, Checked.hexDump b max = .ok text ∧ readDump text = b.take max := by
  refine ⟨_, Checked.hexDump_eq b max, ?_⟩
  rw [readLines]
  · unfold hexDump
    rw [List.flatMap_map]
    simp only [readLine_hexLine]
    rw [flatMap_chunks, List.take_of_length_le (by omega)]
  · intro l hl
    obtain ⟨k, -, rfl⟩ := List.mem_map.mp hl
    exact fun hmem => harmless_hexLine _ _ 0x0a hmem (.inl (by decide))

end Tlstat.Ui
