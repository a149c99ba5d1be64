import Mathlib.Data.List.Infix
import Tlstat.Model.Proc
import Tlstat.Tlsparse.Labels

/-! The library the uprobes go to, where none is named: one of a few usual places, or else what the
listing of the linker's cache says. -/

namespace Tlstat.Loader
open Model Tlsparse

/-! ### Text -/

/-- `strings.LastIndex` -/
def lastIndex (sub : Bytes) : Bytes → Option ℕ
  | [] => if sub = [] then some 0 else none
  | c :: s =>
    match lastIndex sub s with
    | some i => some (i + 1)
    | none => if sub <+: c :: s then some 0 else none

/-- The text behind its leading white space. -/
def trimLeft (skip : ℕ) : Bytes → Bytes
  | [] => []
  | c :: s =>
    match skip with
    | n + 1 => trimLeft n s
    | 0 =>
      match spaceWidth (c :: s) with
      | 0 => c :: s
      | n + 1 => trimLeft n s

/-- The text before its trailing white space. A space has three bytes at most. -/
def trimRight : ℕ → Bytes → Bytes
  | 0, s => s
  | fuel + 1, s =>
    match [1, 2, 3].find? fun k => k ≤ s.length && spaceWidth (s.drop (s.length - k)) = k with
    | none => s
    | some k => trimRight fuel (s.take (s.length - k))

/-- `strings.TrimSpace` -/
def trimSpace (s : Bytes) : Bytes := trimRight s.length (trimLeft 0 s)

/-! ### The search -/

def candidates : List String :=
  ["/usr/lib/x86_64-linux-gnu/libssl.so.3",
    "/usr/lib/x86_64-linux-gnu/libssl.so.1.1",
    "/lib/x86_64-linux-gnu/libssl.so.3",
    "/usr/lib64/libssl.so.3",
    "/usr/lib/libssl.so.3"]

/-- What the host answers: whether a file is there, and what `ldconfig -p` prints if it runs. -/
structure Host where
  stat : String → Bool
  ldconfig : Option Bytes

/-- "libssl.so.3" -/
def libsslName : Bytes := [0x6c, 0x69, 0x62, 0x73, 0x73, 0x6c, 0x2e, 0x73, 0x6f, 0x2e, 0x33]

/-- "=> " -/
def arrow : Bytes := [0x3d, 0x3e, 0x20]

def scanCache : List Bytes → Bytes
  | [] => []
  | line :: lines =>
    if libsslName <:+: line then
      match lastIndex arrow line with
      | some i => trimSpace (line.drop (i + 3))
      | none => scanCache lines
    else scanCache lines

def findLibssl (h : Host) : Bytes :=
  match candidates.find? h.stat with
  | some c => utf8 c
  | none =>
    match h.ldconfig with
    | none => []
    | some out => scanCache (out.splitOn 0x0a)

/-! ### The listing -/

/-- A line of the listing: a library, with its name and flags in front of the arrow and its path
behind it, or a remark. -/
inductive CacheLine
  | library (front path : Bytes)
  | remark (text : Bytes)

namespace CacheLine

def text : CacheLine → Bytes
  | library front path => front ++ (arrow ++ path)
  | remark text => text

def path : CacheLine → Bytes
  | library _ path => path
  | remark _ => []

/-- A line is one line; a path holds no arrow, and a remark does not name the library. -/
structure Plain (l : CacheLine) : Prop where
  one : 0x0a ∉ l.text
  path : ¬arrow <:+: l.path
  remark : ∀ text, l = .remark text → ¬libsslName <:+: text

end CacheLine

theorem lastIndex_none {sub s : Bytes} (h : ¬sub <:+: s) : lastIndex sub s = none := by
  induction s with
  | nil =>
    have hsub : sub ≠ [] := fun heq => h (heq ▸ List.infix_rfl)
    exact if_neg hsub
  | cons c s ih =>
    rw [lastIndex, ih fun hs => h (hs.trans (List.suffix_cons c s).isInfix)]
    exact if_neg fun hpre => h hpre.isInfix

theorem lastIndex_append {sub t : Bytes} {i : ℕ} (h : lastIndex sub t = some i) (s : Bytes) :
    lastIndex sub (s ++ t) = some (s.length + i) := by
  induction s with
  | nil => rw [List.nil_append, List.length_nil, Nat.zero_add, h]
  | cons c s ih =>
    rw [List.cons_append, lastIndex, ih, List.length_cons]
    exact congrArg some (Nat.add_right_comm _ _ _)

theorem lastIndex_arrow {path : Bytes} (h : ¬arrow <:+: path) :
    lastIndex arrow (arrow ++ path) = some 0 := by
  have hhead : ∀ {c : UInt8} {s : Bytes}, c ≠ 0x3d → ¬arrow <+: c :: s := fun hc hpre =>
    hc (List.cons_prefix_cons.mp hpre).1.symm
  change lastIndex arrow (0x3d :: 0x3e :: 0x20 :: path) = some 0
  rw [lastIndex, lastIndex, lastIndex, lastIndex_none h]
  dsimp only
  rw [if_neg (hhead (by decide))]
  dsimp only
  rw [if_neg (hhead (by decide))]
  dsimp only
  exact if_pos (List.prefix_append arrow path)

theorem scanCache_lines {ls : List CacheLine} (h : ∀ l ∈ ls, l.Plain) :
    scanCache (ls.map CacheLine.text ++ [[]]) =
      ((ls.find? fun l => libsslName <:+: l.text).map fun l => trimSpace l.path).getD [] := by
  induction ls with
  | nil => rfl
  | cons l ls ih =>
    have hl := h l List.mem_cons_self
    rw [List.map_cons, List.cons_append, scanCache]
    by_cases hname : libsslName <:+: l.text
    · rw [if_pos hname, List.find?_cons_of_pos (by simpa using hname)]
      cases l with
      | remark text => exact absurd hname (hl.remark text rfl)
      | library front path =>
        have hindex : lastIndex arrow (front ++ (arrow ++ path)) = some front.length :=
          lastIndex_append (lastIndex_arrow hl.path) front
        have hbehind : (front ++ (arrow ++ path)).drop (front.length + 3) = path := by
          rw [← List.append_assoc]
          exact List.drop_left' (by simp [arrow])
        change (match lastIndex arrow (front ++ (arrow ++ path)) with
          | some i => trimSpace ((front ++ (arrow ++ path)).drop (i + 3))
          | none => _) = _
        rw [hindex]
        dsimp only
        rw [hbehind]
        rfl
    · rw [if_neg hname, List.find?_cons_of_neg (by simpa using hname)]
      exact ih fun l' hl' => h l' (List.mem_cons_of_mem l hl')

theorem splitOn_lines {ls : List CacheLine} (h : ∀ l ∈ ls, l.Plain) :
    (unlines (ls.map CacheLine.text)).splitOn 0x0a = ls.map CacheLine.text ++ [[]] := by
  unfold unlines
  induction ls with
  | nil => exact List.splitOn_nil 0x0a
  | cons l ls ih =>
    have hl := h l List.mem_cons_self
    rw [List.map_cons, List.flatMap_cons, List.append_assoc, List.singleton_append,
      List.splitOn_append_cons_self, List.splitOn_eq_singleton hl.one,
      ih fun l' hl' => h l' (List.mem_cons_of_mem l hl')]
    rfl

/-- **The library is found where it is listed.** If one of the usual places has a file, it is the first
of them. If none has, and `ldconfig` prints any libraries and remarks, each on its line, it is the path
of the first library whose line names it, and if no line does, or `ldconfig` fails, there is none. -/
theorem findLibssl_listing (h : Host) (ls : Option (List CacheLine))
    (hldconfig : h.ldconfig = ls.map fun ls => unlines (ls.map CacheLine.text))
    (hls : ∀ l ∈ ls.getD [], l.Plain) :
    findLibssl h = ((candidates.find? h.stat).map utf8).getD
      ((((ls.getD []).find? fun l => libsslName <:+: l.text).map fun l => trimSpace l.path).getD []) := by
  unfold findLibssl
  cases candidates.find? h.stat with
  | some c => rfl
  | none =>
    rw [hldconfig]
    cases ls with
    | none => rfl
    | some ls =>
      have hplain : ∀ l ∈ ls, l.Plain := hls
      change scanCache ((unlines (ls.map CacheLine.text)).splitOn 0x0a) = _
      rw [splitOn_lines hplain, scanCache_lines hplain]
      rfl

/-- A remark and two libraries, the second of which is at "/s". -/
def cacheLines : List CacheLine :=
  [.remark [0x31], .library [0x09, 0x6c, 0x20] [0x2f, 0x6c],
    .library ([0x09] ++ libsslName ++ [0x20]) [0x2f, 0x73]]

theorem plain_cacheLines : ∀ l ∈ cacheLines, l.Plain := by
  intro l hl
  unfold cacheLines at hl
  rcases List.mem_cons.mp hl with rfl | hl
  · refine ⟨by decide, by decide, fun text heq => ?_⟩
    obtain rfl := CacheLine.remark.inj heq
    decide
  · rcases List.mem_pair.mp hl with rfl | rfl
    · exact ⟨by decide, by decide, fun text heq => CacheLine.noConfusion heq⟩
    · exact ⟨by decide, by decide, fun text heq => CacheLine.noConfusion heq⟩

theorem findLibssl_listing_second : findLibssl ⟨fun _ => false,
    some (unlines (cacheLines.map CacheLine.text))⟩ = [0x2f, 0x73] :=
  (findLibssl_listing ⟨fun _ => false, some (unlines (cacheLines.map CacheLine.text))⟩
    (some cacheLines) rfl plain_cacheLines).trans (by decide +kernel)

end Tlstat.Loader
