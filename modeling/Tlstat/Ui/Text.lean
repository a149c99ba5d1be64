import Mathlib.Data.UInt
import Tlstat.Base.Runes
import Tlstat.Model.Conn

/-! What the screen and the dump write of a connection, as text, before any styling. -/

namespace Tlstat.Ui
open Base Tlstat.Model

def spaces (n : ℕ) : Bytes := List.replicate n 0x20

/-- "…" -/
def ellipsis : Bytes := [0xe2, 0x80, 0xa6]

/-- "—" -/
def emDash : Bytes := [0xe2, 0x80, 0x94]

/-- Pads or truncates to `w` runes. -/
def trunc (s : Bytes) (w : ℕ) : Bytes :=
  if w = 0 then []
  else if (runes s).length > w then
    if w = 1 then ellipsis else ((runes s).take (w - 1)).flatten ++ ellipsis
  else s ++ spaces (w - (runes s).length)

def orDash (s : Bytes) : Bytes := if s = [] then emDash else s

/-- `fmt`'s `%-*s`. -/
def padRight (w : ℕ) (s : Bytes) : Bytes := s ++ spaces (w - (runes s).length)

/-! ### `netip.AddrPort.String` -/

def digits (base n : ℕ) : Bytes := (Nat.toDigits base n).map fun c => c.toNat.toUInt8

def dotted (b : Bytes) : Bytes := [0x2e].intercalate (b.map fun x => digits 10 x.toNat)

def groups : Bytes → List ℕ
  | a :: b :: rest => (a.toNat * 256 + b.toNat) :: groups rest
  | _ => []

/-- The longest run of zero groups, of two or more, and of several the first. -/
def zeroRun (gs : List ℕ) : ℕ × ℕ :=
  (List.range gs.length).foldl (fun z i =>
    let l := ((gs.drop i).takeWhile (· = 0)).length
    if 2 ≤ l ∧ z.2 - z.1 < l then (i, i + l) else z) (255, 255)

def colons (gs : List ℕ) : Bytes := [0x3a].intercalate (gs.map (digits 16))

def ipv6Text (b : Bytes) : Bytes :=
  let gs := groups b
  let z := zeroRun gs
  if z.1 = 255 then colons gs else colons (gs.take z.1) ++ [0x3a, 0x3a] ++ colons (gs.drop z.2)

def is4In6 (b : Bytes) : Bool := b.take 12 = List.replicate 10 0 ++ [0xff, 0xff]

/-- "invalid AddrPort" -/
def invalidText : Bytes :=
  [0x69, 0x6e, 0x76, 0x61, 0x6c, 0x69, 0x64, 0x20, 0x41, 0x64, 0x64, 0x72, 0x50, 0x6f, 0x72, 0x74]

/-- "::ffff:" -/
def mappedText : Bytes := [0x3a, 0x3a, 0x66, 0x66, 0x66, 0x66, 0x3a]

def addrPortText (a : AddrPort) : Bytes :=
  match a.addr with
  | .invalid => invalidText
  | .v4 b => dotted b ++ [0x3a] ++ digits 10 a.port.toNat
  | .v6 b =>
    let host := if is4In6 b then mappedText ++ dotted (b.drop 12) else ipv6Text b
    [0x5b] ++ host ++ [0x5d, 0x3a] ++ digits 10 a.port.toNat

/-! ### `renderRow`, `renderDetail` -/

def wRemote : ℕ := 24

/-- The REMOTE / SNI column. -/
def remoteColumn (c : Conn) : Bytes :=
  let remote := orDash c.info.sni
  trunc (if remote = emDash then addrPortText c.remote else remote) wRemote

/-- "  (cert CN=" -/
def certOpen : Bytes := [0x20, 0x20, 0x28, 0x63, 0x65, 0x72, 0x74, 0x20, 0x43, 0x4e, 0x3d]

/-- The server line, behind its label. -/
def serverText (c : Conn) : Bytes :=
  orDash (if c.info.certSubject ≠ [] then
    orDash c.info.sni ++ certOpen ++ c.info.certSubject ++ [0x29] else c.info.sni)

/-- The alpn line, behind its label, if there is one. -/
def alpnText (c : Conn) : Option Bytes :=
  if c.info.alpn.length > 0 then some (orDash ([0x2c, 0x20].intercalate c.info.alpn)) else none

/-! ### `runDump` -/

/-- "CN=" -/
def cnText : Bytes := [0x43, 0x4e, 0x3d]

/-- The id of a live connection, if it is printed. -/
def dumpLive (c : Conn) : Option Bytes :=
  if !c.isTLS || !c.hasEndpoint then none
  else
    let id := c.info.sni
    let id := if id = [] ∧ c.info.certSubject ≠ [] then cnText ++ c.info.certSubject else id
    some (padRight 28 (if id = [] then addrPortText c.remote else id))

/-- The id of a retired connection, if it is printed. -/
def dumpClosed (c : Conn) : Option Bytes :=
  if !c.isTLS then none
  else some (padRight 24 (if c.info.sni = [] then addrPortText c.remote else c.info.sni))

/-- The texts of a connection of the snapshot. -/
def liveTexts (c : Conn) : List Bytes :=
  remoteColumn c :: serverText c :: ((alpnText c).toList ++ (dumpLive c).toList)

/-- The texts of a connection of the history. -/
def closedTexts (c : Conn) : List Bytes :=
  remoteColumn c :: serverText c :: ((alpnText c).toList ++ (dumpClosed c).toList)

/-! ### Control characters -/

/-- In UTF-8 these bytes are the characters with these codes, and no part of another one. -/
def IsControl (b : UInt8) : Prop := b < 0x20 ∨ b = 0x7f

instance (b : UInt8) : Decidable (IsControl b) := inferInstanceAs (Decidable (_ ∨ _))

def Harmless (s : Bytes) : Prop := ∀ b ∈ s, ¬IsControl b

instance (s : Bytes) : Decidable (Harmless s) := List.decidableBAll (fun b => ¬IsControl b) s

section Harmless
variable {s t : Bytes} {w : ℕ}

theorem harmless_append : Harmless (s ++ t) ↔ Harmless s ∧ Harmless t := List.forall_mem_append

theorem harmless_nil : Harmless [] := fun _ h => nomatch h

theorem harmless_spaces (n : ℕ) : Harmless (spaces n) := by
  intro b hb
  obtain rfl := List.eq_of_mem_replicate hb
  decide

theorem harmless_orDash : Harmless (orDash s) ↔ Harmless s := by
  unfold orDash
  split_ifs with hs
  · rw [hs]
    exact iff_of_true (by decide) harmless_nil
  · exact Iff.rfl

theorem harmless_padRight : Harmless (padRight w s) ↔ Harmless s := by
  unfold padRight
  rw [harmless_append, and_iff_left (harmless_spaces _)]

/-- A text that is cut is made of the runes it keeps. -/
theorem Harmless.trunc (h : Harmless s) : Harmless (trunc s w) := by
  unfold Ui.trunc
  split_ifs
  · exact harmless_nil
  · decide
  · refine harmless_append.mpr ⟨fun b hb => ?_, by decide⟩
    obtain ⟨r, hr, hbr⟩ := List.mem_flatten.mp hb
    rcases mem_runes (List.mem_of_mem_take hr) hbr with hs | herr
    · exact h b hs
    · have hfixed : Harmless runeError := by decide
      exact hfixed b herr
  · exact harmless_append.mpr ⟨h, harmless_spaces _⟩

theorem harmless_intercalate {sep : Bytes} (hsep : Harmless sep) {ss : List Bytes} :
    Harmless (sep.intercalate ss) ↔ ∀ s ∈ ss, Harmless s := by
  induction ss with
  | nil => exact iff_of_true harmless_nil fun _ h => nomatch h
  | cons s ss ih =>
    cases ss with
    | nil =>
      rw [List.intercalate_singleton]
      exact List.forall_mem_singleton.symm
    | cons s' ss =>
      rw [List.intercalate_cons_cons, harmless_append, harmless_append, ih, and_iff_left hsep]
      exact List.forall_mem_cons.symm

theorem mem_toDigitsCore {base : ℕ} {ch : Char} {ds : List Char} (hbase : 0 < base) (fuel n : ℕ)
    (h : ch ∈ Nat.toDigitsCore base fuel n ds) :
    ch ∈ ds ∨ ∃ d, d < base ∧ ch = Nat.digitChar d := by
  induction fuel generalizing n ds with
  | zero => exact .inl h
  | succ fuel ih =>
    rw [Nat.toDigitsCore] at h
    have hcons : ch ∈ Nat.digitChar (n % base) :: ds →
        ch ∈ ds ∨ ∃ d, d < base ∧ ch = Nat.digitChar d := by
      intro hmem
      rcases List.mem_cons.mp hmem with rfl | hmem
      · exact .inr ⟨_, Nat.mod_lt n hbase, rfl⟩
      · exact .inl hmem
    split_ifs at h
    · exact hcons h
    · rcases ih _ h with hmem | hdigit
      · exact hcons hmem
      · exact .inr hdigit

theorem digitChar_not_control : ∀ d < 16, ¬IsControl (Nat.digitChar d).toNat.toUInt8 := by decide

theorem harmless_digits {base : ℕ} (hbase : 0 < base ∧ base ≤ 16) (n : ℕ) :
    Harmless (digits base n) := by
  intro b hb
  obtain ⟨ch, hch, rfl⟩ := List.mem_map.mp hb
  rcases mem_toDigitsCore hbase.1 _ _ hch with hnil | ⟨d, hd, rfl⟩
  · cases hnil
  · exact digitChar_not_control d (hd.trans_le hbase.2)

theorem harmless_dotted (b : Bytes) : Harmless (dotted b) := by
  refine (harmless_intercalate (by decide)).mpr fun s hs => ?_
  obtain ⟨x, -, rfl⟩ := List.mem_map.mp hs
  exact harmless_digits (by decide) _

theorem harmless_colons (gs : List ℕ) : Harmless (colons gs) := by
  refine (harmless_intercalate (by decide)).mpr fun s hs => ?_
  obtain ⟨g, -, rfl⟩ := List.mem_map.mp hs
  exact harmless_digits (by decide) g

theorem harmless_ipv6Text (b : Bytes) : Harmless (ipv6Text b) := by
  unfold ipv6Text
  dsimp only
  split_ifs
  · exact harmless_colons _
  · exact harmless_append.mpr
      ⟨harmless_append.mpr ⟨harmless_colons _, by decide⟩, harmless_colons _⟩

/-- An address is printed in digits, dots, colons and brackets. -/
theorem harmless_addrPortText (a : AddrPort) : Harmless (addrPortText a) := by
  unfold addrPortText
  cases a.addr with
  | invalid =>
    change Harmless invalidText
    decide
  | v4 b =>
    exact harmless_append.mpr
      ⟨harmless_append.mpr ⟨harmless_dotted b, by decide⟩, harmless_digits (by decide) _⟩
  | v6 b =>
    refine harmless_append.mpr ⟨harmless_append.mpr ⟨harmless_append.mpr ⟨by decide, ?_⟩, by decide⟩,
      harmless_digits (by decide) _⟩
    split_ifs
    · exact harmless_append.mpr ⟨by decide, harmless_dotted _⟩
    · exact harmless_ipv6Text b

end Harmless

/-! ### One connection -/

section Conn
variable {c : Conn}

/-- Everything a text can take from the peer. -/
structure Named (c : Conn) : Prop where
  sni : Harmless c.info.sni
  subject : Harmless c.info.certSubject
  alpn : ∀ p ∈ c.info.alpn, Harmless p

theorem Named.remoteColumn (h : Named c) : Harmless (remoteColumn c) := by
  refine Harmless.trunc ?_
  split_ifs
  · exact harmless_addrPortText _
  · exact harmless_orDash.mpr h.sni

theorem harmless_serverText : Harmless (serverText c) ↔
    Harmless c.info.sni ∧ Harmless c.info.certSubject := by
  unfold serverText
  rw [harmless_orDash]
  by_cases hs : c.info.certSubject = []
  · rw [if_neg (not_not.mpr hs), hs]
    exact (and_iff_left harmless_nil).symm
  · have hopen : Harmless certOpen := by decide
    have hclose : Harmless [0x29] := by decide
    rw [if_pos hs, harmless_append, harmless_append, harmless_append, harmless_orDash,
      and_iff_left hclose, and_iff_left hopen]

theorem harmless_alpnText : (∀ t ∈ (alpnText c).toList, Harmless t) ↔
    ∀ p ∈ c.info.alpn, Harmless p := by
  unfold alpnText
  split_ifs with hne
  · rw [Option.toList_some, List.forall_mem_singleton, harmless_orDash,
      harmless_intercalate (by decide)]
  · have hnil : c.info.alpn = [] := List.length_eq_zero_iff.mp (Nat.eq_zero_of_not_pos hne)
    rw [hnil]
    exact Iff.rfl

theorem Named.dumpLive (h : Named c) : ∀ t ∈ (dumpLive c).toList, Harmless t := by
  intro t ht
  unfold Ui.dumpLive at ht
  split_ifs at ht
  · cases ht
  · obtain rfl := List.mem_singleton.mp ht
    refine harmless_padRight.mpr ?_
    split_ifs
    · exact harmless_addrPortText _
    · exact harmless_append.mpr ⟨by decide, h.subject⟩
    · exact harmless_addrPortText _
    · exact h.sni

theorem Named.dumpClosed (h : Named c) : ∀ t ∈ (dumpClosed c).toList, Harmless t := by
  intro t ht
  unfold Ui.dumpClosed at ht
  split_ifs at ht
  · cases ht
  · obtain rfl := List.mem_singleton.mp ht
    exact harmless_padRight.mpr (harmless_addrPortText _)
  · obtain rfl := List.mem_singleton.mp ht
    exact harmless_padRight.mpr h.sni

/-- The server line and the alpn line show everything, so with them all texts are harmless. -/
theorem harmless_texts {dump : List Bytes} (hdump : Named c → ∀ t ∈ dump, Harmless t) :
    (∀ t ∈ remoteColumn c :: serverText c :: ((alpnText c).toList ++ dump), Harmless t) ↔
      Named c := by
  rw [List.forall_mem_cons, List.forall_mem_cons, List.forall_mem_append, harmless_serverText,
    harmless_alpnText]
  constructor
  · rintro ⟨-, ⟨hsni, hsubject⟩, halpn, -⟩
    exact ⟨hsni, hsubject, halpn⟩
  · intro h
    exact ⟨h.remoteColumn, ⟨h.sni, h.subject⟩, h.alpn, hdump h⟩

theorem harmless_liveTexts : (∀ t ∈ liveTexts c, Harmless t) ↔ Named c :=
  harmless_texts Named.dumpLive

theorem harmless_closedTexts : (∀ t ∈ closedTexts c, Harmless t) ↔ Named c :=
  harmless_texts Named.dumpClosed

end Conn

end Tlstat.Ui
