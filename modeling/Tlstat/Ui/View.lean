import Tlstat.Ui.Checked

/-! `View`: the title, the table and the detail panel of the selected row. -/

namespace Tlstat.Ui.Checked
open Base Base.Checked Tlsparse Tlstat.Model

inductive Style
  | plain
  | header
  | sel
  | tls
  | dim
  | label
  | title
  | warn
deriving DecidableEq, Repr

/-- A piece of text and the style it is rendered in. -/
structure Span where
  style : Style := .plain
  text : Bytes
deriving DecidableEq, Repr

def span (style : Style) (s : String) : Span := ⟨style, utf8 s⟩

def newline : Span := ⟨.plain, [0x0a]⟩

/-- What the printing of times takes from the clock: `time.Since` in nanoseconds, and the time
from the first to the second argument, rounded to milliseconds, as `%s` prints it. -/
structure Clock where
  since : Time → ℤ
  lifetime : Time → Time → Bytes

/-- `%d` -/
def decimal (n : ℤ) : Bytes := if n < 0 then 0x2d :: digits 10 n.natAbs else digits 10 n.natAbs

def second : ℤ := 1000000000
def minute : ℤ := 60 * second
def hour : ℤ := 60 * minute

def ago (clock : Clock) (t : Time) : Bytes :=
  let d := clock.since t
  if d < minute then decimal (d.tdiv second) ++ utf8 "s ago"
  else if d < hour then decimal (d.tdiv minute) ++ utf8 "m ago"
  else decimal (d.tdiv hour) ++ utf8 "h ago"

/-! ### `renderRow` -/

def wPID : ℕ := 7
def wComm : ℕ := 14
def wVer : ℕ := 8
def wCipher : ℕ := 30
def wIO : ℕ := 18
def wState : ℕ := 9

def io (up down : UInt64) : Checked Bytes := do
  let up ← humanBytes up
  let down ← humanBytes down
  return up ++ utf8 "/" ++ down

/-- The VER and CIPHER columns. -/
def verCipher (c : Conn) : Bytes × Bytes :=
  let ver := versionName c.info.negVersion
  if c.preexisting ∧ ver = [] then (utf8 "?", utf8 "(pre-existing)")
  else (ver, cipherName c.info.cipherSuite)

/-- Close age for retired rows, TCP/TLS state otherwise. -/
def lastColumn (clock : Clock) (c : Conn) : Bytes :=
  if c.closedAt ≠ 0 then ago clock c.closedAt
  else if c.closed then utf8 "clos"
  else if c.isTLS then utf8 "TLS"
  else emDash

def rowStyle (c : Conn) (selected : Bool) : Style :=
  if selected then .sel
  else if c.closedAt ≠ 0 then .dim
  else if c.isTLS then .tls
  else .dim

def renderRow (clock : Clock) (c : Conn) (selected : Bool) : Checked Span := do
  let remote := orDash c.info.sni
  let remote := if remote = emDash then addrPortText c.remote else remote
  let (ver, cipher) := verCipher c
  let pid ← trunc (digits 10 c.pid.toNat) wPID
  let comm ← trunc c.comm wComm
  let remote ← trunc remote wRemote
  let ver ← trunc ver wVer
  let cipher ← trunc cipher wCipher
  let wire ← trunc (← io c.txBytes c.rxBytes) wIO
  let plain ← trunc (← io c.ptxBytes c.prxBytes) wIO
  let last ← trunc (lastColumn clock c) wState
  let cols := (utf8 " ").intercalate [pid, comm, remote, ver, cipher, wire, plain, last]
  return ⟨rowStyle c selected, cols⟩

/-! ### `renderDetail` -/

def dash (style : Style) (s : Bytes) : Span := ⟨style, orDash s⟩

def lab (k : String) (v : Span) : Checked (List Span) := do
  let k ← trunc (utf8 k) 14
  return [span .plain "  ", ⟨.label, k⟩, dash v.style v.text, newline]

def commaSeparated (ss : List Bytes) : Bytes := (utf8 ", ").intercalate ss

def directionText (direction : UInt8) : Bytes :=
  if direction = 1 then utf8 "outbound (client)"
  else if direction = 2 then utf8 "inbound (server)"
  else []

/-- The labelled lines of the panel, given the bulk cipher. -/
def labelled (clock : Clock) (c : Conn) (symmetric : Bytes) : List (String × Span) :=
  let text (k : String) (v : Bytes) : String × Span := (k, ⟨.plain, v⟩)
  let ident := if c.info.certSubject ≠ [] then
    orDash c.info.sni ++ certOpen ++ c.info.certSubject ++ utf8 ")" else c.info.sni
  let sig := if c.info.certSigAlg = [] ∧ c.info.offeredSigs.length > 0 then
    utf8 "offered: " ++ commaSeparated ((c.info.offeredSigs.take 3).map sigSchemeName)
    else c.info.certSigAlg
  [text "process" (c.comm ++ utf8 "  pid=" ++ digits 10 c.pid.toNat),
    text "flow" (addrPortText c.localAddr ++ utf8 " → " ++ addrPortText c.remote ++ utf8 "  " ++
      directionText c.direction)] ++
  (if c.closedAt ≠ 0 then
    [text "closed" (ago clock c.closedAt ++ utf8 "  (open for " ++
      clock.lifetime c.firstSeen c.closedAt ++ utf8 ")")] else []) ++
  [text "server" ident] ++
  (if c.info.certSANs.length > 0 then [text "cert SANs" (commaSeparated c.info.certSANs)]
    else if c.info.hasServerHello && c.info.negVersion = 0x0304 && !c.info.hasCert then
      [("cert", span .warn "encrypted (TLS 1.3)")] else []) ++
  [text "version" (versionName c.info.negVersion),
    text "cipher" (orDash (cipherName c.info.cipherSuite)),
    text "symmetric" symmetric,
    text "key exch" (groupName c.info.group),
    text "signature" sig] ++
  (if c.info.alpn.length > 0 then [text "alpn" (commaSeparated c.info.alpn)] else [])

/-- The head of one direction, under a line of its own. -/
def panel (title : Bytes) (data : Bytes) : Checked (List Span) := do
  let dump ← indent (← hexDump data 128)
  return [span .plain "  ", ⟨.dim, title⟩, newline, ⟨.plain, dump⟩]

def tailTitle (tail : Bytes) : Checked Bytes := do
  let size ← humanBytes (UInt64.ofNat tail.length)
  return utf8 "tail (last " ++ size ++ utf8 "):"

def renderPlain (fn verb : String) (head tail : Bytes) : Checked (List Span) :=
  if head.length = 0 ∧ tail.length = 0 then return []
  else do
    let first ← (if head.length > 0 then panel (utf8 "head:") head else pure [])
    let known ← (if tail.length > 0 then bytesEqualPrefix head tail else pure true)
    let last ← (if known then pure [] else do panel (← tailTitle tail) tail)
    return [span .plain "  ", span .label "plaintext ",
      ⟨.dim, utf8 fn ++ utf8 " (cleartext " ++ utf8 verb ++ utf8 ")"⟩, newline] ++ first ++ last

/-- `peek`: head (first bytes) and rolling tail (last bytes). -/
def renderPeek (p : Sample) : Checked (List Span) :=
  if p.headOut.length = 0 ∧ p.headIn.length = 0 ∧ p.tailOut.length = 0 ∧ p.tailIn.length = 0 then
    return [span .dim "  no plaintext captured (needs OpenSSL app; press enter to hide)", newline]
  else do
    let sent ← renderPlain "SSL_write →" "sent" p.headOut p.tailOut
    let received ← renderPlain "SSL_read ←" "received" p.headIn p.tailIn
    return sent ++ received

def renderDetail (clock : Clock) (m : Ui.Model) : Checked (List Span) := do
  let line ← repeated (utf8 "─") (min m.w 100)
  let div := [⟨.dim, line⟩, newline]
  if m.rows.length = 0 ∨ m.sel ≥ m.rows.length then
    return div ++ [span .dim "  (no connection selected)", newline, newline]
  else do
    let c ← index m.rows m.sel
    let lines ← (labelled clock c (← symmetric c.info.cipherSuite)).mapM fun l => lab l.1 l.2
    let note := if c.preexisting then [span .plain "  ",
      span .warn "pre-existing connection — handshake not captured", newline] else []
    let peek ← (if m.peek then do return div ++ (← renderPeek c.plain) else pure [])
    return div ++ lines.flatten ++ note ++ peek

/-! ### `View` -/

def sortName : SortMode → String
  | .bytes => "bytes"
  | .pid => "pid"
  | .active => "recent"

def viewName : ViewMode → String
  | .closed => "Closed"
  | .all => "All"
  | .active => "Active"

def title (m : Ui.Model) : List Span :=
  let tab (v : ViewMode) : Span :=
    ⟨if v = m.view then .title else .dim, utf8 " " ++ utf8 (viewName v) ++ utf8 " "⟩
  let tlsCount := m.rows.countP Conn.isTLS
  [span .title " tlstat ", span .plain " ", tab .active, tab .closed, tab .all, span .plain "  ",
    ⟨.dim, digits 10 m.rows.length ++ utf8 " rows, " ++ digits 10 tlsCount ++ utf8 " TLS · sort:" ++
      utf8 (sortName m.sortBy)⟩, newline, newline]

def columnHeads (m : Ui.Model) : Checked Span := do
  -- state (active) or close age (closed/all)
  let lastCol := if m.view ≠ .active then "CLOSED" else "ST"
  let cols ← [("PID", wPID), ("COMM", wComm), ("REMOTE / SNI", wRemote), ("VER", wVer),
    ("CIPHER", wCipher), ("WIRE ↑/↓", wIO), ("PLAIN ↑/↓", wIO), (lastCol, wState)].mapM
      fun col => trunc (utf8 col.1) col.2
  return ⟨.header, (utf8 " ").intercalate cols⟩

def detailH (m : Ui.Model) : ℤ := if m.peek then 22 else 12

/-- How many rows fit: `int` arithmetic on the height. -/
def maxRows (m : Ui.Model) : ℤ :=
  let maxRows := (m.h - (4 + detailH m + 1)).bmod (2 ^ 64)
  if maxRows < 3 then 3 else maxRows

/-- The first row of the table. -/
def start (m : Ui.Model) : ℤ := if m.sel ≥ maxRows m then m.sel - maxRows m + 1 else 0

/-- The lines of the table: a row, or a blank line. -/
def table (clock : Clock) (m : Ui.Model) : Checked (List (Option Span)) := do
  let shown ← (Int.range (start m) (min m.rows.length (start m + maxRows m))).mapM fun i => do
    let c ← index m.rows i
    renderRow clock c (i = m.sel)
  let blank := (Int.range m.rows.length (start m + maxRows m)).map fun _ => none
  return shown.map some ++ blank

structure Screen where
  title : List Span
  head : Span
  table : List (Option Span)
  detail : List Span
  footer : Span

/-- The string of the screen, with what the terminal makes of a style. -/
def Screen.text (render : Style → Bytes → Bytes) (s : Screen) : Bytes :=
  let spans := s.title ++ [s.head, newline] ++ s.table.flatMap (fun l => l.toList ++ [newline]) ++
    s.detail ++ [s.footer]
  spans.flatMap fun p => render p.style p.text

/-- `none` is "starting…". -/
def view (clock : Clock) (m : Ui.Model) : Checked (Option Screen) :=
  if m.w = 0 then return none
  else do
    let head ← columnHeads m
    let table ← table clock m
    let detail ← renderDetail clock m
    return some {
      title := title m
      head, table, detail
      footer := span .dim "↑/↓ select · enter peek · tab active/closed/all · s sort · q quit" }

/-! ### No part of it faults -/

section Returns
variable {clock : Clock} {m : Ui.Model}

theorem returns_trunc (s : Bytes) (w : ℤ) : Returns (trunc s w) fun _ => True :=
  ⟨_, trunc_eq s w, trivial⟩

theorem returns_humanBytes (n : UInt64) : Returns (humanBytes n) fun _ => True := by
  obtain ⟨t, ht⟩ := humanBytes_ok n
  exact ⟨t, ht, trivial⟩

theorem returns_io (up down : UInt64) : Returns (io up down) fun _ => True :=
  (returns_humanBytes up).bind fun _ _ => (returns_humanBytes down).bind fun _ _ => .ok trivial

/-- Only the selected row is in the style of the selection. -/
theorem rowStyle_eq_sel (c : Conn) (selected : Bool) :
    rowStyle c selected = .sel ↔ selected = true := by
  unfold rowStyle
  cases selected with
  | false =>
    rw [if_neg Bool.false_ne_true]
    split_ifs <;> decide
  | true => exact iff_of_true (if_pos rfl) rfl

theorem returns_renderRow (c : Conn) (selected : Bool) :
    Returns (renderRow clock c selected) fun s => s.style = .sel ↔ selected = true := by
  unfold renderRow
  refine (returns_trunc _ _).bind fun pid _ => ?_
  refine (returns_trunc _ _).bind fun comm _ => ?_
  refine (returns_trunc _ _).bind fun remote _ => ?_
  refine (returns_trunc _ _).bind fun ver _ => ?_
  refine (returns_trunc _ _).bind fun cipher _ => ?_
  refine (returns_io _ _).bind fun wire _ => ?_
  refine (returns_trunc _ _).bind fun wire _ => ?_
  refine (returns_io _ _).bind fun plain _ => ?_
  refine (returns_trunc _ _).bind fun plain _ => ?_
  refine (returns_trunc _ _).bind fun last _ => ?_
  exact .ok (rowStyle_eq_sel c selected)

theorem returns_panel (title data : Bytes) : Returns (panel title data) fun _ => True := by
  unfold panel
  have hdump : hexDump data 128 = .ok _ := hexDump_eq data 128
  rw [hdump, ok_bind]
  exact (returns_indent _).bind fun dump _ => .ok trivial

theorem returns_renderPlain (fn verb : String) (head tail : Bytes) :
    Returns (renderPlain fn verb head tail) fun _ => True := by
  unfold renderPlain
  by_cases hnone : head.length = 0 ∧ tail.length = 0
  · rw [if_pos hnone]
    exact .ok trivial
  · rw [if_neg hnone]
    refine .bind (P := fun _ => True) ?_ fun first _ => .bind (P := fun _ => True) ?_
      fun known _ => .bind (P := fun _ => True) ?_ fun last _ => .ok trivial
    · split_ifs
      · exact returns_panel _ _
      · exact .ok trivial
    · split_ifs
      · exact returns_bytesEqualPrefix _ _
      · exact .ok trivial
    · split_ifs
      · exact .ok trivial
      · refine .bind (P := fun _ => True) ?_ fun title _ => returns_panel title tail
        exact (returns_humanBytes _).bind fun size _ => .ok trivial

theorem returns_renderPeek (p : Sample) : Returns (renderPeek p) fun _ => True := by
  unfold renderPeek
  split_ifs with hnone
  · exact .ok trivial
  · refine (returns_renderPlain _ _ _ _).bind fun sent _ => ?_
    exact (returns_renderPlain _ _ _ _).bind fun received _ => .ok trivial

theorem returns_lab (k : String) (v : Span) : Returns (lab k v) fun _ => True :=
  (returns_trunc _ _).bind fun _ _ => .ok trivial

/-- The detail panel is safe where the selected row is no negative one. -/
theorem returns_renderDetail (hw : 0 < m.w) (hsel : 0 < m.rows.length → 0 ≤ m.sel) :
    Returns (renderDetail clock m) fun _ => True := by
  unfold renderDetail
  rw [repeated_ok _ (show (0 : ℤ) ≤ min m.w 100 by omega), ok_bind]
  dsimp only
  by_cases hnone : m.rows.length = 0 ∨ m.sel ≥ m.rows.length
  · rw [if_pos hnone]
    exact .ok trivial
  · rw [if_neg hnone]
    refine (returns_index (hsel (by omega)) (by omega)).bind fun c _ => ?_
    refine (returns_symmetric _).bind fun bulk _ => ?_
    refine .bind (.mapM (R := fun _ _ => True) fun l _ => returns_lab l.1 l.2) fun lines _ => ?_
    refine .bind (P := fun _ => True) ?_ fun peek _ => .ok trivial
    split_ifs
    · exact (returns_renderPeek _).bind fun text _ => .ok trivial
    · exact .ok trivial

theorem returns_columnHeads (m : Ui.Model) : Returns (columnHeads m) fun _ => True := by
  refine .bind (.mapM (R := fun _ _ => True) fun col _ => returns_trunc _ _) fun cols _ => ?_
  exact .ok trivial

end Returns

end Tlstat.Ui.Checked
