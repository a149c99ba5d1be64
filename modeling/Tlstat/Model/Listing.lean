import Tlstat.Model.Proc

/-! The tables of `/proc/net`, written and read back: rows of columns with any blanks between them,
behind a header. -/

namespace Tlstat.Model

/-- A word of printable ASCII, as the columns are. -/
structure Word where
  text : Bytes
  ne : text ≠ []
  plain : ∀ c ∈ text, 0x21 ≤ c ∧ c ≤ 0x7e

def blanks (n : ℕ) : Bytes := List.replicate n 0x20

/-- Words from the `i`th column on, the blanks in front of each beyond the first as `gap` says. -/
def spread (gap : ℕ → ℕ) : ℕ → List Word → Bytes
  | _, [] => []
  | i, w :: ws => blanks (gap i + 1) ++ (w.text ++ spread gap (i + 1) ws)

/-- A line of words; in front of the first there may be no blank. -/
def line (gap : ℕ → ℕ) (trail : ℕ) : List Word → Bytes
  | [] => blanks trail
  | w :: ws => blanks (gap 0) ++ (w.text ++ (spread gap 1 ws ++ blanks trail))

/-! ### Reading a line -/

section Line
variable {gap : ℕ → ℕ} {trail : ℕ} {cur rest : Bytes}

theorem spaceWidth_plain {c : UInt8} (h : 0x21 ≤ c ∧ c ≤ 0x7e) (rest : Bytes) :
    spaceWidth (c :: rest) = 0 := by
  obtain ⟨hlo, hhi⟩ := h
  have hlo' : 0x21 ≤ c.toNat := hlo
  have hhi' : c.toNat ≤ 0x7e := hhi
  have hblank : ¬(c = 0x20 ∨ 0x09 ≤ c ∧ c ≤ 0x0d) := by
    rintro (rfl | ⟨-, hle⟩)
    · exact absurd hlo' (by decide)
    · have hle' : c.toNat ≤ 0x0d := hle
      omega
  have hbyte : ∀ b : UInt8, 0x7e < b.toNat → c ≠ b := by
    rintro b hb rfl
    omega
  have hc2 := hbyte 0xc2 (by decide)
  have he1 := hbyte 0xe1 (by decide)
  have he2 := hbyte 0xe2 (by decide)
  have he3 := hbyte 0xe3 (by decide)
  unfold spaceWidth
  cases rest with
  | nil => simp only [if_neg hblank]
  | cons b rest => cases rest <;> simp [hblank, hc2, he1, he2, he3]

theorem fieldsLoop_word (w : Bytes) (hw : ∀ c ∈ w, 0x21 ≤ c ∧ c ≤ 0x7e) :
    fieldsLoop 0 cur (w ++ rest) = fieldsLoop 0 (cur ++ w) rest := by
  induction w generalizing cur with
  | nil => rw [List.nil_append, List.append_nil]
  | cons c w ih =>
    rw [List.cons_append, fieldsLoop, spaceWidth_plain (hw c List.mem_cons_self)]
    dsimp only
    rw [ih fun d hd => hw d (List.mem_cons_of_mem c hd), List.append_assoc, List.singleton_append]

theorem fieldsLoop_blank : fieldsLoop 0 cur (0x20 :: rest) =
    (if cur = [] then [] else [cur]) ++ fieldsLoop 0 [] rest := by
  have hwidth : spaceWidth (0x20 :: rest) = 1 := by
    unfold spaceWidth
    exact if_pos (.inl rfl)
  rw [fieldsLoop, hwidth]

theorem fieldsLoop_blanks (n : ℕ) : fieldsLoop 0 [] (blanks n ++ rest) = fieldsLoop 0 [] rest := by
  induction n with
  | zero => rfl
  | succ n ih =>
    rw [blanks, List.replicate_succ, List.cons_append, fieldsLoop_blank, if_pos rfl, List.nil_append]
    exact ih

theorem fieldsLoop_gap (hcur : cur ≠ []) (n : ℕ) :
    fieldsLoop 0 cur (blanks (n + 1) ++ rest) = cur :: fieldsLoop 0 [] rest := by
  rw [blanks, List.replicate_succ, List.cons_append, fieldsLoop_blank, if_neg hcur,
    List.singleton_append]
  exact congrArg (cur :: ·) (fieldsLoop_blanks n)

theorem fieldsLoop_spread (hcur : cur ≠ []) (i : ℕ) (ws : List Word) :
    fieldsLoop 0 cur (spread gap i ws ++ blanks trail) = cur :: ws.map Word.text := by
  induction ws generalizing i cur with
  | nil =>
    cases trail with
    | zero =>
      change fieldsLoop 0 cur [] = [cur]
      rw [fieldsLoop, if_neg hcur]
    | succ trail =>
      have hgap : fieldsLoop 0 cur (blanks (trail + 1) ++ []) = cur :: fieldsLoop 0 [] [] :=
        fieldsLoop_gap hcur trail
      rw [List.append_nil] at hgap
      exact hgap
  | cons w ws ih =>
    rw [spread, List.append_assoc, List.append_assoc, fieldsLoop_gap hcur,
      fieldsLoop_word w.text w.plain, List.nil_append, ih w.ne, List.map_cons]

/-- `strings.Fields` finds the words of a line. -/
theorem fields_line (ws : List Word) : fields (line gap trail ws) = ws.map Word.text := by
  unfold fields
  cases ws with
  | nil =>
    have hblanks : fieldsLoop 0 [] (blanks trail ++ []) = fieldsLoop 0 [] [] :=
      fieldsLoop_blanks trail
    rw [List.append_nil] at hblanks
    exact hblanks
  | cons w ws =>
    rw [line, fieldsLoop_blanks, fieldsLoop_word w.text w.plain, List.nil_append,
      fieldsLoop_spread w.ne, List.map_cons]

/-- A line has no byte but blanks and those of its words. -/
theorem mem_line {ws : List Word} {c : UInt8} (h : c ∈ line gap trail ws) : 0x20 ≤ c ∧ c ≤ 0x7e := by
  have hblanks : ∀ n, ∀ c ∈ blanks n, 0x20 ≤ c ∧ c ≤ 0x7e := by
    intro n c hc
    obtain rfl := List.eq_of_mem_replicate hc
    decide
  have hword : ∀ (w : Word), ∀ c ∈ w.text, 0x20 ≤ c ∧ c ≤ 0x7e := fun w c hc =>
    ⟨UInt8.le_trans (by decide) (w.plain c hc).1, (w.plain c hc).2⟩
  have hspread : ∀ ws i, ∀ c ∈ spread gap i ws, 0x20 ≤ c ∧ c ≤ 0x7e := by
    intro ws
    induction ws with
    | nil => exact fun i c hc => absurd hc List.not_mem_nil
    | cons w ws ih =>
      intro i c hc
      rw [spread, List.mem_append, List.mem_append] at hc
      rcases hc with hc | hc | hc
      · exact hblanks _ c hc
      · exact hword w c hc
      · exact ih _ c hc
  cases ws with
  | nil => exact hblanks _ c h
  | cons w ws =>
    rw [line, List.mem_append, List.mem_append, List.mem_append] at h
    rcases h with h | h | h | h
    · exact hblanks _ c h
    · exact hword w c h
    · exact hspread _ _ c h
    · exact hblanks _ c h

end Line

/-! ### A table -/

theorem hexChar_plain : ∀ d < 16, 0x21 ≤ hexChar d ∧ hexChar d ≤ 0x7e := by decide

theorem hexText_plain (k n : ℕ) : ∀ c ∈ hexText k n, 0x21 ≤ c ∧ c ≤ 0x7e := by
  induction k generalizing n with
  | zero => exact fun c hc => absurd hc List.not_mem_nil
  | succ k ih =>
    intro c hc
    rcases List.mem_append.mp hc with hc | hc
    · exact ih _ c hc
    · obtain rfl := List.mem_singleton.mp hc
      exact hexChar_plain _ (Nat.mod_lt _ (by decide))

theorem token_plain (e : Endpoint) : ∀ c ∈ e.token, 0x21 ≤ c ∧ c ≤ 0x7e := by
  intro c hc
  rcases List.mem_append.mp hc with hc | hc
  · unfold Endpoint.addrText at hc
    split_ifs at hc
    · simp only [List.mem_append] at hc
      rcases hc with ((hc | hc) | hc) | hc <;> exact hexText_plain _ _ c hc
    · exact hexText_plain _ _ c hc
  · rcases List.mem_cons.mp hc with rfl | hc
    · decide
    · exact hexText_plain _ _ c hc

/-- An endpoint in its column. -/
def Endpoint.word (e : Endpoint) : Word where
  text := e.token
  ne := List.append_ne_nil_of_right_ne_nil _ (List.cons_ne_nil _ _)
  plain := token_plain e

/-- A line that a scan takes whole. -/
def OneLine (l : Bytes) : Prop := 0x0a ∉ l ∧ l.length < 1 <<< 20 ∧ l.getLast? ≠ some 0x0d

/-- A row of the table, its columns as the comment in `scanNetTCP` names them, and more behind. -/
structure Row where
  sl : Word
  loc : Endpoint
  rem : Endpoint
  st : Word
  queues : Word
  timer : Word
  retrnsmt : Word
  uid : Word
  timeout : Word
  inode : Word
  more : List Word
  gap : ℕ → ℕ
  trail : ℕ

def Row.words (r : Row) : List Word :=
  [r.sl, r.loc.word, r.rem.word, r.st, r.queues, r.timer, r.retrnsmt, r.uid, r.timeout, r.inode] ++
    r.more

def Row.line (r : Row) : Bytes := Model.line r.gap r.trail r.words

/-- A file of `/proc/net`: any header, and rows short enough for the buffer of the scan. -/
structure Listing where
  header : Bytes
  rows : List Row
  oneHeader : OneLine header
  short : ∀ r ∈ rows, r.line.length < 1 <<< 20

def Listing.text (l : Listing) : Bytes := unlines (l.header :: l.rows.map Row.line)

theorem oneLine_row {r : Row} (h : r.line.length < 1 <<< 20) : OneLine r.line := by
  refine ⟨fun hmem => ?_, h, fun hlast => ?_⟩
  · exact absurd (mem_line hmem).1 (by decide)
  · exact absurd (mem_line (List.mem_of_getLast? hlast)).1 (by decide)

theorem lines_listing (l : Listing) : (lines l.text).drop 1 = l.rows.map Row.line := by
  unfold Listing.text
  rw [lines_unlines]
  · rfl
  · intro line hline
    rcases List.mem_cons.mp hline with rfl | hline
    · exact l.oneHeader
    · obtain ⟨r, hr, rfl⟩ := List.mem_map.mp hline
      exact oneLine_row (l.short r hr)

theorem rowPeer_line (inode : Bytes) (r : Row) :
    rowPeer inode r.line = if r.inode.text = inode then some r.rem.addrPort else none := by
  have hfields : fields r.line = r.words.map Word.text := fields_line r.words
  split_ifs with h
  · refine rowPeer_of_token ?_ ?_
    · rw [hfields, ← h]
      rfl
    · rw [hfields]
      rfl
  · refine rowPeer_of_ne fun heq => h ?_
    rw [hfields] at heq
    exact Option.some.inj heq

theorem findSome?_rows (inode : Bytes) (rows : List Row) :
    (rows.map Row.line).findSome? (rowPeer inode) =
      (rows.find? fun r => r.inode.text = inode).map fun r => r.rem.addrPort := by
  induction rows with
  | nil => rfl
  | cons r rows ih =>
    rw [List.map_cons, List.findSome?_cons, rowPeer_line]
    by_cases h : r.inode.text = inode
    · rw [if_pos h, List.find?_cons_of_pos (by simpa using h), Option.map_some]
    · rw [if_neg h, List.find?_cons_of_neg (by simpa using h)]
      exact ih

/-- The rows of a file that may be missing. -/
def rowsOf (l : Option Listing) : List Row := l.elim [] Listing.rows

/-- **What the kernel lists is what the lookup reads.** For all tables of IPv4 and IPv6 sockets, with
any columns and blanks, either file possibly missing, and every descriptor whose link names a socket,
the lookup returns the remote endpoint of the first row with its inode, exactly, and nothing if no
row has it. -/
theorem procPeer_listing (p : Proc) (pid : UInt32) (fd : Int32) (inode : Word)
    (tcp tcp6 : Option Listing) (hlink : p.readlink pid fd = some (socketPre ++ inode.text ++ bracket))
    (htcp : p.tcp = tcp.map Listing.text) (htcp6 : p.tcp6 = tcp6.map Listing.text) :
    procPeer p pid fd = ((rowsOf tcp ++ rowsOf tcp6).find? fun r => r.inode.text = inode.text).map
      fun r => r.rem.addrPort := by
  have hpre : socketPre.isPrefixOf (socketPre ++ inode.text ++ bracket) := by
    rw [List.isPrefixOf_iff_prefix, List.append_assoc]
    exact List.prefix_append _ _
  have htrim : Tlsparse.trimSuffix ((socketPre ++ inode.text ++ bracket).drop socketPre.length)
      bracket = inode.text := by
    rw [List.append_assoc, List.drop_left, trimSuffix_append]
  have hrows : ∀ l : Option Listing, (l.map Listing.text).elim [] Proc.rows.rowsOf =
      (rowsOf l).map Row.line := by
    intro l
    cases l with
    | none => rfl
    | some l => exact lines_listing l
  unfold procPeer
  rw [hlink, Option.bind_some, if_pos hpre, htrim, scanNetTCP_rows, Proc.rows, htcp, htcp6, hrows,
    hrows, ← List.map_append, findSome?_rows]

/-- A column of one digit. -/
def digitWord (d : Fin 10) : Word where
  text := [0x30 + UInt8.ofNat d]
  ne := List.cons_ne_nil _ _
  plain := by
    intro c hc
    obtain rfl := List.mem_singleton.mp hc
    revert d
    decide

def digitRow (inode : Fin 10) (port : UInt16) : Row :=
  let d := digitWord 0
  let e : Endpoint := ⟨{ w₀ := 0x0100007f }, false, port⟩
  { sl := d, loc := e, rem := e, st := d, queues := d, timer := d, retrnsmt := d, uid := d
    timeout := d, inode := digitWord inode, more := [d], gap := fun i => i % 3, trail := 2 }

def twoRows : Listing where
  header := [0x73, 0x6c]
  rows := [digitRow 4 80, digitRow 5 443]
  oneHeader := by
    unfold OneLine
    decide
  short := by
    intro r hr
    rcases List.mem_pair.mp hr with rfl | rfl <;> decide

theorem procPeer_listing_second : procPeer ⟨fun _ _ => some (socketPre ++ [0x35] ++ bracket),
    some twoRows.text, none⟩ 7 3 = some ⟨.v4 [127, 0, 0, 1], 443⟩ :=
  (procPeer_listing ⟨fun _ _ => some (socketPre ++ [0x35] ++ bracket), some twoRows.text, none⟩ 7 3
    (digitWord 5) (some twoRows) none rfl rfl rfl).trans (by decide +kernel)

end Tlstat.Model
