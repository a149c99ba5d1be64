import Mathlib.Algebra.Group.Nat.Defs
import Tlstat.Model.Conn

/-! The lookup of a descriptor's peer in `/proc`: the link of the descriptor names a socket inode,
and the row of that inode in `/proc/net/tcp` or `/proc/net/tcp6` names the remote endpoint. -/

namespace Tlstat.Model

/-! ### Text -/

/-- The width of the white space at the head of the text, 0 where there is none: `strings.Fields`
separates at every rune of the Unicode class White_Space, here as UTF-8. -/
def spaceWidth : Bytes → ℕ
  | a :: rest =>
    if a = 0x20 ∨ 0x09 ≤ a ∧ a ≤ 0x0d then 1
    else
      match rest with
      | b :: rest =>
        if a = 0xc2 ∧ (b = 0x85 ∨ b = 0xa0) then 2
        else
          match rest with
          | c :: _ =>
            if a = 0xe1 ∧ b = 0x9a ∧ c = 0x80 ∨
                a = 0xe2 ∧ b = 0x80 ∧ (0x80 ≤ c ∧ c ≤ 0x8a ∨ c = 0xa8 ∨ c = 0xa9 ∨ c = 0xaf) ∨
                a = 0xe2 ∧ b = 0x81 ∧ c = 0x9f ∨ a = 0xe3 ∧ b = 0x80 ∧ c = 0x80 then 3
            else 0
          | [] => 0
      | [] => 0
  | [] => 0

def fieldsLoop (skip : ℕ) (cur : Bytes) : Bytes → List Bytes
  | [] => if cur = [] then [] else [cur]
  | a :: rest =>
    match skip with
    | n + 1 => fieldsLoop n cur rest
    | 0 =>
      match spaceWidth (a :: rest) with
      | 0 => fieldsLoop 0 (cur ++ [a]) rest
      | n + 1 => (if cur = [] then [] else [cur]) ++ fieldsLoop n [] rest

/-- `strings.Fields` -/
def fields (s : Bytes) : List Bytes := fieldsLoop 0 [] s

def hexDigit (c : UInt8) : Option ℕ :=
  if 0x30 ≤ c ∧ c ≤ 0x39 then some (c.toNat - 0x30)
  else if 0x61 ≤ c ∧ c ≤ 0x66 then some (c.toNat - 0x61 + 10)
  else if 0x41 ≤ c ∧ c ≤ 0x46 then some (c.toNat - 0x41 + 10)
  else none

def hexValue (s : Bytes) (n : ℕ) : Option ℕ :=
  s.foldlM (fun n c => (hexDigit c).map (n * 16 + ·)) n

/-- `strconv.ParseUint(s, 16, bits)`, with `none` for an error. -/
def parseUint (bits : ℕ) (s : Bytes) : Option ℕ :=
  if s = [] then none else (hexValue s 0).filter (· < 2 ^ bits)

/-- The lines of a `bufio.Scanner` with a buffer of at most `max` bytes: the scan ends at a line
that does not fit. -/
def linesLoop (max : ℕ) (cur : Bytes) : Bytes → List Bytes
  | [] => if cur = [] then [] else [dropCR cur]
  | c :: rest =>
    if c = 0x0a then dropCR cur :: linesLoop max [] rest
    else if cur.length + 1 ≥ max then [] else linesLoop max (cur ++ [c]) rest
where
  dropCR (line : Bytes) : Bytes := if line.getLast? = some 0x0d then line.dropLast else line

def lines (s : Bytes) : List Bytes := linesLoop (1 <<< 20) [] s

/-! ### Sockets -/

def colon : UInt8 := 0x3a

def hexWord (s : Bytes) : Option UInt32 := (parseUint 32 s).map UInt32.ofNat

def parseHexAddr (tok : Bytes) : Option AddrPort :=
  if colon ∈ tok then do
    let addrHex := tok.takeWhile (· ≠ colon)
    let portHex := tok.drop (addrHex.length + 1)
    let port ← parseUint 16 portHex
    if addrHex.length = 8 then do
      let v ← hexWord addrHex
      return ⟨.v4 (putUint32 v), UInt16.ofNat port⟩
    else if addrHex.length = 32 then do
      let v₀ ← hexWord (slice addrHex 0 8)
      let v₁ ← hexWord (slice addrHex 8 16)
      let v₂ ← hexWord (slice addrHex 16 24)
      let v₃ ← hexWord (slice addrHex 24 32)
      return ⟨.v6 (putUint32 v₀ ++ putUint32 v₁ ++ putUint32 v₂ ++ putUint32 v₃),
        UInt16.ofNat port⟩
    else none
  else none

/-- What a process sees of `/proc`; `none` where a call fails. -/
structure Proc where
  readlink : UInt32 → Int32 → Option Bytes
  tcp : Option Bytes
  tcp6 : Option Bytes

/-- A row with the inode, if its remote address parses. -/
def rowPeer (inode line : Bytes) : Option AddrPort :=
  let fs := fields line
  -- sl local rem st tx_queue:rx_queue tr:when retrnsmt uid timeout inode
  if h : 10 ≤ fs.length then
    if fs[9] = inode then parseHexAddr fs[2] else none
  else none

def scanNetTCP (file : Option Bytes) (inode : Bytes) : Option AddrPort :=
  -- the first line is the header; a row whose address does not parse is passed over
  file.bind fun text => ((lines text).drop 1).findSome? (rowPeer inode)

/-- `socket:[` -/
def socketPre : Bytes := [0x73, 0x6f, 0x63, 0x6b, 0x65, 0x74, 0x3a, 0x5b]

def bracket : Bytes := [0x5d]

def procPeer (p : Proc) (pid : UInt32) (fd : Int32) : Option AddrPort :=
  (p.readlink pid fd).bind fun link =>
    if socketPre.isPrefixOf link then
      let inode := Tlsparse.trimSuffix (link.drop socketPre.length) bracket
      (scanNetTCP p.tcp inode).or (scanNetTCP p.tcp6 inode)
    else none

/-! ### The text the kernel writes -/

/-- `%X` of one digit -/
def hexChar (d : ℕ) : UInt8 := if d < 10 then UInt8.ofNat (0x30 + d) else UInt8.ofNat (0x37 + d)

/-- `%0kX` of a number below `16 ^ k` -/
def hexText : ℕ → ℕ → Bytes
  | 0, _ => []
  | k + 1, n => hexText k (n / 16) ++ [hexChar (n % 16)]

def unlines (ls : List Bytes) : Bytes := ls.flatMap (· ++ [0x0a])

theorem linesLoop_line {max : ℕ} (cur line rest : Bytes) (hline : 0x0a ∉ line)
    (hlen : cur.length + line.length < max) :
    linesLoop max cur (line ++ 0x0a :: rest) =
      linesLoop.dropCR (cur ++ line) :: linesLoop max [] rest := by
  induction line generalizing cur with
  | nil =>
    rw [List.append_nil, List.nil_append, linesLoop, if_pos rfl]
  | cons c line ih =>
    have hc : c ≠ 0x0a := fun h => hline (h ▸ List.mem_cons_self)
    rw [List.length_cons] at hlen
    rw [List.cons_append, linesLoop, if_neg hc, if_neg (by omega),
      ih (cur ++ [c]) (fun h => hline (List.mem_cons_of_mem c h))
        (by rw [List.length_append, List.length_singleton]; omega),
      List.append_assoc, List.singleton_append]

/-- A scan of whole lines returns the lines. -/
theorem lines_unlines {ls : List Bytes}
    (h : ∀ line ∈ ls, 0x0a ∉ line ∧ line.length < 1 <<< 20 ∧ line.getLast? ≠ some 0x0d) :
    lines (unlines ls) = ls := by
  unfold lines
  induction ls with
  | nil => rfl
  | cons line ls ih =>
    obtain ⟨hline, hlen, hcr⟩ := h line List.mem_cons_self
    have hrest := ih fun l hl => h l (List.mem_cons_of_mem line hl)
    have htext : unlines (line :: ls) = line ++ 0x0a :: unlines ls := by
      rw [unlines, List.flatMap_cons, List.append_assoc]
      rfl
    rw [htext, linesLoop_line [] line _ hline (by simpa using hlen), hrest, List.nil_append,
      linesLoop.dropCR, if_neg hcr]

theorem hexDigit_hexChar : ∀ d < 16, hexDigit (hexChar d) = some d := by decide

theorem hexChar_ne_colon : ∀ d < 16, hexChar d ≠ colon := by decide

theorem length_hexText (k n : ℕ) : (hexText k n).length = k := by
  induction k generalizing n with
  | zero => rfl
  | succ k ih => rw [hexText, List.length_append, ih, List.length_singleton]

theorem colon_notMem_hexText (k n : ℕ) : ∀ c ∈ hexText k n, c ≠ colon := by
  induction k generalizing n with
  | zero => simp [hexText]
  | succ k ih =>
    intro c hc
    rw [hexText] at hc
    rcases List.mem_append.mp hc with hc | hc
    · exact ih _ c hc
    · rw [List.mem_singleton.mp hc]
      exact hexChar_ne_colon _ (Nat.mod_lt _ (by decide))

theorem hexValue_hexText (k n a : ℕ) :
    hexValue (hexText k n) a = some (a * 16 ^ k + n % 16 ^ k) := by
  induction k generalizing n with
  | zero => simp [hexText, hexValue, Nat.mod_one]
  | succ k ih =>
    -- the text of `n / 16`, and one digit behind it
    have hdigit := hexDigit_hexChar (n % 16) (Nat.mod_lt _ (by decide))
    have hstep : hexValue (hexText (k + 1) n) a =
        (hexValue (hexText k (n / 16)) a).bind fun m => hexValue [hexChar (n % 16)] m := by
      rw [hexText]
      exact List.foldlM_append
    rw [hstep, ih, Option.bind_some]
    unfold hexValue
    rw [List.foldlM_cons, hdigit]
    have hsplit : n % 16 ^ (k + 1) = n % 16 + 16 * (n / 16 % 16 ^ k) := by
      rw [Nat.pow_succ, Nat.mul_comm, Nat.mod_mul]
    rw [hsplit, Nat.pow_succ, ← Nat.mul_assoc]
    change some ((a * 16 ^ k + n / 16 % 16 ^ k) * 16 + n % 16) = some _
    congr 1
    omega

theorem parseUint_hexText {k bits n : ℕ} (hk : k ≠ 0) (hlt : n < 16 ^ k) (hbits : n < 2 ^ bits) :
    parseUint bits (hexText k n) = some n := by
  have hne : hexText k n ≠ [] := by
    intro hnil
    have hlen := length_hexText k n
    rw [hnil] at hlen
    exact hk hlen.symm
  rw [parseUint, if_neg hne, hexValue_hexText, Nat.zero_mul, Nat.zero_add, Nat.mod_eq_of_lt hlt,
    Option.filter_some, if_pos (by simpa using hbits)]

theorem hexWord_hexText (w : UInt32) : hexWord (hexText 8 w.toNat) = some w := by
  have hlt : w.toNat < 16 ^ 8 := w.toNat_lt
  rw [hexWord, parseUint_hexText (by decide) hlt w.toNat_lt, Option.map_some, UInt32.ofNat_toNat]

/-- An endpoint as the kernel keeps it. -/
structure Endpoint where
  words : Words
  v6 : Bool
  port : UInt16
deriving DecidableEq, Repr

namespace Endpoint

def addrPort (e : Endpoint) : AddrPort := ⟨ipFrom e.words e.v6, e.port⟩

def addrText (e : Endpoint) : Bytes :=
  if e.v6 then hexText 8 e.words.w₀.toNat ++ hexText 8 e.words.w₁.toNat ++
    hexText 8 e.words.w₂.toNat ++ hexText 8 e.words.w₃.toNat
  else hexText 8 e.words.w₀.toNat

/-- `%08X:%04X`, or four words before the colon. -/
def token (e : Endpoint) : Bytes := e.addrText ++ colon :: hexText 4 e.port.toNat

theorem colon_notMem_addrText (e : Endpoint) : ∀ c ∈ e.addrText, c ≠ colon := by
  intro c hc
  unfold addrText at hc
  split_ifs at hc
  · simp only [List.mem_append] at hc
    rcases hc with ((hc | hc) | hc) | hc <;> exact colon_notMem_hexText _ _ c hc
  · exact colon_notMem_hexText _ _ c hc

end Endpoint

theorem slice_middle {a b c : Bytes} {i j : ℕ} (hi : a.length = i) (hj : i + b.length = j) :
    slice (a ++ (b ++ c)) i j = b := by
  subst hi hj
  rw [slice, List.drop_left, Nat.add_sub_cancel_left, List.take_left]

/-- The token of an endpoint parses to the endpoint. -/
theorem parseHexAddr_token (e : Endpoint) : parseHexAddr e.token = some e.addrPort := by
  have htake : e.token.takeWhile (· ≠ colon) = e.addrText := by
    rw [Endpoint.token, List.takeWhile_append_of_pos fun c hc => by
      simpa using e.colon_notMem_addrText c hc, List.takeWhile_cons_of_neg (by simp),
      List.append_nil]
  have hdrop : e.token.drop (e.addrText.length + 1) = hexText 4 e.port.toNat := by
    rw [Endpoint.token, ← List.drop_drop, List.drop_left]
    rfl
  have hport : parseUint 16 (hexText 4 e.port.toNat) = some e.port.toNat :=
    parseUint_hexText (by decide) e.port.toNat_lt e.port.toNat_lt
  unfold parseHexAddr
  rw [if_pos (by simp [Endpoint.token])]
  dsimp only
  rw [htake, hdrop, hport, Option.bind_eq_bind, Option.bind_some, UInt16.ofNat_toNat]
  have hlen := fun w : UInt32 => length_hexText 8 w.toNat
  cases hv : e.v6 with
  | false =>
    have htext : e.addrText = hexText 8 e.words.w₀.toNat := by simp [Endpoint.addrText, hv]
    rw [htext, if_pos (hlen _), hexWord_hexText]
    simp [Endpoint.addrPort, ipFrom, hv]
  | true =>
    have htext : e.addrText = hexText 8 e.words.w₀.toNat ++ hexText 8 e.words.w₁.toNat ++
        hexText 8 e.words.w₂.toNat ++ hexText 8 e.words.w₃.toNat := by
      simp [Endpoint.addrText, hv]
    have hn : e.addrText.length = 32 := by simp [htext, hlen]
    have h₀ : slice e.addrText 0 8 = hexText 8 e.words.w₀.toNat := by
      simp [slice, htext, hlen]
    have h₁ : slice e.addrText 8 16 = hexText 8 e.words.w₁.toNat := by
      rw [htext, List.append_assoc, List.append_assoc]
      exact slice_middle (by simp [hlen]) (by simp [hlen])
    have h₂ : slice e.addrText 16 24 = hexText 8 e.words.w₂.toNat := by
      rw [htext, List.append_assoc]
      exact slice_middle (by simp [hlen]) (by simp [hlen])
    have h₃ : slice e.addrText 24 32 = hexText 8 e.words.w₃.toNat := by
      rw [htext, ← List.append_nil (hexText 8 e.words.w₃.toNat)]
      exact slice_middle (by simp [hlen]) (by simp [hlen])
    rw [if_neg (by omega), if_pos hn, h₀, h₁, h₂, h₃]
    simp only [hexWord_hexText]
    simp [Endpoint.addrPort, ipFrom, hv]

/-! ### The lookup -/

theorem trimSuffix_append (s t : Bytes) : Tlsparse.trimSuffix (s ++ t) t = s := by
  unfold Tlsparse.trimSuffix
  rw [if_pos (List.isSuffixOf_iff_suffix.mpr (List.suffix_append s t)), List.length_append,
    Nat.add_sub_cancel, List.take_left]

namespace Proc

/-- The rows of `/proc/net/tcp`, then those of `/proc/net/tcp6`, without the headers. -/
def rows (p : Proc) : List Bytes := (p.tcp.elim [] rowsOf) ++ (p.tcp6.elim [] rowsOf)
where
  rowsOf (text : Bytes) : List Bytes := (lines text).drop 1

/-- The `/proc` entry of the descriptor names a TCP socket with the endpoints: the link holds its
inode, and the one row of this inode shows the endpoints in the columns `local` and `rem`. -/
def Names (p : Proc) (pid : UInt32) (fd : Int32) (L R : Endpoint) : Prop :=
  0 ≤ fd ∧ ∃ inode row, p.readlink pid fd = some (socketPre ++ inode ++ bracket) ∧
    p.rows.filter (fun line => (fields line)[9]? = some inode) = [row] ∧
    (fields row)[1]? = some L.token ∧ (fields row)[2]? = some R.token

end Proc

theorem rowPeer_of_ne {inode line : Bytes} (h : (fields line)[9]? ≠ some inode) :
    rowPeer inode line = none := by
  unfold rowPeer
  dsimp only
  split_ifs with hlen heq
  · rw [List.getElem?_eq_getElem hlen, heq] at h
    exact absurd rfl h
  · rfl
  · rfl

theorem rowPeer_of_token {inode line : Bytes} {e : Endpoint}
    (h : (fields line)[9]? = some inode) (htok : (fields line)[2]? = some e.token) :
    rowPeer inode line = some e.addrPort := by
  obtain ⟨hlen, heq⟩ := List.getElem?_eq_some_iff.mp h
  obtain ⟨_, htok⟩ := List.getElem?_eq_some_iff.mp htok
  unfold rowPeer
  dsimp only
  rw [dif_pos (Nat.succ_le_of_lt hlen), if_pos heq, htok, parseHexAddr_token]

theorem findSome?_rowPeer_filter (inode : Bytes) (rows : List Bytes) :
    rows.findSome? (rowPeer inode) =
      (rows.filter fun line => (fields line)[9]? = some inode).findSome? (rowPeer inode) := by
  induction rows with
  | nil => rfl
  | cons line rest ih =>
    by_cases h : (fields line)[9]? = some inode
    · rw [List.filter_cons_of_pos (by simpa using h), List.findSome?_cons, List.findSome?_cons, ih]
    · rw [List.filter_cons_of_neg (by simpa using h), List.findSome?_cons, rowPeer_of_ne h, ih]

theorem scanNetTCP_rows (p : Proc) (inode : Bytes) :
    (scanNetTCP p.tcp inode).or (scanNetTCP p.tcp6 inode) =
      p.rows.findSome? (rowPeer inode) := by
  have hscan : ∀ file : Option Bytes, scanNetTCP file inode =
      (file.elim [] Proc.rows.rowsOf).findSome? (rowPeer inode) := by
    intro file
    cases file <;> rfl
  rw [hscan, hscan, Proc.rows, List.findSome?_append]

/-- The lookup returns the remote endpoint of the socket the entry names. -/
theorem procPeer_of_names {p : Proc} {pid : UInt32} {fd : Int32} {L R : Endpoint}
    (h : p.Names pid fd L R) : procPeer p pid fd = some R.addrPort := by
  obtain ⟨-, inode, row, hlink, hrow, -, hrem⟩ := h
  have hmem : row ∈ p.rows.filter fun line => (fields line)[9]? = some inode := by simp [hrow]
  have hinode : (fields row)[9]? = some inode := by simpa using (List.mem_filter.mp hmem).2
  have hpre : socketPre.isPrefixOf (socketPre ++ inode ++ bracket) := by
    rw [List.isPrefixOf_iff_prefix, List.append_assoc]
    exact List.prefix_append _ _
  have htrim : Tlsparse.trimSuffix ((socketPre ++ inode ++ bracket).drop socketPre.length) bracket =
      inode := by
    rw [List.append_assoc, List.drop_left, trimSuffix_append]
  unfold procPeer
  rw [hlink, Option.bind_some, if_pos hpre, htrim, scanNetTCP_rows, findSome?_rowPeer_filter, hrow,
    List.findSome?_cons, rowPeer_of_token hinode hrem]

end Tlstat.Model
