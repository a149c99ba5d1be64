import Tlstat.Tlsparse.Vectors

/-! ClientHello and ServerHello as a peer writes them, and that the two decoders undo the
encoding. A hello carries its well-formedness, so every value of the two types is one that a peer
could send. -/

namespace Tlstat.Tlsparse
open Base

/-! ### What one extension says -/

def sniOf (e : UInt16 × Bytes) : Option Bytes :=
  if e.1 = 0 then if parseSNI e.2 = [] then none else some (parseSNI e.2) else none

def sigsOf (e : UInt16 × Bytes) : Option (List UInt16) :=
  if e.1 = 13 then some (parseU16List e.2) else none

def alpnOf (e : UInt16 × Bytes) : Option (List Bytes) :=
  if e.1 = 16 then some (parseALPN e.2) else none

/-- The first two bytes of an extension of type `t`. -/
def wordOf (t : UInt16) (e : UInt16 × Bytes) : Option UInt16 :=
  if e.1 = t then
    match e.2 with
    | a :: b :: _ => some (be16 a b)
    | _ => none
  else none

def handle (server : Bool) (i : Info) (e : UInt16 × Bytes) : Info :=
  handleExtension e.1 e.2 i server

theorem sniOf_key {e : UInt16 × Bytes} {v : Bytes} (h : sniOf e = some v) : e.1 = 0 := by
  unfold sniOf at h
  split_ifs at h
  assumption

theorem sigsOf_key {e : UInt16 × Bytes} {v : List UInt16} (h : sigsOf e = some v) : e.1 = 13 := by
  unfold sigsOf at h
  split_ifs at h
  assumption

theorem alpnOf_key {e : UInt16 × Bytes} {v : List Bytes} (h : alpnOf e = some v) : e.1 = 16 := by
  unfold alpnOf at h
  split_ifs at h
  assumption

theorem wordOf_key {t : UInt16} {e : UInt16 × Bytes} {v : UInt16} (h : wordOf t e = some v) :
    e.1 = t := by
  unfold wordOf at h
  split_ifs at h
  assumption

theorem handle_client (i : Info) (e : UInt16 × Bytes) :
    handle false i e = { i with
      sni := (sniOf e).getD i.sni
      offeredSigs := (sigsOf e).getD i.offeredSigs
      alpn := (alpnOf e).getD i.alpn } := by
  obtain ⟨t, d⟩ := e
  unfold handle handleExtension sniOf sigsOf alpnOf
  dsimp only
  by_cases h₀ : t = 0
  · subst h₀
    by_cases hs : parseSNI d = [] <;> simp [hs]
  by_cases h₁₃ : t = 13
  · subst h₁₃
    simp
  by_cases h₁₆ : t = 16
  · subst h₁₆
    simp
  simp [h₀, h₁₃, h₁₆]

theorem handle_server (i : Info) (e : UInt16 × Bytes) :
    handle true i e = { i with
      negVersion := (wordOf 43 e).getD i.negVersion
      group := (wordOf 51 e).getD i.group
      alpn := (alpnOf e).getD i.alpn } := by
  obtain ⟨t, d⟩ := e
  unfold handle handleExtension wordOf alpnOf
  dsimp only
  by_cases h₀ : t = 0
  · subst h₀
    simp
  by_cases h₁₃ : t = 13
  · subst h₁₃
    simp
  by_cases h₁₆ : t = 16
  · subst h₁₆
    simp
  by_cases h₄₃ : t = 43
  · subst h₄₃
    rcases d with _ | ⟨a, _ | ⟨b, d⟩⟩ <;> simp
  by_cases h₅₁ : t = 51
  · subst h₅₁
    rcases d with _ | ⟨a, _ | ⟨b, d⟩⟩ <;> simp
  simp [h₀, h₁₃, h₁₆, h₄₃, h₅₁]

theorem foldl_handle_client {es : List (UInt16 × Bytes)} (h : (es.map (·.1)).Nodup) (i : Info) :
    es.foldl (handle false) i = { i with
      sni := (es.findSome? sniOf).getD i.sni
      offeredSigs := (es.findSome? sigsOf).getD i.offeredSigs
      alpn := (es.findSome? alpnOf).getD i.alpn } := by
  induction es generalizing i with
  | nil => rfl
  | cons e es ih =>
    -- the type of `e` does not come again, so nothing in `es` overwrites what it sets
    rw [List.foldl_cons, ih (List.nodup_cons.mp h).2, handle_client]
    dsimp only
    rw [findSome?_getD_of_key (fun _ _ => sniOf_key) h, findSome?_getD_of_key (fun _ _ => sigsOf_key) h,
      findSome?_getD_of_key (fun _ _ => alpnOf_key) h]

theorem foldl_handle_server {es : List (UInt16 × Bytes)} (h : (es.map (·.1)).Nodup) (i : Info) :
    es.foldl (handle true) i = { i with
      negVersion := (es.findSome? (wordOf 43)).getD i.negVersion
      group := (es.findSome? (wordOf 51)).getD i.group
      alpn := (es.findSome? alpnOf).getD i.alpn } := by
  induction es generalizing i with
  | nil => rfl
  | cons e es ih =>
    rw [List.foldl_cons, ih (List.nodup_cons.mp h).2, handle_server]
    dsimp only
    rw [findSome?_getD_of_key (fun _ _ => wordOf_key) h, findSome?_getD_of_key (fun _ _ => wordOf_key) h,
      findSome?_getD_of_key (fun _ _ => alpnOf_key) h]

/-! ### The two walks -/

theorem extensionsEffect_foldl (server : Bool) (es : List (UInt16 × Bytes)) (i : Info) :
    (extensionsEffect server es).apply i = es.foldl (handle server) i :=
  Effect.prod_apply_eq_foldl (fun e i => (handleExtension_eq e.1 e.2 i server).symm) es i

/-- What a ClientHello whose walk gets to the extensions `es` does. -/
def clientFold (ver : UInt16) (es : List (UInt16 × Bytes)) (i : Info) : Info :=
  es.foldl (handle false) { i with
    hasClientHello := true
    clientVersion := ver
    negVersion := if i.negVersion = 0 then ver else i.negVersion }

theorem parseClientHello_walk {b : Bytes} {ver : UInt16} {r : Reader}
    (h : (Reader.start b).u16 = some (ver, r)) (i : Info) :
    parseClientHello b i = clientFold ver (clientWalk r) i := by
  rw [parseClientHello_eq]
  unfold clientHelloEffect
  rw [h]
  dsimp only
  rw [Effect.apply_mul, extensionsEffect_foldl]
  rfl

/-- The upgrade of the version at the end of a ServerHello. -/
def upgrade (cs : UInt16) (i : Info) : Info :=
  if i.negVersion < 0x0304 && isTLS13Cipher cs then { i with negVersion := 0x0304 } else i

/-- What a ServerHello whose walk gets as far as `w` does. -/
def serverFold (ver : UInt16) (w : Option (UInt16 × Option (List (UInt16 × Bytes)))) (i : Info) :
    Info :=
  let i := { i with hasServerHello := true, negVersion := ver }
  match w with
  | none => i
  | some (cs, none) => { i with cipherSuite := cs }
  | some (cs, some es) => upgrade cs (es.foldl (handle true) { i with cipherSuite := cs })

theorem parseServerHello_walk {b : Bytes} {ver : UInt16} {r : Reader}
    (h : (Reader.start b).u16 = some (ver, r)) (i : Info) :
    parseServerHello b i = serverFold ver (serverWalk r) i := by
  rw [parseServerHello_eq]
  unfold serverHelloEffect serverHelloRest serverFold
  rw [h]
  dsimp only
  rcases serverWalk r with _ | ⟨cs, _ | es⟩
  · rfl
  · rfl
  · obtain ⟨v, hv⟩ := serverHello_negVersion_put ver ({ cipherSuite := .put cs } * extensionsEffect true es)
    dsimp only
    rw [Effect.apply_raise hv, Effect.apply_mul, Effect.apply_mul, extensionsEffect_foldl]
    rfl

/-! ### ClientHello -/

inductive ClientExtension
  | serverName (names : List (UInt8 × Bytes)) (host : ∃ h, hostName names = some h ∧ h ≠ [])
  | signatureAlgorithms (schemes : List UInt16)
  | alpn (protocols : List Bytes) (le : ∀ p ∈ protocols, p.length ≤ 255)
  | other (etype : UInt16) (data : Bytes) (ne : etype ≠ 0 ∧ etype ≠ 13 ∧ etype ≠ 16)

namespace ClientExtension

def item : ClientExtension → UInt16 × Bytes
  | serverName names _ => (0, vec16 (names.flatMap serverNameEntry))
  | signatureAlgorithms schemes => (13, vec16 (schemes.flatMap word))
  | alpn protocols _ => (16, vec16 (protocols.flatMap vec8))
  | other etype data _ => (etype, data)

def sni : ClientExtension → Option Bytes
  | serverName names _ => hostName names
  | _ => none

def sigs : ClientExtension → Option (List UInt16)
  | signatureAlgorithms schemes => some schemes
  | _ => none

def protocols : ClientExtension → Option (List Bytes)
  | alpn protocols _ => some protocols
  | _ => none

theorem item_says (e : ClientExtension) (hlen : e.item.2.length < 65536) :
    sniOf e.item = e.sni ∧ sigsOf e.item = e.sigs ∧ alpnOf e.item = e.protocols := by
  cases e with
  | serverName names host =>
    obtain ⟨h, hh, hne⟩ := host
    rw [item, length_vec16] at hlen
    refine ⟨?_, rfl, rfl⟩
    rw [item, sniOf, if_pos rfl, parseSNI_encode (by omega), sni, hh, Option.getD_some, if_neg hne]
  | signatureAlgorithms schemes =>
    rw [item, length_vec16] at hlen
    refine ⟨rfl, ?_, rfl⟩
    rw [item, sigsOf, if_pos rfl, parseU16List_encode (by omega), sigs]
  | alpn ps le =>
    rw [item, length_vec16] at hlen
    refine ⟨rfl, rfl, ?_⟩
    rw [item, alpnOf, if_pos rfl, parseALPN_encode le (by omega), protocols]
  | other t d ne => exact ⟨if_neg ne.1, if_neg ne.2.1, if_neg ne.2.2⟩

end ClientExtension

structure ClientHello where
  version : UInt16
  random : Bytes
  sessionId : Bytes
  cipherSuites : Bytes
  compression : Bytes
  extensions : Option (List ClientExtension)
  random_length : random.length = 32
  sessionId_le : sessionId.length ≤ 255
  cipherSuites_lt : cipherSuites.length < 65536
  compression_le : compression.length ≤ 255
  types_nodup : ((extensions.getD []).map (·.item.1)).Nodup
  block_lt : (((extensions.getD []).map (·.item)).flatMap extension).length < 65536

theorem length_le_block {e : UInt16 × Bytes} {es : List (UInt16 × Bytes)} (he : e ∈ es) :
    e.2.length ≤ (es.flatMap extension).length := by
  induction es with
  | nil => simp at he
  | cons e' es ih =>
    rw [List.flatMap_cons, List.length_append]
    rcases List.mem_cons.mp he with rfl | he
    · rw [extension, List.length_append, length_vec16]
      omega
    · have := ih he
      omega

namespace ClientHello
variable (h : ClientHello)

def items : List (UInt16 × Bytes) := (h.extensions.getD []).map (·.item)

def encode : Bytes :=
  word h.version ++ (h.random ++ (vec8 h.sessionId ++ (vec16 h.cipherSuites ++
    (vec8 h.compression ++ extensionBlock (h.extensions.map (·.map (·.item)))))))

def sni : Option Bytes := (h.extensions.getD []).findSome? (·.sni)
def sigs : Option (List UInt16) := (h.extensions.getD []).findSome? (·.sigs)
def alpn : Option (List Bytes) := (h.extensions.getD []).findSome? (·.protocols)

theorem getD_items : (h.extensions.map (·.map (·.item))).getD [] = h.items := by
  unfold items
  cases h.extensions <;> rfl

theorem items_nodup : (h.items.map (·.1)).Nodup := by
  rw [items, List.map_map]
  exact h.types_nodup

theorem items_say : h.items.findSome? sniOf = h.sni ∧ h.items.findSome? sigsOf = h.sigs ∧
    h.items.findSome? alpnOf = h.alpn := by
  have hlen : ∀ e ∈ h.extensions.getD [], e.item.2.length < 65536 := fun e he =>
    (length_le_block (List.mem_map_of_mem he)).trans_lt h.block_lt
  have hsay := fun e he => ClientExtension.item_says e (hlen e he)
  unfold items sni sigs alpn
  exact ⟨findSome?_map_congr fun e he => (hsay e he).1,
    findSome?_map_congr fun e he => (hsay e he).2.1,
    findSome?_map_congr fun e he => (hsay e he).2.2⟩

theorem walk_encode :
    ∃ r, (Reader.start h.encode).u16 = some (h.version, r) ∧ clientWalk r = h.items := by
  obtain ⟨r₁, h₁, at₁⟩ := Reader.At.u16 (Reader.At.start h.encode)
  rw [UInt16.ofNat_toNat] at h₁
  refine ⟨r₁, h₁, ?_⟩
  obtain ⟨r₂, h₂, at₂⟩ := at₁.skip
  rw [h.random_length] at h₂
  obtain ⟨r₃, h₃, at₃⟩ := at₂.skipVec8 h.sessionId_le
  rw [vec16, List.append_assoc] at at₃
  obtain ⟨r₄, h₄, at₄⟩ := at₃.u16
  obtain ⟨r₅, h₅, at₅⟩ := at₄.skip
  obtain ⟨r₆, h₆, at₆⟩ := at₅.skipVec8 h.compression_le
  have hexts := extensions_encode at₆ (by rw [h.getD_items]; exact h.block_lt)
  simp only [clientWalk, h₂, h₃, h₄, toNat_ofNat16 h.cipherSuites_lt, h₅, h₆, hexts, h.getD_items,
    Bool.not_true, Bool.false_eq_true, if_false]

theorem encode_lt : h.encode.length < 2 ^ 24 := by
  have hblock := length_extensionBlock_le (h.extensions.map (·.map (·.item)))
  have hlt := h.block_lt
  have hrandom := h.random_length
  have hid := h.sessionId_le
  have hsuites := h.cipherSuites_lt
  have hcompression := h.compression_le
  rw [h.getD_items] at hblock
  change (h.items.flatMap extension).length < 65536 at hlt
  simp only [encode, List.length_append, length_word, length_vec8, length_vec16]
  omega

end ClientHello

/-- **Decoding a ClientHello undoes its encoding.** -/
theorem parseClientHello_encode (h : ClientHello) (i : Info) :
    parseClientHello h.encode i = { i with
      hasClientHello := true
      clientVersion := h.version
      negVersion := if i.negVersion = 0 then h.version else i.negVersion
      sni := h.sni.getD i.sni
      alpn := h.alpn.getD i.alpn
      offeredSigs := h.sigs.getD i.offeredSigs } := by
  obtain ⟨r, hr, hwalk⟩ := h.walk_encode
  obtain ⟨hsni, hsigs, halpn⟩ := h.items_say
  rw [parseClientHello_walk hr, hwalk, clientFold, foldl_handle_client h.items_nodup, hsni, hsigs,
    halpn]

/-- `h2` and `http/1.1`. -/
def h2 : Bytes := [0x68, 0x32]
def http11 : Bytes := [0x68, 0x74, 0x74, 0x70, 0x2f, 0x31, 0x2e, 0x31]

def offersH2 : ClientHello where
  version := 0x0303
  random := List.replicate 32 7
  sessionId := [1, 2]
  cipherSuites := [0x13, 0x01, 0xc0, 0x2f]
  compression := [0]
  extensions := some [.other 43 [2, 3, 4] (by decide), .alpn [h2, http11] (by decide),
    .serverName [(1, [9]), (0, [0x61, 0x2e, 0x62])] ⟨_, rfl, nofun⟩,
    .signatureAlgorithms [0x0403, 0x0804]]
  random_length := by decide
  sessionId_le := by decide
  cipherSuites_lt := by decide
  compression_le := by decide
  types_nodup := by decide
  block_lt := by decide +kernel

example : parseClientHello offersH2.encode {} =
    { hasClientHello := true, sni := [0x61, 0x2e, 0x62], alpn := [h2, http11],
      clientVersion := 0x0303, negVersion := 0x0303, offeredSigs := [0x0403, 0x0804] } := by
  decide +kernel

/-! ### ServerHello -/

inductive ServerExtension
  | supportedVersions (v : UInt16)
  | keyShare (group : UInt16) (keyExchange : Bytes)
  | alpn (protocols : List Bytes) (le : ∀ p ∈ protocols, p.length ≤ 255)
  | other (etype : UInt16) (data : Bytes) (ne : etype ≠ 43 ∧ etype ≠ 51 ∧ etype ≠ 16)

namespace ServerExtension

def item : ServerExtension → UInt16 × Bytes
  | supportedVersions v => (43, word v)
  | keyShare group keyExchange => (51, word group ++ keyExchange)
  | alpn protocols _ => (16, vec16 (protocols.flatMap vec8))
  | other etype data _ => (etype, data)

def version : ServerExtension → Option UInt16
  | supportedVersions v => some v
  | _ => none

def group : ServerExtension → Option UInt16
  | keyShare group _ => some group
  | _ => none

def protocols : ServerExtension → Option (List Bytes)
  | alpn protocols _ => some protocols
  | _ => none

theorem wordOf_word (t v : UInt16) (d : Bytes) : wordOf t (t, word v ++ d) = some v := by
  rw [wordOf, if_pos rfl]
  change some (be16 (UInt8.ofNat (v.toNat / 256)) (UInt8.ofNat v.toNat)) = some v
  rw [be16_put, UInt16.ofNat_toNat]

theorem item_says (e : ServerExtension) (hlen : e.item.2.length < 65536) :
    wordOf 43 e.item = e.version ∧ wordOf 51 e.item = e.group ∧ alpnOf e.item = e.protocols := by
  cases e with
  | supportedVersions v => exact ⟨wordOf_word 43 v [], rfl, rfl⟩
  | keyShare g k => exact ⟨rfl, wordOf_word 51 g k, rfl⟩
  | alpn ps le =>
    rw [item, length_vec16] at hlen
    refine ⟨rfl, rfl, ?_⟩
    rw [item, alpnOf, if_pos rfl, parseALPN_encode le (by omega), protocols]
  | other t d ne => exact ⟨if_neg ne.1, if_neg ne.2.1, if_neg ne.2.2⟩

end ServerExtension

structure ServerHello where
  version : UInt16
  random : Bytes
  sessionId : Bytes
  cipherSuite : UInt16
  compression : UInt8
  extensions : Option (List ServerExtension)
  random_length : random.length = 32
  sessionId_le : sessionId.length ≤ 255
  types_nodup : ((extensions.getD []).map (·.item.1)).Nodup
  block_lt : (((extensions.getD []).map (·.item)).flatMap extension).length < 65536

namespace ServerHello
variable (h : ServerHello)

def items : List (UInt16 × Bytes) := (h.extensions.getD []).map (·.item)

def encode : Bytes :=
  word h.version ++ (h.random ++ (vec8 h.sessionId ++ (word h.cipherSuite ++
    (h.compression :: extensionBlock (h.extensions.map (·.map (·.item)))))))

def supportedVersion : Option UInt16 := (h.extensions.getD []).findSome? (·.version)
def group : Option UInt16 := (h.extensions.getD []).findSome? (·.group)
def alpn : Option (List Bytes) := (h.extensions.getD []).findSome? (·.protocols)

theorem getD_items : (h.extensions.map (·.map (·.item))).getD [] = h.items := by
  unfold items
  cases h.extensions <;> rfl

theorem items_nodup : (h.items.map (·.1)).Nodup := by
  rw [items, List.map_map]
  exact h.types_nodup

theorem items_say : h.items.findSome? (wordOf 43) = h.supportedVersion ∧
    h.items.findSome? (wordOf 51) = h.group ∧ h.items.findSome? alpnOf = h.alpn := by
  have hlen : ∀ e ∈ h.extensions.getD [], e.item.2.length < 65536 := fun e he =>
    (length_le_block (List.mem_map_of_mem he)).trans_lt h.block_lt
  have hsay := fun e he => ServerExtension.item_says e (hlen e he)
  exact ⟨findSome?_map_congr fun e he => (hsay e he).1,
    findSome?_map_congr fun e he => (hsay e he).2.1,
    findSome?_map_congr fun e he => (hsay e he).2.2⟩

theorem walk_encode : ∃ r, (Reader.start h.encode).u16 = some (h.version, r) ∧
    serverWalk r = some (h.cipherSuite, some h.items) := by
  obtain ⟨r₁, h₁, at₁⟩ := Reader.At.u16 (Reader.At.start h.encode)
  rw [UInt16.ofNat_toNat] at h₁
  refine ⟨r₁, h₁, ?_⟩
  obtain ⟨r₂, h₂, at₂⟩ := at₁.skip
  rw [h.random_length] at h₂
  obtain ⟨r₃, h₃, at₃⟩ := at₂.skipVec8 h.sessionId_le
  obtain ⟨r₄, h₄, at₄⟩ := Reader.At.u16 at₃
  rw [UInt16.ofNat_toNat] at h₄
  obtain ⟨r₅, h₅, at₅⟩ := at₄.u8
  have hexts := extensions_encode at₅ (by rw [h.getD_items]; exact h.block_lt)
  simp only [serverWalk, h₂, h₃, h₄, h₅, hexts, h.getD_items, Bool.not_true, Bool.false_eq_true,
    if_false]

theorem encode_lt : h.encode.length < 2 ^ 24 := by
  have hblock := length_extensionBlock_le (h.extensions.map (·.map (·.item)))
  have hlt := h.block_lt
  have hrandom := h.random_length
  have hid := h.sessionId_le
  rw [h.getD_items] at hblock
  change (h.items.flatMap extension).length < 65536 at hlt
  simp only [encode, List.length_append, List.length_cons, length_word, length_vec8]
  omega

/-- The version a ServerHello selects, before the upgrade. -/
def selected : UInt16 := h.supportedVersion.getD h.version

/-- The version a ServerHello stands for: a suite of TLS 1.3 raises an older one. -/
def negotiated : UInt16 :=
  if h.selected < 0x0304 ∧ 0x1301 ≤ h.cipherSuite ∧ h.cipherSuite ≤ 0x1305 then 0x0304
  else h.selected

end ServerHello

theorem upgrade_negVersion (cs : UInt16) (i : Info) : upgrade cs i = { i with
    negVersion := if i.negVersion < 0x0304 ∧ 0x1301 ≤ cs ∧ cs ≤ 0x1305 then 0x0304
      else i.negVersion } := by
  have hiff : (i.negVersion < 0x0304 && isTLS13Cipher cs) = true ↔
      i.negVersion < 0x0304 ∧ 0x1301 ≤ cs ∧ cs ≤ 0x1305 := by
    simp only [isTLS13Cipher, ge_iff_le, Bool.and_eq_true, decide_eq_true_eq]
  unfold upgrade
  by_cases hc : i.negVersion < 0x0304 ∧ 0x1301 ≤ cs ∧ cs ≤ 0x1305
  · rw [if_pos (hiff.mpr hc), if_pos hc]
  · rw [if_neg (mt hiff.mp hc), if_neg hc]

/-- **Decoding a ServerHello undoes its encoding**, whatever version was shown before. -/
theorem parseServerHello_encode (h : ServerHello) (i : Info) :
    parseServerHello h.encode i = { i with
      hasServerHello := true
      cipherSuite := h.cipherSuite
      group := h.group.getD i.group
      alpn := h.alpn.getD i.alpn
      negVersion := h.negotiated } ∧
    ∀ v, parseServerHello h.encode { i with negVersion := v } = parseServerHello h.encode i := by
  obtain ⟨r, hr, hwalk⟩ := h.walk_encode
  obtain ⟨hver, hgroup, halpn⟩ := h.items_say
  have hparse : ∀ i, parseServerHello h.encode i = { i with
      hasServerHello := true
      cipherSuite := h.cipherSuite
      group := h.group.getD i.group
      alpn := h.alpn.getD i.alpn
      negVersion := h.negotiated } := by
    intro i
    rw [parseServerHello_walk hr, hwalk, serverFold]
    dsimp only
    rw [foldl_handle_server h.items_nodup, hver, hgroup, halpn, upgrade_negVersion]
    rfl
  refine ⟨hparse i, fun v => ?_⟩
  rw [hparse, hparse]

def selectsH2 : ServerHello where
  version := 0x0303
  random := List.replicate 32 5
  sessionId := []
  cipherSuite := 0x1301
  compression := 0
  extensions := some [.keyShare 0x11ec [0, 2, 8, 9], .alpn [h2] (by decide),
    .supportedVersions 0x0304]
  random_length := by decide
  sessionId_le := by decide
  types_nodup := by decide
  block_lt := by decide +kernel

end Tlstat.Tlsparse
