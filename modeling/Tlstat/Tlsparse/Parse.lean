import Tlstat.Tlsparse.Reader

/-! The handshake parser: record reassembly, the handshake message walk, and the
ClientHello, ServerHello and Certificate decoders, folded into one `Info`.
`x509` stands for `x509.ParseCertificate`, an arbitrary pure function. -/

set_option linter.unusedVariables false

namespace Tlstat.Tlsparse

structure Info where
  hasClientHello : Bool := false
  hasServerHello : Bool := false
  hasCert : Bool := false
  sni : Bytes := []
  alpn : List Bytes := []
  clientVersion : UInt16 := 0
  negVersion : UInt16 := 0
  cipherSuite : UInt16 := 0
  group : UInt16 := 0
  offeredSigs : List UInt16 := []
  certSubject : Bytes := []
  certIssuer : Bytes := []
  certSANs : List Bytes := []
  certSigAlg : Bytes := []
deriving DecidableEq, Repr

@[ext] structure Certificate where
  subjectCommonName : Bytes
  subjectOrganization : List Bytes
  issuerCommonName : Bytes
  dnsNames : List Bytes
  signatureAlgorithm : Bytes
deriving DecidableEq, Repr

/-- `x509.ParseCertificate`, with `none` for an error. -/
abbrev X509 := Bytes → Option Certificate

def ctHandshake : UInt8 := 22
def hsClientHello : UInt8 := 1
def hsServerHello : UInt8 := 2
def hsCertificate : UInt8 := 11

/-! ### Records -/

def collectLoop (buf : Bytes) (p : ℕ) (out : Bytes) : Bytes :=
  if h : p + 5 ≤ buf.length then
    let length := buf[p + 3].toNat <<< 8 ||| buf[p + 4].toNat
    if buf[p] ≠ ctHandshake then out
    else
      let start := p + 5
      -- a truncated final record gives what there is of it, and ends the walk
      if start + length > buf.length then out ++ slice buf start buf.length
      else collectLoop buf (start + length) (out ++ slice buf start (start + length))
  else out
termination_by buf.length - p

def collectHandshake (buf : Bytes) : Bytes := collectLoop buf 0 []

/-! ### Extensions -/

def parseSNILoop (stop : ℕ) (r : Reader) : Bytes :=
  if h : r.off + 3 ≤ stop ∧ r.off + 3 ≤ r.b.length then
    let ntype := r.u8D
    let nlen := ntype.2.u16D
    match hb : nlen.2.bytes nlen.1.toNat with
    | none => []
    | some (name, r') => if ntype.1 = 0 then name else parseSNILoop stop r'
  else []
termination_by r.b.length - r.off
decreasing_by
  obtain ⟨h₁, h₂⟩ := Reader.u8D_moves (r := r) (by omega)
  obtain ⟨h₃, h₄⟩ := Reader.u16D_moves (r := r.u8D.2) (by rw [h₁, h₂]; omega)
  obtain ⟨h₅, h₆⟩ := Reader.bytes_moves hb
  rw [h₅, h₆, h₃, h₄, h₁, h₂]
  omega

theorem parseSNILoop_step {stop : ℕ} {r r' : Reader} {name : Bytes}
    (h : r.off + 3 ≤ stop ∧ r.off + 3 ≤ r.b.length)
    (hb : r.u8D.2.u16D.2.bytes r.u8D.2.u16D.1.toNat = some (name, r')) :
    parseSNILoop stop r = if r.u8D.1 = 0 then name else parseSNILoop stop r' := by
  rw [parseSNILoop, dif_pos h]
  dsimp only
  split <;> simp_all

def parseSNI (b : Bytes) : Bytes :=
  if b.length < 2 then []
  else
    let listLen := (Reader.start b).u16D
    parseSNILoop (listLen.2.off + listLen.1.toNat) listLen.2

def parseALPNLoop (stop : ℕ) (r : Reader) (out : List Bytes) : List Bytes :=
  if h : r.off + 1 ≤ stop ∧ r.off < r.b.length then
    let l := r.u8D
    match hb : l.2.bytes l.1.toNat with
    | none => out
    | some (name, r') => parseALPNLoop stop r' (out ++ [name])
  else out
termination_by r.b.length - r.off
decreasing_by
  obtain ⟨h₁, h₂⟩ := Reader.u8D_moves (r := r) (by omega)
  obtain ⟨h₃, h₄⟩ := Reader.bytes_moves hb
  rw [h₃, h₄, h₁, h₂]
  omega

def parseALPN (b : Bytes) : List Bytes :=
  if b.length < 2 then []
  else
    let listLen := (Reader.start b).u16D
    parseALPNLoop (listLen.2.off + listLen.1.toNat) listLen.2 []

def parseU16Loop (stop : ℕ) (r : Reader) (out : List UInt16) : List UInt16 :=
  if h : r.off + 2 ≤ stop ∧ r.off + 2 ≤ r.b.length then
    let v := r.u16D
    parseU16Loop stop v.2 (out ++ [v.1])
  else out
termination_by r.b.length - r.off
decreasing_by
  obtain ⟨h₁, h₂⟩ := Reader.u16D_moves (r := r) h.2
  rw [h₁, h₂]
  omega

def parseU16List (b : Bytes) : List UInt16 :=
  if b.length < 2 then []
  else
    let l := (Reader.start b).u16D
    parseU16Loop (l.2.off + l.1.toNat) l.2 []

def handleExtension (etype : UInt16) (data : Bytes) (info : Info) (server : Bool) : Info :=
  if etype = 0 then -- server_name
    if server then info
    else if parseSNI data = [] then info
    else { info with sni := parseSNI data }
  else if etype = 13 then -- signature_algorithms (client)
    if server then info else { info with offeredSigs := parseU16List data }
  else if etype = 16 then -- ALPN
    { info with alpn := parseALPN data }
  else if etype = 43 then -- supported_versions
    if h : server ∧ 2 ≤ data.length then { info with negVersion := be16 data[0] data[1] }
    else info
  else if etype = 51 then -- key_share, the negotiated group is the first 2 bytes
    if h : server ∧ 2 ≤ data.length then { info with group := be16 data[0] data[1] }
    else info
  else info

def parseExtensionsLoop (server : Bool) (stop : ℕ) (r : Reader) (info : Info) : Info :=
  if h : r.off + 4 ≤ stop ∧ r.off + 4 ≤ r.b.length then
    let etype := r.u16D
    let elen := etype.2.u16D
    match hb : elen.2.bytes elen.1.toNat with
    | none => handleExtension etype.1 elen.2.rest info server
    | some (data, r') =>
      parseExtensionsLoop server stop r' (handleExtension etype.1 data info server)
  else info
termination_by r.b.length - r.off
decreasing_by
  obtain ⟨h₁, h₂⟩ := Reader.u16D_moves (r := r) (by omega)
  obtain ⟨h₃, h₄⟩ := Reader.u16D_moves (r := r.u16D.2) (by rw [h₁, h₂]; omega)
  obtain ⟨h₅, h₆⟩ := Reader.bytes_moves hb
  rw [h₅, h₆, h₃, h₄, h₁, h₂]
  omega

def parseExtensions (r : Reader) (info : Info) (server : Bool) : Info :=
  match r.u16 with
  | none => info
  | some (extLen, r) => parseExtensionsLoop server (r.off + extLen.toNat) r info

/-! ### Handshake messages -/

def parseClientHello (b : Bytes) (info : Info) : Info :=
  match (Reader.start b).u16 with
  | none => info
  | some (ver, r) =>
    let info := { info with
      hasClientHello := true
      clientVersion := ver
      negVersion := if info.negVersion = 0 then ver else info.negVersion }
    let random := r.skip 32
    if !random.1 then info
    else
      let sessionId := random.2.skipVec8
      if !sessionId.1 then info
      else
        match sessionId.2.u16 with
        | none => info
        | some (csLen, r) =>
          let compression := (r.skip csLen.toNat).2.skipVec8
          if !compression.1 then info
          else parseExtensions compression.2 info false

def isTLS13Cipher (c : UInt16) : Bool := c ≥ 0x1301 && c ≤ 0x1305

def parseServerHello (b : Bytes) (info : Info) : Info :=
  match (Reader.start b).u16 with
  | none => info
  | some (ver, r) =>
    let info := { info with hasServerHello := true, negVersion := ver }
    let random := r.skip 32
    if !random.1 then info
    else
      let sessionId := random.2.skipVec8
      if !sessionId.1 then info
      else
        match sessionId.2.u16 with
        | none => info
        | some (cs, r) =>
          let info := { info with cipherSuite := cs }
          match r.u8 with
          | none => info
          | some (_, r) =>
            let info := parseExtensions r info true
            -- a 1.3-only suite implies 1.3 even when supported_versions was cut off
            if info.negVersion < 0x0304 && isTLS13Cipher cs then
              { info with negVersion := 0x0304 }
            else info

/-- `strings.TrimSuffix` -/
def trimSuffix (s t : Bytes) : Bytes :=
  if t.isSuffixOf s then s.take (s.length - t.length) else s

def dash : Bytes := [0x2d]

def certSubjectOf (cert : Certificate) : Bytes :=
  match cert.subjectCommonName, cert.subjectOrganization with
  | [], o :: _ => o
  | cn, _ => cn

def parseCertificate (x509 : X509) (b : Bytes) (info : Info) : Info :=
  if b.length < 3 then info
  else
    let total := (Reader.start b).u24D
    let stop := min (total.2.off + total.1.toNat) b.length
    if total.2.off + 3 > stop then info
    else
      let clen := total.2.u24D
      match clen.2.bytes clen.1.toNat with
      | none => info
      | some ([], _) => info
      | some (der, _) =>
        match x509 der with
        | none => info
        | some cert => { info with
            hasCert := true
            certSubject := certSubjectOf cert
            certIssuer := cert.issuerCommonName
            certSANs := cert.dnsNames
            certSigAlg := trimSuffix cert.signatureAlgorithm dash }

def parseMessage (x509 : X509) (mtype : UInt8) (body : Bytes) (info : Info) : Info :=
  if mtype = hsClientHello then parseClientHello body info
  else if mtype = hsServerHello then parseServerHello body info
  else if mtype = hsCertificate then parseCertificate x509 body info
  else info

def parseHandshakeLoop (x509 : X509) (s : Bytes) (p : ℕ) (info : Info) : Info :=
  if h : p + 4 ≤ s.length then
    let mlen := s[p + 1].toNat <<< 16 ||| s[p + 2].toNat <<< 8 ||| s[p + 3].toNat
    let body := s.drop (p + 4)
    -- a truncated message is handed over as far as it goes
    let mlen := if mlen > body.length then body.length else mlen
    parseHandshakeLoop x509 s (p + 4 + mlen) (parseMessage x509 s[p] (body.take mlen) info)
  else info
termination_by s.length - p

def parseHandshakeStream (x509 : X509) (s : Bytes) (info : Info) : Info :=
  parseHandshakeLoop x509 s 0 info

def parse (x509 : X509) (buf : Bytes) (info : Info) : Info :=
  let stream := collectHandshake buf
  if stream.length = 0 then info else parseHandshakeStream x509 stream info

/-! ### The messages of a stream, on their own -/

def messagesLoop (s : Bytes) (p : ℕ) : List (UInt8 × Bytes) :=
  if h : p + 4 ≤ s.length then
    let mlen := s[p + 1].toNat <<< 16 ||| s[p + 2].toNat <<< 8 ||| s[p + 3].toNat
    let body := s.drop (p + 4)
    let mlen := if mlen > body.length then body.length else mlen
    (s[p], body.take mlen) :: messagesLoop s (p + 4 + mlen)
  else []
termination_by s.length - p

/-- The handshake messages of a stream, the last one possibly cut short. -/
def messages (s : Bytes) : List (UInt8 × Bytes) := messagesLoop s 0

end Tlstat.Tlsparse
