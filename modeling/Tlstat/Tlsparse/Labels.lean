import Tlstat.Base.Checked
import Tlstat.Tlsparse.Parse

/-! The labels of versions, suites, groups and signature schemes. The bulk cipher of a suite is
searched in its name, over slices. -/

namespace Tlstat.Tlsparse
open Base Base.Checked

def utf8 (s : String) : Bytes := s.toUTF8.toList

/-- `%04x` -/
def hex4 (v : UInt16) : Bytes :=
  [v >>> 12, v >>> 8, v >>> 4, v].map fun d =>
    let d := (d &&& 0xf).toUInt8
    if d < 10 then 0x30 + d else 0x57 + d

/-- "0x%04x" -/
def codePoint (v : UInt16) : Bytes := utf8 "0x" ++ hex4 v

def versionName (v : UInt16) : Bytes :=
  match v with
  | 0x0300 => utf8 "SSL 3.0"
  | 0x0301 => utf8 "TLS 1.0"
  | 0x0302 => utf8 "TLS 1.1"
  | 0x0303 => utf8 "TLS 1.2"
  | 0x0304 => utf8 "TLS 1.3"
  | 0 => []
  | _ => codePoint v

def cipherSuites : List (UInt16 × String) :=
  [ -- TLS 1.3
    (0x1301, "TLS_AES_128_GCM_SHA256"),
    (0x1302, "TLS_AES_256_GCM_SHA384"),
    (0x1303, "TLS_CHACHA20_POLY1305_SHA256"),
    (0x1304, "TLS_AES_128_CCM_SHA256"),
    (0x1305, "TLS_AES_128_CCM_8_SHA256"),
    -- TLS 1.2 ECDHE
    (0xc02b, "ECDHE-ECDSA-AES128-GCM-SHA256"),
    (0xc02c, "ECDHE-ECDSA-AES256-GCM-SHA384"),
    (0xc02f, "ECDHE-RSA-AES128-GCM-SHA256"),
    (0xc030, "ECDHE-RSA-AES256-GCM-SHA384"),
    (0xcca8, "ECDHE-RSA-CHACHA20-POLY1305"),
    (0xcca9, "ECDHE-ECDSA-CHACHA20-POLY1305"),
    (0xc023, "ECDHE-ECDSA-AES128-SHA256"),
    (0xc027, "ECDHE-RSA-AES128-SHA256"),
    (0xc013, "ECDHE-RSA-AES128-SHA"),
    (0xc014, "ECDHE-RSA-AES256-SHA"),
    (0xc009, "ECDHE-ECDSA-AES128-SHA"),
    (0xc00a, "ECDHE-ECDSA-AES256-SHA"),
    -- RSA kx (legacy)
    (0x009c, "RSA-AES128-GCM-SHA256"),
    (0x009d, "RSA-AES256-GCM-SHA384"),
    (0x002f, "RSA-AES128-SHA"),
    (0x0035, "RSA-AES256-SHA"),
    (0x00ff, "TLS_EMPTY_RENEGOTIATION_INFO_SCSV")]

def namedGroups : List (UInt16 × String) :=
  [(0x0017, "secp256r1 (P-256)"), (0x0018, "secp384r1 (P-384)"), (0x0019, "secp521r1 (P-521)"),
    (0x001d, "x25519"), (0x001e, "x448"), (0x0100, "ffdhe2048"), (0x0101, "ffdhe3072"),
    (0x11ec, "X25519MLKEM768"), (0x6399, "X25519Kyber768Draft00")]

def sigSchemes : List (UInt16 × String) :=
  [(0x0401, "rsa_pkcs1_sha256"), (0x0501, "rsa_pkcs1_sha384"), (0x0601, "rsa_pkcs1_sha512"),
    (0x0403, "ecdsa_secp256r1_sha256"), (0x0503, "ecdsa_secp384r1_sha384"),
    (0x0603, "ecdsa_secp521r1_sha512"), (0x0804, "rsa_pss_rsae_sha256"),
    (0x0805, "rsa_pss_rsae_sha384"), (0x0806, "rsa_pss_rsae_sha512"), (0x0807, "ed25519"),
    (0x0808, "ed448"), (0x0809, "rsa_pss_pss_sha256"), (0x0201, "rsa_pkcs1_sha1"),
    (0x0203, "ecdsa_sha1")]

/-- `CipherName` and `GroupName`: a label, nothing for 0, or else the code point. -/
def labelOf (labels : List (UInt16 × String)) (v : UInt16) : Bytes :=
  match labels.lookup v with
  | some s => utf8 s
  | none => if v = 0 then [] else codePoint v

def cipherName (c : UInt16) : Bytes := labelOf cipherSuites c

def groupName (g : UInt16) : Bytes := labelOf namedGroups g

/-- Unlike the other two, it has a code point for 0. -/
def sigSchemeName (s : UInt16) : Bytes :=
  match sigSchemes.lookup s with
  | some n => utf8 n
  | none => codePoint s

/-! ### The bulk cipher -/

/-- The lower case letters of ASCII as upper case ones. -/
def upper (c : UInt8) : UInt8 := if 0x61 ≤ c ∧ c ≤ 0x7a then c - 32 else c

def equalFold (a b : Bytes) : Checked Bool :=
  if a.length ≠ b.length then return false
  else (Int.range 0 a.length).allM fun i => do
    let ca ← index a i
    let cb ← index b i
    return upper ca = upper cb

def containsFold (s sub : Bytes) : Checked Bool :=
  if sub.length > s.length then return false
  else (Int.range 0 (s.length - sub.length + 1)).anyM fun i => do
    let part ← subslice s i (i + sub.length)
    equalFold part sub

/-- The first of the keys that the name contains. -/
def firstContained (n : Bytes) : List String → Checked Bytes
  | [] => return []
  | k :: ks => do
    if ← containsFold n (utf8 k) then return utf8 k else firstContained n ks

def symmetric (c : UInt16) : Checked Bytes :=
  match c with
  | 0x1301 | 0x1304 | 0x1305 => return utf8 "AES-128-GCM"
  | 0x1302 => return utf8 "AES-256-GCM"
  | 0x1303 => return utf8 "ChaCha20-Poly1305"
  | _ => firstContained (cipherName c)
    ["CHACHA20-POLY1305", "AES256-GCM", "AES128-GCM", "AES256", "AES128", "3DES"]

theorem returns_equalFold (a b : Bytes) : Returns (equalFold a b) fun _ => True := by
  unfold equalFold
  split_ifs with hlen
  · exact .ok trivial
  · refine .allM fun i hi => ?_
    obtain ⟨h₀, hlt⟩ := Int.mem_range_iff.mp hi
    refine .bind (returns_index h₀ hlt) fun ca _ => ?_
    refine .bind (returns_index h₀ (by omega)) fun cb _ => ?_
    exact .ok trivial

theorem returns_containsFold (s sub : Bytes) : Returns (containsFold s sub) fun _ => True := by
  unfold containsFold
  split_ifs with hlen
  · exact .ok trivial
  · refine .anyM fun i hi => ?_
    obtain ⟨h₀, hlt⟩ := Int.mem_range_iff.mp hi
    refine .bind (returns_subslice h₀ (by omega) (by omega)) fun part _ => ?_
    exact returns_equalFold part sub

theorem returns_firstContained (n : Bytes) (ks : List String) :
    Returns (firstContained n ks) fun _ => True := by
  induction ks with
  | nil => exact .ok trivial
  | cons k ks ih =>
    refine .bind (returns_containsFold n (utf8 k)) fun b _ => ?_
    cases b with
    | false => exact ih
    | true => exact .ok trivial

/-- No suite makes the search leave its name. -/
theorem returns_symmetric (c : UInt16) : Returns (symmetric c) fun _ => True := by
  unfold symmetric
  split
  · exact .ok trivial
  · exact .ok trivial
  · exact .ok trivial
  · exact .ok trivial
  · exact .ok trivial
  · exact returns_firstContained _ _

end Tlstat.Tlsparse
