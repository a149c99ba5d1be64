import Tlstat.Base.Run
import Tlstat.Tlsparse.Sides
import Tlstat.Tlsparse.Truncation

/-! The certificate a stream shows: the leaf of its last Certificate message that parses. -/

namespace Tlstat.Tlsparse
open Base

/-- The four fields a certificate is reported by. -/
structure CertFields where
  subject : Bytes := []
  issuer : Bytes := []
  sans : List Bytes := []
  sigAlg : Bytes := []
deriving DecidableEq, Repr

def Info.certFields (i : Info) : CertFields :=
  ⟨i.certSubject, i.certIssuer, i.certSANs, i.certSigAlg⟩

def Certificate.fields (cert : Certificate) : CertFields :=
  ⟨certSubjectOf cert, cert.issuerCommonName, cert.dnsNames,
    trimSuffix cert.signatureAlgorithm dash⟩

section Leaf
variable (x509 : X509)

/-- The fields one message of the stream reports, if it is a Certificate whose leaf parses. -/
def leafOf (m : UInt8 × Bytes) : Option CertFields :=
  if m.1 = hsCertificate ∧ (parseCertificate x509 m.2 {}).hasCert then
    some (parseCertificate x509 m.2 {}).certFields
  else none

def leaves (buf : Bytes) : List CertFields := (handshake buf).filterMap (leafOf x509)

theorem certificateEffect_cases (b : Bytes) : certificateEffect x509 b = 1 ∨
    ∃ cert : Certificate, certificateEffect x509 b =
      { hasCert := .put true
        certSubject := .put (certSubjectOf cert)
        certIssuer := .put cert.issuerCommonName
        certSANs := .put cert.dnsNames
        certSigAlg := .put (trimSuffix cert.signatureAlgorithm dash) } := by
  unfold certificateEffect
  dsimp only
  split_ifs
  · exact .inl rfl
  · exact .inl rfl
  · rcases (Reader.start b).u24D.2.u24D.2.bytes (Reader.start b).u24D.2.u24D.1.toNat with
      _ | ⟨_ | ⟨d, ds⟩, q⟩
    · exact .inl rfl
    · exact .inl rfl
    · dsimp only
      rcases x509 (d :: ds) with _ | cert
      · exact .inl rfl
      · exact .inr ⟨cert, rfl⟩

theorem parseCertificate_certFields (b : Bytes) (i : Info) :
    (parseCertificate x509 b i).certFields =
      (leafOf x509 (hsCertificate, b)).getD i.certFields := by
  unfold leafOf
  rw [parseCertificate_eq, parseCertificate_eq]
  rcases certificateEffect_cases x509 b with h | ⟨cert, h⟩
  · rw [h]
    rfl
  · rw [h]
    rfl

theorem foldl_handle_certFields (server : Bool) (es : List (UInt16 × Bytes)) (i : Info) :
    (es.foldl (handle server) i).certFields = i.certFields := by
  refine foldl_frame (handle server) (fun i e => ?_) i es
  cases server with
  | false => rw [handle_client]; rfl
  | true => rw [handle_server]; rfl

theorem parseClientHello_certFields (b : Bytes) (i : Info) :
    (parseClientHello b i).certFields = i.certFields := by
  rcases hu : (Reader.start b).u16 with _ | ⟨ver, r⟩
  · rw [parseClientHello_none hu]
  · rw [parseClientHello_walk hu, clientFold, foldl_handle_certFields]
    rfl

theorem parseServerHello_certFields (b : Bytes) (i : Info) :
    (parseServerHello b i).certFields = i.certFields := by
  rcases hu : (Reader.start b).u16 with _ | ⟨ver, r⟩
  · rw [parseServerHello_none hu]
  · rw [parseServerHello_walk hu]
    rcases serverWalk r with _ | ⟨cs, _ | es⟩
    · rfl
    · rfl
    · rw [serverFold, upgrade_negVersion]
      exact foldl_handle_certFields true es _

theorem parseMessage_certFields (m : UInt8 × Bytes) (i : Info) :
    (parseMessage x509 m.1 m.2 i).certFields = (leafOf x509 m).getD i.certFields := by
  obtain ⟨t, b⟩ := m
  unfold parseMessage
  dsimp only
  by_cases h : t = hsCertificate
  · rw [h]
    exact parseCertificate_certFields x509 b i
  · have hnone : leafOf x509 (t, b) = none := if_neg fun hc => h hc.1
    rw [hnone, if_neg h]
    split_ifs
    · exact parseClientHello_certFields b i
    · exact parseServerHello_certFields b i
    · rfl

/-- A parse reports the last leaf of its stream, and leaves the report as it was where there is
none. -/
theorem parse_certFields (buf : Bytes) (i : Info) :
    (parse x509 buf i).certFields = ((leaves x509 buf).getLast?).getD i.certFields := by
  rw [parse_foldl]
  exact foldl_last_some _ (fun i m => parseMessage_certFields x509 m i) i _

theorem leafOf_cut {x y : UInt8 × Bytes} (h : Cut x y) :
    leafOf x509 x = none ∨ leafOf x509 x = leafOf x509 y := by
  unfold leafOf
  rw [h.1, parseCertificate_eq, parseCertificate_eq]
  rcases certificateEffect_cut x509 h.2 with hc | hc
  · rw [hc]
    exact .inl (if_neg fun hcert => Bool.false_ne_true hcert.2)
  · rw [hc]
    exact .inr rfl

theorem leaves_isPrefix {a b : Bytes} (h : a <+: b) : leaves x509 a <+: leaves x509 b :=
  (messages_truncates h).filterMap fun _ _ hxy => leafOf_cut x509 hxy

end Leaf

/-! ### Certificate messages -/

/-- The body of a Certificate message: the leaf, and the bytes of the rest of its chain. -/
def certificateBody (leaf chain : Bytes) : Bytes :=
  put24 (3 + (leaf.length + chain.length)) ++ (put24 leaf.length ++ (leaf ++ chain))

theorem toNat_be24_put {n : ℕ} (h : n < 16777216) :
    (be24 (UInt8.ofNat (n / 65536)) (UInt8.ofNat (n / 256)) (UInt8.ofNat n)).toNat = n := by
  have hhi := (UInt8.ofNat (n / 65536)).toNat_lt
  have hmid := (UInt8.ofNat (n / 256)).toNat_lt
  unfold be24
  rw [UInt32.toNat_or, UInt32.toNat_or, UInt32.toNat_shiftLeft, UInt32.toNat_shiftLeft,
    UInt8.toNat_toUInt32, UInt8.toNat_toUInt32, UInt8.toNat_toUInt32]
  change (UInt8.ofNat (n / 65536)).toNat <<< 16 % 4294967296 |||
    (UInt8.ofNat (n / 256)).toNat <<< 8 % 4294967296 ||| (UInt8.ofNat n).toNat = n
  rw [Nat.mod_eq_of_lt (by rw [Nat.shiftLeft_eq]; omega),
    Nat.mod_eq_of_lt (by rw [Nat.shiftLeft_eq]; omega), nat24_put h]

theorem Reader.At.u24D {r : Reader} {b t : Bytes} {n : ℕ} (h : r.At b (put24 n ++ t))
    (hn : n < 16777216) : r.u24D.1.toNat = n ∧ r.u24D.2.At b t := by
  have hb : r.off + 3 ≤ r.b.length := h.bound
  have h₀ : r.b[r.off] = UInt8.ofNat (n / 65536) := (List.getElem_eq_iff _).mpr (h.getElem? 0)
  have h₁ : r.b[r.off + 1] = UInt8.ofNat (n / 256) := (List.getElem_eq_iff _).mpr (h.getElem? 1)
  have h₂ : r.b[r.off + 2] = UInt8.ofNat n := (List.getElem_eq_iff _).mpr (h.getElem? 2)
  rw [Reader.u24D_of_le hb, h₀, h₁, h₂]
  exact ⟨toNat_be24_put hn, h.advance⟩

theorem leafOf_certificateBody (x509 : X509) {leaf chain : Bytes} {cert : Certificate}
    (hne : leaf ≠ []) (hlen : 3 + (leaf.length + chain.length) < 16777216)
    (hx : x509 leaf = some cert) :
    leafOf x509 (hsCertificate, certificateBody leaf chain) = some cert.fields := by
  have hblen : (certificateBody leaf chain).length = 6 + (leaf.length + chain.length) := by
    simp only [certificateBody, put24, List.length_append, List.length_cons, List.length_nil]
    omega
  obtain ⟨htotal, h₁⟩ := (Reader.At.start (certificateBody leaf chain)).u24D hlen
  obtain ⟨hclen, h₂⟩ := h₁.u24D (by omega)
  obtain ⟨q, hq, -⟩ := h₂.bytes
  have hoff := h₁.length
  simp only [put24, List.length_append, List.length_cons, List.length_nil] at hoff
  have hparse : ∀ i, parseCertificate x509 (certificateBody leaf chain) i = { i with
      hasCert := true
      certSubject := certSubjectOf cert
      certIssuer := cert.issuerCommonName
      certSANs := cert.dnsNames
      certSigAlg := trimSuffix cert.signatureAlgorithm dash } := by
    intro i
    unfold parseCertificate
    rw [if_neg (by omega)]
    dsimp only
    rw [htotal, if_neg (by omega), hclen, hq]
    obtain ⟨d, ds, rfl⟩ := List.exists_cons_of_ne_nil hne
    dsimp only
    rw [hx]
  unfold leafOf
  rw [hparse]
  rfl

end Tlstat.Tlsparse
