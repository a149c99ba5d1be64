import Tlstat.Tlsparse.Chain
import Tlstat.Tlsparse.Names
import Tlstat.Tlsparse.Opening

/-! The certificate a report shows, with the flag that says there is one, and the Certificate message
of a server. -/

namespace Tlstat.Tlsparse
open Base

/-- What `HasCert` and the four fields say together. -/
def Info.shownCert (i : Info) : Option CertFields := if i.hasCert then some i.certFields else none

section Shown
variable {x509 : X509}

theorem shownCert_congr {i j : Info} (h : i.hasCert = j.hasCert) (hfields : i.certFields = j.certFields) :
    i.shownCert = j.shownCert := by
  unfold Info.shownCert
  rw [h, hfields]

theorem foldl_handle_hasCert (server : Bool) (es : List (UInt16 × Bytes)) (i : Info) :
    (es.foldl (handle server) i).hasCert = i.hasCert := by
  refine foldl_frame (handle server) (fun i e => ?_) i es
  cases server with
  | false => rw [handle_client]
  | true => rw [handle_server]

theorem parseClientHello_hasCert (b : Bytes) (i : Info) :
    (parseClientHello b i).hasCert = i.hasCert := by
  rcases hu : (Reader.start b).u16 with _ | ⟨ver, r⟩
  · rw [parseClientHello_none hu]
  · rw [parseClientHello_walk hu, clientFold, foldl_handle_hasCert]

theorem parseServerHello_hasCert (b : Bytes) (i : Info) :
    (parseServerHello b i).hasCert = i.hasCert := by
  rcases hu : (Reader.start b).u16 with _ | ⟨ver, r⟩
  · rw [parseServerHello_none hu]
  · rw [parseServerHello_walk hu]
    rcases serverWalk r with _ | ⟨cs, _ | es⟩
    · rfl
    · rfl
    · rw [serverFold, upgrade_negVersion]
      exact foldl_handle_hasCert true es _

/-- One message shows its leaf, and leaves what is shown as it was if it has none. -/
theorem parseMessage_shownCert (m : UInt8 × Bytes) (i : Info) :
    (parseMessage x509 m.1 m.2 i).shownCert = ((leafOf x509 m).map some).getD i.shownCert := by
  by_cases hcert : m.1 = hsCertificate
  · unfold parseMessage leafOf
    rw [hcert, if_neg (by decide), if_neg (by decide), if_pos rfl, parseCertificate_eq,
      parseCertificate_eq]
    rcases certificateEffect_cases x509 m.2 with h | ⟨cert, h⟩
    · rw [h]
      rfl
    · rw [h]
      rfl
  · have hleaf : leafOf x509 m = none := if_neg fun h => hcert h.1
    have hfields := parseMessage_certFields x509 m i
    rw [hleaf] at hfields ⊢
    refine shownCert_congr ?_ hfields
    unfold parseMessage
    rw [if_neg hcert]
    split_ifs
    · exact parseClientHello_hasCert m.2 i
    · exact parseServerHello_hasCert m.2 i
    · rfl

theorem lastOf_shownCert (x509 : X509) :
    LastOf x509 Info.shownCert fun b => (leaves x509 b).map some where
  parse := fun buf i => by
    rw [parse_foldl, foldl_last_some _ (fun i m => parseMessage_shownCert m i), leaves,
      List.map_filterMap]
    rfl
  other := fun v => by
    cases v with
    | none => exact ⟨{ hasCert := true }, fun h => nomatch h⟩
    | some fields => exact ⟨{}, fun h => nomatch h⟩

end Shown

/-! ### The message -/

/-- The certificates of a server, its own first. -/
structure CertChain where
  leaf : Bytes
  issuers : List Bytes
  leaf_ne : leaf ≠ []
  encode_lt : (encodeChain (leaf :: issuers)).length < 2 ^ 24

def CertChain.message (c : CertChain) : Message :=
  ⟨hsCertificate, encodeChain (c.leaf :: c.issuers), c.encode_lt⟩

theorem encodeChain_eq_certificateBody (leaf : Bytes) (issuers : List Bytes) :
    encodeChain (leaf :: issuers) = certificateBody leaf (issuers.flatMap certEntry) := by
  have hlen : ((leaf :: issuers).flatMap certEntry).length =
      3 + (leaf.length + (issuers.flatMap certEntry).length) := by
    simp only [List.flatMap_cons, certEntry, List.length_append, length_put24]
    omega
  unfold encodeChain certificateBody
  rw [hlen, List.flatMap_cons]
  unfold certEntry
  rw [List.append_assoc]

theorem CertChain.leafOf_message (c : CertChain) {x509 : X509} {cert : Certificate}
    (h : x509 c.leaf = some cert) :
    leafOf x509 (c.message.mtype, c.message.body) = some cert.fields := by
  have hlt := c.encode_lt
  have hlen : (encodeChain (c.leaf :: c.issuers)).length =
      6 + (c.leaf.length + (c.issuers.flatMap certEntry).length) := by
    rw [encodeChain_eq_certificateBody]
    simp only [certificateBody, List.length_append, length_put24]
    omega
  change leafOf x509 (hsCertificate, encodeChain (c.leaf :: c.issuers)) = _
  rw [encodeChain_eq_certificateBody]
  exact leafOf_certificateBody x509 c.leaf_ne (by omega) h

end Tlstat.Tlsparse
