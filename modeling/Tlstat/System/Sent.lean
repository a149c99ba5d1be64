import Tlstat.Base.Checked
import Tlstat.System.Certificate
import Tlstat.Tlsparse.Carried

/-! What a row says was captured. Whatever the connections were made from, what their rows show of a
handshake stands in messages that were read for them. -/

namespace Tlstat.System
open Base Loader Model Tlsparse Bpf
variable {x509 : X509}

/-- A message that the events carry, in one direction or the other, as far as it was kept. -/
def Sent (ws : List Loader.WireEvent) (t : UInt8) (b : Bytes) : Prop :=
  ∃ d, Carries (kept (chunks d ws)) t b

/-- The streams only grow, so what was parsed of them on the way stands in what they are in the
end. -/
theorem backed_of_kept {sent : UInt8 → Bytes → Prop} {ws : List Loader.WireEvent}
    (h : ∀ d q, q <+: kept (chunks d ws) → ∀ m ∈ handshake q, sent m.1 m.2) :
    Backed x509 sent (infoOf x509 ws) := by
  induction ws using List.reverseRecOn with
  | nil => exact backed_empty x509 sent
  | append_singleton ws w ih =>
    rw [infoOf_concat]
    refine Backed.parse (ih fun d q hq => ?_) (h _ _ List.prefix_rfl)
    exact h d q (hq.trans kept_concat_isPrefix)

theorem backed_infoOf (x509 : X509) (ws : List Loader.WireEvent) :
    Backed x509 (Sent ws) (infoOf x509 ws) := by
  refine backed_of_kept fun d q hq m hm => ?_
  exact ⟨d, carries_of_mem hq hm⟩

/-- The records of a connection are an unbroken piece of those of its socket. -/
theorem piece_run (x509 : X509) (maxHistory peekBytes : ℤ) (moves : List Move) {c : Conn}
    (hc : (run x509 (init maxHistory peekBytes) moves).store.Holds c) :
    ∃ ws, ws <:+: heard c.sock (run x509 (init maxHistory peekBytes) moves) ∧
      c.info = infoOf x509 ws := by
  obtain ⟨pieces, rest, hws, hpast, hlive⟩ := pieced_run x509 c.sock maxHistory peekBytes moves
  rw [← hws]
  rcases hc with hc | hc
  · have hmade := hlive.some c.core (Store.socket_live hc)
    exact ⟨rest, (List.suffix_append _ _).isInfix, hmade.info⟩
  · have hinfos := List.forall₂_map_left_iff.mp hpast
    obtain ⟨ws, hmem, hinfo⟩ :=
      Checked.exists_of_forall₂ hinfos (Store.mem_logOf.mpr ⟨hc, rfl⟩)
    exact ⟨ws, (List.infix_of_mem_flatten hmem).trans (List.prefix_append _ _).isInfix, hinfo⟩

/-- **Nothing is made up.** At every point of every run of the whole program, whatever bytes were
captured and wherever they were cut, everything that a live or retired connection shows of its
handshake stands where it belongs, in a message that an unbroken piece of the socket's own records
carries: server name and signature schemes in an extension of a ClientHello, suite and group in a
ServerHello, protocols in either, the version in a hello or implied by a suite, and the certificate
first in a Certificate message. -/
theorem shown_was_captured (x509 : X509) (maxHistory peekBytes : ℤ) (moves : List Move) :
    ∀ c, (run x509 (init maxHistory peekBytes) moves).store.Holds c →
      ∃ ws, ws <:+: heard c.sock (run x509 (init maxHistory peekBytes) moves) ∧
        Backed x509 (Sent ws) c.info := by
  intro c hc
  obtain ⟨ws, hpiece, hinfo⟩ := piece_run x509 maxHistory peekBytes moves hc
  exact ⟨ws, hpiece, hinfo ▸ backed_infoOf x509 ws⟩

theorem shown_was_captured_certified : ∃ ws b b' d der,
    Sent ws hsClientHello b ∧ HelloUpTo (0, d) b ∧ UpToName [0x61, 0x2e, 0x62] d ∧
      Sent ws hsCertificate b' ∧ StartsWith der b' ∧ knownLeaf der = some smallCert := by
  have hrow : ((run knownLeaf (init 500 8192) certified).store.conns[(9 : UInt64)]?).map
      (fun c => (c.info.sni, c.info.hasCert)) = some ([0x61, 0x2e, 0x62], true) := by
    decide +kernel
  obtain ⟨c, hc, hshown⟩ := Option.map_eq_some_iff.mp hrow
  obtain ⟨hsni, hhas⟩ := Prod.mk.inj hshown
  obtain ⟨ws, -, hbacked⟩ :=
    shown_was_captured knownLeaf 500 8192 certified c (Store.holds_of_live hc)
  obtain ⟨b, d, hb, hhello, hname⟩ := hbacked.sni (hsni ▸ List.cons_ne_nil _ _)
  obtain ⟨b', der, cert, hb', hstarts, hcert, -⟩ := hbacked.cert (.inl hhas)
  have hsmall : knownLeaf der = some smallCert := by
    unfold knownLeaf at hcert ⊢
    split_ifs at hcert ⊢
    rfl
  exact ⟨ws, b, b', d, der, hb, hhello, hsni ▸ hname, hb', hstarts, hsmall⟩

end Tlstat.System
