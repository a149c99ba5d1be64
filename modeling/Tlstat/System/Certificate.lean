import Tlstat.System.Handshake
import Tlstat.Tlsparse.Shown

/-! The certificate of a row. The leaf that a server sends in the clear is what the row of its socket
shows, once all of it was captured. -/

namespace Tlstat.System
open Base Loader Model Tlsparse Bpf
variable {x509 : X509} {sk : UInt64}

theorem leaves_of_begins {ms : List Message} {p : Bytes} (h : Begins ms (· ≠ hsCertificate) p) :
    leaves x509 p = (ms.map fun m => (m.mtype, m.body)).filterMap (leafOf x509) := by
  obtain ⟨later, hmessages, hlater⟩ := h.handshake_eq
  unfold leaves
  rw [hmessages, List.filterMap_append, filterMap_leafOf_nil hlater, List.append_nil]

/-- With a leaf on one side only, it does not matter which side was heard last. -/
theorem shownCert_infoOf {ws : List Loader.WireEvent}
    (hlen : ∀ d, (stream d ws).length ≤ maxWireBuf) {client : Bool} {fields : CertFields}
    (hclient : leaves x509 (stream client ws) = [])
    (hserver : leaves x509 (stream (!client) ws) = [fields]) :
    (infoOf x509 ws).shownCert = some fields := by
  have hkept : ∀ d, kept (chunks d ws) = stream d ws := by
    intro d
    have hfit := hlen d
    rw [stream_eq_flatten] at hfit ⊢
    exact kept_eq hfit
  have hlast : lastHeard (fun b => (leaves x509 b).map some) ws = some (some fields) := by
    unfold lastHeard
    cases hw : ws.getLast? with
    | none =>
      obtain rfl := List.getLast?_eq_none_iff.mp hw
      change leaves x509 [] = [fields] at hserver
      rw [Store.leaves_nil] at hserver
      cases hserver
    | some w =>
      dsimp only
      rw [hkept, hkept]
      by_cases hside : inbound w = client
      · rw [hside, hclient, hserver]
        rfl
      · have hflip : inbound w = !client := Bool.eq_not_of_ne hside
        rw [hflip, Bool.not_not, hclient, hserver]
        rfl
  rw [infoOf_last (lastOf_shownCert x509), hlast]
  rfl

/-- **The row of a connection shows its server's certificate.** In every run in which the entry of the
socket is not deleted, once what the reader has taken of the server's bytes holds a Certificate message
behind any others, however it was cut into calls, records and events, whatever was merged in between
and wherever the capture ends, and the client sends no Certificate message, the socket has a row that
shows the fields of the first certificate of the message, if that parses. -/
theorem certificate_reported (x509 : X509) (sk : UInt64) (maxHistory peekBytes : ℤ)
    {moves : List Move} (h : Meets (step x509) (Spares sk) (init maxHistory peekBytes) moves)
    (client : Bool) (before : List Message) (chain : CertChain) {cert : Certificate}
    (hbefore : ∀ m ∈ before, m.mtype ≠ hsCertificate)
    (hserver : Begins (before ++ [chain.message]) (· ≠ hsCertificate)
      (taken (!client) sk (run x509 (init maxHistory peekBytes) moves)))
    (hclient : Begins [] (· ≠ hsCertificate)
      (taken client sk (run x509 (init maxHistory peekBytes) moves)))
    (hcert : x509 chain.leaf = some cert) :
    ∃ c, (run x509 (init maxHistory peekBytes) moves).store.conns[sk]? = some c ∧
      c.info.shownCert = some cert.fields := by
  have hlen := fun d => length_taken_le (held_run x509 sk maxHistory peekBytes h).counted d
  simp only [← stream_heard] at hclient hserver hlen
  have hbeforeLeaves : (before.map fun m => (m.mtype, m.body)).filterMap (leafOf x509) = [] := by
    refine filterMap_leafOf_nil fun x hx => ?_
    obtain ⟨m, hm, rfl⟩ := List.mem_map.mp hx
    exact hbefore m hm
  have hleaves : leaves x509 (stream (!client)
      (heard sk (run x509 (init maxHistory peekBytes) moves))) = [cert.fields] := by
    rw [leaves_of_begins hserver, List.map_append, List.filterMap_append, hbeforeLeaves,
      List.nil_append, List.map_singleton, List.filterMap_cons, chain.leafOf_message hcert]
    rfl
  have hshown := shownCert_infoOf hlen (leaves_of_begins hclient) hleaves
  have hws : heard sk (run x509 (init maxHistory peekBytes) moves) ≠ [] := by
    intro hws
    rw [hws] at hshown
    cases hshown
  obtain ⟨c, hc, hinfo⟩ := row_heard x509 sk maxHistory peekBytes h hws
  exact ⟨c, hc, hinfo ▸ hshown⟩

/-- A chain of two certificates, of which the parser knows the first. -/
def ownChain : CertChain := ⟨[48, 49], [[50]], by decide, by decide⟩
def knownLeaf (der : Bytes) : Option Certificate := if der = [48, 49] then some smallCert else none

def flightRecords : List Record :=
  [answerRecord, ⟨3, 3, ownChain.message.encode, by decide +kernel⟩]

def flight : Bytes := flightRecords.flatMap Record.encode ++ [20, 3, 3, 0, 1, 1, 23]

def helloSent : Transfer :=
  plainTransfer (fun i => helloRecord.encode.getD i 0) 107 (by decide) (by decide)
def flightHead : Transfer := plainTransfer (fun i => flight.getD i 0) 90 (by decide) (by decide)
def flightRest : Transfer := plainTransfer (fun i => flight.getD (90 + i) 0) 12 (by decide) (by decide)

/-- A hello, and the flight of the server in two calls, the cut inside the leaf, with the start of
another record behind it. -/
def certified : List Move :=
  [.hit (Env.task 7) (.inetSockSetState 6 9 .synSent .established)] ++
    (helloSent.hits .out 9).map (fun a => .hit a.1 a.2) ++
    (flightHead.hits .inward 9).map (fun a => .hit a.1 a.2) ++
    [.read (View.blind 0), .read (View.blind 0)] ++ round 0 1 ++
    (flightRest.hits .inward 9).map (fun a => .hit a.1 a.2) ++ [.read (View.blind 0)]

theorem meets_certified : Meets (step knownLeaf) (Spares 9) (init 500 8192) certified := by
  decide +kernel

theorem certificate_reported_certified :
    ∃ c, (run knownLeaf (init 500 8192) certified).store.conns[(9 : UInt64)]? = some c ∧
      c.info.shownCert = some ⟨[97], [98], [], []⟩ := by
  have hserver : Begins ([selectsH2.message] ++ [ownChain.message]) (· ≠ hsCertificate)
      (taken true 9 (run knownLeaf (init 500 8192) certified)) := by
    refine .intro [] flightRecords [] [20, 3, 3, 0, 1, 1, 23] ?_ (.inr (by decide))
      (fun x hx => absurd hx List.not_mem_nil) ?_ ?_ ?_
    · decide +kernel
    · decide +kernel
    · decide +kernel
    · decide +kernel
  have hclient : Begins [] (· ≠ hsCertificate)
      (taken false 9 (run knownLeaf (init 500 8192) certified)) := by
    refine .intro [offersH2.message] [] [helloRecord] [] ?_ (.inl (by decide)) (fun x hx => ?_)
      List.nil_prefix List.nil_prefix ?_
    · decide +kernel
    · rw [List.mem_singleton.mp hx]
      decide
    · decide +kernel
  have hbefore : ∀ m ∈ [selectsH2.message], m.mtype ≠ hsCertificate := by
    intro m hm
    rw [List.mem_singleton.mp hm]
    decide
  have hcert : knownLeaf ownChain.leaf = some smallCert := rfl
  exact certificate_reported knownLeaf 9 500 8192 meets_certified false [selectsH2.message] ownChain
    hbefore hserver hclient hcert

end Tlstat.System
