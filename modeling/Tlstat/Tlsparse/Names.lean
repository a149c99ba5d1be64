import Tlstat.Tlsparse.Leaf

/-! The names a stream carries, and which of them a parse reports: the last server name, the last
protocol list. -/

namespace Tlstat.Tlsparse
open Base

def clientExtensions (m : UInt8 × Bytes) : List (UInt16 × Bytes) :=
  if m.1 = hsClientHello then
    match (Reader.start m.2).u16 with
    | none => []
    | some (_, r) => clientWalk r
  else []

def serverExtensions (m : UInt8 × Bytes) : List (UInt16 × Bytes) :=
  if m.1 = hsServerHello then
    match (Reader.start m.2).u16 with
    | none => []
    | some (_, r) => ((serverWalk r).bind Prod.snd).getD []
  else []

/-- The server names of a stream, in order. -/
def serverNames (buf : Bytes) : List Bytes :=
  (handshake buf).flatMap fun m => (clientExtensions m).filterMap sniOf

/-- The protocol lists of a stream, offered and selected ones. -/
def protocolLists (buf : Bytes) : List (List Bytes) :=
  (handshake buf).flatMap fun m => (clientExtensions m ++ serverExtensions m).filterMap alpnOf

theorem foldl_handle_sni (es : List (UInt16 × Bytes)) (i : Info) :
    (es.foldl (handle false) i).sni = (es.filterMap sniOf).getLast?.getD i.sni := by
  refine foldl_last_some (handle false) (g := Info.sni) (fun i e => ?_) i es
  rw [handle_client]

theorem foldl_handle_server_sni (es : List (UInt16 × Bytes)) (i : Info) :
    (es.foldl (handle true) i).sni = i.sni := by
  refine foldl_frame (handle true) (g := Info.sni) (fun i e => ?_) i es
  rw [handle_server]

theorem foldl_handle_alpn (server : Bool) (es : List (UInt16 × Bytes)) (i : Info) :
    (es.foldl (handle server) i).alpn = (es.filterMap alpnOf).getLast?.getD i.alpn := by
  refine foldl_last_some (handle server) (g := Info.alpn) (fun i e => ?_) i es
  cases server with
  | false => rw [handle_client]
  | true => rw [handle_server]

section Message
variable (x509 : X509)

theorem parseCertificate_names (b : Bytes) (i : Info) :
    (parseCertificate x509 b i).sni = i.sni ∧ (parseCertificate x509 b i).alpn = i.alpn := by
  rw [parseCertificate_eq]
  rcases certificateEffect_cases x509 b with hc | ⟨cert, hc⟩ <;> rw [hc] <;> exact ⟨rfl, rfl⟩

theorem parseMessage_names (m : UInt8 × Bytes) (i : Info) :
    (parseMessage x509 m.1 m.2 i).sni =
      ((clientExtensions m).filterMap sniOf).getLast?.getD i.sni ∧
    (parseMessage x509 m.1 m.2 i).alpn =
      ((clientExtensions m ++ serverExtensions m).filterMap alpnOf).getLast?.getD i.alpn := by
  obtain ⟨t, b⟩ := m
  unfold parseMessage clientExtensions serverExtensions
  dsimp only
  by_cases hclient : t = hsClientHello
  · have hserver : t ≠ hsServerHello := by
      rw [hclient]
      decide
    rw [if_pos hclient, if_pos hclient, if_neg hserver, List.append_nil]
    rcases hu : (Reader.start b).u16 with _ | ⟨ver, r⟩
    · rw [parseClientHello_none hu]
      exact ⟨rfl, rfl⟩
    · rw [parseClientHello_walk hu, clientFold, foldl_handle_sni, foldl_handle_alpn]
      exact ⟨rfl, rfl⟩
  · rw [if_neg hclient, if_neg hclient, List.nil_append]
    by_cases hserver : t = hsServerHello
    · rw [if_pos hserver, if_pos hserver]
      rcases hu : (Reader.start b).u16 with _ | ⟨ver, r⟩
      · rw [parseServerHello_none hu]
        exact ⟨rfl, rfl⟩
      · rw [parseServerHello_walk hu]
        dsimp only
        rcases serverWalk r with _ | ⟨cs, _ | es⟩
        · exact ⟨rfl, rfl⟩
        · exact ⟨rfl, rfl⟩
        · rw [serverFold, upgrade_negVersion]
          exact ⟨foldl_handle_server_sni es _, foldl_handle_alpn true es _⟩
    · rw [if_neg hserver, if_neg hserver]
      by_cases hcert : t = hsCertificate
      · rw [if_pos hcert]
        exact parseCertificate_names x509 b i
      · rw [if_neg hcert]
        exact ⟨rfl, rfl⟩

theorem parse_sni (buf : Bytes) (i : Info) :
    (parse x509 buf i).sni = (serverNames buf).getLast?.getD i.sni := by
  rw [parse_foldl]
  exact foldl_last _ (fun i m => (parseMessage_names x509 m i).1) i _

theorem parse_alpn (buf : Bytes) (i : Info) :
    (parse x509 buf i).alpn = (protocolLists buf).getLast?.getD i.alpn := by
  rw [parse_foldl]
  exact foldl_last _ (fun i m => (parseMessage_names x509 m i).2) i _

end Message

/-! ### Growing streams -/

/-- A field of the report that is the last of what `S` finds in a stream. -/
structure LastOf (x509 : X509) {β : Type} (g : Info → β) (S : Bytes → List β) : Prop where
  parse : ∀ buf i, g (parse x509 buf i) = (S buf).getLast?.getD (g i)
  other : ∀ v, ∃ i, g i ≠ v

theorem lastOf_sni (x509 : X509) : LastOf x509 Info.sni serverNames where
  parse := parse_sni x509
  other := fun v => ⟨{ sni := 0 :: v }, List.cons_ne_self 0 v⟩

theorem lastOf_alpn (x509 : X509) : LastOf x509 Info.alpn protocolLists where
  parse := parse_alpn x509
  other := fun v => ⟨{ alpn := [] :: v }, List.cons_ne_self [] v⟩

theorem lastOf_certFields (x509 : X509) : LastOf x509 Info.certFields (leaves x509) where
  parse := parse_certFields x509
  other := fun v => ⟨{ certSubject := 0 :: v.subject }, fun h =>
    List.cons_ne_self 0 v.subject (congrArg CertFields.subject h)⟩

/-- What was there early is there still. -/
theorem LastOf.grows {x509 : X509} {β : Type} {g : Info → β} {S : Bytes → List β} {a b : Bytes}
    (h : LastOf x509 g S) (hab : a <+: b) (hb : S b = []) : S a = [] := by
  obtain ⟨c, rfl⟩ := hab
  refine List.getLast?_eq_none_iff.mp (Option.eq_none_iff_forall_not_mem.mpr fun v hv => ?_)
  obtain ⟨i, hi⟩ := h.other v
  have habsorb := congrArg g (parse_absorbs x509 a c i)
  rw [h.parse, h.parse, h.parse, hb, Option.mem_def.mp hv] at habsorb
  exact hi habsorb.symm

end Tlstat.Tlsparse
