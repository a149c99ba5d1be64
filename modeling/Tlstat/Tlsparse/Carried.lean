import Tlstat.Tlsparse.Chain
import Tlstat.Tlsparse.Sound

/-! What the parser reports was carried. Whatever the bytes are, each field of a report stands in a
message of its kind, and the message in handshake records at their front. -/

namespace Tlstat.Tlsparse
open Base

/-! ### Messages and records -/

/-- `s` reads up to the message of type `t` with the body `b`: whole messages come first, and of its
body there is what is reported, all of it or as far as `s` goes. -/
def UpToMessage (t : UInt8) (b : Bytes) (s : Bytes) : Prop := ∃ (before : List Message) (n : ℕ)
  (behind : Bytes), s = before.flatMap Message.encode ++ (t :: (put24 n ++ (b ++ behind))) ∧
    (b.length = n ∨ b.length < n ∧ behind = [])

theorem messagesLoop_inv {s : Bytes} {p : ℕ} {m : UInt8 × Bytes} (hm : m ∈ messagesLoop s p) :
    UpToMessage m.1 m.2 (s.drop p) := by
  fun_induction messagesLoop s p with
  | case1 p h raw body mlen ih =>
    have hhead : s.drop p = s[p] :: (put24 raw ++ body) := by
      have hlen : put24 raw = [s[p + 1], s[p + 2], s[p + 3]] := by
        change put24 (_ ||| _ ||| _) = _
        rw [nat24_eq, put24_toNat]
      rw [hlen, List.drop_eq_getElem_cons (by omega), List.drop_eq_getElem_cons (by omega),
        List.drop_eq_getElem_cons (by omega), List.drop_eq_getElem_cons (by omega)]
      rfl
    have hraw : raw < 2 ^ 24 := by
      have h₁ := s[p + 1].toNat_lt
      have h₂ := s[p + 2].toNat_lt
      have h₃ := s[p + 3].toNat_lt
      change _ ||| _ ||| _ < _
      rw [nat24_eq]
      omega
    have hbody : s.drop (p + 4) = body := rfl
    by_cases hcut : raw > body.length
    · have hmlen : mlen = body.length := if_pos hcut
      rw [hmlen, List.take_length] at hm
      rcases List.mem_cons.mp hm with rfl | hm
      · refine ⟨[], raw, [], ?_, .inr ⟨hcut, rfl⟩⟩
        rw [hhead, List.append_nil]
        rfl
      · -- nothing is left behind a message that is cut short
        obtain ⟨before, n, behind, hs, -⟩ := ih (hmlen ▸ hm)
        have hlen := congrArg List.length hs
        have hall : body.length = s.length - (p + 4) := by rw [← hbody, List.length_drop]
        simp only [List.length_drop, List.length_append, List.length_cons, hmlen] at hlen
        omega
    · have hmlen : mlen = raw := if_neg hcut
      have htake : (body.take raw).length = raw := by
        rw [List.length_take]
        omega
      rw [hmlen] at hm
      rcases List.mem_cons.mp hm with rfl | hm
      · refine ⟨[], raw, body.drop raw, ?_, .inl htake⟩
        rw [hhead, List.take_append_drop]
        rfl
      · obtain ⟨before, n, behind, hs, hn⟩ := ih (hmlen ▸ hm)
        refine ⟨⟨s[p], body.take raw, htake.symm ▸ hraw⟩ :: before, n, behind, ?_, hn⟩
        have hnext : s.drop (p + 4 + mlen) = body.drop raw := by
          rw [hmlen, ← List.drop_drop, hbody]
        rw [hnext] at hs
        rw [hhead, List.flatMap_cons, Message.encode]
        dsimp only
        rw [htake, List.cons_append, List.cons_append, List.append_assoc, List.append_assoc, ← hs,
          List.take_append_drop]
  | case2 p h => cases hm

/-- `buf` consists of handshake records that carry `s`, the last of which may be cut short, and of
something else. -/
def Framed (s buf : Bytes) : Prop := ∃ (rs : List Record) (cut tail : Bytes),
  buf = rs.flatMap Record.encode ++ tail ∧ s = rs.flatMap Record.payload ++ cut ∧
    (cut = [] ∨ ∃ major minor n, tail = ctHandshake :: major :: minor :: (put16 n ++ cut) ∧
      cut.length < n)

/-- The head of a handshake record, and its payload with what comes behind it. -/
theorem drop_record {buf : Bytes} {p : ℕ} (h : p + 4 < buf.length) (hct : buf[p] = ctHandshake) :
    buf.drop p = ctHandshake :: buf[p + 1] :: buf[p + 2] ::
      (put16 (buf[p + 3].toNat <<< 8 ||| buf[p + 4].toNat) ++ buf.drop (p + 5)) := by
  rw [shiftLeft_or_toNat, put16_toNat, List.drop_eq_getElem_cons (by omega), hct,
    List.drop_eq_getElem_cons (by omega), List.drop_eq_getElem_cons (by omega),
    List.drop_eq_getElem_cons (by omega), List.drop_eq_getElem_cons (by omega)]
  rfl

theorem collectLoop_inv (buf : Bytes) (p : ℕ) (out : Bytes) :
    ∃ s, collectLoop buf p out = out ++ s ∧ Framed s (buf.drop p) := by
  fun_induction collectLoop buf p out with
  | case1 p out h hct =>
    exact ⟨[], (List.append_nil out).symm, [], [], _, rfl, rfl, .inl rfl⟩
  | case2 p out h length hct start hend =>
    have hhead := drop_record h (not_not.mp hct)
    have hslice : slice buf start buf.length = buf.drop (p + 5) := by
      unfold slice
      rw [List.take_of_length_le (by rw [List.length_drop])]
    refine ⟨slice buf start buf.length, rfl, [], buf.drop (p + 5), buf.drop p, rfl, hslice,
      .inr ⟨_, _, _, hhead, ?_⟩⟩
    rw [List.length_drop]
    change buf.length - start < length
    omega
  | case3 p out h length hct start hend ih =>
    obtain ⟨s, hs, rs, cut, tail, hrest, rfl, hcut⟩ := ih
    have hhead := drop_record h (not_not.mp hct)
    have hlen : (slice buf start (start + length)).length = length := by
      unfold slice
      rw [List.length_take, List.length_drop]
      omega
    have hlt : length ≤ 65535 := by
      have h₃ := buf[p + 3].toNat_lt
      have h₄ := buf[p + 4].toNat_lt
      change _ ||| _ ≤ _
      rw [shiftLeft_or_toNat]
      omega
    have hsplit : buf.drop start =
        slice buf start (start + length) ++ buf.drop (start + length) := by
      have hbehind : buf.drop (start + length) = (buf.drop start).drop length := List.drop_drop.symm
      unfold slice
      rw [Nat.add_sub_cancel_left, hbehind, List.take_append_drop]
    refine ⟨_, hs.trans (List.append_assoc _ _ _),
      ⟨buf[p + 1], buf[p + 2], slice buf start (start + length), hlen.symm ▸ hlt⟩ :: rs, cut, tail,
      ?_, ?_, hcut⟩
    · rw [hhead, hsplit, hrest, List.flatMap_cons, Record.encode]
      dsimp only
      rw [hlen]
      simp only [List.cons_append, List.append_assoc]
      rfl
    · rw [List.flatMap_cons, List.append_assoc]
  | case4 p out h =>
    exact ⟨[], (List.append_nil out).symm, [], [], _, rfl, rfl, .inl rfl⟩

/-- The bytes, up to some point, carry a message of type `t` with the body `b`, in handshake records
and behind whole messages. Record and message may be cut short there. -/
def Carries (buf : Bytes) (t : UInt8) (b : Bytes) : Prop :=
  ∃ q s, q <+: buf ∧ Framed s q ∧ UpToMessage t b s

theorem carries_of_mem {q buf : Bytes} {m : UInt8 × Bytes} (hq : q <+: buf) (hm : m ∈ handshake q) :
    Carries buf m.1 m.2 := by
  obtain ⟨s, hs, hframed⟩ := collectLoop_inv q 0 []
  refine ⟨q, s, hq, hframed, ?_⟩
  have hcollect : collectHandshake q = s := hs
  unfold handshake messages at hm
  rw [hcollect] at hm
  exact messagesLoop_inv hm

/-! ### The leaf of a Certificate message -/

/-- A Certificate message that starts with the certificate `der`. -/
def StartsWith (der : Bytes) (b : Bytes) : Prop :=
  ∃ (total : ℕ) (behind : Bytes), b = put24 total ++ (put24 der.length ++ (der ++ behind))

theorem handed_inv {b der : Bytes} (h : handed b = some der) : StartsWith der b := by
  unfold handed at h
  dsimp only at h
  split_ifs at h with hshort hstop
  obtain ⟨t, hb, h₁⟩ := (Reader.At.start b).u24D_inv (by
    change 0 + 3 ≤ b.length
    omega)
  obtain ⟨t', rfl, h₂⟩ := h₁.u24D_inv (by
    rw [h₁.b]
    omega)
  rcases hr : (Reader.start b).u24D.2.u24D.2.bytes (Reader.start b).u24D.2.u24D.1.toNat with
    _ | ⟨_ | ⟨v, d⟩, q⟩
  · rw [hr] at h
    cases h
  · rw [hr] at h
    cases h
  · rw [hr] at h
    obtain rfl := Option.some.inj h
    obtain ⟨behind, rfl, hlen, -⟩ := h₂.bytes_inv hr
    exact ⟨_, behind, hlen ▸ hb⟩

/-! ### What is reported -/

/-- A protocol version that stands in a hello, or that the suite of a ServerHello stands for. -/
def Settles (sent : UInt8 → Bytes → Prop) (v : UInt16) : Prop :=
  (∃ b, sent hsClientHello b ∧ word v <+: b) ∨ (∃ b, sent hsServerHello b ∧ word v <+: b) ∨
    (∃ b d, sent hsServerHello b ∧ AnswerUpTo (43, d) b ∧ word v <+: d) ∨
    v = 0x0304 ∧ ∃ b cs, sent hsServerHello b ∧ Selects cs b ∧ isTLS13Cipher cs = true

/-- What the report says stands in messages that were sent. -/
structure Backed (x509 : X509) (sent : UInt8 → Bytes → Prop) (i : Info) : Prop where
  client : i.hasClientHello = true ∨ i.clientVersion ≠ 0 → ∃ b, sent hsClientHello b ∧
    word i.clientVersion <+: b
  server : i.hasServerHello = true → ∃ b v, sent hsServerHello b ∧ word v <+: b
  version : i.negVersion ≠ 0 → Settles sent i.negVersion
  suite : i.cipherSuite ≠ 0 → ∃ b, sent hsServerHello b ∧ Selects i.cipherSuite b
  group : i.group ≠ 0 → ∃ b d, sent hsServerHello b ∧ AnswerUpTo (51, d) b ∧ word i.group <+: d
  sigs : i.offeredSigs ≠ [] → ∃ b d, sent hsClientHello b ∧ HelloUpTo (13, d) b ∧
    UpToSchemes i.offeredSigs d
  sni : i.sni ≠ [] → ∃ b d, sent hsClientHello b ∧ HelloUpTo (0, d) b ∧ UpToName i.sni d
  alpn : i.alpn ≠ [] → ∃ b d, (sent hsClientHello b ∧ HelloUpTo (16, d) b ∨
    sent hsServerHello b ∧ AnswerUpTo (16, d) b) ∧ UpToProtocols i.alpn d
  cert : i.hasCert = true ∨ i.certFields ≠ {} → ∃ b der cert, sent hsCertificate b ∧
    StartsWith der b ∧ x509 der = some cert ∧ i.certFields = cert.fields

section Backed
variable {x509 : X509} {sent : UInt8 → Bytes → Prop} {i : Info} {b : Bytes} {e : UInt16 × Bytes}

theorem backed_empty (x509 : X509) (sent : UInt8 → Bytes → Prop) : Backed x509 sent {} where
  client := fun h => (h.resolve_left Bool.false_ne_true rfl).elim
  server := fun h => nomatch h
  version := fun h => absurd rfl h
  suite := fun h => absurd rfl h
  group := fun h => absurd rfl h
  sigs := fun h => absurd rfl h
  sni := fun h => absurd rfl h
  alpn := fun h => absurd rfl h
  cert := fun h => (h.resolve_left Bool.false_ne_true rfl).elim

/-- One extension of a ClientHello. -/
theorem Backed.handle_client (h : Backed x509 sent i) (hb : sent hsClientHello b)
    (he : HelloUpTo e b) : Backed x509 sent (handle false i e) := by
  obtain ⟨t, d⟩ := e
  rw [Tlsparse.handle_client]
  refine { h with sigs := fun hne => ?_, sni := fun hne => ?_, alpn := fun hne => ?_ }
  · dsimp only at hne ⊢
    rcases hsigs : sigsOf (t, d) with _ | vs
    · rw [hsigs] at hne
      exact h.sigs hne
    · rw [hsigs] at hne
      obtain ⟨rfl, hvs⟩ := sigsOf_inv hsigs hne
      exact ⟨b, d, hb, he, hvs⟩
  · dsimp only at hne ⊢
    rcases hsni : sniOf (t, d) with _ | name
    · rw [hsni] at hne
      exact h.sni hne
    · obtain ⟨rfl, hname⟩ := sniOf_inv hsni
      exact ⟨b, d, hb, he, hname⟩
  · dsimp only at hne ⊢
    rcases halpn : alpnOf (t, d) with _ | ps
    · rw [halpn] at hne
      exact h.alpn hne
    · rw [halpn] at hne
      obtain ⟨rfl, hps⟩ := alpnOf_inv halpn hne
      exact ⟨b, d, .inl ⟨hb, he⟩, hps⟩

/-- One extension of a ServerHello. -/
theorem Backed.handle_server (h : Backed x509 sent i) (hb : sent hsServerHello b)
    (he : AnswerUpTo e b) : Backed x509 sent (handle true i e) := by
  obtain ⟨t, d⟩ := e
  rw [Tlsparse.handle_server]
  refine { h with version := fun hne => ?_, group := fun hne => ?_, alpn := fun hne => ?_ }
  · dsimp only at hne ⊢
    rcases hv : wordOf 43 (t, d) with _ | v
    · rw [hv] at hne
      exact h.version hne
    · obtain ⟨rfl, hword⟩ := wordOf_inv hv
      exact .inr (.inr (.inl ⟨b, d, hb, he, hword⟩))
  · dsimp only at hne ⊢
    rcases hv : wordOf 51 (t, d) with _ | v
    · rw [hv] at hne
      exact h.group hne
    · obtain ⟨rfl, hword⟩ := wordOf_inv hv
      exact ⟨b, d, hb, he, hword⟩
  · dsimp only at hne ⊢
    rcases halpn : alpnOf (t, d) with _ | ps
    · rw [halpn] at hne
      exact h.alpn hne
    · rw [halpn] at hne
      obtain ⟨rfl, hps⟩ := alpnOf_inv halpn hne
      exact ⟨b, d, .inr ⟨hb, he⟩, hps⟩

theorem Backed.parseClientHello (h : Backed x509 sent i) (hb : sent hsClientHello b) :
    Backed x509 sent (parseClientHello b i) := by
  rcases hu : (Reader.start b).u16 with _ | ⟨ver, r⟩
  · rw [parseClientHello_none hu]
    exact h
  · obtain ⟨t, rfl, -⟩ := (Reader.At.start b).u16_inv hu
    rw [parseClientHello_walk hu]
    have hver : word ver <+: word ver ++ t := List.prefix_append _ _
    refine List.foldlRecOn (clientWalk r) (handle false) ?_ fun i hi e he =>
      hi.handle_client hb (clientWalk_inv hu he)
    refine { h with client := fun _ => ⟨_, hb, hver⟩, version := fun hne => ?_ }
    dsimp only at hne ⊢
    split_ifs at hne ⊢ with hzero
    · exact .inl ⟨_, hb, hver⟩
    · exact h.version hne

theorem Backed.upgrade {cs : UInt16} (h : Backed x509 sent i) (hb : sent hsServerHello b)
    (hcs : Selects cs b) : Backed x509 sent (upgrade cs i) := by
  unfold Tlsparse.upgrade
  split_ifs with hup
  · have htls13 : isTLS13Cipher cs = true := (Bool.and_eq_true_iff.mp hup).2
    exact { h with version := fun _ => .inr (.inr (.inr ⟨rfl, b, cs, hb, hcs, htls13⟩)) }
  · exact h

theorem Backed.parseServerHello (h : Backed x509 sent i) (hb : sent hsServerHello b) :
    Backed x509 sent (parseServerHello b i) := by
  rcases hu : (Reader.start b).u16 with _ | ⟨ver, r⟩
  · rw [parseServerHello_none hu]
    exact h
  · have hver : word ver <+: b := by
      obtain ⟨t, hs, -⟩ := (Reader.At.start b).u16_inv hu
      exact ⟨t, hs.symm⟩
    rw [parseServerHello_walk hu]
    have hstart : Backed x509 sent { i with hasServerHello := true, negVersion := ver } :=
      { h with
        server := fun _ => ⟨b, ver, hb, hver⟩
        version := fun _ => .inr (.inl ⟨b, hb, hver⟩) }
    unfold serverFold
    rcases hw : serverWalk r with _ | ⟨cs, es⟩
    · exact hstart
    · obtain ⟨hcs, hes⟩ := serverWalk_inv hu hw
      have hsuite : Backed x509 sent
          { i with hasServerHello := true, negVersion := ver, cipherSuite := cs } :=
        { hstart with suite := fun _ => ⟨b, hb, hcs⟩ }
      rcases es with _ | es
      · exact hsuite
      · refine Backed.upgrade (b := b) ?_ hb hcs
        exact List.foldlRecOn es (handle true) hsuite fun i hi e he =>
          hi.handle_server hb (hes e he)

theorem Backed.parseCertificate (h : Backed x509 sent i) (hb : sent hsCertificate b) :
    Backed x509 sent (parseCertificate x509 b i) := by
  rw [parseCertificate_handed]
  rcases hder : handed b with _ | der
  · exact h
  · rw [Option.bind_some]
    rcases hcert : x509 der with _ | cert
    · exact h
    · exact { h with cert := fun _ => ⟨b, der, cert, hb, handed_inv hder, hcert, rfl⟩ }

theorem Backed.parseMessage {m : UInt8 × Bytes} (h : Backed x509 sent i) (hm : sent m.1 m.2) :
    Backed x509 sent (parseMessage x509 m.1 m.2 i) := by
  unfold Tlsparse.parseMessage
  split_ifs with hclient hserver hcert
  · exact h.parseClientHello (hclient ▸ hm)
  · exact h.parseServerHello (hserver ▸ hm)
  · exact h.parseCertificate (hcert ▸ hm)
  · exact h

/-- A parse adds nothing that its messages do not say. -/
theorem Backed.parse {buf : Bytes} (h : Backed x509 sent i)
    (hbuf : ∀ m ∈ handshake buf, sent m.1 m.2) : Backed x509 sent (parse x509 buf i) := by
  rw [parse_foldl]
  exact List.foldlRecOn _ _ h fun i hi m hm => hi.parseMessage (hbuf m hm)

end Backed

end Tlstat.Tlsparse
