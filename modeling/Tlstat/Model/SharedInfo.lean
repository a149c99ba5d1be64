import Tlstat.Model.Chunking
import Tlstat.Tlsparse.Leaf

/-! What both directions of a connection write into its one `Info`. Every event parses the whole
buffer of its direction again, so of two streams that set the same field the one that had the last
event has the say. -/

namespace Tlstat.Model
open Base Loader Tlsparse

/-- The chunks of one direction, in order. -/
def chunks (d : Bool) (ws : List WireEvent) : List Bytes :=
  (ws.filter fun w => inbound w = d).map WireEvent.data

theorem stream_eq_flatten (d : Bool) (ws : List WireEvent) : stream d ws = (chunks d ws).flatten :=
  List.flatMap_def ..

/-! ### What the capped buffers keep -/

/-- The bytes of a chunk sequence that its buffer keeps: a chunk is appended while the buffer is
below its cap. -/
def kept (cs : List Bytes) : Bytes := cs.foldl Conn.grow []

theorem foldl_grow_full {b : Bytes} (h : maxWireBuf ≤ b.length) (cs : List Bytes) :
    cs.foldl Conn.grow b = b := by
  induction cs with
  | nil => rfl
  | cons c cs ih => rwa [List.foldl_cons, Conn.grow, if_neg (not_lt.mpr h)]

theorem foldl_grow_isPrefix (b : Bytes) (cs : List Bytes) :
    cs.foldl Conn.grow b <+: b ++ cs.flatten := by
  induction cs generalizing b with
  | nil => rw [List.foldl_nil, List.flatten_nil, List.append_nil]
  | cons c cs ih =>
    rw [List.foldl_cons, Conn.grow, List.flatten_cons]
    split_ifs with h
    · rw [← List.append_assoc]
      exact ih (b ++ c)
    · rw [foldl_grow_full (not_lt.mp h)]
      exact List.prefix_append ..

theorem kept_isPrefix (cs : List Bytes) : kept cs <+: cs.flatten := foldl_grow_isPrefix [] cs

theorem foldl_grow_eq {b : Bytes} {cs : List Bytes} (h : (b ++ cs.flatten).length ≤ maxWireBuf) :
    cs.foldl Conn.grow b = b ++ cs.flatten := by
  induction cs generalizing b with
  | nil => rw [List.foldl_nil, List.flatten_nil, List.append_nil]
  | cons c cs ih =>
    rw [List.flatten_cons] at h ⊢
    rw [List.foldl_cons, Conn.grow]
    split_ifs with hb
    · rw [← List.append_assoc] at h ⊢
      exact ih h
    · -- the cap is reached exactly, and only empty chunks follow
      have hempty : c ++ cs.flatten = [] := by
        rw [List.length_append] at h
        exact List.length_eq_zero_iff.mp (by omega)
      rw [foldl_grow_full (not_lt.mp hb), hempty, List.append_nil]

theorem kept_eq {cs : List Bytes} (h : cs.flatten.length ≤ maxWireBuf) : kept cs = cs.flatten :=
  foldl_grow_eq h

theorem foldl_grow_filter (b : Bytes) (cs : List Bytes) :
    (cs.filter (· ≠ [])).foldl Conn.grow b = cs.foldl Conn.grow b := by
  induction cs generalizing b with
  | nil => rfl
  | cons c cs ih =>
    by_cases hc : c = []
    · rw [List.filter_cons_of_neg (by simpa using hc), ih, List.foldl_cons, hc, Conn.grow,
        List.append_nil, ite_self]
    · rw [List.filter_cons_of_pos (by simpa using hc), List.foldl_cons, List.foldl_cons, ih]

namespace Conn
variable {x509 : X509} {c : Conn} {w : WireEvent} {ws : List WireEvent} {d : Bool}

theorem applyWires_buf : (applyWires x509 ws c).buf d = (chunks d ws).foldl grow (c.buf d) := by
  induction ws generalizing c with
  | nil => rfl
  | cons w ws ih =>
    change (applyWires x509 ws (c.applyWire x509 w)).buf d = _
    rw [ih, applyWire_buf]
    unfold chunks
    by_cases hd : inbound w = d
    · rw [if_pos hd, List.filter_cons_of_pos (by simpa using hd), List.map_cons, List.foldl_cons]
    · rw [if_neg hd, List.filter_cons_of_neg (by simpa using hd)]

/-- The last event parses the buffer of its direction into whatever was there. -/
theorem applyWires_info_concat : (applyWires x509 (ws ++ [w]) c).info =
    parse x509 ((applyWires x509 (ws ++ [w]) c).buf (inbound w)) (applyWires x509 ws c).info := by
  rw [applyWires_concat, applyWire_info, applyWire_buf, if_pos rfl]

end Conn

/-! ### The store -/

/-- The events `ApplyWire` does not ignore. -/
def effective (ws : List (Time × WireEvent)) : List (Time × WireEvent) :=
  ws.filter fun w => w.2.data ≠ []

/-- The direction of the last event that counts. -/
def lastInbound (ws : List (Time × WireEvent)) : Option Bool :=
  (effective ws).getLast?.map fun w => inbound w.2

namespace Store
variable {s : Store} {k : UInt64} (x509 : X509) {ws : List (Time × WireEvent)} (now : Time)

theorem run_effective (s : Store) (ws : List (Time × WireEvent)) :
    s.run x509 (ws.map fun w => .applyWire w.1 w.2) =
      s.run x509 ((effective ws).map fun w => .applyWire w.1 w.2) := by
  induction ws generalizing s with
  | nil => rfl
  | cons w ws ih =>
    unfold effective
    by_cases hw : w.2.data = []
    · rw [List.filter_cons_of_neg (by simpa using hw)]
      have hskip : s.step x509 (.applyWire w.1 w.2) = s := if_pos hw
      change (s.step x509 (.applyWire w.1 w.2)).run x509 _ = _
      rw [hskip]
      exact ih s
    · rw [List.filter_cons_of_pos (by simpa using hw)]
      exact ih (s.step x509 (.applyWire w.1 w.2))

/-- What the connection `k` shows after the events, from the moment it was made. -/
def infoAfter (x509 : X509) (s : Store) (k : UInt64) (now : Time) (ws : List (Time × WireEvent)) :
    Option Info :=
  ((s.touch k now).run x509 (ws.map fun w => .applyWire w.1 w.2)).conns[k]?.map (·.info)

theorem infoAfter_eq (hfree : s.conns[k]? = none) (hsock : ∀ w ∈ ws, w.2.sock = k) :
    infoAfter x509 s k now ws =
      some (Conn.applyWires x509 ((effective ws).map Prod.snd) (s.fresh k now)).info := by
  have hfresh : (s.touch k now).conns[k]? = some (s.fresh k now) := by
    rw [touch_get, if_pos rfl, hfree]
    rfl
  have heff : ∀ w ∈ effective ws, w.2.sock = k ∧ w.2.data ≠ [] := fun w hw => by
    obtain ⟨hmem, hdata⟩ := List.mem_filter.mp hw
    exact ⟨hsock w hmem, by simpa using hdata⟩
  unfold infoAfter
  rw [run_effective, run_applyWires_get hfresh (effective ws) heff]
  rfl

theorem chunks_effective (d : Bool) (ws : List (Time × WireEvent)) :
    chunks d ((effective ws).map Prod.snd) = (chunks d (ws.map Prod.snd)).filter (· ≠ []) := by
  induction ws with
  | nil => rfl
  | cons w ws ih =>
    unfold effective chunks at *
    by_cases hw : w.2.data = [] <;> by_cases hd : inbound w.2 = d <;>
      simp_all

theorem buf_effective (s : Store) (k : UInt64) (d : Bool) (ws : List (Time × WireEvent)) :
    (Conn.applyWires x509 ((effective ws).map Prod.snd) (s.fresh k now)).buf d =
      kept (chunks d (ws.map Prod.snd)) := by
  rw [Conn.applyWires_buf, chunks_effective, foldl_grow_filter]
  cases d <;> rfl

/-- The last event that counts parses all its direction has kept. -/
theorem infoAfter_last {d : Bool} (hfree : s.conns[k]? = none) (hsock : ∀ w ∈ ws, w.2.sock = k)
    (hlast : lastInbound ws = some d) :
    ∃ i, infoAfter x509 s k now ws = some (parse x509 (kept (chunks d (ws.map Prod.snd))) i) := by
  obtain ⟨w, hw, hd⟩ := Option.map_eq_some_iff.mp hlast
  obtain ⟨pre, hpre⟩ := List.getLast?_eq_some_iff.mp hw
  refine ⟨(Conn.applyWires x509 (pre.map Prod.snd) (s.fresh k now)).info, ?_⟩
  have hbuf := buf_effective x509 now s k d ws
  rw [infoAfter_eq x509 now hfree hsock]
  rw [hpre, List.map_append, List.map_singleton] at hbuf ⊢
  rw [Conn.applyWires_info_concat, hd, hbuf]

end Store

/-! ### The protocol lists -/

/-- The last hello of the stream is a ClientHello that offers the protocols `ps`. -/
def Offers (a : Bytes) (ps : List Bytes) : Prop :=
  ∃ (h : ClientHello) (before after : List (UInt8 × Bytes)),
    handshake a = before ++ (hsClientHello, h.encode) :: after ∧ h.alpn = some ps ∧
      ∀ m ∈ after, m.1 ≠ hsClientHello ∧ m.1 ≠ hsServerHello

/-- The last hello of the stream is a ServerHello with the protocol list `ps`. -/
def Selects (b : Bytes) (ps : List Bytes) : Prop :=
  ∃ (h : ServerHello) (before after : List (UInt8 × Bytes)),
    handshake b = before ++ (hsServerHello, h.encode) :: after ∧ h.alpn = some ps ∧
      ∀ m ∈ after, m.1 ≠ hsClientHello ∧ m.1 ≠ hsServerHello

section Alpn
variable {x509 : X509} {a : Bytes} {ps : List Bytes}

theorem parseMessage_alpn (m : UInt8 × Bytes) (h : m.1 ≠ hsClientHello ∧ m.1 ≠ hsServerHello)
    (i : Info) : (parseMessage x509 m.1 m.2 i).alpn = i.alpn := by
  unfold parseMessage
  rw [if_neg h.1, if_neg h.2]
  split_ifs
  · rw [parseCertificate_eq]
    rcases certificateEffect_cases x509 m.2 with hc | ⟨cert, hc⟩ <;> rw [hc] <;> rfl
  · rfl

theorem foldl_alpn {ms : List (UInt8 × Bytes)}
    (h : ∀ m ∈ ms, m.1 ≠ hsClientHello ∧ m.1 ≠ hsServerHello) (i : Info) :
    (ms.foldl (fun i m => parseMessage x509 m.1 m.2 i) i).alpn = i.alpn := by
  induction ms generalizing i with
  | nil => rfl
  | cons m ms ih =>
    rw [List.foldl_cons, ih fun m' hm' => h m' (List.mem_cons_of_mem _ hm')]
    exact parseMessage_alpn m (h m List.mem_cons_self) i

theorem Offers.parse_alpn (h : Offers a ps) (i : Info) : (parse x509 a i).alpn = ps := by
  obtain ⟨hello, before, after, ha, hps, hrest⟩ := h
  rw [parse_foldl, ← handshake, ha, List.foldl_append, List.foldl_cons,
    foldl_alpn hrest]
  change (parseClientHello hello.encode _).alpn = ps
  rw [parseClientHello_encode, hps]
  rfl

theorem Selects.parse_alpn (h : Selects a ps) (i : Info) : (parse x509 a i).alpn = ps := by
  obtain ⟨hello, before, after, ha, hps, hrest⟩ := h
  rw [parse_foldl, ← handshake, ha, List.foldl_append, List.foldl_cons,
    foldl_alpn hrest]
  change (parseServerHello hello.encode _).alpn = ps
  rw [(parseServerHello_encode hello _).1, hps]
  rfl

theorem not_offers_nil : ¬Offers [] ps := by
  rintro ⟨h, before, after, ha, -⟩
  rw [handshake, collectHandshake_nil, messages_nil] at ha
  simp at ha

end Alpn

namespace Store
variable {s : Store} {k : UInt64}

theorem stream_nil_of_lastInbound {ws : List (Time × WireEvent)} (h : lastInbound ws = none)
    (d : Bool) : stream d (ws.map Prod.snd) = [] := by
  have heff : effective ws = [] := List.getLast?_eq_none_iff.mp (Option.map_eq_none_iff.mp h)
  have hchunks := chunks_effective d ws
  rw [heff] at hchunks
  rw [stream_eq_flatten, ← List.flatten_filter_ne_nil, ← hchunks]
  rfl

/-- The protocols shown are those of the side that had the last event. -/
theorem alpn_of_last (x509 : X509) (now : Time) (client : Bool) (ws : List (Time × WireEvent))
    (offered selected : List Bytes) (hfree : s.conns[k]? = none) (hsock : ∀ w ∈ ws, w.2.sock = k)
    (hlen : ∀ d, (stream d (ws.map Prod.snd)).length ≤ maxWireBuf)
    (hclient : Offers (stream client (ws.map Prod.snd)) offered)
    (hserver : Selects (stream (!client) (ws.map Prod.snd)) selected) :
    ∃ d, lastInbound ws = some d ∧ (infoAfter x509 s k now ws).map (·.alpn) =
      some (if d = client then offered else selected) := by
  cases hlast : lastInbound ws with
  | none =>
    rw [stream_nil_of_lastInbound hlast] at hclient
    exact absurd hclient not_offers_nil
  | some d =>
    obtain ⟨i, hi⟩ := infoAfter_last x509 now hfree hsock hlast
    refine ⟨d, rfl, ?_⟩
    have hd := hlen d
    rw [stream_eq_flatten] at hd
    rw [hi, kept_eq hd, ← stream_eq_flatten, Option.map_some]
    by_cases hside : d = client
    · rw [if_pos hside, hside, hclient.parse_alpn]
    · have hother : d = !client := by
        cases d <;> cases client <;> simp_all
      rw [if_neg hside, hother, hserver.parse_alpn]

/-- **Two merges of the same chunks show the same protocols exactly when they end with the same
side**, or when both sides sent the same list: the side that had the last event has the say. -/
theorem alpn_agrees_iff (x509 : X509) (now : Time) (client : Bool)
    (ws₁ ws₂ : List (Time × WireEvent)) (offered selected : List Bytes)
    (hfree : s.conns[k]? = none) (hsock₁ : ∀ w ∈ ws₁, w.2.sock = k)
    (hsock₂ : ∀ w ∈ ws₂, w.2.sock = k)
    (hmerge : ∀ d, chunks d (ws₁.map Prod.snd) = chunks d (ws₂.map Prod.snd))
    (hlen : ∀ d, (stream d (ws₁.map Prod.snd)).length ≤ maxWireBuf)
    (hclient : Offers (stream client (ws₁.map Prod.snd)) offered)
    (hserver : Selects (stream (!client) (ws₁.map Prod.snd)) selected) :
    ((infoAfter x509 s k now ws₁).map (·.alpn) = (infoAfter x509 s k now ws₂).map (·.alpn) ↔
      lastInbound ws₁ = lastInbound ws₂ ∨ offered = selected) ∧
    (infoAfter x509 s k now ws₁).map (·.alpn) =
      some (if lastInbound ws₁ = some client then offered else selected) := by
  have hstream : ∀ d, stream d (ws₁.map Prod.snd) = stream d (ws₂.map Prod.snd) := fun d => by
    rw [stream_eq_flatten, stream_eq_flatten, hmerge]
  obtain ⟨d₁, hlast₁, hshown₁⟩ := alpn_of_last x509 now client ws₁ offered selected hfree hsock₁
    hlen hclient hserver
  obtain ⟨d₂, hlast₂, hshown₂⟩ := alpn_of_last x509 now client ws₂ offered selected hfree hsock₂
    (fun d => hstream d ▸ hlen d) (hstream client ▸ hclient) (hstream (!client) ▸ hserver)
  refine ⟨?_, ?_⟩
  · rw [hshown₁, hshown₂, hlast₁, hlast₂, Option.some.injEq, Option.some.injEq]
    by_cases h₁ : d₁ = client <;> by_cases h₂ : d₂ = client
    · rw [if_pos h₁, if_pos h₂, h₁, h₂]
      simp
    · rw [if_pos h₁, if_neg h₂, h₁]
      simp [Ne.symm h₂]
    · rw [if_neg h₁, if_pos h₂, h₂]
      simp [h₁, eq_comm]
    · have hsame : d₁ = d₂ := by
        cases d₁ <;> cases d₂ <;> cases client <;> simp_all
      rw [if_neg h₁, if_neg h₂, hsame]
      simp
  · rw [hshown₁, hlast₁]
    simp only [Option.some.injEq]

/-- A hello in one record. -/
def offer : Record := ⟨3, 1, (Hello.client offersH2).message.encode, by decide +kernel⟩
def selection : Record := ⟨3, 3, (Hello.server selectsH2).message.encode, by decide +kernel⟩

def clientFirst : List (Time × WireEvent) :=
  [(1, ⟨1, 1, offer.encode⟩), (2, ⟨2, 1, selection.encode⟩)]
def serverFirst : List (Time × WireEvent) :=
  [(1, ⟨2, 1, selection.encode⟩), (2, ⟨1, 1, offer.encode⟩)]

theorem offers_clientFirst : Offers (stream false (clientFirst.map Prod.snd)) [h2, http11] := by
  have hwire : stream false (clientFirst.map Prod.snd) = [offer].flatMap Record.encode := by
    decide +kernel
  refine ⟨offersH2, [], [], ?_, by decide +kernel, by simp⟩
  rw [hwire]
  exact (Hello.client offersH2).messages_wire (List.flatMap_singleton ..)

theorem selects_clientFirst : Selects (stream true (clientFirst.map Prod.snd)) [h2] := by
  have hwire : stream true (clientFirst.map Prod.snd) = [selection].flatMap Record.encode := by
    decide +kernel
  refine ⟨selectsH2, [], [], ?_, by decide +kernel, by simp⟩
  rw [hwire]
  exact (Hello.server selectsH2).messages_wire (List.flatMap_singleton ..)

theorem new_free : (new 500 8192).conns[(1 : UInt64)]? = none := by decide +kernel

theorem merges_agree : ∀ d, chunks d (clientFirst.map Prod.snd) = chunks d (serverFirst.map Prod.snd) := by
  decide +kernel

theorem merges_fit : ∀ d, (stream d (clientFirst.map Prod.snd)).length ≤ maxWireBuf := by
  decide +kernel

theorem sock_clientFirst : ∀ w ∈ clientFirst, w.2.sock = 1 := by decide +kernel

theorem sock_serverFirst : ∀ w ∈ serverFirst, w.2.sock = 1 := by decide +kernel

theorem alpn_agrees_iff_hellos :
    ((infoAfter (fun _ => none) (new 500 8192) 1 1 clientFirst).map (·.alpn) =
        (infoAfter (fun _ => none) (new 500 8192) 1 1 serverFirst).map (·.alpn) ↔
      lastInbound clientFirst = lastInbound serverFirst ∨ [h2, http11] = [h2]) ∧
    (infoAfter (fun _ => none) (new 500 8192) 1 1 clientFirst).map (·.alpn) =
      some (if lastInbound clientFirst = some false then [h2, http11] else [h2]) :=
  alpn_agrees_iff (fun _ => none) 1 false clientFirst serverFirst [h2, http11] [h2] new_free
    sock_clientFirst sock_serverFirst merges_agree merges_fit offers_clientFirst
    selects_clientFirst

/-- The client's offer, parsed again, replaces the server's selection. -/
theorem alpn_depends_on_arrival :
    (∀ d, chunks d (clientFirst.map Prod.snd) = chunks d (serverFirst.map Prod.snd)) ∧
    Offers (stream false (clientFirst.map Prod.snd)) [h2, http11] ∧
    Selects (stream true (clientFirst.map Prod.snd)) [h2] ∧
    (infoAfter (fun _ => none) (new 500 8192) 1 1 clientFirst).map (·.alpn) = some [h2] ∧
    (infoAfter (fun _ => none) (new 500 8192) 1 1 serverFirst).map (·.alpn) =
      some [h2, http11] := by
  have hstream : ∀ d, stream d (clientFirst.map Prod.snd) = stream d (serverFirst.map Prod.snd) :=
    fun d => by rw [stream_eq_flatten, stream_eq_flatten, merges_agree]
  obtain ⟨d₁, hlast₁, hshown₁⟩ := alpn_of_last (fun _ => none) 1 false clientFirst [h2, http11]
    [h2] new_free sock_clientFirst merges_fit offers_clientFirst selects_clientFirst
  obtain ⟨d₂, hlast₂, hshown₂⟩ := alpn_of_last (fun _ => none) 1 false serverFirst [h2, http11]
    [h2] new_free sock_serverFirst (fun d => hstream d ▸ merges_fit d)
    (hstream false ▸ offers_clientFirst) (hstream true ▸ selects_clientFirst)
  have hd₁ : some d₁ = some true := hlast₁.symm.trans (by decide +kernel)
  have hd₂ : some d₂ = some false := hlast₂.symm.trans (by decide +kernel)
  obtain rfl := Option.some.inj hd₁
  obtain rfl := Option.some.inj hd₂
  exact ⟨merges_agree, offers_clientFirst, selects_clientFirst, hshown₁, hshown₂⟩

end Store

/-! ### The certificate -/

/-- A server's flight: a ServerHello, and after it one Certificate, whose leaf parses to `cert`. -/
def Presents (x509 : X509) (b : Bytes) (cert : Certificate) : Prop :=
  ∃ (h : ServerHello) (leaf chain : Bytes) (between after : List (UInt8 × Bytes)),
    handshake b = (hsServerHello, h.encode) ::
      (between ++ (hsCertificate, certificateBody leaf chain) :: after) ∧
    leaf ≠ [] ∧ 3 + (leaf.length + chain.length) < 2 ^ 24 ∧ x509 leaf = some cert ∧
    ∀ m ∈ between ++ after, m.1 ≠ hsCertificate

theorem filterMap_leafOf_nil {x509 : X509} {ms : List (UInt8 × Bytes)}
    (h : ∀ m ∈ ms, m.1 ≠ hsCertificate) : ms.filterMap (leafOf x509) = [] := by
  rw [List.filterMap_eq_nil_iff]
  intro m hm
  exact if_neg fun hc => h m hm hc.1

theorem Presents.leaves {x509 : X509} {b : Bytes} {cert : Certificate} (h : Presents x509 b cert) :
    leaves x509 b = [cert.fields] := by
  obtain ⟨hello, leaf, chain, between, after, hb, hne, hlen, hx, hrest⟩ := h
  have hleaf := leafOf_certificateBody x509 hne hlen hx
  have hhello : leafOf x509 (hsServerHello, hello.encode) = none :=
    if_neg fun hc => absurd hc.1 (show ¬hsServerHello = hsCertificate by decide)
  unfold Tlsparse.leaves
  rw [hb, List.filterMap_cons_none hhello, List.filterMap_append,
    filterMap_leafOf_nil fun m hm => hrest m (List.mem_append_left _ hm),
    List.filterMap_cons_some hleaf,
    filterMap_leafOf_nil fun m hm => hrest m (List.mem_append_right _ hm)]
  rfl

namespace Conn
variable (x509 : X509)

/-- A direction without a leaf leaves the report to the other one. -/
def Reports (c : Conn) : Prop := ∀ d, leaves x509 (c.buf d) = [] →
  c.info.certFields = ((leaves x509 (c.buf (!d))).getLast?).getD {}

theorem grow_isPrefix (b data : Bytes) : b <+: grow b data := by
  unfold grow
  split_ifs
  · exact List.prefix_append ..
  · exact List.prefix_rfl

theorem reports_applyWire {c : Conn} (h : Reports x509 c) (w : WireEvent) :
    Reports x509 (c.applyWire x509 w) := by
  intro d hd
  have hpre := leaves_isPrefix x509 (grow_isPrefix (c.buf (inbound w)) w.data)
  rw [applyWire_buf] at hd
  rw [applyWire_info, parse_certFields, applyWire_buf]
  by_cases hside : inbound w = d
  · rw [if_pos hside] at hd
    have hne : inbound w ≠ !d := by rw [hside]; cases d <;> decide
    rw [hside, hd] at hpre
    rw [if_neg hne, hside, hd, h d (List.prefix_nil.mp hpre)]
    rfl
  · rw [if_neg hside] at hd
    have hother : inbound w = !d := by
      cases hw : inbound w <;> cases d <;> simp_all
    rw [if_pos hother, h d hd, ← hother]
    cases hnew : (leaves x509 (grow (c.buf (inbound w)) w.data)).getLast? with
    | some F => rfl
    | none =>
      rw [List.getLast?_eq_none_iff.mp hnew] at hpre
      rw [List.prefix_nil.mp hpre]
      rfl

theorem reports_applyWires {c : Conn} (h : Reports x509 c) (ws : List WireEvent) :
    Reports x509 (applyWires x509 ws c) :=
  foldl_invariant (p := fun _ => True) (fun _ w _ hc => reports_applyWire x509 hc w)
    (fun _ _ => trivial) h

end Conn

namespace Store
variable {s : Store} {k : UInt64}

theorem leaves_nil (x509 : X509) : leaves x509 [] = [] := by
  rw [leaves, handshake, collectHandshake_nil, messages_nil]
  rfl

theorem reports_fresh (x509 : X509) (now : Time) : Conn.Reports x509 (s.fresh k now) := by
  intro d _
  have hbuf : (s.fresh k now).buf (!d) = [] := by cases d <;> rfl
  rw [hbuf, leaves_nil]
  rfl

/-- The certificate shown is the last leaf of the side that had the last event, or of the other
side where that one has none. -/
theorem certFields_of_last (x509 : X509) (now : Time) {ws : List (Time × WireEvent)} {d : Bool}
    (hfree : s.conns[k]? = none) (hsock : ∀ w ∈ ws, w.2.sock = k)
    (hlast : lastInbound ws = some d) :
    (infoAfter x509 s k now ws).map (·.certFields) =
      some (((leaves x509 (kept (chunks d (ws.map Prod.snd)))).getLast?.or
        (leaves x509 (kept (chunks (!d) (ws.map Prod.snd)))).getLast?).getD {}) := by
  obtain ⟨i, hi⟩ := infoAfter_last x509 now hfree hsock hlast
  have hshown := parse_certFields x509 (kept (chunks d (ws.map Prod.snd))) i
  have heq := infoAfter_eq x509 now hfree hsock
  have hreports := Conn.reports_applyWires x509 (reports_fresh (s := s) (k := k) x509 now)
    ((effective ws).map Prod.snd) d
  rw [buf_effective, buf_effective] at hreports
  rw [hi, Option.some.injEq] at heq
  rw [hi, Option.map_some, Option.some.injEq]
  cases hleaf : (leaves x509 (kept (chunks d (ws.map Prod.snd)))).getLast? with
  | some F =>
    rw [hshown, hleaf]
    rfl
  | none =>
    rw [heq, hreports (List.getLast?_eq_none_iff.mp hleaf), Option.none_or]

/-- **When the certificate shown is the server's.** Where the kept bytes of the server reach its
leaf, the server must have had the last event, or the client must have presented no certificate or
one with the same fields. Where the cap cut the leaf off, only a coincidence helps. -/
theorem server_leaf_shown_iff (x509 : X509) (now : Time) (client : Bool)
    (ws : List (Time × WireEvent)) (cert : Certificate) (hfree : s.conns[k]? = none)
    (hsock : ∀ w ∈ ws, w.2.sock = k)
    (hserver : Presents x509 (stream (!client) (ws.map Prod.snd)) cert) :
    (infoAfter x509 s k now ws).map (·.certFields) = some cert.fields ↔
      (leaves x509 (kept (chunks (!client) (ws.map Prod.snd))) ≠ [] ∧
        (lastInbound ws = some (!client) ∨
          ∀ F ∈ (leaves x509 (kept (chunks client (ws.map Prod.snd)))).getLast?,
            F = cert.fields)) ∨
      (leaves x509 (kept (chunks (!client) (ws.map Prod.snd))) = [] ∧
        (leaves x509 (kept (chunks client (ws.map Prod.snd)))).getLast?.getD {} = cert.fields) := by
  have hpre := leaves_isPrefix x509 (kept_isPrefix (chunks (!client) (ws.map Prod.snd)))
  rw [← stream_eq_flatten, hserver.leaves] at hpre
  -- the server's stream has one leaf, and what the cap kept of the stream reaches it or does not
  have hreach : leaves x509 (kept (chunks (!client) (ws.map Prod.snd))) = [] ∨
      leaves x509 (kept (chunks (!client) (ws.map Prod.snd))) = [cert.fields] := by
    rcases List.prefix_cons_iff.mp hpre with h | ⟨t, ht, hnil⟩
    · exact .inl h
    · exact .inr (by rw [ht, List.prefix_nil.mp hnil])
  cases hlast : lastInbound ws with
  | none =>
    rw [stream_nil_of_lastInbound hlast] at hserver
    have hnil := hserver.leaves
    rw [leaves_nil] at hnil
    cases hnil
  | some d =>
    rw [certFields_of_last x509 now hfree hsock hlast, Option.some.injEq, Option.some.injEq]
    by_cases hside : d = client
    · -- the client had the last event
      rw [hside]
      rcases hreach with hS | hS
      · simp [hS]
      · cases (leaves x509 (kept (chunks client (ws.map Prod.snd)))).getLast? <;> simp [hS]
    · have hother : d = !client := by
        cases d <;> cases client <;> simp_all
      rw [hother, Bool.not_not]
      rcases hreach with hS | hS <;> simp [hS]

def ed25519 : Bytes := [0x45, 0x64, 0x32, 0x35, 0x35, 0x31, 0x39]

/-- Self-signed Ed25519 certificates with common names `srv` and `cli`. -/
def srvDer : Bytes :=
  [0x30, 0x81, 0xc2, 0x30, 0x76, 0x02, 0x01, 0x01, 0x30, 0x05, 0x06, 0x03, 0x2b, 0x65, 0x70,
    0x30, 0x0e, 0x31, 0x0c, 0x30, 0x0a, 0x06, 0x03, 0x55, 0x04, 0x03, 0x0c, 0x03, 0x73, 0x72,
    0x76, 0x30, 0x1e, 0x17, 0x0d, 0x32, 0x36, 0x31, 0x31, 0x31, 0x38, 0x31, 0x39, 0x32, 0x37,
    0x30, 0x37, 0x5a, 0x17, 0x0d, 0x33, 0x36, 0x31, 0x31, 0x31, 0x35, 0x31, 0x39, 0x32, 0x37,
    0x30, 0x37, 0x5a, 0x30, 0x0e, 0x31, 0x0c, 0x30, 0x0a, 0x06, 0x03, 0x55, 0x04, 0x03, 0x0c,
    0x03, 0x73, 0x72, 0x76, 0x30, 0x2a, 0x30, 0x05, 0x06, 0x03, 0x2b, 0x65, 0x70, 0x03, 0x21,
    0x00, 0x9b, 0x9a, 0x78, 0xb6, 0x25, 0x23, 0xfe, 0xc6, 0x51, 0xe5, 0xe7, 0xfd, 0x4a, 0x74,
    0x4e, 0x57, 0xbb, 0x71, 0x9f, 0x14, 0xd6, 0x1e, 0x36, 0xd6, 0x64, 0x36, 0x54, 0x3d, 0x2a,
    0x87, 0x2f, 0x50, 0x30, 0x05, 0x06, 0x03, 0x2b, 0x65, 0x70, 0x03, 0x41, 0x00, 0xb0, 0x8c,
    0x6d, 0x3a, 0xc5, 0x05, 0x93, 0xc7, 0x02, 0xe7, 0x5b, 0xf9, 0xe3, 0xf2, 0x46, 0x47, 0x45,
    0xe8, 0x3a, 0x5a, 0x14, 0xc8, 0x40, 0x16, 0x14, 0xd3, 0x95, 0x68, 0xd8, 0x48, 0x12, 0xfd,
    0x14, 0xf4, 0xad, 0x6b, 0xf1, 0x66, 0xca, 0xb9, 0xd2, 0x16, 0xf9, 0xc0, 0xe1, 0xb9, 0x58,
    0xe0, 0xf7, 0x09, 0xe5, 0xf0, 0x0b, 0x4d, 0x23, 0x78, 0x75, 0x43, 0xc4, 0x4d, 0xbf, 0x32,
    0x9a, 0x05]
def cliDer : Bytes :=
  [0x30, 0x81, 0xc2, 0x30, 0x76, 0x02, 0x01, 0x01, 0x30, 0x05, 0x06, 0x03, 0x2b, 0x65, 0x70,
    0x30, 0x0e, 0x31, 0x0c, 0x30, 0x0a, 0x06, 0x03, 0x55, 0x04, 0x03, 0x0c, 0x03, 0x63, 0x6c,
    0x69, 0x30, 0x1e, 0x17, 0x0d, 0x32, 0x36, 0x31, 0x31, 0x31, 0x38, 0x31, 0x39, 0x32, 0x37,
    0x30, 0x37, 0x5a, 0x17, 0x0d, 0x33, 0x36, 0x31, 0x31, 0x31, 0x35, 0x31, 0x39, 0x32, 0x37,
    0x30, 0x37, 0x5a, 0x30, 0x0e, 0x31, 0x0c, 0x30, 0x0a, 0x06, 0x03, 0x55, 0x04, 0x03, 0x0c,
    0x03, 0x63, 0x6c, 0x69, 0x30, 0x2a, 0x30, 0x05, 0x06, 0x03, 0x2b, 0x65, 0x70, 0x03, 0x21,
    0x00, 0x59, 0x0b, 0xeb, 0xe5, 0x65, 0x87, 0x2d, 0x1e, 0x09, 0x4f, 0x1b, 0xa9, 0xb3, 0x9b,
    0xb2, 0xe8, 0xb1, 0x6c, 0x06, 0x26, 0x54, 0x6c, 0x48, 0xe4, 0xaf, 0xd7, 0x1f, 0xa0, 0xf9,
    0x70, 0xe9, 0xe7, 0x30, 0x05, 0x06, 0x03, 0x2b, 0x65, 0x70, 0x03, 0x41, 0x00, 0xc7, 0x62,
    0x97, 0x40, 0xbb, 0x1d, 0x7e, 0xbb, 0x7b, 0x37, 0x0a, 0x86, 0x47, 0x76, 0xc6, 0x12, 0x0e,
    0xd0, 0xa7, 0x31, 0x6b, 0x93, 0x23, 0x62, 0x01, 0xef, 0x45, 0x1b, 0x64, 0x22, 0x36, 0xf5,
    0x41, 0x4f, 0x52, 0x79, 0x4d, 0x81, 0x75, 0xaa, 0x59, 0x5f, 0x1b, 0x05, 0x3c, 0xfa, 0xe5,
    0x16, 0xe0, 0x5d, 0xc2, 0x95, 0x3e, 0xc5, 0xdd, 0x7c, 0x45, 0xf3, 0xa4, 0x42, 0x9c, 0x0f,
    0x3e, 0x06]

def srvCert : Certificate := ⟨[0x73, 0x72, 0x76], [], [0x73, 0x72, 0x76], [], ed25519⟩
def cliCert : Certificate := ⟨[0x63, 0x6c, 0x69], [], [0x63, 0x6c, 0x69], [], ed25519⟩

/-- What `x509.ParseCertificate` makes of the two. -/
def parseDer : X509 := fun der =>
  if der = srvDer then some srvCert else if der = cliDer then some cliCert else none

def hello12 : ServerHello :=
  { selectsH2 with
    cipherSuite := 0xc02b
    extensions := none
    types_nodup := by decide
    block_lt := by decide }

def srvMessages : List Message :=
  [(Hello.server hello12).message, ⟨hsCertificate, certificateBody srvDer [], by decide +kernel⟩]
def cliMessages : List Message :=
  [(Hello.client offersH2).message, ⟨hsCertificate, certificateBody cliDer [], by decide +kernel⟩]

def srvFlight : Record := ⟨3, 3, srvMessages.flatMap Message.encode, by decide +kernel⟩
def cliHello : Record := ⟨3, 1, (Hello.client offersH2).message.encode, by decide +kernel⟩
def cliFlight : Record :=
  ⟨3, 3, (cliMessages.drop 1).flatMap Message.encode, by decide +kernel⟩

/-- Mutual authentication in TLS 1.2: the client's Certificate answers the server's flight. -/
def mutualAuth : List (Time × WireEvent) :=
  [(1, ⟨1, 1, cliHello.encode⟩), (2, ⟨2, 1, srvFlight.encode⟩), (3, ⟨1, 1, cliFlight.encode⟩)]

theorem sock_mutualAuth : ∀ w ∈ mutualAuth, w.2.sock = 1 := by decide +kernel

theorem handshake_srv : handshake (stream true (mutualAuth.map Prod.snd)) =
    [(hsServerHello, hello12.encode), (hsCertificate, certificateBody srvDer [])] := by
  have hwire : stream true (mutualAuth.map Prod.snd) = [srvFlight].flatMap Record.encode ++ [] := by
    decide +kernel
  rw [hwire]
  exact @messages_records srvMessages _ _ (List.flatMap_singleton ..) (.inl (by decide))

theorem handshake_cli : handshake (stream false (mutualAuth.map Prod.snd)) =
    [(hsClientHello, offersH2.encode), (hsCertificate, certificateBody cliDer [])] := by
  have hwire : stream false (mutualAuth.map Prod.snd) =
      [cliHello, cliFlight].flatMap Record.encode ++ [] := by
    decide +kernel
  rw [hwire]
  exact @messages_records cliMessages _ _ (by decide +kernel) (.inl (by decide))

theorem presents_mutualAuth :
    Presents parseDer (stream true (mutualAuth.map Prod.snd)) srvCert :=
  ⟨hello12, srvDer, [], [], [], handshake_srv, nofun, by decide +kernel, if_pos rfl, by simp⟩

theorem server_leaf_shown_iff_mutualAuth :
    (infoAfter parseDer (new 500 8192) 1 1 mutualAuth).map (·.certFields) = some srvCert.fields ↔
      (leaves parseDer (kept (chunks true (mutualAuth.map Prod.snd))) ≠ [] ∧
        (lastInbound mutualAuth = some true ∨
          ∀ F ∈ (leaves parseDer (kept (chunks false (mutualAuth.map Prod.snd)))).getLast?,
            F = srvCert.fields)) ∨
      (leaves parseDer (kept (chunks true (mutualAuth.map Prod.snd))) = [] ∧
        (leaves parseDer (kept (chunks false (mutualAuth.map Prod.snd)))).getLast?.getD {} =
          srvCert.fields) :=
  server_leaf_shown_iff parseDer 1 false mutualAuth srvCert new_free sock_mutualAuth
    presents_mutualAuth

/-- The client's own certificate is shown in place of the server's. -/
theorem client_certificate_shown :
    Presents parseDer (stream true (mutualAuth.map Prod.snd)) srvCert ∧
    handshake (stream false (mutualAuth.map Prod.snd)) =
      [(hsClientHello, offersH2.encode), (hsCertificate, certificateBody cliDer [])] ∧
    (infoAfter parseDer (new 500 8192) 1 1 mutualAuth).map (·.certFields) = some cliCert.fields ∧
    cliCert.fields ≠ srvCert.fields := by
  refine ⟨presents_mutualAuth, handshake_cli, ?_, by decide +kernel⟩
  have hcli : parseDer cliDer = some cliCert :=
    (if_neg (show ¬cliDer = srvDer by decide +kernel)).trans (if_pos rfl)
  have hleaves : leaves parseDer (stream false (mutualAuth.map Prod.snd)) = [cliCert.fields] := by
    have hleaf : leafOf parseDer (hsCertificate, certificateBody cliDer []) =
        some cliCert.fields :=
      leafOf_certificateBody parseDer nofun (by decide +kernel) hcli
    have hhello : leafOf parseDer (hsClientHello, offersH2.encode) = none :=
      if_neg fun hc => absurd hc.1 (show ¬hsClientHello = hsCertificate by decide)
    rw [leaves, handshake_cli, List.filterMap_cons_none hhello, List.filterMap_cons_some hleaf]
    rfl
  have hfit : (chunks false (mutualAuth.map Prod.snd)).flatten.length ≤ maxWireBuf := by
    decide +kernel
  rw [certFields_of_last parseDer 1 new_free sock_mutualAuth (d := false) (by decide +kernel),
    kept_eq hfit, ← stream_eq_flatten, hleaves]
  rfl

end Store
end Tlstat.Model
