import Tlstat.Base.Overwrite
import Tlstat.Tlsparse.Parse

/-! What a parse does to an `Info`, as a product of field overwrites that depends
on the bytes alone. `parse_eq_effect` says that the parser computes it. -/

set_option linter.unusedVariables false

namespace Tlstat.Tlsparse
open Base

@[ext] structure Effect where
  hasClientHello : Slot Bool := .keep
  hasServerHello : Slot Bool := .keep
  hasCert : Slot Bool := .keep
  sni : Slot Bytes := .keep
  alpn : Slot (List Bytes) := .keep
  clientVersion : Slot UInt16 := .keep
  negVersion : Slot UInt16 := .keep
  cipherSuite : Slot UInt16 := .keep
  group : Slot UInt16 := .keep
  offeredSigs : Slot (List UInt16) := .keep
  certSubject : Slot Bytes := .keep
  certIssuer : Slot Bytes := .keep
  certSANs : Slot (List Bytes) := .keep
  certSigAlg : Slot Bytes := .keep

namespace Effect

def apply (e : Effect) (i : Info) : Info where
  hasClientHello := e.hasClientHello.apply i.hasClientHello
  hasServerHello := e.hasServerHello.apply i.hasServerHello
  hasCert := e.hasCert.apply i.hasCert
  sni := e.sni.apply i.sni
  alpn := e.alpn.apply i.alpn
  clientVersion := e.clientVersion.apply i.clientVersion
  negVersion := e.negVersion.apply i.negVersion
  cipherSuite := e.cipherSuite.apply i.cipherSuite
  group := e.group.apply i.group
  offeredSigs := e.offeredSigs.apply i.offeredSigs
  certSubject := e.certSubject.apply i.certSubject
  certIssuer := e.certIssuer.apply i.certIssuer
  certSANs := e.certSANs.apply i.certSANs
  certSigAlg := e.certSigAlg.apply i.certSigAlg

instance : Mul Effect where
  mul a b :=
    { hasClientHello := a.hasClientHello * b.hasClientHello
      hasServerHello := a.hasServerHello * b.hasServerHello
      hasCert := a.hasCert * b.hasCert
      sni := a.sni * b.sni
      alpn := a.alpn * b.alpn
      clientVersion := a.clientVersion * b.clientVersion
      negVersion := a.negVersion * b.negVersion
      cipherSuite := a.cipherSuite * b.cipherSuite
      group := a.group * b.group
      offeredSigs := a.offeredSigs * b.offeredSigs
      certSubject := a.certSubject * b.certSubject
      certIssuer := a.certIssuer * b.certIssuer
      certSANs := a.certSANs * b.certSANs
      certSigAlg := a.certSigAlg * b.certSigAlg }

instance : One Effect where
  one := {}

instance : Monoid Effect where
  mul_assoc a b c := by ext1 <;> exact mul_assoc _ _ _
  one_mul a := by ext1 <;> exact Slot.keep_mul _
  mul_one a := by ext1 <;> exact Slot.mul_keep _

instance : Std.IdempotentOp fun a b : Effect => a * b where
  idempotent a := by ext1 <;> exact mul_self_eq _

theorem apply_mul (a b : Effect) (i : Info) : (a * b).apply i = b.apply (a.apply i) := by
  change Info.mk .. = Info.mk ..
  congr 1 <;> exact Slot.apply_mul _ _ _

theorem prod_apply_eq_foldl {α : Type*} {f : α → Effect} {g : Info → α → Info}
    (h : ∀ x i, (f x).apply i = g i x) (xs : List α) (i : Info) :
    (xs.map f).prod.apply i = xs.foldl g i := by
  induction xs generalizing i with
  | nil => rfl
  | cons x xs ih => rw [List.map_cons, List.prod_cons, apply_mul, h, ih, List.foldl_cons]

theorem absorbed_iff {a b : Effect} : Absorbed a b ↔
    Absorbed a.hasClientHello b.hasClientHello ∧ Absorbed a.hasServerHello b.hasServerHello ∧
    Absorbed a.hasCert b.hasCert ∧ Absorbed a.sni b.sni ∧ Absorbed a.alpn b.alpn ∧
    Absorbed a.clientVersion b.clientVersion ∧ Absorbed a.negVersion b.negVersion ∧
    Absorbed a.cipherSuite b.cipherSuite ∧ Absorbed a.group b.group ∧
    Absorbed a.offeredSigs b.offeredSigs ∧ Absorbed a.certSubject b.certSubject ∧
    Absorbed a.certIssuer b.certIssuer ∧ Absorbed a.certSANs b.certSANs ∧
    Absorbed a.certSigAlg b.certSigAlg := by
  constructor
  · intro h
    exact ⟨fun w => congrArg hasClientHello (h { hasClientHello := w }),
      fun w => congrArg hasServerHello (h { hasServerHello := w }),
      fun w => congrArg hasCert (h { hasCert := w }),
      fun w => congrArg sni (h { sni := w }),
      fun w => congrArg alpn (h { alpn := w }),
      fun w => congrArg clientVersion (h { clientVersion := w }),
      fun w => congrArg negVersion (h { negVersion := w }),
      fun w => congrArg cipherSuite (h { cipherSuite := w }),
      fun w => congrArg group (h { group := w }),
      fun w => congrArg offeredSigs (h { offeredSigs := w }),
      fun w => congrArg certSubject (h { certSubject := w }),
      fun w => congrArg certIssuer (h { certIssuer := w }),
      fun w => congrArg certSANs (h { certSANs := w }),
      fun w => congrArg certSigAlg (h { certSigAlg := w })⟩
  · rintro ⟨h₁, h₂, h₃, h₄, h₅, h₆, h₇, h₈, h₉, h₁₀, h₁₁, h₁₂, h₁₃, h₁₄⟩ w
    exact Effect.ext (h₁ _) (h₂ _) (h₃ _) (h₄ _) (h₅ _) (h₆ _) (h₇ _) (h₈ _) (h₉ _) (h₁₀ _)
      (h₁₁ _) (h₁₂ _) (h₁₃ _) (h₁₄ _)

/-- The upgrade at the end of a ServerHello, once its version has been set. -/
def raise (cs : UInt16) (e : Effect) : Effect :=
  match e.negVersion with
  | .put v => { e with negVersion := .put (if v < 0x0304 && isTLS13Cipher cs then 0x0304 else v) }
  | _ => e

end Effect

/-! ### The items a walk visits -/

def extensionsLoop (stop : ℕ) (r : Reader) : List (UInt16 × Bytes) :=
  if h : r.off + 4 ≤ stop ∧ r.off + 4 ≤ r.b.length then
    let etype := r.u16D
    let elen := etype.2.u16D
    match hb : elen.2.bytes elen.1.toNat with
    | none => [(etype.1, elen.2.rest)]
    | some (data, r') => (etype.1, data) :: extensionsLoop stop r'
  else []
termination_by r.b.length - r.off
decreasing_by
  obtain ⟨h₁, h₂⟩ := Reader.u16D_moves (r := r) (by omega)
  obtain ⟨h₃, h₄⟩ := Reader.u16D_moves (r := r.u16D.2) (by rw [h₁, h₂]; omega)
  obtain ⟨h₅, h₆⟩ := Reader.bytes_moves hb
  rw [h₅, h₆, h₃, h₄, h₁, h₂]
  omega

/-- The extensions of a hello, each with its data, the last one possibly cut short. -/
def extensions (r : Reader) : List (UInt16 × Bytes) :=
  match r.u16 with
  | none => []
  | some (extLen, r) => extensionsLoop (r.off + extLen.toNat) r

/-- The extensions a ClientHello decoder gets to, from behind the version on. -/
def clientWalk (r : Reader) : List (UInt16 × Bytes) :=
  let random := r.skip 32
  if !random.1 then []
  else
    let sessionId := random.2.skipVec8
    if !sessionId.1 then []
    else
      match sessionId.2.u16 with
      | none => []
      | some (csLen, r) =>
        let compression := (r.skip csLen.toNat).2.skipVec8
        if !compression.1 then [] else extensions compression.2

/-- How far a ServerHello decoder gets from behind the version on: to the suite, and to the
extensions after it. -/
def serverWalk (r : Reader) : Option (UInt16 × Option (List (UInt16 × Bytes))) :=
  let random := r.skip 32
  if !random.1 then none
  else
    let sessionId := random.2.skipVec8
    if !sessionId.1 then none
    else
      match sessionId.2.u16 with
      | none => none
      | some (cs, r) =>
        match r.u8 with
        | none => some (cs, none)
        | some (_, r) => some (cs, some (extensions r))

/-! ### Their effects -/

def extensionEffect (server : Bool) (e : UInt16 × Bytes) : Effect :=
  if e.1 = 0 then
    if server then 1
    else if parseSNI e.2 = [] then 1
    else { sni := .put (parseSNI e.2) }
  else if e.1 = 13 then
    if server then 1 else { offeredSigs := .put (parseU16List e.2) }
  else if e.1 = 16 then
    { alpn := .put (parseALPN e.2) }
  else if e.1 = 43 then
    if h : server ∧ 2 ≤ e.2.length then { negVersion := .put (be16 e.2[0] e.2[1]) } else 1
  else if e.1 = 51 then
    if h : server ∧ 2 ≤ e.2.length then { group := .put (be16 e.2[0] e.2[1]) } else 1
  else 1

def extensionsEffect (server : Bool) (es : List (UInt16 × Bytes)) : Effect :=
  (es.map (extensionEffect server)).prod

def clientHelloEffect (b : Bytes) : Effect :=
  match (Reader.start b).u16 with
  | none => 1
  | some (ver, r) =>
    { hasClientHello := .put true, clientVersion := .put ver, negVersion := .fill ver } *
      extensionsEffect false (clientWalk r)

/-- What follows the version in a ServerHello, up to the upgrade, and the suite
the upgrade looks at when the walk gets that far. -/
def serverHelloRest (r : Reader) : Effect × Option UInt16 :=
  match serverWalk r with
  | none => (1, none)
  | some (cs, none) => ({ cipherSuite := .put cs }, none)
  | some (cs, some es) => ({ cipherSuite := .put cs } * extensionsEffect true es, some cs)

def serverHelloEffect (b : Bytes) : Effect :=
  match (Reader.start b).u16 with
  | none => 1
  | some (ver, r) =>
    let e := { hasServerHello := .put true, negVersion := .put ver } * (serverHelloRest r).1
    match (serverHelloRest r).2 with
    | none => e
    | some cs => e.raise cs

def certificateEffect (x509 : X509) (b : Bytes) : Effect :=
  if b.length < 3 then 1
  else
    let total := (Reader.start b).u24D
    let stop := min (total.2.off + total.1.toNat) b.length
    if total.2.off + 3 > stop then 1
    else
      let clen := total.2.u24D
      match clen.2.bytes clen.1.toNat with
      | none => 1
      | some ([], _) => 1
      | some (der, _) =>
        match x509 der with
        | none => 1
        | some cert =>
          { hasCert := .put true
            certSubject := .put (certSubjectOf cert)
            certIssuer := .put cert.issuerCommonName
            certSANs := .put cert.dnsNames
            certSigAlg := .put (trimSuffix cert.signatureAlgorithm dash) }

def messageEffect (x509 : X509) (m : UInt8 × Bytes) : Effect :=
  if m.1 = hsClientHello then clientHelloEffect m.2
  else if m.1 = hsServerHello then serverHelloEffect m.2
  else if m.1 = hsCertificate then certificateEffect x509 m.2
  else 1

def effect (x509 : X509) (buf : Bytes) : Effect :=
  ((messages (collectHandshake buf)).map (messageEffect x509)).prod

/-! ### The parser computes its effect -/

theorem handleExtension_eq (t : UInt16) (d : Bytes) (i : Info) (server : Bool) :
    handleExtension t d i server = (extensionEffect server (t, d)).apply i := by
  unfold handleExtension extensionEffect
  split_ifs <;> rfl

section Loop
variable {stop : ℕ} {r r' : Reader} {data : Bytes}

theorem extensionsLoop_stop (h : ¬(r.off + 4 ≤ stop ∧ r.off + 4 ≤ r.b.length)) :
    extensionsLoop stop r = [] := by
  rw [extensionsLoop, dif_neg h]

theorem extensionsLoop_cut (h : r.off + 4 ≤ stop ∧ r.off + 4 ≤ r.b.length)
    (hb : r.u16D.2.u16D.2.bytes r.u16D.2.u16D.1.toNat = none) :
    extensionsLoop stop r = [(r.u16D.1, r.u16D.2.u16D.2.rest)] := by
  rw [extensionsLoop, dif_pos h]
  dsimp only
  split <;> simp_all

theorem extensionsLoop_step (h : r.off + 4 ≤ stop ∧ r.off + 4 ≤ r.b.length)
    (hb : r.u16D.2.u16D.2.bytes r.u16D.2.u16D.1.toNat = some (data, r')) :
    extensionsLoop stop r = (r.u16D.1, data) :: extensionsLoop stop r' := by
  rw [extensionsLoop, dif_pos h]
  dsimp only
  split <;> simp_all

end Loop

theorem parseExtensionsLoop_eq (server : Bool) (stop : ℕ) (r : Reader) (i : Info) :
    parseExtensionsLoop server stop r i =
      ((extensionsLoop stop r).map (extensionEffect server)).prod.apply i := by
  fun_induction parseExtensionsLoop server stop r i with
  | case1 r i h etype elen hb =>
    rw [extensionsLoop_cut h hb, List.map_singleton, List.prod_singleton]
    exact handleExtension_eq ..
  | case2 r i h etype elen data r' hb ih =>
    rw [extensionsLoop_step h hb, List.map_cons, List.prod_cons, Effect.apply_mul, ih]
    exact congrArg _ (handleExtension_eq ..)
  | case3 r i h =>
    rw [extensionsLoop_stop h]
    rfl

theorem parseExtensions_eq (r : Reader) (i : Info) (server : Bool) :
    parseExtensions r i server = (extensionsEffect server (extensions r)).apply i := by
  unfold parseExtensions extensionsEffect extensions
  rcases r.u16 with _ | ⟨extLen, q⟩
  · rfl
  · exact parseExtensionsLoop_eq ..

theorem parseClientHello_eq (b : Bytes) (i : Info) :
    parseClientHello b i = (clientHelloEffect b).apply i := by
  unfold parseClientHello clientHelloEffect clientWalk
  rcases (Reader.start b).u16 with _ | ⟨ver, r⟩
  · rfl
  · dsimp only
    rw [Effect.apply_mul]
    change _ = Effect.apply _ { i with
      hasClientHello := true
      clientVersion := ver
      negVersion := if i.negVersion = 0 then ver else i.negVersion }
    generalize ({ i with
      hasClientHello := true
      clientVersion := ver
      negVersion := if i.negVersion = 0 then ver else i.negVersion } : Info) = j
    split_ifs
    · rfl
    · rfl
    · rcases (r.skip 32).2.skipVec8.2.u16 with _ | ⟨csLen, q⟩
      · rfl
      · dsimp only
        split_ifs
        · rfl
        · exact parseExtensions_eq ..

theorem serverHello_negVersion_put (ver : UInt16) (e : Effect) :
    ∃ v, (({ hasServerHello := .put true, negVersion := .put ver } : Effect) * e).negVersion =
      .put v := by
  change ∃ v, Slot.put ver * e.negVersion = .put v
  cases e.negVersion with
  | keep => exact ⟨ver, rfl⟩
  | put v => exact ⟨v, rfl⟩
  | fill v => exact ⟨_, rfl⟩

theorem Effect.apply_raise {cs v : UInt16} {e : Effect} (he : e.negVersion = .put v) (i : Info) :
    (e.raise cs).apply i =
      if (e.apply i).negVersion < 0x0304 && isTLS13Cipher cs then
        { e.apply i with negVersion := 0x0304 }
      else e.apply i := by
  have hv : (e.apply i).negVersion = v := by simp only [Effect.apply, he, Slot.apply]
  rw [hv]
  unfold Effect.raise
  rw [he]
  split_ifs with h
  · simp only [if_pos h]
    rfl
  · simp only [if_neg h]
    rw [← he]

theorem parseServerHello_eq (b : Bytes) (i : Info) :
    parseServerHello b i = (serverHelloEffect b).apply i := by
  unfold parseServerHello serverHelloEffect
  rcases (Reader.start b).u16 with _ | ⟨ver, r⟩
  · rfl
  · have hput := serverHello_negVersion_put ver
    unfold serverHelloRest serverWalk
    dsimp only
    split_ifs
    · rfl
    · rfl
    · rcases (r.skip 32).2.skipVec8.2.u16 with _ | ⟨cs, q⟩
      · rfl
      · dsimp only
        rcases q.u8 with _ | ⟨c, q'⟩
        · rfl
        · obtain ⟨v, hv⟩ := hput ({ cipherSuite := .put cs } * extensionsEffect true (extensions q'))
          dsimp only
          rw [Effect.apply_raise hv, Effect.apply_mul, Effect.apply_mul, parseExtensions_eq]
          rfl

theorem parseCertificate_eq (x509 : X509) (b : Bytes) (i : Info) :
    parseCertificate x509 b i = (certificateEffect x509 b).apply i := by
  unfold parseCertificate certificateEffect
  dsimp only
  split_ifs
  · rfl
  · rfl
  · rcases (Reader.start b).u24D.2.u24D.2.bytes (Reader.start b).u24D.2.u24D.1.toNat with
      _ | ⟨_ | ⟨d, ds⟩, q⟩
    · rfl
    · rfl
    · dsimp only
      rcases x509 (d :: ds) with _ | cert <;> rfl

theorem parseMessage_eq (x509 : X509) (m : UInt8 × Bytes) (i : Info) :
    parseMessage x509 m.1 m.2 i = (messageEffect x509 m).apply i := by
  unfold parseMessage messageEffect
  split_ifs
  · exact parseClientHello_eq ..
  · exact parseServerHello_eq ..
  · exact parseCertificate_eq ..
  · rfl

theorem parseHandshakeLoop_eq (x509 : X509) (s : Bytes) (p : ℕ) (i : Info) :
    parseHandshakeLoop x509 s p i =
      ((messagesLoop s p).map (messageEffect x509)).prod.apply i := by
  fun_induction parseHandshakeLoop x509 s p i with
  | case1 p i h mlen body mlen' ih =>
    rw [messagesLoop, dif_pos h, List.map_cons, List.prod_cons, Effect.apply_mul,
      ← parseMessage_eq]
    exact ih
  | case2 p i h =>
    rw [messagesLoop, dif_neg h]
    rfl

theorem messages_nil : messages [] = [] := by
  rw [messages, messagesLoop, dif_neg (by simp)]

/-- **The parser applies the effect of its bytes.** -/
theorem parse_eq_effect (x509 : X509) (buf : Bytes) (i : Info) :
    parse x509 buf i = (effect x509 buf).apply i := by
  unfold parse effect
  dsimp only
  split_ifs with h
  · rw [List.length_eq_zero_iff.mp h, messages_nil]
    rfl
  · exact parseHandshakeLoop_eq ..

/-- The parser takes the messages of its bytes one after the other. -/
theorem parse_foldl (x509 : X509) (buf : Bytes) (i : Info) :
    parse x509 buf i =
      (messages (collectHandshake buf)).foldl (fun i m => parseMessage x509 m.1 m.2 i) i := by
  rw [parse_eq_effect, effect]
  exact Effect.prod_apply_eq_foldl (fun m i => (parseMessage_eq x509 m i).symm) _ i

end Tlstat.Tlsparse
