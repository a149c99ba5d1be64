import Mathlib.Algebra.Group.Submonoid.BigOperators
import Tlstat.Tlsparse.Growing

/-! Which fields the two ends of a handshake write. A stream without ServerHello leaves the
server's fields alone and only fills the version; a stream without ClientHello leaves the
client's fields alone. -/

namespace Tlstat.Tlsparse
open Base

/-- Effects of streams that carry no ServerHello. -/
def clientSide : Submonoid Effect where
  carrier := { e | e.hasServerHello = .keep ∧ e.cipherSuite = .keep ∧ e.group = .keep ∧
    ∀ v, e.negVersion ≠ .put v }
  one_mem' := ⟨rfl, rfl, rfl, nofun⟩
  mul_mem' := by
    rintro a b ⟨ha₁, ha₂, ha₃, ha₄⟩ ⟨hb₁, hb₂, hb₃, hb₄⟩
    refine ⟨?_, ?_, ?_, fun v hv => ?_⟩
    · change a.hasServerHello * b.hasServerHello = _
      rw [ha₁, hb₁]
      rfl
    · change a.cipherSuite * b.cipherSuite = _
      rw [ha₂, hb₂]
      rfl
    · change a.group * b.group = _
      rw [ha₃, hb₃]
      rfl
    · change a.negVersion * b.negVersion = _ at hv
      cases ha : a.negVersion with
      | put u => exact ha₄ u ha
      | keep =>
        rw [ha, Slot.keep_mul] at hv
        exact hb₄ v hv
      | fill u =>
        cases hb : b.negVersion with
        | put w => exact hb₄ w hb
        | keep => simp [ha, hb] at hv
        | fill w => simp [ha, hb] at hv

/-- Effects of streams that carry no ClientHello. A ServerHello sets its flag and the version
together. -/
def serverSide : Submonoid Effect where
  carrier := { e | e.hasClientHello = .keep ∧ e.sni = .keep ∧ e.clientVersion = .keep ∧
    e.offeredSigs = .keep ∧ ((e.hasServerHello = .keep ∧ e.negVersion = .keep) ∨
      (e.hasServerHello = .put true ∧ ∃ v, e.negVersion = .put v)) }
  one_mem' := ⟨rfl, rfl, rfl, rfl, .inl ⟨rfl, rfl⟩⟩
  mul_mem' := by
    rintro a b ⟨ha₁, ha₂, ha₃, ha₄, ha₅⟩ ⟨hb₁, hb₂, hb₃, hb₄, hb₅⟩
    refine ⟨?_, ?_, ?_, ?_, ?_⟩
    · change a.hasClientHello * b.hasClientHello = _
      rw [ha₁, hb₁]
      rfl
    · change a.sni * b.sni = _
      rw [ha₂, hb₂]
      rfl
    · change a.clientVersion * b.clientVersion = _
      rw [ha₃, hb₃]
      rfl
    · change a.offeredSigs * b.offeredSigs = _
      rw [ha₄, hb₄]
      rfl
    · change (a.hasServerHello * b.hasServerHello = _ ∧ a.negVersion * b.negVersion = _) ∨
        a.hasServerHello * b.hasServerHello = _ ∧ ∃ v, a.negVersion * b.negVersion = .put v
      rcases hb₅ with ⟨hb, hb'⟩ | ⟨hb, v, hb'⟩
      · rw [hb, hb', Slot.mul_keep, Slot.mul_keep]
        exact ha₅
      · rw [hb, hb', Slot.mul_put, Slot.mul_put]
        exact .inr ⟨rfl, v, rfl⟩

theorem extensionEffect_mem_clientSide (e : UInt16 × Bytes) :
    extensionEffect false e ∈ clientSide := by
  simp only [extensionEffect, Bool.false_eq_true, if_false, false_and, dite_false]
  split_ifs
  · exact clientSide.one_mem
  · exact ⟨rfl, rfl, rfl, nofun⟩
  · exact ⟨rfl, rfl, rfl, nofun⟩
  · exact ⟨rfl, rfl, rfl, nofun⟩
  · exact clientSide.one_mem
  · exact clientSide.one_mem
  · exact clientSide.one_mem

theorem extensionsEffect_mem_clientSide (es : List (UInt16 × Bytes)) :
    extensionsEffect false es ∈ clientSide := by
  refine Submonoid.list_prod_mem _ ?_
  intro e he
  obtain ⟨x, -, rfl⟩ := List.mem_map.mp he
  exact extensionEffect_mem_clientSide x

theorem clientHelloEffect_mem (b : Bytes) : clientHelloEffect b ∈ clientSide := by
  unfold clientHelloEffect
  rcases (Reader.start b).u16 with _ | ⟨ver, r⟩
  · exact clientSide.one_mem
  · exact clientSide.mul_mem ⟨rfl, rfl, rfl, nofun⟩ (extensionsEffect_mem_clientSide _)

theorem certificateEffect_mem (x509 : X509) (b : Bytes) :
    certificateEffect x509 b ∈ clientSide ∧ certificateEffect x509 b ∈ serverSide := by
  unfold certificateEffect
  dsimp only
  split_ifs
  · exact ⟨clientSide.one_mem, serverSide.one_mem⟩
  · exact ⟨clientSide.one_mem, serverSide.one_mem⟩
  · rcases (Reader.start b).u24D.2.u24D.2.bytes (Reader.start b).u24D.2.u24D.1.toNat with
      _ | ⟨_ | ⟨d, ds⟩, q⟩
    · exact ⟨clientSide.one_mem, serverSide.one_mem⟩
    · exact ⟨clientSide.one_mem, serverSide.one_mem⟩
    · dsimp only
      rcases x509 (d :: ds) with _ | cert
      · exact ⟨clientSide.one_mem, serverSide.one_mem⟩
      · exact ⟨⟨rfl, rfl, rfl, nofun⟩, rfl, rfl, rfl, rfl, .inl ⟨rfl, rfl⟩⟩

/-- Effects that leave the client's fields and the ServerHello flag alone; the version is
settled by the hello around them. -/
def insideServerHello : Submonoid Effect where
  carrier := { e | e.hasClientHello = .keep ∧ e.sni = .keep ∧ e.clientVersion = .keep ∧
    e.offeredSigs = .keep ∧ e.hasServerHello = .keep }
  one_mem' := ⟨rfl, rfl, rfl, rfl, rfl⟩
  mul_mem' := by
    rintro a b ⟨ha₁, ha₂, ha₃, ha₄, ha₅⟩ ⟨hb₁, hb₂, hb₃, hb₄, hb₅⟩
    refine ⟨?_, ?_, ?_, ?_, ?_⟩
    · change a.hasClientHello * b.hasClientHello = _
      rw [ha₁, hb₁]
      rfl
    · change a.sni * b.sni = _
      rw [ha₂, hb₂]
      rfl
    · change a.clientVersion * b.clientVersion = _
      rw [ha₃, hb₃]
      rfl
    · change a.offeredSigs * b.offeredSigs = _
      rw [ha₄, hb₄]
      rfl
    · change a.hasServerHello * b.hasServerHello = _
      rw [ha₅, hb₅]
      rfl

theorem extensionsEffect_mem_inside (es : List (UInt16 × Bytes)) :
    extensionsEffect true es ∈ insideServerHello := by
  refine Submonoid.list_prod_mem _ ?_
  intro e he
  obtain ⟨x, -, rfl⟩ := List.mem_map.mp he
  simp only [extensionEffect, if_true, true_and]
  split_ifs <;> exact ⟨rfl, rfl, rfl, rfl, rfl⟩

theorem serverHelloRest_mem_inside (r : Reader) : (serverHelloRest r).1 ∈ insideServerHello := by
  unfold serverHelloRest
  rcases serverWalk r with _ | ⟨cs, _ | es⟩
  · exact insideServerHello.one_mem
  · exact ⟨rfl, rfl, rfl, rfl, rfl⟩
  · exact insideServerHello.mul_mem ⟨rfl, rfl, rfl, rfl, rfl⟩ (extensionsEffect_mem_inside es)

theorem serverHelloEffect_mem (b : Bytes) : serverHelloEffect b ∈ serverSide := by
  rcases hu : (Reader.start b).u16 with _ | ⟨ver, r⟩
  · unfold serverHelloEffect
    rw [hu]
    exact serverSide.one_mem
  · obtain ⟨v, hv⟩ := serverHelloEffect_eq hu
    obtain ⟨h₁, h₂, h₃, h₄, h₅⟩ := serverHelloRest_mem_inside r
    rw [hv]
    refine ⟨?_, ?_, ?_, ?_, .inr ⟨?_, v, rfl⟩⟩
    · exact (Slot.keep_mul _).trans h₁
    · exact (Slot.keep_mul _).trans h₂
    · exact (Slot.keep_mul _).trans h₃
    · exact (Slot.keep_mul _).trans h₄
    · change Slot.put true * (serverHelloRest r).1.hasServerHello = _
      rw [h₅]
      rfl

/-! ### Streams -/

def handshake (buf : Bytes) : List (UInt8 × Bytes) := messages (collectHandshake buf)

variable {a b : Bytes}

theorem effect_nil (x509 : X509) : effect x509 [] = 1 := by
  rw [effect, collectHandshake_nil, messages_nil]
  rfl

theorem effect_mem_clientSide (x509 : X509) (h : ∀ m ∈ handshake b, m.1 ≠ hsServerHello) :
    effect x509 b ∈ clientSide := by
  refine Submonoid.list_prod_mem _ ?_
  intro e he
  obtain ⟨m, hm, rfl⟩ := List.mem_map.mp he
  unfold messageEffect
  rw [if_neg (h m hm)]
  split_ifs
  · exact clientHelloEffect_mem m.2
  · exact (certificateEffect_mem x509 m.2).1
  · exact clientSide.one_mem

theorem effect_mem_serverSide (x509 : X509) (h : ∀ m ∈ handshake b, m.1 ≠ hsClientHello) :
    effect x509 b ∈ serverSide := by
  refine Submonoid.list_prod_mem _ ?_
  intro e he
  obtain ⟨m, hm, rfl⟩ := List.mem_map.mp he
  unfold messageEffect
  rw [if_neg (h m hm)]
  split_ifs
  · exact serverHelloEffect_mem m.2
  · exact (certificateEffect_mem x509 m.2).2
  · exact serverSide.one_mem

theorem handshake_types {t : UInt8} (hab : a <+: b) (h : ∀ m ∈ handshake b, m.1 ≠ t) :
    ∀ m ∈ handshake a, m.1 ≠ t :=
  (messages_truncates hab).forall_mem (fun _ _ hxy hy => hxy.1 ▸ hy) h

/-! ### Both streams into one `Info` -/

/-- The handshake facts a connection shows. -/
structure Facts where
  hasClientHello : Bool
  hasServerHello : Bool
  sni : Bytes
  clientVersion : UInt16
  offeredSigs : List UInt16
  negVersion : UInt16
  cipherSuite : UInt16
  group : UInt16
deriving DecidableEq

def Info.facts (i : Info) : Facts :=
  ⟨i.hasClientHello, i.hasServerHello, i.sni, i.clientVersion, i.offeredSigs, i.negVersion,
    i.cipherSuite, i.group⟩

/-- `e` is a product of effects of growing client and server buffers, `a` and `b` being the last
of each. The version is the server's unless the server has none yet; while the server's is still 0
a client may fill it, so nothing is said then. -/
structure Folded (a b e : Effect) : Prop where
  hasClientHello : e.hasClientHello = a.hasClientHello
  sni : e.sni = a.sni
  clientVersion : e.clientVersion = a.clientVersion
  offeredSigs : e.offeredSigs = a.offeredSigs
  hasServerHello : e.hasServerHello = b.hasServerHello
  cipherSuite : e.cipherSuite = b.cipherSuite
  group : e.group = b.group
  negVersion : (b.negVersion = .keep ∧ e.negVersion = a.negVersion) ∨
    ∃ v, b.negVersion = .put v ∧ (v ≠ 0 → e.negVersion = .put v)

namespace Folded
variable {a a' b b' e : Effect}

theorem one : Folded 1 1 1 := ⟨rfl, rfl, rfl, rfl, rfl, rfl, rfl, .inl ⟨rfl, rfl⟩⟩

theorem client (h : Folded a b e) (ha : a * a' = a') (hmem : a' ∈ clientSide) :
    Folded a' b (e * a') := by
  obtain ⟨h₁, h₂, h₃, h₄⟩ := hmem
  refine ⟨?_, ?_, ?_, ?_, ?_, ?_, ?_, ?_⟩
  · exact (congrArg (· * _) h.hasClientHello).trans (congrArg Effect.hasClientHello ha)
  · exact (congrArg (· * _) h.sni).trans (congrArg Effect.sni ha)
  · exact (congrArg (· * _) h.clientVersion).trans (congrArg Effect.clientVersion ha)
  · exact (congrArg (· * _) h.offeredSigs).trans (congrArg Effect.offeredSigs ha)
  · change e.hasServerHello * a'.hasServerHello = _
    rw [h₁, Slot.mul_keep, h.hasServerHello]
  · change e.cipherSuite * a'.cipherSuite = _
    rw [h₂, Slot.mul_keep, h.cipherSuite]
  · change e.group * a'.group = _
    rw [h₃, Slot.mul_keep, h.group]
  · rcases h.negVersion with ⟨hb, he⟩ | ⟨v, hb, he⟩
    · exact .inl ⟨hb, (congrArg (· * _) he).trans (congrArg Effect.negVersion ha)⟩
    · refine .inr ⟨v, hb, fun hv => ?_⟩
      -- a client only fills, and the version is already set
      change e.negVersion * a'.negVersion = _
      rw [he hv]
      cases hn : a'.negVersion with
      | keep => rfl
      | put u => exact absurd hn (h₄ u)
      | fill u => exact congrArg Slot.put (Slot.orElse_of_ne hv u)

theorem server (h : Folded a b e) (hb : b * b' = b') (hmem : b' ∈ serverSide) :
    Folded a b' (e * b') := by
  obtain ⟨h₁, h₂, h₃, h₄, h₅⟩ := hmem
  refine ⟨?_, ?_, ?_, ?_, ?_, ?_, ?_, ?_⟩
  · change e.hasClientHello * b'.hasClientHello = _
    rw [h₁, Slot.mul_keep, h.hasClientHello]
  · change e.sni * b'.sni = _
    rw [h₂, Slot.mul_keep, h.sni]
  · change e.clientVersion * b'.clientVersion = _
    rw [h₃, Slot.mul_keep, h.clientVersion]
  · change e.offeredSigs * b'.offeredSigs = _
    rw [h₄, Slot.mul_keep, h.offeredSigs]
  · exact (congrArg (· * _) h.hasServerHello).trans (congrArg Effect.hasServerHello hb)
  · exact (congrArg (· * _) h.cipherSuite).trans (congrArg Effect.cipherSuite hb)
  · exact (congrArg (· * _) h.group).trans (congrArg Effect.group hb)
  · rcases h₅ with ⟨-, hn⟩ | ⟨-, v, hn⟩
    · have hbn : b.negVersion * b'.negVersion = .keep :=
        (congrArg Effect.negVersion hb).trans hn
      have hbk : b.negVersion = .keep := Slot.eq_keep_of_mul_eq_keep hbn
      rcases h.negVersion with ⟨-, he⟩ | ⟨v, hv, -⟩
      · refine .inl ⟨hn, ?_⟩
        change e.negVersion * b'.negVersion = _
        rw [hn, Slot.mul_keep, he]
      · rw [hbk] at hv
        cases hv
    · refine .inr ⟨v, hn, fun _ => ?_⟩
      change e.negVersion * b'.negVersion = _
      rw [hn, Slot.mul_put]

/-- Once the server's version is settled, the facts are those of one client parse followed by one
server parse. -/
theorem facts_eq (h : Folded a b e) (ha : a ∈ clientSide) (hb : b ∈ serverSide)
    (hneg : (b.apply {}).hasServerHello = false ∨ (b.apply {}).negVersion ≠ 0) :
    (e.apply {}).facts = (b.apply (a.apply {})).facts := by
  obtain ⟨ha₁, ha₂, ha₃, -⟩ := ha
  obtain ⟨hb₁, hb₂, hb₃, hb₄, hb₅⟩ := hb
  have hversion : e.negVersion.apply 0 = b.negVersion.apply (a.negVersion.apply 0) := by
    rcases h.negVersion with ⟨hk, he⟩ | ⟨v, hv, he⟩
    · rw [he, hk]
      rfl
    · have hne : v ≠ 0 := by
        rcases hb₅ with ⟨-, hk⟩ | ⟨hflag, -⟩
        · rw [hv] at hk
          cases hk
        · rcases hneg with hneg | hneg
          · change b.hasServerHello.apply false = false at hneg
            rw [hflag] at hneg
            cases hneg
          · change b.negVersion.apply 0 ≠ 0 at hneg
            rwa [hv] at hneg
      rw [he hne, hv]
      rfl
  unfold Info.facts
  change Facts.mk (e.hasClientHello.apply false) (e.hasServerHello.apply false) (e.sni.apply [])
      (e.clientVersion.apply 0) (e.offeredSigs.apply []) (e.negVersion.apply 0)
      (e.cipherSuite.apply 0) (e.group.apply 0) =
    Facts.mk (b.hasClientHello.apply (a.hasClientHello.apply false))
      (b.hasServerHello.apply (a.hasServerHello.apply false)) (b.sni.apply (a.sni.apply []))
      (b.clientVersion.apply (a.clientVersion.apply 0))
      (b.offeredSigs.apply (a.offeredSigs.apply []))
      (b.negVersion.apply (a.negVersion.apply 0))
      (b.cipherSuite.apply (a.cipherSuite.apply 0)) (b.group.apply (a.group.apply 0))
  rw [hversion, h.hasClientHello, h.sni, h.clientVersion, h.offeredSigs, h.hasServerHello,
    h.cipherSuite, h.group, ha₁, ha₂, ha₃, hb₁, hb₂, hb₃, hb₄]
  rfl

end Folded
end Tlstat.Tlsparse
