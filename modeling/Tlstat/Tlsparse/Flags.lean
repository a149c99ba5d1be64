import Tlstat.Tlsparse.Sides

/-! The parser raises flags and never takes one down. -/

namespace Tlstat.Tlsparse
open Base

/-- A write to a flag that can only raise it. -/
def Raises (s : Slot Bool) : Prop := s = .keep ∨ s = .put true

theorem Raises.mul {s t : Slot Bool} (hs : Raises s) (ht : Raises t) : Raises (s * t) := by
  rcases ht with rfl | rfl
  · rwa [Slot.mul_keep]
  · rw [Slot.mul_put]
    exact .inr rfl

theorem Raises.apply {s : Slot Bool} (hs : Raises s) {x : Bool} (hx : x = true) :
    s.apply x = true := by
  rcases hs with rfl | rfl
  · exact hx
  · rfl

/-- Effects that take none of the three flags down. -/
def raising : Submonoid Effect where
  carrier := { e | Raises e.hasClientHello ∧ Raises e.hasServerHello ∧ Raises e.hasCert }
  one_mem' := ⟨.inl rfl, .inl rfl, .inl rfl⟩
  mul_mem' := fun ha hb => ⟨ha.1.mul hb.1, ha.2.1.mul hb.2.1, ha.2.2.mul hb.2.2⟩

theorem extensionsEffect_mem_raising (server : Bool) (es : List (UInt16 × Bytes)) :
    extensionsEffect server es ∈ raising := by
  refine Submonoid.list_prod_mem _ ?_
  intro e he
  obtain ⟨x, -, rfl⟩ := List.mem_map.mp he
  unfold extensionEffect
  split_ifs <;> exact ⟨.inl rfl, .inl rfl, .inl rfl⟩

theorem clientHelloEffect_mem_raising (b : Bytes) : clientHelloEffect b ∈ raising := by
  unfold clientHelloEffect
  rcases (Reader.start b).u16 with _ | ⟨ver, r⟩
  · exact raising.one_mem
  · exact raising.mul_mem ⟨.inr rfl, .inl rfl, .inl rfl⟩ (extensionsEffect_mem_raising _ _)

theorem serverHelloRest_mem_raising (r : Reader) : (serverHelloRest r).1 ∈ raising := by
  unfold serverHelloRest
  rcases serverWalk r with _ | ⟨cs, _ | es⟩
  · exact raising.one_mem
  · exact ⟨.inl rfl, .inl rfl, .inl rfl⟩
  · exact raising.mul_mem ⟨.inl rfl, .inl rfl, .inl rfl⟩ (extensionsEffect_mem_raising _ _)

theorem serverHelloEffect_mem_raising (b : Bytes) : serverHelloEffect b ∈ raising := by
  rcases hu : (Reader.start b).u16 with _ | ⟨ver, r⟩
  · unfold serverHelloEffect
    rw [hu]
    exact raising.one_mem
  · obtain ⟨v, hv⟩ := serverHelloEffect_eq hu
    have hset : ({ hasServerHello := .put true, negVersion := .put ver } : Effect) ∈ raising :=
      ⟨.inl rfl, .inr rfl, .inl rfl⟩
    rw [hv]
    -- the upgrade rewrites the version alone
    exact raising.mul_mem hset (serverHelloRest_mem_raising r)

theorem certificateEffect_mem_raising (x509 : X509) (b : Bytes) :
    certificateEffect x509 b ∈ raising := by
  unfold certificateEffect
  dsimp only
  split_ifs
  · exact raising.one_mem
  · exact raising.one_mem
  · rcases (Reader.start b).u24D.2.u24D.2.bytes (Reader.start b).u24D.2.u24D.1.toNat with
      _ | ⟨_ | ⟨d, ds⟩, q⟩
    · exact raising.one_mem
    · exact raising.one_mem
    · dsimp only
      rcases x509 (d :: ds) with _ | cert
      · exact raising.one_mem
      · exact ⟨.inl rfl, .inl rfl, .inr rfl⟩

theorem effect_mem_raising (x509 : X509) (buf : Bytes) : effect x509 buf ∈ raising := by
  refine Submonoid.list_prod_mem _ ?_
  intro e he
  obtain ⟨m, -, rfl⟩ := List.mem_map.mp he
  unfold messageEffect
  split_ifs
  · exact clientHelloEffect_mem_raising m.2
  · exact serverHelloEffect_mem_raising m.2
  · exact certificateEffect_mem_raising x509 m.2
  · exact raising.one_mem

/-- What is up in `i` is up in `j`. -/
structure Info.UpIn (i j : Info) : Prop where
  clientHello : i.hasClientHello = true → j.hasClientHello = true
  serverHello : i.hasServerHello = true → j.hasServerHello = true
  cert : i.hasCert = true → j.hasCert = true

theorem Info.UpIn.refl (i : Info) : i.UpIn i := ⟨id, id, id⟩

theorem Info.UpIn.trans {i j k : Info} (h : i.UpIn j) (h' : j.UpIn k) : i.UpIn k :=
  ⟨fun hi => h'.1 (h.1 hi), fun hi => h'.2 (h.2 hi), fun hi => h'.3 (h.3 hi)⟩

/-- **No input takes a flag down.** -/
theorem parse_upIn (x509 : X509) (buf : Bytes) (i : Info) : i.UpIn (parse x509 buf i) := by
  rw [parse_eq_effect]
  obtain ⟨hc, hs, hcert⟩ := effect_mem_raising x509 buf
  exact ⟨hc.apply, hs.apply, hcert.apply⟩

/-- The condition both halves of the store test: some hello was seen. -/
def Info.hello (i : Info) : Bool := i.hasClientHello || i.hasServerHello

theorem Info.UpIn.hello {i j : Info} (h : i.UpIn j) (hi : i.hello = true) : j.hello = true := by
  unfold Info.hello at hi ⊢
  rw [Bool.or_eq_true] at hi ⊢
  exact hi.imp h.clientHello h.serverHello

end Tlstat.Tlsparse
