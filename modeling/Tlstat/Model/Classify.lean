import Tlstat.Model.Commute
import Tlstat.Model.SockReuse

/-! The "pre-existing" mark is derived from `IsTLS` and the hello flags, in two places. It stays
what they say, and none of the flags it is derived from comes down again. -/

namespace Tlstat.Model
open Base Loader Tlsparse

/-- `Preexisting` says TLS without a hello, and a hello says TLS. -/
structure Classified (c : Conn) : Prop where
  preexisting_iff : c.preexisting = true ↔
    c.isTLS = true ∧ ¬c.info.hasClientHello = true ∧ ¬c.info.hasServerHello = true
  isTLS : c.info.hasClientHello = true ∨ c.info.hasServerHello = true → c.isTLS = true

/-- The flags of `c` are still up in `d`. -/
structure FlagsUp (c d : Conn) : Prop where
  isTLS : c.isTLS = true → d.isTLS = true
  info : c.info.UpIn d.info

theorem classified_iff {c : Conn} : Classified c ↔
    c.preexisting = (c.isTLS && !c.info.hello) ∧ (c.info.hello = true → c.isTLS = true) := by
  have hand : (c.isTLS && !c.info.hello) = true ↔
      c.isTLS = true ∧ ¬c.info.hasClientHello = true ∧ ¬c.info.hasServerHello = true := by
    unfold Info.hello
    rw [Bool.and_eq_true, Bool.not_eq_true', Bool.or_eq_false_iff, Bool.not_eq_true,
      Bool.not_eq_true]
  have hiff : (c.preexisting = true ↔
      c.isTLS = true ∧ ¬c.info.hasClientHello = true ∧ ¬c.info.hasServerHello = true) ↔
        c.preexisting = (c.isTLS && !c.info.hello) := by
    rw [← hand]
    exact Bool.eq_iff_iff.symm
  have hhello : (c.info.hasClientHello = true ∨ c.info.hasServerHello = true → c.isTLS = true) ↔
      (c.info.hello = true → c.isTLS = true) := by
    unfold Info.hello
    rw [Bool.or_eq_true]
  exact ⟨fun h => ⟨hiff.mp h.1, hhello.mp h.2⟩, fun h => ⟨hiff.mpr h.1, hhello.mpr h.2⟩⟩

namespace Conn
variable {x509 : X509} {c d : Conn} {w : WireEvent}

theorem applyWire_isTLS : (c.applyWire x509 w).isTLS =
    ((c.applyWire x509 w).info.hello || c.isTLS) := congrArg Conn.isTLS applyWire_flags

theorem applyWire_preexisting : (c.applyWire x509 w).preexisting =
    (!(c.applyWire x509 w).info.hello && c.preexisting) :=
  congrArg Conn.preexisting applyWire_flags

theorem classified_reconcile (f : Flow) (now : Time) (h : Classified c) :
    Classified (c.reconcile f now) := by
  rw [classified_iff] at h ⊢
  refine ⟨reconcile_preexisting, fun hh => ?_⟩
  change (f.isTLS || c.isTLS) = true
  rw [h.2 hh, Bool.or_true]

theorem classified_applyWire (x509 : X509) (w : WireEvent) (h : Classified c) :
    Classified (c.applyWire x509 w) := by
  rw [classified_iff] at h ⊢
  rw [applyWire_isTLS, applyWire_preexisting, h.1]
  have hup : c.info.hello = true → (c.applyWire x509 w).info.hello = true := applyWire_hello
  cases hnew : (c.applyWire x509 w).info.hello
  · have hold : c.info.hello = false :=
      Bool.eq_false_iff.mpr fun hh => Bool.false_ne_true (hnew.symm.trans (hup hh))
    simp [hold]
  · simp

theorem flagsUp_applyWire (x509 : X509) (w : WireEvent) (h : FlagsUp c d) :
    FlagsUp c (d.applyWire x509 w) := by
  have hinfo : d.info.UpIn (d.applyWire x509 w).info := by
    rw [applyWire_info]
    exact parse_upIn x509 _ d.info
  refine ⟨fun hc => ?_, h.info.trans hinfo⟩
  rw [applyWire_isTLS, h.isTLS hc, Bool.or_true]

end Conn

/-- What the plaintext side of the store leaves alone. -/
theorem kept_of_steady {P : Conn → Prop} (hP : Steady P)
    (hcore : ∀ c d : Conn, c.obj = d.obj → c.isTLS = d.isTLS → c.preexisting = d.preexisting →
      c.info = d.info → (P c ↔ P d)) : Kept P where
  toSteady := hP
  finalize := by
    intro e smp c hc
    cases smp <;> refine (hcore c _ ?_ ?_ ?_ ?_).mp hc <;> rfl
  zeroPlain := by
    intro c hc
    unfold Conn.zeroPlain
    split_ifs
    · exact hc
    · refine (hcore c _ ?_ ?_ ?_ ?_).mp hc <;> rfl
  accumulate := by
    intro st smp c hc
    cases smp <;> refine (hcore c _ ?_ ?_ ?_ ?_).mp hc <;> rfl

theorem kept_classified : Kept Classified := by
  refine kept_of_steady ⟨fun f now c => c.classified_reconcile f now,
    fun x509 w c => c.classified_applyWire x509 w, fun now c hc => ⟨hc.1, hc.2⟩⟩ ?_
  intro c d _ htls hpre hinfo
  rw [classified_iff, classified_iff, htls, hpre, hinfo]

theorem kept_flagsUp (c : Conn) : Kept fun d => d.obj = c.obj ∧ FlagsUp c d := by
  refine kept_of_steady ⟨?_, ?_, fun now d hd => ⟨hd.1, hd.2.1, hd.2.2⟩⟩ ?_
  · intro f now d hd
    refine ⟨hd.1, fun hc => ?_, hd.2.info⟩
    change (f.isTLS || d.isTLS) = true
    rw [hd.2.isTLS hc, Bool.or_true]
  · intro x509 w d hd
    exact ⟨(Conn.keeps_applyWire x509 w d).1.trans hd.1, Conn.flagsUp_applyWire x509 w hd.2⟩
  · intro d d' hobj htls _ hinfo
    have hup : FlagsUp c d ↔ FlagsUp c d' := by
      constructor
      · intro h
        exact ⟨htls ▸ h.isTLS, hinfo ▸ h.info⟩
      · intro h
        exact ⟨htls.symm ▸ h.isTLS, hinfo.symm ▸ h.info⟩
    rw [hobj, hup]

namespace Store
variable {s : Store} {x509 : X509} {op : Op} {ops : List Op} {P : Conn → Prop}

theorem All.step_kept (hP : Kept P) (hnew : ∀ o k now, P { obj := o, sock := k, firstSeen := now })
    (h : s.All P) : (s.step x509 op).All P := by
  cases op with
  | updateFlows v flows => exact h.updateFlows hP.toSteady fun o _ => hnew o
  | applyWire now w => exact h.applyWire hP.toSteady fun o _ => hnew o
  | applyData d => exact h.applyData
  | applyClose v e => exact h.applyClose (hP.finalize e)
  | updateSSLStats stats => exact h.updateSSLStats hP.zeroPlain hP.accumulate

theorem All.run_kept (hP : Kept P) (hnew : ∀ o k now, P { obj := o, sock := k, firstSeen := now })
    (h : s.All P) : (s.run x509 ops).All P :=
  foldl_invariant (I := fun s : Store => s.All P) (p := fun _ => True)
    (fun _ _ _ hs => hs.step_kept hP hnew) (fun _ _ => trivial) h

theorem Some.run_kept {k : UInt64} (hP : Kept P) (h : s.Some k P) : (s.run x509 ops).Some k P :=
  foldl_invariant (I := fun s : Store => s.Some k P) (p := fun _ => True)
    (fun _ _ _ hs => hs.step hP) (fun _ _ => trivial) h

/-- **The classification is what the flags say, and the flags only go up.** -/
theorem classification (x509 : X509) (maxHistory peekBytes : ℤ) (ops : List Op) :
    ((new maxHistory peekBytes).run x509 ops).All Classified ∧
    ∀ later c, ((new maxHistory peekBytes).run x509 ops).Holds c →
      ∃ d, ((new maxHistory peekBytes).run x509 (ops ++ later)).Holds d ∧ d.obj = c.obj ∧
        FlagsUp c d ∧
        ∀ d', ((new maxHistory peekBytes).run x509 (ops ++ later)).Holds d' → d'.obj = c.obj →
          d' = d := by
  constructor
  · have hfresh : ∀ o k now, Classified { obj := o, sock := k, firstSeen := now } := by
      intro o k now
      rw [classified_iff]
      exact ⟨rfl, fun h => absurd h Bool.false_ne_true⟩
    refine All.run_kept kept_classified hfresh fun c hc => ?_
    exact absurd hc.lt_next (Nat.not_lt_zero _)
  · intro later c hc
    have hrun : (new maxHistory peekBytes).run x509 (ops ++ later) =
        ((new maxHistory peekBytes).run x509 ops).run x509 later := List.foldl_append
    rw [hrun]
    have hsome : ((new maxHistory peekBytes).run x509 ops).Some c.sock fun d =>
        d.obj = c.obj ∧ FlagsUp c d := ⟨c, hc, rfl, rfl, id, .refl c.info⟩
    have hlater : (((new maxHistory peekBytes).run x509 ops).run x509 later).Some c.sock fun d =>
        d.obj = c.obj ∧ FlagsUp c d := hsome.run_kept (kept_flagsUp c)
    obtain ⟨d, hd, -, hobj, hup⟩ := hlater
    exact ⟨d, hd, hobj, hup, fun d' hd' ho => hd'.unique hd (ho.trans hobj.symm)⟩

end Store
end Tlstat.Model
