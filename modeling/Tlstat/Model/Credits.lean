import Tlstat.Model.Finality

/-! Where the plaintext totals come from. Each turn of a stats poll charges one entry of its snapshot
to the connection it resolves to, and a row that no close event has settled shows what the last poll
that found it live charged it with, whatever else came in between. -/

namespace Tlstat.Model
open Base Loader Tlsparse
namespace Store
variable {s : Store} {x509 : X509} {k : UInt64} {c : Conn} {o : ℕ} {p : SSLStat × View}
variable {ps : List (SSLStat × View)} {op : Op}

/-! ### One poll -/

/-- A turn adds what it charges. -/
theorem credit_totals (h : (s.credit p).conns[k]? = some c) : ∃ d, s.conns[k]? = some d ∧
    c.obj = d.obj ∧ c.plainFinal = d.plainFinal ∧
    c.totals = (d.totals.1 + (charge d.obj s p).1, d.totals.2 + (charge d.obj s p).2) := by
  rw [credit_get] at h
  split_ifs at h with hres
  · obtain ⟨d, hd, rfl⟩ := Option.map_eq_some_iff.mp h
    refine ⟨d, hd, (Conn.keeps_accumulate _ _ d).1, accumulate_plainFinal _ _, ?_⟩
    have hkeyed : s.conns[d.sock]? = some d := (s.keyed k d hd).symm ▸ hd
    have hobj : (s.resolve p.2 p.1.pid p.1.fd).1.map Conn.obj = some d.obj :=
      (resolve_sock_iff hkeyed).mp ((s.keyed k d hd).symm ▸ hres)
    unfold charge
    rw [accumulate_totals, if_pos hobj]
  · refine ⟨c, h, rfl, rfl, ?_⟩
    have hkeyed : s.conns[c.sock]? = some c := (s.keyed k c h).symm ▸ h
    have hobj : ¬(s.resolve p.2 p.1.pid p.1.fd).1.map Conn.obj = some c.obj := by
      rw [← resolve_sock_iff hkeyed, s.keyed k c h]
      exact hres
    unfold charge
    rw [if_neg hobj, UInt64.add_zero, UInt64.add_zero]

theorem foldl_credit_totals (h : (ps.foldl credit s).conns[k]? = some c) : ∃ d, s.conns[k]? = some d ∧
    c.obj = d.obj ∧ c.plainFinal = d.plainFinal ∧
    c.totals = (d.totals.1 + (charged d.obj s ps).1, d.totals.2 + (charged d.obj s ps).2) := by
  induction ps generalizing s with
  | nil =>
    refine ⟨c, h, rfl, rfl, ?_⟩
    unfold charged
    rw [UInt64.add_zero, UInt64.add_zero]
  | cons p ps ih =>
    obtain ⟨d, hd, hobj, hfinal, htotals⟩ := ih h
    obtain ⟨d', hd', hobj', hfinal', htotals'⟩ := credit_totals hd
    refine ⟨d', hd', hobj.trans hobj', hfinal.trans hfinal', ?_⟩
    rw [htotals, htotals', hobj', UInt64.add_assoc, UInt64.add_assoc]
    rfl

/-- What a poll charges the object `o` with. -/
def pollCharges (s : Store) (stats : List (SSLStat × View)) (o : ℕ) : UInt64 × UInt64 :=
  charged o (s.mapConns Conn.zeroPlain Conn.keeps_zeroPlain) stats

/-- After a poll a connection that is not final shows what the poll charged it with. -/
theorem updateSSLStats_totals (h : (s.updateSSLStats ps).conns[k]? = some c)
    (hopen : c.plainFinal = false) :
    ∃ d, s.conns[k]? = some d ∧ c.obj = d.obj ∧ c.totals = s.pollCharges ps c.obj := by
  obtain ⟨d, hd, hobj, hfinal, htotals⟩ := foldl_credit_totals h
  rw [mapConns_get] at hd
  obtain ⟨d', hd', rfl⟩ := Option.map_eq_some_iff.mp hd
  refine ⟨d', hd', hobj.trans (Conn.keeps_zeroPlain d').1, ?_⟩
  have hzero : d'.zeroPlain.totals = (0, 0) := by
    have hopen' := hfinal.symm.trans hopen
    unfold Conn.zeroPlain at hopen' ⊢
    split_ifs at hopen' ⊢ with hfin
    · rw [hfin] at hopen'
      cases hopen'
    · rfl
  rw [htotals, hzero, hobj, UInt64.zero_add, UInt64.zero_add]
  rfl

/-! ### Every run -/

/-- The objects that are live. -/
def liveObjects (s : Store) : List ℕ := s.conns.toList.map fun p => p.2.obj

theorem mem_liveObjects :
    o ∈ s.liveObjects ↔ ∃ (k : UInt64) (c : Conn), s.conns[k]? = some c ∧ c.obj = o := by
  unfold liveObjects
  rw [List.mem_map]
  constructor
  · rintro ⟨p, hp, rfl⟩
    exact ⟨p.1, p.2, Table.mem_toList.mp hp, rfl⟩
  · rintro ⟨k, c, hc, rfl⟩
    exact ⟨(k, c), Table.mem_toList.mpr hc, rfl⟩

/-- The store, and for each object what the last poll that found it live charged it with. -/
def billed (x509 : X509) (r : Store × (ℕ → UInt64 × UInt64)) (op : Op) : Store × (ℕ → UInt64 × UInt64) :=
  (r.1.step x509 op,
    match op with
    | .updateSSLStats stats => fun o => if o ∈ r.1.liveObjects then r.1.pollCharges stats o else r.2 o
    | _ => r.2)

/-- The rows that are not final show their bill, and nothing is on the bill of an object to come. -/
structure Billed (r : Store × (ℕ → UInt64 × UInt64)) : Prop where
  rows : r.1.All fun c => c.plainFinal = false → c.totals = r.2 c.obj
  unmade : ∀ o, r.1.next ≤ o → r.2 o = (0, 0)

theorem steady_billed (bill : ℕ → UInt64 × UInt64) :
    Steady fun c => c.plainFinal = false → c.totals = bill c.obj where
  reconcile := fun _ _ _ h => h
  applyWire := fun _ _ _ h =>
    Conn.applyWire_frame (P := fun c => c.plainFinal = false → c.totals = bill c.obj) fun _ _ _ _ _ => h
  retired := fun _ _ h => h

theorem Billed.updateSSLStats {bill : ℕ → UInt64 × UInt64} (h : Billed (s, bill))
    (stats : List (SSLStat × View)) : Billed (billed x509 (s, bill) (.updateSSLStats stats)) := by
  refine ⟨?_, fun o ho => ?_⟩
  · rintro c (hc | hc) hopen
    · -- a live one is charged afresh
      obtain ⟨d, hd, hobj, htotals⟩ := updateSSLStats_totals hc hopen
      have hlive : c.obj ∈ s.liveObjects := mem_liveObjects.mpr ⟨_, d, hd, hobj.symm⟩
      exact htotals.trans (if_pos hlive).symm
    · -- a retired connection is charged no more
      have hlog : c ∈ s.log := updateSSLStats_log ▸ hc
      have hgone : c.obj ∉ s.liveObjects := by
        intro hlive
        obtain ⟨k, d, hd, hobj⟩ := mem_liveObjects.mp hlive
        exact s.log_ne c hlog k d hd hobj.symm
      exact (h.rows c (.inr hlog) hopen).trans (if_neg hgone).symm
  · have hunmade : s.next ≤ o := updateSSLStats_next.symm.trans_le ho
    have hgone : o ∉ s.liveObjects := by
      intro hlive
      obtain ⟨k, d, hd, rfl⟩ := mem_liveObjects.mp hlive
      exact hunmade.not_gt (s.live_lt k d hd)
    exact (if_neg hgone).trans (h.unmade o hunmade)

theorem Billed.step {bill : ℕ → UInt64 × UInt64} (h : Billed (s, bill)) (op : Op) :
    Billed (billed x509 (s, bill) op) := by
  have hlater : ∀ o, (s.step x509 op).next ≤ o → bill o = (0, 0) :=
    fun o ho => h.unmade o (next_le_step.trans ho)
  have hnew : ∀ o ≥ s.next, ∀ (k : UInt64) (now : Time), false = false →
      Conn.totals { obj := o, sock := k, firstSeen := now } = bill o :=
    fun o ho _ _ _ => (h.unmade o ho).symm
  cases op with
  | updateFlows v flows => exact ⟨h.rows.updateFlows (steady_billed bill) hnew, hlater⟩
  | applyWire now w => exact ⟨h.rows.applyWire (steady_billed bill) hnew, hlater⟩
  | applyData d => exact ⟨h.rows.applyData, hlater⟩
  | applyClose v e =>
    -- the row that the event settles is final, and the others stay
    refine ⟨h.rows.applyClose fun smp c _ hopen => ?_, hlater⟩
    have hfinal : (c.finalize e smp).plainFinal = true := by
      cases smp <;> rfl
    exact absurd (hfinal.symm.trans hopen) (by decide)
  | updateSSLStats stats => exact h.updateSSLStats stats

/-- **Totals are what the last snapshot charged.** In every run of the store, with `/proc` changing at
will, the plaintext totals of every live or retired connection that no close event has settled are,
modulo `2 ^ 64`, the sums over the entries that the turns of one stats poll resolved to it: of the last
one applied while it was live. They are zero if there was none. Nothing else that happens changes them,
and as a turn resolves to one connection at most, no entry is counted in two rows. -/
theorem totals_billed (x509 : X509) (maxHistory peekBytes : ℤ) (ops : List Op) (c : Conn)
    (hc : ((new maxHistory peekBytes).run x509 ops).Holds c) (hopen : c.plainFinal = false) :
    c.totals = (ops.foldl (billed x509) (new maxHistory peekBytes, fun _ => (0, 0))).2 c.obj := by
  have hbilled : Billed (ops.foldl (billed x509) (new maxHistory peekBytes, fun _ => (0, 0))) := by
    refine foldl_invariant (p := fun _ => True) (fun r op _ hr => hr.step op) (fun _ _ => trivial) ?_
    exact ⟨fun c hc => absurd hc.lt_next (Nat.not_lt_zero _), fun _ _ => rfl⟩
  have hstore : (ops.foldl (billed x509) (new maxHistory peekBytes, fun _ => (0, 0))).1 =
      (new maxHistory peekBytes).run x509 ops := (List.foldl_hom Prod.fst fun _ _ => rfl).symm
  exact hbilled.rows c (hstore.symm ▸ hc) hopen

/-- Two sessions of one connection; then one of them alone, before the connection is retired; and a
snapshot that comes too late. -/
def lateSnapshot : List Op :=
  [.updateFlows (.blind 0) [openFlow],
    .updateSSLStats [(staleStat, .blind 0), ({ staleStat with ssl := 32, ptx := 5 }, .blind 0)],
    .updateSSLStats [({ staleStat with ptx := 120 }, .blind 0)],
    .updateFlows (.blind 1) [{ openFlow with closed := true }],
    .updateFlows (.blind 2) [],
    .updateSSLStats [(staleStat, .blind 2)]]

theorem totals_billed_lateSnapshot : ∃ c ∈ ((new 500 8192).run (fun _ => none) lateSnapshot).log,
    c.totals = (lateSnapshot.foldl (billed fun _ => none) (new 500 8192, fun _ => (0, 0))).2 c.obj ∧
    c.totals = (120, 200) := by
  have hlog : ((new 500 8192).run (fun _ => none) lateSnapshot).log.map
      (fun c => (c.plainFinal, c.totals)) = [(false, 120, 200)] := by decide +kernel
  obtain ⟨c, hc, hval⟩ : ∃ c ∈ ((new 500 8192).run (fun _ => none) lateSnapshot).log,
      (c.plainFinal, c.totals) = (false, 120, 200) := by
    apply List.mem_map.mp
    rw [hlog]
    exact List.mem_cons_self
  refine ⟨c, hc, ?_, congrArg Prod.snd hval⟩
  exact totals_billed (fun _ => none) 500 8192 lateSnapshot c (.inr hc) (congrArg Prod.fst hval)

end Store
end Tlstat.Model
