import Tlstat.Model.Track

/-! Whether totals finalized by a close event stay as they are. -/

namespace Tlstat.Model
open Base Loader Tlsparse

def Op.IsClose : Op → Prop
  | .applyClose _ _ => True
  | _ => False

namespace Store
variable {s : Store} {k : UInt64} {v : View} {e : CloseEvent} {x509 : X509} {o : ℕ} {c : Conn}
  {op : Op} {ops : List Op} {p : SSLStat × View} {ps : List (SSLStat × View)}

/-- What one turn of the accumulation loop adds to the totals of the object `o`. -/
def charge (o : ℕ) (s : Store) (p : SSLStat × View) : UInt64 × UInt64 :=
  if (s.resolve p.2 p.1.pid p.1.fd).1.map Conn.obj = some o then (p.1.ptx, p.1.prx) else (0, 0)

def charged (o : ℕ) : Store → List (SSLStat × View) → UInt64 × UInt64
  | _, [] => (0, 0)
  | s, p :: ps =>
    ((charge o s p).1 + (charged o (s.credit p) ps).1,
      (charge o s p).2 + (charged o (s.credit p) ps).2)

/-- No bytes of an applied snapshot are charged to the object `o`. -/
def Quiet (o : ℕ) (s : Store) : Op → Prop
  | .updateSSLStats stats => charged o (s.mapConns Conn.zeroPlain Conn.keeps_zeroPlain) stats = (0, 0)
  | _ => True

/-- The object `o`, of socket `k`, is finalized and shows the totals `t`. -/
def Final (k : UInt64) (o : ℕ) (t : UInt64 × UInt64) (s : Store) : Prop :=
  s.Some k fun c => c.obj = o ∧ c.plainFinal = true ∧ c.totals = t

theorem steady_final (o : ℕ) (t : UInt64 × UInt64) :
    Steady fun c => c.obj = o ∧ c.plainFinal = true ∧ c.totals = t where
  reconcile := fun _ _ _ h => h
  applyWire := fun _ _ _ h =>
    Conn.applyWire_frame (P := fun c => c.obj = o ∧ c.plainFinal = true ∧ c.totals = t)
      fun _ _ _ _ _ => h
  retired := fun _ _ h => h

theorem resolve_sock_iff (hc : s.conns[c.sock]? = some c) {pid : UInt32} {fd : Int32} :
    (s.resolve v pid fd).1.map Conn.sock = some c.sock ↔
      (s.resolve v pid fd).1.map Conn.obj = some c.obj := by
  cases hr : (s.resolve v pid fd).1 with
  | none => simp
  | some d =>
    have hd := resolve_live hr
    simp only [Option.map_some, Option.some.injEq]
    constructor
    · intro hk
      rw [hk, hc] at hd
      rw [Option.some.inj hd]
    · intro ho
      exact s.live_inj _ _ _ _ hd hc ho

theorem charge_of_mem_log (hc : c ∈ s.log) : charge c.obj s p = (0, 0) := by
  unfold charge
  rw [if_neg]
  intro h
  obtain ⟨d, hd, ho⟩ := Option.map_eq_some_iff.mp h
  exact s.log_ne c hc _ d (resolve_live hd) ho.symm

theorem accumulate_totals (smp : Option Sample) (st : SSLStat) :
    (Conn.accumulate st smp c).totals = (c.totals.1 + st.ptx, c.totals.2 + st.prx) := by
  cases smp <;> rfl

theorem accumulate_plainFinal (smp : Option Sample) (st : SSLStat) :
    (Conn.accumulate st smp c).plainFinal = c.plainFinal := by
  cases smp <;> rfl

theorem Final.credit {t : UInt64 × UInt64} (h : s.Final k o t) :
    (s.credit p).Final k o (t.1 + (charge o s p).1, t.2 + (charge o s p).2) := by
  obtain ⟨c, hc | hc, rfl, rfl, hfin, rfl⟩ := h
  · have hget := credit_get (s := s) (p := p) (k := c.sock)
    rw [hc, Option.map_some] at hget
    unfold charge
    split_ifs at hget with hk
    · rw [if_pos ((resolve_sock_iff hc).mp hk)]
      refine ⟨_, holds_of_live hget, (Conn.keeps_accumulate _ _ c).2, (Conn.keeps_accumulate _ _ c).1,
        (accumulate_plainFinal _ _).trans hfin, accumulate_totals _ _⟩
    · rw [if_neg (mt (resolve_sock_iff hc).mpr hk)]
      exact ⟨c, .inl hget, rfl, rfl, hfin, by simp⟩
  · rw [charge_of_mem_log hc]
    exact ⟨c, .inr (credit_log.symm ▸ hc), rfl, rfl, hfin, by simp⟩

theorem Final.foldl_credit {t : UInt64 × UInt64} (h : s.Final k o t) :
    (ps.foldl Store.credit s).Final k o (t.1 + (charged o s ps).1, t.2 + (charged o s ps).2) := by
  induction ps generalizing s t with
  | nil => simpa [charged] using h
  | cons p ps ih =>
    have hrest := ih (h.credit (p := p))
    rw [UInt64.add_assoc, UInt64.add_assoc] at hrest
    exact hrest

theorem Final.zeroPlain {t : UInt64 × UInt64} (h : s.Final k o t) :
    (s.mapConns Conn.zeroPlain Conn.keeps_zeroPlain).Final k o t := by
  obtain ⟨c, hc | hc, rfl, rfl, hfin, rfl⟩ := h
  · have hzero : c.zeroPlain = c := if_pos hfin
    refine ⟨c, .inl ?_, rfl, rfl, hfin, rfl⟩
    rw [mapConns_get, hc, Option.map_some, hzero]
  · exact ⟨c, .inr hc, rfl, rfl, hfin, rfl⟩

theorem Final.updateSSLStats {t : UInt64 × UInt64} (h : s.Final k o t)
    (ps : List (SSLStat × View)) :
    (s.updateSSLStats ps).Final k o
      (t.1 + (charged o (s.mapConns Conn.zeroPlain Conn.keeps_zeroPlain) ps).1,
        t.2 + (charged o (s.mapConns Conn.zeroPlain Conn.keeps_zeroPlain) ps).2) :=
  h.zeroPlain.foldl_credit

theorem Final.unique {t t' : UInt64 × UInt64} (h : s.Final k o t) (h' : s.Final k o t') : t = t' := by
  obtain ⟨c, hc, -, ho, -, rfl⟩ := h
  obtain ⟨c', hc', -, ho', -, rfl⟩ := h'
  rw [hc.unique hc' (ho.trans ho'.symm)]

theorem Final.step_iff {t : UInt64 × UInt64} (hop : ¬op.IsClose) (h : s.Final k o t) :
    (s.step x509 op).Final k o t ↔ s.Quiet o op := by
  cases op with
  | updateFlows v flows => exact iff_of_true (h.updateFlows (steady_final o t)) trivial
  | applyWire now w => exact iff_of_true (h.applyWire (steady_final o t)) trivial
  | applyData d => exact iff_of_true h.applyData trivial
  | applyClose v e => exact absurd trivial hop
  | updateSSLStats stats =>
    have hmoved := h.updateSSLStats stats
    constructor
    · intro hkept
      have ht := hkept.unique hmoved
      exact Prod.ext (UInt64.left_eq_add.mp (congrArg Prod.fst ht))
        (UInt64.left_eq_add.mp (congrArg Prod.snd ht))
    · intro hquiet
      rw [show charged o _ stats = (0, 0) from hquiet] at hmoved
      have hkept : (s.updateSSLStats stats).Final k o (t.1, t.2) := by simpa using hmoved
      exact hkept

theorem Final.step (hop : ¬op.IsClose) (h : ∃ t, s.Final k o t) : ∃ t, (s.step x509 op).Final k o t := by
  obtain ⟨t, h⟩ := h
  cases op with
  | updateFlows v flows => exact ⟨t, h.updateFlows (steady_final o t)⟩
  | applyWire now w => exact ⟨t, h.applyWire (steady_final o t)⟩
  | applyData d => exact ⟨t, h.applyData⟩
  | applyClose v e => exact absurd trivial hop
  | updateSSLStats stats => exact ⟨_, h.updateSSLStats stats⟩

/-- The object of `c` shows the totals `t`. -/
def Shows (c : Conn) (t : UInt64 × UInt64) (s : Store) : Prop :=
  s.Some c.sock fun d => d.obj = c.obj ∧ d.totals = t

theorem shows_iff_final {t : UInt64 × UInt64} (h : ∃ t', s.Final c.sock c.obj t') :
    s.Shows c t ↔ s.Final c.sock c.obj t := by
  obtain ⟨t', d, hd, hk, ho, hfin, rfl⟩ := h
  constructor
  · rintro ⟨d', hd', -, ho', htot⟩
    obtain rfl := hd'.unique hd (ho'.trans ho.symm)
    exact ⟨d', hd, hk, ho, hfin, htot⟩
  · rintro ⟨d', hd', hk', ho', -, htot⟩
    exact ⟨d', hd', hk', ho', htot⟩

theorem applyClose_final (hres : (s.resolve v e.pid e.fd).1 = some c) :
    (s.applyClose v e).Final c.sock c.obj (e.ptx, e.prx) := by
  have hget := applyClose_get (s := s) (v := v) (e := e) (k := c.sock)
  rw [hres, Option.map_some, if_pos rfl, resolve_live hres, Option.map_some] at hget
  refine ⟨_, holds_of_live hget, (Conn.keeps_finalize e _ c).2, (Conn.keeps_finalize e _ c).1, ?_,
    Conn.finalize_totals e _ c⟩
  cases s.plainBySSL[e.ssl]? <;> rfl

/-- **Finalized totals stay exactly as long as no later stats snapshot charges bytes to the
connection**, in every state of every run without a further close. -/
theorem final_totals_iff (x509 : X509) (hres : (s.resolve v e.pid e.fd).1 = some c)
    (hops : ∀ op ∈ ops, ¬op.IsClose) :
    Along (Store.step x509) (Shows c (e.ptx, e.prx)) (s.applyClose v e) ops ↔
      Meets (Store.step x509) (Quiet c.obj) (s.applyClose v e) ops := by
  have hfinal := applyClose_final hres
  refine along_iff_meets (p := fun op => ¬op.IsClose)
    (J := fun s : Store => ∃ t, s.Final c.sock c.obj t) ?_ ?_ hops ⟨_, hfinal⟩
    ((shows_iff_final ⟨_, hfinal⟩).mpr hfinal)
  · intro s op hop hJ
    exact Final.step hop hJ
  · intro s op hop hJ hshows
    rw [shows_iff_final (Final.step hop hJ)]
    exact Final.step_iff hop ((shows_iff_final hJ).mp hshows)

def openFlow : Flow := { sock := 1, pid := 7, tx := 300, rx := 400 }
def sessionClose : CloseEvent := { pid := 7, fd := -1, ssl := 16, ptx := 100, prx := 200 }
def staleStat : SSLStat := { ssl := 16, ptx := 100, prx := 200, pid := 7, fd := -1 }
def polled : Store := (new 500 8192).updateFlows (.blind 0) [openFlow]

theorem stale_snapshot_not_final : ∃ c,
    (polled.resolve (.blind 0) sessionClose.pid sessionClose.fd).1 = some c ∧
    ¬Along (Store.step fun _ => none) (Shows c (sessionClose.ptx, sessionClose.prx))
      (polled.applyClose (.blind 0) sessionClose) [.updateSSLStats [(staleStat, .blind 0)]] := by
  have hres : (polled.resolve (.blind 0) sessionClose.pid sessionClose.fd).1.map Conn.obj =
      some 0 := by decide +kernel
  have hlast : ((polled.applyClose (.blind 0) sessionClose).updateSSLStats
      [(staleStat, .blind 0)]).conns[(1 : UInt64)]?.map (fun c => (c.obj, c.totals)) =
      some (0, 200, 400) := by decide +kernel
  obtain ⟨c, hc, ho⟩ := Option.map_eq_some_iff.mp hres
  obtain ⟨d', hd', hval⟩ := Option.map_eq_some_iff.mp hlast
  refine ⟨c, hc, fun halong => ?_⟩
  obtain ⟨d, hd, -, hdo, htot⟩ := halong.last
  obtain rfl : d = d' := hd.unique (holds_of_live hd') (hdo.trans (ho.trans (congrArg Prod.fst hval).symm))
  exact absurd (htot.symm.trans (congrArg Prod.snd hval)) (by decide)

/-- A session of another process, whose bytes go elsewhere, and the freed one without any. -/
def freshStats : List SSLStat :=
  [{ staleStat with ssl := 32, ptx := 7, prx := 8, pid := 9 }, { staleStat with ptx := 0, prx := 0 }]

def afterClose : List Op :=
  [.updateFlows (.blind 1) [openFlow, { openFlow with sock := 2, pid := 9 }],
    .updateSSLStats (freshStats.map fun st => (st, .blind 1))]

theorem fresh_snapshot_final : ∃ c,
    (polled.resolve (.blind 0) sessionClose.pid sessionClose.fd).1 = some c ∧
    Along (Store.step fun _ => none) (Shows c (sessionClose.ptx, sessionClose.prx))
      (polled.applyClose (.blind 0) sessionClose) afterClose := by
  have hres : (polled.resolve (.blind 0) sessionClose.pid sessionClose.fd).1.map Conn.obj =
      some 0 := by decide +kernel
  obtain ⟨c, hc, ho⟩ := Option.map_eq_some_iff.mp hres
  have hcharged : charged 0 (((polled.applyClose (.blind 0) sessionClose).updateFlows (.blind 1)
      [openFlow, { openFlow with sock := 2, pid := 9 }]).mapConns Conn.zeroPlain Conn.keeps_zeroPlain)
      (freshStats.map fun st => (st, .blind 1)) = (0, 0) := by decide +kernel
  refine ⟨c, hc, (final_totals_iff _ hc fun op hop => ?_).mpr ⟨trivial, ?_, trivial⟩⟩
  · rcases List.mem_pair.mp hop with rfl | rfl <;> exact id
  · rw [ho]
    exact hcharged

end Store
end Tlstat.Model
