import Tlstat.Model.Spec

/-! Following a connection object through the operations: it is live, then retired, and
what each operation may do to it on the way. -/

namespace Tlstat.Model
open Base Loader Tlsparse

/-- A fact about a connection that polls, wire events and retirement cannot change. -/
structure Steady (P : Conn → Prop) : Prop where
  reconcile : ∀ f now c, P c → P (c.reconcile f now)
  applyWire : ∀ x509 w c, P c → P (c.applyWire x509 w)
  retired : ∀ now c, P c → P (c.retired now)

/-- A fact about a connection that no operation can change. -/
structure Kept (P : Conn → Prop) : Prop extends Steady P where
  finalize : ∀ e smp c, P c → P (c.finalize e smp)
  zeroPlain : ∀ c, P c → P c.zeroPlain
  accumulate : ∀ st smp c, P c → P (c.accumulate st smp)

theorem Steady.reconcileAll {P : Conn → Prop} (hP : Steady P) {now : Time} {fs : List Flow}
    {c : Conn} (hc : P c) : P (Store.reconcileAll now fs c) := by
  induction fs generalizing c with
  | nil => exact hc
  | cons f fs ih => exact ih (hP.reconcile f now c hc)

def Conn.totals (c : Conn) : UInt64 × UInt64 := (c.ptxBytes, c.prxBytes)

theorem steady_totals (t : UInt64 × UInt64) : Steady fun c => c.totals = t where
  reconcile := fun _ _ _ h => h
  applyWire := fun _ _ _ h => Conn.applyWire_frame (P := fun c => c.totals = t) fun _ _ _ _ _ => h
  retired := fun _ _ h => h

theorem Conn.finalize_totals (e : CloseEvent) (smp : Option Sample) (c : Conn) :
    (Conn.finalize e smp c).totals = (e.ptx, e.prx) := by
  cases smp <;> rfl

namespace Store
variable {s : Store} {k : UInt64} {v : View} {now : Time} {flows : List Flow} {x509 : X509}
  {w : WireEvent} {d : DataEvent} {e : CloseEvent} {ps : List (SSLStat × View)} {op : Op} {c : Conn}
  {P : Conn → Prop}

/-- `c` is the present value of an object the store has made: live, or retired. -/
def Holds (s : Store) (c : Conn) : Prop := s.conns[c.sock]? = some c ∨ c ∈ s.log

theorem holds_of_live (h : s.conns[k]? = some c) : s.Holds c := .inl (s.keyed k c h ▸ h)

theorem Holds.lt_next (h : s.Holds c) : c.obj < s.next := by
  rcases h with h | h
  · exact s.live_lt _ _ h
  · exact s.log_lt _ h

theorem Holds.unique {c' : Conn} (h : s.Holds c) (h' : s.Holds c') (ho : c.obj = c'.obj) :
    c = c' := by
  rcases h with h | h <;> rcases h' with h' | h'
  · have hk : c.sock = c'.sock := s.live_inj _ _ _ _ h h' ho
    exact Option.some.inj (h.symm.trans (hk ▸ h'))
  · exact absurd ho.symm (s.log_ne c' h' _ _ h)
  · exact absurd ho (s.log_ne c h _ _ h')
  · exact List.inj_on_of_nodup_map s.log_nodup h h' ho

/-- Some object made for `k` satisfies `P`. -/
def Some (s : Store) (k : UInt64) (P : Conn → Prop) : Prop := ∃ c, s.Holds c ∧ c.sock = k ∧ P c

def All (s : Store) (P : Conn → Prop) : Prop := ∀ c, s.Holds c → P c

theorem mem_log_of_mem_logOf (h : c ∈ s.logOf k) : c ∈ s.log := (mem_logOf.mp h).1

theorem Some.updateFlows (hP : Steady P) (h : s.Some k P) : (s.updateFlows v flows).Some k P := by
  obtain ⟨c, hc, rfl, hPc⟩ := h
  by_cases hrep : flowsOf c.sock flows = []
  · obtain ⟨hget, hlog⟩ := updateFlows_of_unreported (s := s) (v := v) hrep
    rcases hc with hc | hc
    · rw [hc] at hget hlog
      cases hcl : c.closed
      · refine ⟨c, .inl ?_, rfl, hPc⟩
        rw [hget]
        simp [Option.filter, hcl]
      · refine ⟨c.retired (v.retireNow c.sock), .inr (mem_log_of_mem_logOf (k := c.sock) ?_), rfl,
          hP.retired _ c hPc⟩
        rw [hlog]
        simp [Option.filter, hcl]
    · refine ⟨c, .inr (mem_log_of_mem_logOf (k := c.sock) ?_), rfl, hPc⟩
      rw [hlog]
      exact List.mem_append_left _ (mem_logOf.mpr ⟨hc, rfl⟩)
  · obtain ⟨o, -, hget, hlog⟩ := updateFlows_get_of_reported (s := s) (v := v) hrep
    rcases hc with hc | hc
    · rw [hc, Option.getD_some] at hget
      exact ⟨_, holds_of_live hget, (keeps_reconcileAll _ _).2, hP.reconcileAll hPc⟩
    · refine ⟨c, .inr (mem_log_of_mem_logOf (k := c.sock) ?_), rfl, hPc⟩
      rw [hlog]
      exact mem_logOf.mpr ⟨hc, rfl⟩

theorem Some.applyWire (hP : Steady P) (h : s.Some k P) : (s.applyWire x509 now w).Some k P := by
  by_cases hw : w.data = []
  · unfold Store.applyWire
    rwa [if_pos hw]
  obtain ⟨c, hc | hc, rfl, hPc⟩ := h
  · have hget := applyWire_get (s := s) (k := c.sock) x509 now hw
    rw [hc] at hget
    split_ifs at hget
    · exact ⟨_, holds_of_live hget, (Conn.keeps_applyWire x509 w c).2, hP.applyWire x509 w c hPc⟩
    · exact ⟨c, .inl hget, rfl, hPc⟩
  · exact ⟨c, .inr (applyWire_log.symm ▸ hc), rfl, hPc⟩

theorem Some.applyData (h : s.Some k P) : (s.applyData d).Some k P := by
  unfold Some Holds
  rwa [applyData_conns, applyData_log]

theorem All.applyData (h : s.All P) : (s.applyData d).All P := by
  unfold All Holds
  rwa [applyData_conns, applyData_log]

theorem All.updateFlows (hP : Steady P)
    (hnew : ∀ o ≥ s.next, ∀ k now, P { obj := o, sock := k, firstSeen := now })
    (h : s.All P) : (s.updateFlows v flows).All P := by
  intro c hc
  by_cases hrep : flowsOf c.sock flows = []
  · obtain ⟨hget, hlog⟩ := updateFlows_of_unreported (s := s) (v := v) hrep
    rcases hc with hc | hc
    · rw [hget] at hc
      exact h c (.inl (Option.filter_eq_some_iff.mp hc).1)
    · have hmem := mem_logOf.mpr ⟨hc, rfl⟩
      rw [hlog] at hmem
      rcases List.mem_append.mp hmem with hmem | hmem
      · exact h c (.inr (mem_log_of_mem_logOf hmem))
      · obtain ⟨d, hd, hdc⟩ := Option.map_eq_some_iff.mp (Option.mem_toList.mp hmem)
        rw [← hdc]
        exact hP.retired _ d (h d (holds_of_live (Option.filter_eq_some_iff.mp hd).1))
  · obtain ⟨o, ho, hget, hlog⟩ := updateFlows_get_of_reported (s := s) (v := v) hrep
    rcases hc with hc | hc
    · rw [hget] at hc
      obtain hc := Option.some.inj hc
      rw [← hc]
      apply hP.reconcileAll
      cases hd : s.conns[c.sock]? with
      | none => exact hnew o ho _ _
      | some d => exact h d (holds_of_live hd)
    · have hmem := mem_logOf.mpr ⟨hc, rfl⟩
      rw [hlog] at hmem
      exact h c (.inr (mem_log_of_mem_logOf hmem))

theorem All.applyWire (hP : Steady P)
    (hnew : ∀ o ≥ s.next, ∀ k now, P { obj := o, sock := k, firstSeen := now })
    (h : s.All P) : (s.applyWire x509 now w).All P := by
  by_cases hw : w.data = []
  · unfold Store.applyWire
    rwa [if_pos hw]
  intro c hc
  rcases hc with hc | hc
  · rw [applyWire_get x509 now hw] at hc
    split_ifs at hc with hk
    · obtain hc := Option.some.inj hc
      rw [← hc]
      apply hP.applyWire
      cases hd : s.conns[c.sock]? with
      | none => exact hnew _ le_rfl _ _
      | some d => exact h d (holds_of_live hd)
    · exact h c (.inl hc)
  · exact h c (.inr (applyWire_log ▸ hc))

/-! ### Writes in place -/

theorem Some.edit {t : Store} (hlog : t.log = s.log)
    (hget : ∀ c, s.conns[k]? = some c → P c → ∃ d, t.conns[k]? = some d ∧ P d)
    (h : s.Some k P) : t.Some k P := by
  obtain ⟨c, hc | hc, rfl, hPc⟩ := h
  · obtain ⟨d, hd, hPd⟩ := hget c hc hPc
    exact ⟨d, holds_of_live hd, t.keyed _ _ hd, hPd⟩
  · exact ⟨c, .inr (hlog.symm ▸ hc), rfl, hPc⟩

theorem All.editTo {Q : Conn → Prop} {t : Store} (hlog : t.log = s.log) (hPQ : ∀ c, P c → Q c)
    (hget : ∀ (k : UInt64) (d : Conn), t.conns[k]? = some d →
      ∃ c, s.conns[k]? = some c ∧ (P c → Q d))
    (h : s.All P) : t.All Q := by
  rintro d (hd | hd)
  · obtain ⟨c, hc, hQ⟩ := hget _ d hd
    exact hQ (h c (holds_of_live hc))
  · exact hPQ d (h d (.inr (hlog ▸ hd)))

theorem All.edit {t : Store} (hlog : t.log = s.log)
    (hget : ∀ (k : UInt64) (d : Conn), t.conns[k]? = some d →
      ∃ c, s.conns[k]? = some c ∧ (P c → P d))
    (h : s.All P) : t.All P := h.editTo hlog (fun _ => id) hget

theorem Some.applyClose (hf : ∀ smp c, P c → P (c.finalize e smp)) (h : s.Some k P) :
    (s.applyClose v e).Some k P := by
  refine h.edit applyClose_log fun c hc hPc => ?_
  rw [applyClose_get, hc]
  split_ifs
  · exact ⟨_, rfl, hf _ c hPc⟩
  · exact ⟨c, rfl, hPc⟩

theorem All.applyClose (hf : ∀ smp c, P c → P (c.finalize e smp)) (h : s.All P) :
    (s.applyClose v e).All P := by
  refine h.edit applyClose_log fun k d hd => ?_
  rw [applyClose_get] at hd
  split_ifs at hd
  · obtain ⟨c, hc, rfl⟩ := Option.map_eq_some_iff.mp hd
    exact ⟨c, hc, hf _ c⟩
  · exact ⟨d, hd, id⟩

theorem Some.foldl_credit (ha : ∀ st smp c, P c → P (c.accumulate st smp)) (h : s.Some k P) :
    (ps.foldl credit s).Some k P := by
  refine foldl_invariant (I := fun s : Store => s.Some k P) (p := fun _ => True) ?_
    (fun _ _ => trivial) h
  intro s p _ hs
  refine hs.edit credit_log fun c hc hPc => ?_
  rw [credit_get, hc]
  split_ifs
  · exact ⟨_, rfl, ha _ _ c hPc⟩
  · exact ⟨c, rfl, hPc⟩

theorem All.foldl_credit (ha : ∀ st smp c, P c → P (c.accumulate st smp)) (h : s.All P) :
    (ps.foldl credit s).All P := by
  refine foldl_invariant (I := fun s : Store => s.All P) (p := fun _ => True) ?_
    (fun _ _ => trivial) h
  intro s p _ hs
  refine hs.edit credit_log fun k d hd => ?_
  rw [credit_get] at hd
  split_ifs at hd
  · obtain ⟨c, hc, rfl⟩ := Option.map_eq_some_iff.mp hd
    exact ⟨c, hc, ha _ _ c⟩
  · exact ⟨d, hd, id⟩

theorem Some.updateSSLStats (hz : ∀ c, P c → P c.zeroPlain)
    (ha : ∀ st smp c, P c → P (c.accumulate st smp)) (h : s.Some k P) :
    (s.updateSSLStats ps).Some k P := by
  have hzero : (s.mapConns Conn.zeroPlain Conn.keeps_zeroPlain).Some k P := by
    refine h.edit mapConns_log fun c hc hPc => ?_
    rw [mapConns_get, hc]
    exact ⟨_, rfl, hz c hPc⟩
  exact hzero.foldl_credit ha

theorem All.updateSSLStats (hz : ∀ c, P c → P c.zeroPlain)
    (ha : ∀ st smp c, P c → P (c.accumulate st smp)) (h : s.All P) :
    (s.updateSSLStats ps).All P := by
  have hzero : (s.mapConns Conn.zeroPlain Conn.keeps_zeroPlain).All P := by
    refine h.edit mapConns_log fun k d hd => ?_
    rw [mapConns_get] at hd
    obtain ⟨c, hc, rfl⟩ := Option.map_eq_some_iff.mp hd
    exact ⟨c, hc, hz c⟩
  exact hzero.foldl_credit ha

/-! ### Whole steps -/

theorem Some.step (hP : Kept P) (h : s.Some k P) : (s.step x509 op).Some k P := by
  cases op with
  | updateFlows v flows => exact h.updateFlows hP.toSteady
  | applyWire now w => exact h.applyWire hP.toSteady
  | applyData d => exact h.applyData
  | applyClose v e => exact h.applyClose (hP.finalize e)
  | updateSSLStats stats => exact h.updateSSLStats hP.zeroPlain hP.accumulate

theorem mem_log_step (h : c ∈ s.log) : c ∈ (s.step x509 op).log := by
  cases op with
  | updateFlows v flows =>
    change c ∈ (s.updateFlows v flows).log
    have hmem : c ∈ s.logOf c.sock := mem_logOf.mpr ⟨h, rfl⟩
    by_cases hrep : flowsOf c.sock flows = []
    · apply mem_log_of_mem_logOf (k := c.sock)
      rw [(updateFlows_of_unreported hrep).2]
      exact List.mem_append_left _ hmem
    · obtain ⟨o, -, -, hlog⟩ := updateFlows_get_of_reported (s := s) (v := v) hrep
      exact mem_log_of_mem_logOf (hlog.symm ▸ hmem)
  | applyWire now w => exact applyWire_log.symm ▸ h
  | applyData d => exact applyData_log.symm ▸ h
  | applyClose v e => exact applyClose_log.symm ▸ h
  | updateSSLStats stats => exact updateSSLStats_log.symm ▸ h

theorem next_le_step : s.next ≤ (s.step x509 op).next := by
  cases op with
  | updateFlows v flows => exact next_le_updateFlows
  | applyWire now w => exact next_le_applyWire
  | applyData d => exact applyData_next.ge
  | applyClose v e => exact applyClose_next.ge
  | updateSSLStats stats => exact updateSSLStats_next.ge

end Store
end Tlstat.Model
