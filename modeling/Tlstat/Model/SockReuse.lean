import Tlstat.Model.Finality

/-! A socket pointer that names a new connection: what separates the old `Conn` from the new
one, and what the new one is made of. -/

namespace Tlstat.Model
open Base Loader Tlsparse

/-- The snapshot's last word on `k` is `closed`. -/
def Reports (k : UInt64) (closed : Bool) (flows : List Flow) : Prop :=
  ∃ f, (Store.flowsOf k flows).getLast? = some f ∧ f.closed = closed

theorem Reports.ne_nil {k : UInt64} {closed : Bool} {flows : List Flow}
    (h : Reports k closed flows) : Store.flowsOf k flows ≠ [] := by
  obtain ⟨f, hf, -⟩ := h
  intro hnil
  rw [hnil] at hf
  cases hf

/-- A connection without its object identity and its plaintext: the part that the polls and
wire events of its own socket determine. -/
def Conn.core (c : Conn) : Conn :=
  { c with obj := 0, ptxBytes := 0, prxBytes := 0, plain := {}, plainFinal := false }

namespace Conn
variable (c : Conn)

theorem core_reconcileAll (fs : List Flow) (now : Time) :
    (Store.reconcileAll now fs c).core = Store.reconcileAll now fs c.core := by
  induction fs generalizing c with
  | nil => rfl
  | cons f fs ih => exact ih (c.reconcile f now)

theorem core_applyWire (x509 : X509) (w : WireEvent) :
    (c.applyWire x509 w).core = c.core.applyWire x509 w := by
  unfold applyWire core
  dsimp only
  split_ifs <;> rfl

theorem core_finalize (e : CloseEvent) (smp : Option Sample) : (c.finalize e smp).core = c.core := by
  cases smp <;> rfl

theorem core_zeroPlain : c.zeroPlain.core = c.core := by
  unfold zeroPlain
  split_ifs <;> rfl

theorem core_accumulate (st : SSLStat) (smp : Option Sample) :
    (c.accumulate st smp).core = c.core := by
  cases smp <;> rfl

end Conn

namespace Store
variable {s t : Store} {k : UInt64} {x509 : X509} {op : Op} {ops : List Op}

/-- The two stores show the same connection on `k`, object and plaintext apart. -/
def SameCore (k : UInt64) (s t : Store) : Prop :=
  s.conns[k]?.map Conn.core = t.conns[k]?.map Conn.core

theorem SameCore.getD (h : SameCore k s t) (o o' : ℕ) (now : Time) :
    (s.conns[k]?.getD { obj := o, sock := k, firstSeen := now }).core =
      (t.conns[k]?.getD { obj := o', sock := k, firstSeen := now }).core := by
  unfold SameCore at h
  cases hs : s.conns[k]? <;> cases ht : t.conns[k]? <;> rw [hs, ht] at h
  · rfl
  · cases h
  · cases h
  · exact Option.some.inj h

theorem SameCore.updateFlows (h : SameCore k s t) (v : View) (flows : List Flow) :
    SameCore k (s.updateFlows v flows) (t.updateFlows v flows) := by
  unfold SameCore
  by_cases hrep : flowsOf k flows = []
  · rw [(updateFlows_of_unreported hrep).1, (updateFlows_of_unreported hrep).1]
    unfold SameCore at h
    cases hs : s.conns[k]? with
    | none =>
      rw [hs] at h
      rw [Option.map_eq_none_iff.mp h.symm]
    | some c =>
      rw [hs] at h
      obtain ⟨d, hd, hcore⟩ := Option.map_eq_some_iff.mp h.symm
      have hclosed : d.core.closed = c.core.closed := congrArg Conn.closed hcore
      change d.closed = c.closed at hclosed
      rw [hd]
      simp only [Option.filter, hclosed]
      split_ifs
      · exact congrArg some hcore.symm
      · rfl
  · obtain ⟨o, -, hs, -⟩ := updateFlows_get_of_reported (s := s) (v := v) hrep
    obtain ⟨o', -, ht, -⟩ := updateFlows_get_of_reported (s := t) (v := v) hrep
    rw [hs, ht, Option.map_some, Option.map_some, Conn.core_reconcileAll, Conn.core_reconcileAll,
      h.getD o o' v.now]

theorem SameCore.applyWire (h : SameCore k s t) (now : Time) (w : WireEvent) :
    SameCore k (s.applyWire x509 now w) (t.applyWire x509 now w) := by
  by_cases hw : w.data = []
  · unfold Store.applyWire
    rwa [if_pos hw, if_pos hw]
  · unfold SameCore
    rw [applyWire_get x509 now hw, applyWire_get x509 now hw]
    split_ifs
    · rw [Option.map_some, Option.map_some, Conn.core_applyWire, Conn.core_applyWire]
      exact congrArg (fun c => some (Conn.applyWire x509 w c)) (h.getD s.next t.next now)
    · exact h

/-! Plaintext attribution rewrites live connections in place: what it does not write, it keeps. -/

section Attribution
variable {β : Type} {g : Conn → β}

theorem applyClose_map (hg : ∀ e smp c, g (Conn.finalize e smp c) = g c) (v : View) (e : CloseEvent) :
    (s.applyClose v e).conns[k]?.map g = s.conns[k]?.map g := by
  rw [applyClose_get]
  split_ifs
  · rw [Option.map_map]
    congr 1
    funext c
    exact hg e _ c
  · rfl

theorem foldl_credit_map (hg : ∀ st smp c, g (Conn.accumulate st smp c) = g c)
    (ps : List (SSLStat × View)) : (ps.foldl credit s).conns[k]?.map g = s.conns[k]?.map g := by
  refine foldl_frame credit (g := fun s : Store => s.conns[k]?.map g) (fun s p => ?_) s ps
  rw [credit_get]
  split_ifs
  · rw [Option.map_map]
    congr 1
    funext c
    exact hg p.1 _ c
  · rfl

theorem updateSSLStats_map (hz : ∀ c, g (Conn.zeroPlain c) = g c)
    (hg : ∀ st smp c, g (Conn.accumulate st smp c) = g c) (ps : List (SSLStat × View)) :
    (s.updateSSLStats ps).conns[k]?.map g = s.conns[k]?.map g := by
  refine (foldl_credit_map hg ps).trans ?_
  rw [mapConns_get, Option.map_map]
  congr 1
  funext c
  exact hz c

end Attribution

theorem applyClose_core (v : View) (e : CloseEvent) :
    (s.applyClose v e).conns[k]?.map Conn.core = s.conns[k]?.map Conn.core :=
  applyClose_map (fun e smp c => c.core_finalize e smp) v e

theorem updateSSLStats_core (ps : List (SSLStat × View)) :
    (s.updateSSLStats ps).conns[k]?.map Conn.core = s.conns[k]?.map Conn.core :=
  updateSSLStats_map Conn.core_zeroPlain (fun st smp c => c.core_accumulate st smp) ps

theorem SameCore.step (h : SameCore k s t) : SameCore k (s.step x509 op) (t.step x509 op) := by
  cases op with
  | updateFlows v flows => exact h.updateFlows v flows
  | applyWire now w => exact h.applyWire now w
  | applyData d =>
    unfold SameCore
    rw [show (s.step x509 (.applyData d)).conns = s.conns from applyData_conns,
      show (t.step x509 (.applyData d)).conns = t.conns from applyData_conns]
    exact h
  | applyClose v e => exact (applyClose_core v e).trans (h.trans (applyClose_core v e).symm)
  | updateSSLStats stats =>
    exact (updateSSLStats_core stats).trans (h.trans (updateSSLStats_core stats).symm)

theorem SameCore.run (h : SameCore k s t) : SameCore k (s.run x509 ops) (t.run x509 ops) := by
  induction ops generalizing s t with
  | nil => exact h
  | cons op ops ih => exact ih h.step

/-! ### The objects -/

/-- The live connection of `k`, if there is one, was made when `n` objects existed or later. -/
structure Since (n : ℕ) (k : UInt64) (s : Store) : Prop where
  le_next : n ≤ s.next
  le_obj : ∀ o ∈ s.conns[k]?.map Conn.obj, n ≤ o

theorem Since.getD {n o : ℕ} (h : s.Since n k) (ho : s.next ≤ o) (now : Time) :
    n ≤ (s.conns[k]?.getD { obj := o, sock := k, firstSeen := now }).obj := by
  cases hc : s.conns[k]? with
  | none => exact h.le_next.trans ho
  | some c => exact h.le_obj c.obj (by rw [hc]; rfl)

theorem Since.step {n : ℕ} (h : s.Since n k) : (s.step x509 op).Since n k := by
  refine ⟨h.le_next.trans next_le_step, ?_⟩
  cases op with
  | updateFlows v flows =>
    change ∀ o ∈ (s.updateFlows v flows).conns[k]?.map Conn.obj, n ≤ o
    by_cases hrep : flowsOf k flows = []
    · rw [(updateFlows_of_unreported hrep).1]
      intro o ho
      obtain ⟨c, hc, rfl⟩ := Option.map_eq_some_iff.mp ho
      exact h.le_obj _ (Option.mem_map_of_mem _ (Option.filter_eq_some_iff.mp hc).1)
    · obtain ⟨o, ho, hget, -⟩ := updateFlows_get_of_reported (s := s) (v := v) hrep
      rw [hget]
      intro o' ho'
      obtain rfl := Option.some.inj ho'
      rw [(keeps_reconcileAll _ _).1]
      exact h.getD ho v.now
  | applyWire now w =>
    change ∀ o ∈ (s.applyWire x509 now w).conns[k]?.map Conn.obj, n ≤ o
    by_cases hw : w.data = []
    · unfold Store.applyWire
      rw [if_pos hw]
      exact h.le_obj
    · rw [applyWire_get x509 now hw]
      split_ifs
      · intro o' ho'
        obtain rfl := Option.some.inj ho'
        rw [(Conn.keeps_applyWire x509 w _).1]
        exact h.getD le_rfl now
      · exact h.le_obj
  | applyData d =>
    change ∀ o ∈ (s.applyData d).conns[k]?.map Conn.obj, n ≤ o
    rw [applyData_conns]
    exact h.le_obj
  | applyClose v e =>
    change ∀ o ∈ (s.applyClose v e).conns[k]?.map Conn.obj, n ≤ o
    rw [applyClose_map (fun e smp c => (Conn.keeps_finalize e smp c).1)]
    exact h.le_obj
  | updateSSLStats stats =>
    change ∀ o ∈ (s.updateSSLStats stats).conns[k]?.map Conn.obj, n ≤ o
    rw [updateSSLStats_map (fun c => (Conn.keeps_zeroPlain c).1)
      (fun st smp c => (Conn.keeps_accumulate st smp c).1)]
    exact h.le_obj

theorem Since.run {n : ℕ} (h : s.Since n k) : (s.run x509 ops).Since n k := by
  induction ops generalizing s with
  | nil => exact h
  | cons op ops ih => exact ih h.step

theorem mem_log_run {c : Conn} (h : c ∈ s.log) : c ∈ (s.run x509 ops).log := by
  induction ops generalizing s with
  | nil => exact h
  | cons op ops ih => exact ih (mem_log_step h)

/-- A live connection stays live, or a poll that misses its socket retires it as it is. -/
theorem step_live (x509 : X509) {c : Conn} (hc : s.conns[k]? = some c) (op : Op) :
    (∃ d, (s.step x509 op).conns[k]? = some d ∧ d.obj = c.obj) ∨
      ∃ v flows, op = .updateFlows v flows ∧ c.retired (v.retireNow k) ∈ (s.updateFlows v flows).log ∧
        (s.updateFlows v flows).conns[k]? = none := by
  have hstay : ∀ t : Store, t.conns[k]?.map Conn.obj = s.conns[k]?.map Conn.obj →
      ∃ d, t.conns[k]? = some d ∧ d.obj = c.obj := by
    intro t ht
    rw [hc] at ht
    exact Option.map_eq_some_iff.mp ht
  cases op with
  | updateFlows v flows =>
    change (∃ d, (s.updateFlows v flows).conns[k]? = some d ∧ _) ∨ _
    by_cases hrep : flowsOf k flows = []
    · obtain ⟨hget, hlog⟩ := updateFlows_of_unreported (s := s) (v := v) hrep
      rw [hc] at hget hlog
      cases hcl : c.closed
      · left
        exact ⟨c, by rw [hget]; simp [Option.filter, hcl], rfl⟩
      · right
        refine ⟨v, flows, rfl, mem_log_of_mem_logOf (k := k) ?_, ?_⟩
        · rw [hlog]
          simp [Option.filter, hcl]
        · rw [hget]
          simp [Option.filter, hcl]
    · obtain ⟨o, -, hget, -⟩ := updateFlows_get_of_reported (s := s) (v := v) hrep
      rw [hc] at hget
      exact .inl ⟨_, hget, (keeps_reconcileAll _ _).1⟩
  | applyWire now w =>
    left
    change ∃ d, (s.applyWire x509 now w).conns[k]? = some d ∧ _
    by_cases hw : w.data = []
    · unfold Store.applyWire
      rw [if_pos hw]
      exact ⟨c, hc, rfl⟩
    · rw [applyWire_get x509 now hw, hc]
      split_ifs
      · exact ⟨_, rfl, (Conn.keeps_applyWire x509 w c).1⟩
      · exact ⟨c, rfl, rfl⟩
  | applyData d => exact .inl ⟨c, (congrArg (·[k]?) applyData_conns).trans hc, rfl⟩
  | applyClose v e =>
    exact .inl (hstay _ (applyClose_map (fun e smp c => (Conn.keeps_finalize e smp c).1) v e))
  | updateSSLStats stats =>
    exact .inl (hstay _ (updateSSLStats_map (fun c => (Conn.keeps_zeroPlain c).1)
      (fun st smp c => (Conn.keeps_accumulate st smp c).1) stats))

/-- Where a live connection is gone, one poll has retired it with the value it had. -/
theorem retired_of_not_live {c : Conn} (hc : s.conns[k]? = some c)
    (hfree : (s.run x509 ops).conns[k]? = none) :
    ∃ pre v flows post d, pre ++ .updateFlows v flows :: post = ops ∧
      (s.run x509 pre).conns[k]? = some d ∧ d.obj = c.obj ∧
      d.retired (v.retireNow k) ∈ ((s.run x509 pre).updateFlows v flows).log := by
  induction ops generalizing s c with
  | nil =>
    rw [show s.run x509 [] = s from rfl, hc] at hfree
    cases hfree
  | cons op ops ih =>
    rcases step_live x509 hc op with ⟨d, hd, hobj⟩ | ⟨v, flows, rfl, hlog, -⟩
    · obtain ⟨pre, v, flows, post, d', rfl, hlive, hobj', hlog⟩ := ih hd hfree
      exact ⟨op :: pre, v, flows, post, d', rfl, hlive, hobj'.trans hobj, hlog⟩
    · exact ⟨[], v, flows, ops, c, rfl, hc, rfl, hlog⟩

end Store
end Tlstat.Model
