import Mathlib.Data.UInt
import Tlstat.Model.Traces

/-! When a reused socket pointer keeps two connections apart: the old one in the history as it was,
the new one made of nothing but what came with it. -/

namespace Tlstat.Model
open Base Loader Tlsparse

/-- The totals that an operation reports, with the session that each is of. -/
def Op.reports : Op → List (UInt64 × UInt64 × UInt64)
  | .applyClose _ e => [(e.ssl, e.ptx, e.prx)]
  | .updateSSLStats stats => stats.map fun p => (p.1.ssl, p.1.ptx, p.1.prx)
  | _ => []

/-- Of these, the totals of sessions that are none of the past. -/
def Op.newTotals (past : List UInt64) (op : Op) : List (UInt64 × UInt64) :=
  (op.reports.filter fun r => r.1 ∉ past).map Prod.snd

/-- The same along a run. -/
def newTotals (past : List UInt64) : List Op → List (UInt64 × UInt64)
  | [] => []
  | op :: ops => op.newTotals past ++ newTotals (surviving past op) ops

def sumOf (l : List (UInt64 × UInt64)) : UInt64 × UInt64 := ((l.map Prod.fst).sum, (l.map Prod.snd).sum)

/-- The totals are a sum of totals in the list. -/
def Tallied (l : List (UInt64 × UInt64)) (c : Conn) : Prop := ∃ l', l'.Sublist l ∧ c.totals = sumOf l'

/-- A close event among `ops` is of a session that is none of the past. -/
def Ended (past : List UInt64) (ops : List Op) : Prop := ∃ before v e after,
  before ++ .applyClose v e :: after = ops ∧ e.ssl ∉ before.foldl surviving past

section Totals
variable {past : List UInt64} {ops : List Op} {op : Op} {l l' : List (UInt64 × UInt64)} {c : Conn}

theorem newTotals_concat (past : List UInt64) (ops : List Op) (op : Op) :
    newTotals past (ops ++ [op]) = newTotals past ops ++ op.newTotals (ops.foldl surviving past) := by
  induction ops generalizing past with
  | nil => exact List.append_nil _
  | cons op' ops ih =>
    change op'.newTotals past ++ newTotals (surviving past op') (ops ++ [op]) = _
    rw [ih]
    exact (List.append_assoc _ _ _).symm

theorem Tallied.mono (h : Tallied l c) (hl : l.Sublist l') : Tallied l' c := by
  obtain ⟨m, hm, hsum⟩ := h
  exact ⟨m, hm.trans hl, hsum⟩

theorem tallied_zero (h : c.totals = (0, 0)) : Tallied l c := ⟨[], List.nil_sublist l, h⟩

theorem Tallied.add (h : Tallied l c) (st : SSLStat) (smp : Option Sample) :
    Tallied (l ++ [(st.ptx, st.prx)]) (c.accumulate st smp) := by
  obtain ⟨m, hm, hsum⟩ := h
  refine ⟨m ++ [(st.ptx, st.prx)], hm.append (List.Sublist.refl _), ?_⟩
  rw [Store.accumulate_totals, hsum]
  unfold sumOf
  rw [List.map_append, List.map_append, List.sum_append, List.sum_append]
  simp

theorem Ended.later (h : Ended past ops) (op : Op) : Ended past (ops ++ [op]) := by
  obtain ⟨before, v, e, after, rfl, ha⟩ := h
  exact ⟨before, v, e, after ++ [op], by simp, ha⟩

end Totals

namespace Store
variable {s : Store} {x509 : X509} {k : UInt64} {o₀ : ℕ} {past : List UInt64} {ops : List Op} {op : Op}

/-- The objects of `k` made from `o₀` on have totals of new sessions only, and are final only where one
of these has ended. -/
def Fresh (k : UInt64) (o₀ : ℕ) (past : List UInt64) (ops : List Op) (s : Store) : Prop :=
  s.All fun c => c.sock = k → o₀ ≤ c.obj →
    Tallied (newTotals past ops) c ∧ (c.plainFinal = true → Ended past ops)

theorem steady_fresh (k : UInt64) (o₀ : ℕ) (l : List (UInt64 × UInt64)) (E : Prop) :
    Steady fun c => c.sock = k → o₀ ≤ c.obj → Tallied l c ∧ (c.plainFinal = true → E) where
  reconcile := fun _ _ _ h => h
  applyWire := fun _ _ _ h => Conn.applyWire_frame (P := fun c =>
    c.sock = k → o₀ ≤ c.obj → Tallied l c ∧ (c.plainFinal = true → E)) fun _ _ _ _ _ => h
  retired := fun _ _ h => h

/-- The accumulation loop, after the turns for which `l` has been noted. -/
theorem fresh_foldl_credit {E : Prop} {l : List (UInt64 × UInt64)} (ps : List (SSLStat × View))
    (hapart : Meets Store.credit (fun t p => p.1.ssl ∈ past →
      (t.resolve p.2 p.1.pid p.1.fd).1.map Conn.sock ≠ some k) s ps)
    (h : s.All fun c => c.sock = k → o₀ ≤ c.obj → Tallied l c ∧ (c.plainFinal = true → E)) :
    (ps.foldl Store.credit s).All fun c => c.sock = k → o₀ ≤ c.obj →
      Tallied (l ++ (Op.updateSSLStats ps).newTotals past) c ∧ (c.plainFinal = true → E) := by
  induction ps generalizing s l with
  | nil =>
    change s.All fun c => c.sock = k → o₀ ≤ c.obj → Tallied (l ++ []) c ∧ _
    rw [List.append_nil]
    exact h
  | cons p ps ih =>
    have hnext : (s.credit p).All fun c => c.sock = k → o₀ ≤ c.obj →
        Tallied (l ++ if p.1.ssl ∈ past then [] else [(p.1.ptx, p.1.prx)]) c ∧
          (c.plainFinal = true → E) := by
      refine h.editTo credit_log (fun c hP hk ho => ?_) fun k' d hd => ?_
      · obtain ⟨htallied, hfinal⟩ := hP hk ho
        exact ⟨htallied.mono (List.sublist_append_left l _), hfinal⟩
      have hsock : d.sock = k' := (s.credit p).keyed k' d hd
      rw [credit_get] at hd
      split_ifs at hd with hres
      · obtain ⟨c, hc, rfl⟩ := Option.map_eq_some_iff.mp hd
        refine ⟨c, hc, fun hP hk ho => ?_⟩
        have hnew : p.1.ssl ∉ past := fun ha => hapart.1 ha (by rw [hres, ← hsock, hk])
        rw [(Conn.keeps_accumulate p.1 _ c).2] at hk
        rw [(Conn.keeps_accumulate p.1 _ c).1] at ho
        obtain ⟨htallied, hfinal⟩ := hP hk ho
        rw [if_neg hnew, accumulate_plainFinal]
        exact ⟨htallied.add p.1 _, hfinal⟩
      · refine ⟨d, hd, fun hP hk ho => ?_⟩
        obtain ⟨htallied, hfinal⟩ := hP hk ho
        exact ⟨htallied.mono (List.sublist_append_left l _), hfinal⟩
    have hlast := ih hapart.2 hnext
    have hlist : (Op.updateSSLStats (p :: ps)).newTotals past =
        (if p.1.ssl ∈ past then [] else [(p.1.ptx, p.1.prx)]) ++
          (Op.updateSSLStats ps).newTotals past := by
      unfold Op.newTotals Op.reports
      by_cases ha : p.1.ssl ∈ past <;> simp [ha]
    rw [hlist, ← List.append_assoc]
    exact hlast

theorem Fresh.step (hapart : Shared.Apart k (s, ops.foldl surviving past) op) (h : s.Fresh k o₀ past ops) :
    (s.step x509 op).Fresh k o₀ past (ops ++ [op]) := by
  have hlater : s.All fun c => c.sock = k → o₀ ≤ c.obj →
      Tallied (newTotals past ops) c ∧ (c.plainFinal = true → Ended past (ops ++ [op])) := by
    intro c hc hk ho
    obtain ⟨htallied, hfinal⟩ := h c hc hk ho
    exact ⟨htallied, fun hfin => (hfinal hfin).later op⟩
  have hmore : s.All fun c => c.sock = k → o₀ ≤ c.obj →
      Tallied (newTotals past (ops ++ [op])) c ∧ (c.plainFinal = true → Ended past (ops ++ [op])) := by
    intro c hc hk ho
    obtain ⟨htallied, hfinal⟩ := hlater c hc hk ho
    rw [newTotals_concat]
    exact ⟨htallied.mono (List.sublist_append_left _ _), hfinal⟩
  have hnew : ∀ o ≥ s.next, ∀ (sock : UInt64) (now : Time), sock = k → o₀ ≤ o →
      Tallied (newTotals past (ops ++ [op])) { obj := o, sock, firstSeen := now } ∧
        ((false : Bool) = true → Ended past (ops ++ [op])) :=
    fun _ _ _ _ _ _ => ⟨tallied_zero rfl, fun hfin => absurd hfin Bool.false_ne_true⟩
  unfold Fresh
  cases op with
  | updateFlows v flows => exact All.updateFlows (steady_fresh k o₀ _ _) hnew hmore
  | applyWire now w => exact All.applyWire (steady_fresh k o₀ _ _) hnew hmore
  | applyData d => exact All.applyData hmore
  | applyClose v e =>
    refine hmore.edit applyClose_log fun k' d hd => ?_
    have hsock : d.sock = k' := (s.applyClose v e).keyed k' d hd
    change (s.applyClose v e).conns[k']? = some d at hd
    rw [applyClose_get] at hd
    split_ifs at hd with hres
    · obtain ⟨c, hc, rfl⟩ := Option.map_eq_some_iff.mp hd
      refine ⟨c, hc, fun _ hk _ => ?_⟩
      have ha : e.ssl ∉ ops.foldl surviving past := fun ha => hapart ha (by rw [hres, ← hsock, hk])
      refine ⟨⟨[(e.ptx, e.prx)], ?_, ?_⟩, fun _ => ⟨ops, v, e, [], rfl, ha⟩⟩
      · have hone : (Op.applyClose v e).newTotals (ops.foldl surviving past) = [(e.ptx, e.prx)] := by
          unfold Op.newTotals Op.reports
          simp [ha]
        rw [newTotals_concat, hone]
        exact List.sublist_append_right _ _
      · rw [Conn.finalize_totals]
        simp [sumOf]
    · exact ⟨d, hd, id⟩
  | updateSSLStats stats =>
    have hzero : (s.mapConns Conn.zeroPlain Conn.keeps_zeroPlain).All fun c => c.sock = k → o₀ ≤ c.obj →
        Tallied (newTotals past ops) c ∧
          (c.plainFinal = true → Ended past (ops ++ [.updateSSLStats stats])) := by
      refine hlater.edit mapConns_log fun k' d hd => ?_
      rw [mapConns_get] at hd
      obtain ⟨c, hc, rfl⟩ := Option.map_eq_some_iff.mp hd
      refine ⟨c, hc, fun hP => ?_⟩
      unfold Conn.zeroPlain
      split_ifs
      · exact hP
      · exact fun hk ho => ⟨tallied_zero rfl, (hP hk ho).2⟩
    rw [newTotals_concat]
    exact fresh_foldl_credit stats hapart hzero

theorem fresh_nil : s.Fresh k s.next past [] := fun _ hc _ ho => absurd hc.lt_next ho.not_gt

theorem Fresh.run {done : List Op} (h : s.Fresh k o₀ past done)
    (hapart : Meets (Shared.stepPast x509) (Shared.Apart k) (s, done.foldl surviving past) ops) :
    (s.run x509 ops).Fresh k o₀ past (done ++ ops) := by
  have hstep : ∀ (done : List Op) (s : Store) (op : Op), Shared.Apart k (s, done.foldl surviving past) op →
      s.Fresh k o₀ past done → (s.step x509 op).Fresh k o₀ past (done ++ [op]) :=
    fun _ _ _ hop h => h.step hop
  exact hapart.history (fun _ _ => rfl) hstep h

end Store
namespace Shared
variable {s : Shared} {x509 : X509} {room : ℕ → ℕ → ℕ} {k : UInt64} {n : ℕ} {c : Conn} {op : Op}
variable {past : List UInt64} {ops : List Op}

/-- Nothing is attributed to a retired connection. -/
theorem fields_step_of_log (hc : c ∈ s.store.log) :
    (s.step x509 room op).fields c.obj = s.fields c.obj := by
  have hne : ∀ t : Store, t.log = s.store.log → ∀ (v : View) (pid : UInt32) (fd : Int32) (d : Conn),
      (t.resolve v pid fd).1 = some d → d.obj ≠ c.obj := by
    intro t ht v pid fd d hd hobj
    exact t.log_ne c (ht ▸ hc) _ d (Store.resolve_live hd) hobj.symm
  cases op with
  | updateFlows v flows | applyWire now w => rfl
  | applyData d =>
    change (s.applyData room d).fields c.obj = _
    unfold applyData
    split_ifs <;> rfl
  | applyClose v e =>
    change (s.applyClose v e).fields c.obj = _
    rw [fields_applyClose, attributed_other (hne s.store rfl v e.pid e.fd)]
  | updateSSLStats stats =>
    let zeroed := s.store.mapConns Conn.zeroPlain Conn.keeps_zeroPlain
    refine (foldl_credit s.samples
      (I := fun t fields => t.log = s.store.log ∧ fields c.obj = s.fields c.obj)
      (fun t fields p ht => ⟨Store.credit_log.trans ht.1, ?_⟩) stats (r := (zeroed, s.fields))
      ⟨rfl, rfl⟩).2
    rw [attributed_other (hne t ht.1 p.2 p.1.pid p.1.fd)]
    exact ht.2

theorem fields_run_of_log (hc : c ∈ s.store.log) :
    (s.run x509 room ops).fields c.obj = s.fields c.obj := by
  induction ops generalizing s with
  | nil => rfl
  | cons op ops ih =>
    have hnext : c ∈ (s.step x509 room op).store.log := by
      rw [step_store]
      exact Store.mem_log_step hc
    exact (ih hnext).trans (fields_step_of_log hc)

/-- The connection `c` of `s` is retired in `s'` as it was: its value is the end of one entry of the
log, which is in the history unless `maxHistory` younger ones have pushed it out, and its tails are
the slices they were. -/
structure Archived (maxHistory : ℕ) (now : Time) (c : Conn) (s s' : Shared) : Prop where
  logged : c.retired now ∈ s'.store.log
  history : ∀ l l', s'.store.log = l ++ c.retired now :: l' → l'.length < maxHistory →
    c.retired now ∈ s'.store.history
  tails : s'.fields c.obj = s.fields c.obj

/-- The connection `c` is made of `ops` alone and of no session of the past: what polls and wire
events write is what an empty store makes of `ops`, its totals are sums of totals that sessions of
no past reported, it is final only where one of these ended, and its plaintext is of one of them. -/
structure Renewed (x509 : X509) (n : ℕ) (past : List UInt64) (k : UInt64) (ops : List Op) (s : Shared)
    (c : Conn) : Prop where
  core : (((Store.new 0 0).run x509 ops).conns[k]?).map Conn.core = some c.core
  totals : Tallied (newTotals past ops) c
  final : c.plainFinal = true → Ended past ops
  plain : FromOne n past ops s.heap c.plain (s.fields c.obj)

theorem archived_run (maxHistory peekBytes : ℤ) (before : List Op) {v : View} {flows : List Flow}
    (hlog : c.retired (v.retireNow k) ∈
      (((new maxHistory peekBytes).run x509 room before).store.updateFlows v flows).log)
    (after : List Op) : Archived maxHistory.toNat (v.retireNow k) c
      ((new maxHistory peekBytes).run x509 room before)
      ((new maxHistory peekBytes).run x509 room (before ++ .updateFlows v flows :: after)) := by
  have hsplit : (new maxHistory peekBytes).run x509 room (before ++ .updateFlows v flows :: after) =
      (((new maxHistory peekBytes).run x509 room before).step x509 room (.updateFlows v flows)).run x509
        room after := List.foldl_append
  refine ⟨?_, fun l l' hl hlen => ?_, ?_⟩
  · -- the log only grows
    rw [hsplit, run_store]
    exact Store.mem_log_run hlog
  · have hring : Store.Ring maxHistory.toNat
        ((new maxHistory peekBytes).run x509 room (before ++ .updateFlows v flows :: after)).store := by
      rw [run_store]
      exact (Store.preserved_ring maxHistory.toNat).run _ ⟨rfl, List.drop_nil.symm⟩
    -- the history is the end of the log
    rw [hring.2, hl]
    refine List.mem_iff_getElem?.mpr ⟨l.length - ((l ++ c.retired (v.retireNow k) :: l').length -
      maxHistory.toNat), ?_⟩
    have hplace : (l ++ c.retired (v.retireNow k) :: l').length - maxHistory.toNat ≤ l.length := by
      rw [List.length_append, List.length_cons]
      omega
    rw [List.getElem?_drop, Nat.add_sub_cancel' hplace, List.getElem?_append_right le_rfl, Nat.sub_self]
    rfl
  · rw [hsplit]
    exact fields_run_of_log (c := c.retired (v.retireNow k)) hlog

theorem run_append (ops ops' : List Op) : s.run x509 room (ops ++ ops') =
    (s.run x509 room ops).run x509 room ops' := List.foldl_append

/-- Where a connection that was live is no longer, a poll has retired it, and from there on it stays
as it is. -/
theorem archived_of_not_live (maxHistory peekBytes : ℤ) {before mid : List Op} (since : List Op)
    (hc : ((new maxHistory peekBytes).run x509 room before).store.conns[k]? = some c)
    (hfree : ((new maxHistory peekBytes).run x509 room (before ++ mid)).store.conns[k]? = none) :
    ∃ pre v flows post d, pre ++ .updateFlows v flows :: post = mid ∧
      ((new maxHistory peekBytes).run x509 room (before ++ pre)).store.conns[k]? = some d ∧
      d.obj = c.obj ∧
      Archived maxHistory.toNat (v.retireNow k) d ((new maxHistory peekBytes).run x509 room (before ++ pre))
        ((new maxHistory peekBytes).run x509 room (before ++ mid ++ since)) ∧
      FromOne peekBytes.toNat [] (before ++ mid ++ since)
        ((new maxHistory peekBytes).run x509 room (before ++ mid ++ since)).heap d.plain
        (((new maxHistory peekBytes).run x509 room (before ++ mid ++ since)).fields d.obj) := by
  rw [run_append, run_store] at hfree
  obtain ⟨pre, v, flows, post, d, rfl, hd, hobj, hlog⟩ := Store.retired_of_not_live hc hfree
  rw [← @run_store _ room, ← run_append] at hd hlog
  have hlist : before ++ (pre ++ .updateFlows v flows :: post) ++ since =
      before ++ pre ++ .updateFlows v flows :: (post ++ since) := by
    simp only [List.append_assoc, List.cons_append]
  rw [hlist]
  have harchived := archived_run maxHistory peekBytes (before ++ pre) hlog (post ++ since)
  exact ⟨pre, v, flows, post, d, rfl, hd, hobj, harchived, from_one_run x509 room maxHistory peekBytes _
    (c := d.retired (v.retireNow k)) (.inr harchived.logged)⟩

/-- Where nothing is live on `k`, what becomes live there is new. -/
theorem renewed_of_free {since : List Op} (hs : s.Coupled n) (hfree : s.store.conns[k]? = none)
    (hpast : ∀ a : UInt64, s.store.plainBySSL[a]? ≠ none → a ∈ past)
    (hapart : Meets (stepPast x509) (Apart k) (s.store, past) since)
    (hc : (s.run x509 room since).store.conns[k]? = some c) :
    s.store.next ≤ c.obj ∧ Renewed x509 n past k since (s.run x509 room since) c := by
  have hrows := rows_from_one room hs hpast hapart
  rw [run_store] at hc hrows
  have hsock : c.sock = k := (s.store.run x509 since).keyed k c hc
  have hsince : (s.store.run x509 since).Since s.store.next k :=
    Store.Since.run ⟨le_rfl, by rw [hfree]; simp⟩
  have hobj : s.store.next ≤ c.obj := hsince.le_obj c.obj (by rw [hc]; rfl)
  have hfresh : (s.store.run x509 since).Fresh k s.store.next past since :=
    Store.fresh_nil.run hapart
  have hcore : Store.SameCore k (s.store.run x509 since) ((Store.new 0 0).run x509 since) := by
    refine Store.SameCore.run ?_
    unfold Store.SameCore
    rw [hfree]
    simp [Store.new]
  obtain ⟨htotals, hended⟩ := hfresh c (Store.holds_of_live hc) hsock hobj
  exact ⟨hobj, hcore.symm.trans (by rw [hc]; rfl), htotals, hended,
    hrows c (Store.holds_of_live hc) hsock hobj⟩

/-- A socket that a poll reports is live after it. -/
theorem live_of_reported (x509 : X509) (room : ℕ → ℕ → ℕ) (s : Shared) {flows : List Flow} (ops : List Op)
    (v : View) (h : Store.flowsOf k flows ≠ []) :
    ∃ c, (s.run x509 room (ops ++ [.updateFlows v flows])).store.conns[k]? = some c := by
  obtain ⟨o, -, hlive, -⟩ := Store.updateFlows_get_of_reported (s := (s.run x509 room ops).store) (v := v) h
  rw [run_append]
  exact ⟨_, hlive⟩

/-- **Sockets reused after retirement do not merge.** If nothing is live on `k` when the first
operation of the new connection is applied, and no session of the past is attributed to `k` from
there on, the old connection has gone to the history with the value it had when a poll retired it,
and the live one is a new object made of the operations since. What the tails of either read is of
one session. -/
theorem reuse_separates (x509 : X509) (room : ℕ → ℕ → ℕ) (maxHistory peekBytes : ℤ) {past : List UInt64}
    (before mid later : List Op) (v₁ v₂ : View) {F₁ F₂ : List Flow} (hclosed : Reports k true F₁)
    (hopen : Reports k false F₂) :
    let s₀ := new maxHistory peekBytes
    let reported := before ++ [.updateFlows v₁ F₁]
    let since := later ++ [.updateFlows v₂ F₂]
    let reused := s₀.run x509 room (reported ++ mid)
    let final := s₀.run x509 room (reported ++ mid ++ since)
    reused.store.conns[k]? = none →
    (∀ a : UInt64, reused.store.plainBySSL[a]? ≠ none → a ∈ past) →
    Meets (stepPast x509) (Apart k) (reused.store, past) later →
    (∃ c, (s₀.run x509 room reported).store.conns[k]? = some c ∧
      ∃ pre v flows post d, pre ++ .updateFlows v flows :: post = mid ∧
        (s₀.run x509 room (reported ++ pre)).store.conns[k]? = some d ∧ d.obj = c.obj ∧
        Archived maxHistory.toNat (v.retireNow k) d (s₀.run x509 room (reported ++ pre)) final ∧
        FromOne peekBytes.toNat [] (reported ++ mid ++ since) final.heap d.plain (final.fields d.obj)) ∧
    ∃ c, final.store.conns[k]? = some c ∧ reused.store.next ≤ c.obj ∧
      Renewed x509 peekBytes.toNat past k since final c := by
  intro s₀ reported since reused final hfree hpast hapart
  constructor
  · obtain ⟨c, hc⟩ := live_of_reported x509 room s₀ before v₁ hclosed.ne_nil
    exact ⟨c, hc, archived_of_not_live maxHistory peekBytes since hc hfree⟩
  · have hcoupled : reused.Coupled peekBytes.toNat :=
      (coupled_new maxHistory peekBytes).run x509 room _
    have hsince : Meets (stepPast x509) (Apart k) (reused.store, past) since :=
      meets_append.mpr ⟨hapart, trivial, trivial⟩
    have hfinal : final = reused.run x509 room since := run_append _ _
    obtain ⟨c, hc⟩ := live_of_reported x509 room reused later v₂ hopen.ne_nil
    obtain ⟨hobj, hrenewed⟩ := renewed_of_free hcoupled hfree hpast hsince hc
    rw [hfinal]
    exact ⟨c, hc, hobj, hrenewed⟩

def openReport : List Flow := [{ sock := 1, pid := 7, tx := 10, rx := 20 }]
def lastReport : List Flow := [{ sock := 1, pid := 7, closed := true, tx := 10, rx := 20 }]
def nextReport : List Flow := [{ sock := 1, pid := 9, tx := 1, rx := 2 }]

def oldStat : SSLStat := { ssl := 16, ptx := 3, prx := 0, pid := 7, fd := -1 }
def newStat : SSLStat := { ssl := 32, ptx := 2, prx := 0, pid := 9, fd := -1 }

/-- A connection of process 7 with a session that is still listed after it was retired, and a poll that
retires it. -/
def firstUse : List Op :=
  [.updateFlows (.blind 0) openReport, Store.chunkAt 16 1 [1, 2, 3],
    .updateSSLStats [(oldStat, .blind 1)]]

def gap : List Op := [.updateFlows (.blind 3) []]

/-- The connection of process 9 at the same address, with a session of its own. -/
def secondUse : List Op :=
  [.applyWire 5 ⟨1, 1, [22, 3, 1]⟩, .updateFlows (.blind 5) nextReport, Store.chunkAt 32 1 [7, 8],
    .updateSSLStats [(oldStat, .blind 6), (newStat, .blind 6)]]

theorem retired_between_reports :
    let final := (new 500 8192).run (fun _ => none) smallRoom
      (firstUse ++ [.updateFlows (.blind 2) lastReport] ++ gap ++
        (secondUse ++ [.updateFlows (.blind 7) nextReport]))
    ∃ c, final.store.conns[(1 : UInt64)]? = some c ∧
      Renewed (fun _ => none) 8192 [16] 1 (secondUse ++ [.updateFlows (.blind 7) nextReport]) final c ∧
      c.totals = (2, 0) := by
  intro final
  have hclosed : Reports 1 true lastReport := ⟨_, rfl, rfl⟩
  have hopen : Reports 1 false nextReport := ⟨_, rfl, rfl⟩
  have hpast : ∀ a : UInt64, ((new 500 8192).run (fun _ => none) smallRoom
      (firstUse ++ [.updateFlows (.blind 2) lastReport] ++ gap)).store.plainBySSL[a]? ≠ none → a ∈ [16] := by
    intro a ha
    obtain ⟨smp, hsmp⟩ := Option.ne_none_iff_exists'.mp ha
    have hkeys : ∀ p ∈ ((new 500 8192).run (fun _ => none) smallRoom
        (firstUse ++ [.updateFlows (.blind 2) lastReport] ++ gap)).store.plainBySSL.toList, p.1 ∈ [16] := by
      decide +kernel
    exact hkeys (a, smp) (Table.mem_toList.mpr hsmp)
  obtain ⟨-, c, hc, -, hrenewed⟩ := reuse_separates (fun _ => none) smallRoom 500 8192 firstUse gap
    secondUse (.blind 2) (.blind 7) hclosed hopen (by decide +kernel) hpast (by decide +kernel)
  have htotals : final.store.conns[(1 : UInt64)]?.map Conn.totals = some (2, 0) := by decide +kernel
  rw [hc] at htotals
  exact ⟨c, hc, hrenewed, Option.some.inj htotals⟩

/-- Without a poll in between that misses the socket, the next connection inherits the object. -/
theorem adjacent_reports_merge :
    Reports 1 true lastReport ∧ Reports 1 false nextReport ∧
    ((Store.new 500 8192).updateFlows (.blind 0) lastReport).conns[(1 : UInt64)]?.map Conn.obj =
      some 0 ∧
    (((Store.new 500 8192).updateFlows (.blind 0) lastReport).updateFlows (.blind 5) nextReport).log =
      [] ∧
    (((Store.new 500 8192).updateFlows (.blind 0) lastReport).updateFlows (.blind 5)
      nextReport).conns[(1 : UInt64)]?.map (fun c => (c.obj, c.pid, c.firstSeen)) =
      some (0, 9, 1) := by
  refine ⟨⟨_, rfl, rfl⟩, ⟨_, rfl, rfl⟩, ?_⟩
  decide +kernel

/-- `/proc` names the peer of every descriptor. -/
def peered (n : ℕ) : View := { View.blind n with procPeer := fun _ _ => some ⟨.v4 [0, 0, 0, 0], 0⟩ }

def cachedStat : SSLStat := { ssl := 16, ptx := 100, prx := 0, pid := 7, fd := 5 }

-- the entry that the cache has for the old descriptor outlives the retirement
example : ((new 500 8192).run (fun _ => none) smallRoom
    [.updateFlows (.blind 0) openReport, Store.chunkAt 16 1 [1, 2, 3],
      .updateSSLStats [(cachedStat, peered 1)], .updateFlows (.blind 2) lastReport,
      .updateFlows (.blind 3) [], .updateFlows (.blind 5) nextReport,
      .updateSSLStats [(cachedStat, .blind 6)]]).store.conns[(1 : UInt64)]?.map
        (fun c => (c.obj, c.pid, c.totals, c.plain.headOut)) = some (1, 9, (100, 0), [1, 2, 3]) := by
  decide +kernel

end Shared
end Tlstat.Model
