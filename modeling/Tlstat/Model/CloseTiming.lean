import Tlstat.Model.Track

/-! Whether the final totals of a session reach its connection, for every order of the
close event, the flow polls and the wire events. -/

namespace Tlstat.Model
open Base Loader Tlsparse

/-- The polls and wire events of a run in which the process `pid` owns the connection `k`
and no other. -/
def Op.Owned (k : UInt64) (pid : UInt32) : Op → Prop
  | .updateFlows _ flows => ∀ f ∈ flows, f.pid = pid → f.sock = k
  | .applyWire _ w => w.sock = k
  | _ => False

def Op.Polls (k : UInt64) (pid : UInt32) : Op → Prop
  | .updateFlows _ flows => ∃ f ∈ flows, f.sock = k ∧ f.pid = pid
  | _ => False

namespace Store
variable {s : Store} {k : UInt64} {v : View} {e : CloseEvent} {x509 : X509} {pid : UInt32}
  {fd : Int32} {c : Conn} {op : Op} {ops : List Op}

/-- A connection of socket `k`, live or retired, shows the totals of the close event. -/
def Credited (s : Store) (k : UInt64) (e : CloseEvent) : Prop :=
  s.Some k fun c => c.totals = (e.ptx, e.prx)

/-- The store can tell which connection the close event belongs to: `k` is live, and it
carries the pid or is the peer that `/proc` reports for the descriptor. -/
def Recognises (s : Store) (v : View) (k : UInt64) (e : CloseEvent) : Prop :=
  ∃ c, s.conns[k]? = some c ∧
    (c.pid = e.pid ∨ e.fd ≥ 0 ∧ v.procPeer e.pid e.fd = some c.remote)

/-- What the polls and wire events of an owned run establish: nothing is cached, and a live
connection with the pid is `k`. -/
structure Tidy (k : UInt64) (pid : UInt32) (s : Store) : Prop where
  pidfd : s.pidfd = ∅
  owner : ∀ (k' : UInt64) (c : Conn), s.conns[k']? = some c → c.pid = pid → k' = k

theorem reconcileAll_pid (now : Time) {fs : List Flow} (hfs : fs ≠ []) :
    ∃ f ∈ fs, (reconcileAll now fs c).pid = f.pid := by
  induction fs generalizing c with
  | nil => exact absurd rfl hfs
  | cons f fs ih =>
    by_cases h : fs = []
    · subst h
      exact ⟨f, List.mem_cons_self, rfl⟩
    · obtain ⟨g, hg, hpid⟩ := ih (c := c.reconcile f now) h
      exact ⟨g, List.mem_cons_of_mem f hg, hpid⟩

theorem Tidy.step (hop : op.Owned k pid) (h : s.Tidy k pid) : (s.step x509 op).Tidy k pid := by
  cases op with
  | updateFlows v flows =>
    refine ⟨updateFlows_pidfd.trans h.pidfd, fun k' c hc hpid => ?_⟩
    change (s.updateFlows v flows).conns[k']? = some c at hc
    by_cases hrep : flowsOf k' flows = []
    · rw [(updateFlows_of_unreported hrep).1] at hc
      exact h.owner k' c (Option.filter_eq_some_iff.mp hc).1 hpid
    · obtain ⟨o, -, hget, -⟩ := updateFlows_get_of_reported (s := s) (v := v) hrep
      rw [hget] at hc
      obtain hc := Option.some.inj hc
      obtain ⟨f, hf, hfp⟩ := reconcileAll_pid v.now
        (c := s.conns[k']?.getD { obj := o, sock := k', firstSeen := v.now }) hrep
      obtain ⟨hmem, hsock⟩ := List.mem_filter.mp hf
      rw [hc, hpid] at hfp
      exact (of_decide_eq_true hsock).symm.trans (hop f hmem hfp.symm)
  | applyWire now w =>
    refine ⟨applyWire_pidfd.trans h.pidfd, fun k' c hc hpid => ?_⟩
    change (s.applyWire x509 now w).conns[k']? = some c at hc
    by_cases hw : w.data = []
    · unfold Store.applyWire at hc
      rw [if_pos hw] at hc
      exact h.owner k' c hc hpid
    · rw [applyWire_get x509 now hw] at hc
      split_ifs at hc with hk
      · exact hk.symm.trans hop
      · exact h.owner k' c hc hpid
  | applyData d => exact hop.elim
  | applyClose v e => exact hop.elim
  | updateSSLStats stats => exact hop.elim

/-- With nothing cached and one owned connection, `resolve` answers exactly when the store
recognises the connection. -/
theorem Tidy.resolve_iff (h : s.Tidy k pid)
    (hproc : ∀ ap, v.procPeer pid fd = some ap →
      ∀ (k' : UInt64) (c : Conn), s.conns[k']? = some c → c.remote = ap → k' = k) :
    (s.resolve v pid fd).1 = some c ↔ s.conns[k]? = some c ∧
      (c.pid = pid ∨ fd ≥ 0 ∧ v.procPeer pid fd = some c.remote) := by
  have hcached : s.cached pid fd = none := by
    unfold cached
    rw [h.pidfd, Table.get_empty]
    rfl
  have hsole : s.sole v pid = some c ↔ s.conns[k]? = some c ∧ c.pid = pid := by
    rw [sole_eq_some_iff]
    constructor
    · intro ⟨hc, hpid, _⟩
      exact ⟨h.owner _ c hc hpid ▸ hc, hpid⟩
    · intro ⟨hc, hpid⟩
      have hk : c.sock = k := s.keyed k c hc
      exact ⟨hk ▸ hc, hpid, fun k' d hd hdp => (h.owner k' d hd hdp).trans hk.symm⟩
  rw [resolve_fst, hcached, Option.none_or]
  split_ifs with hfd
  · rw [Option.or_eq_some_iff, hsole]
    constructor
    · rintro (hex | ⟨-, hc, hpid⟩)
      · obtain ⟨hlive, hpeer⟩ := exactMatch_live hex
        have hk : c.sock = k := hproc _ hpeer _ c hlive rfl
        exact ⟨hk ▸ hlive, .inr ⟨hfd, hpeer⟩⟩
      · exact ⟨hc, .inl hpid⟩
    · rintro ⟨hc, hrec⟩
      cases hex : s.exactMatch v pid fd with
      | some d =>
        -- the peer is unique, so whoever has it is `k`
        obtain ⟨hlive, hpeer⟩ := exactMatch_live hex
        have hk : d.sock = k := hproc _ hpeer _ d hlive rfl
        exact .inl (hlive.symm.trans (hk ▸ hc))
      | none =>
        rcases hrec with hpid | ⟨-, hpeer⟩
        · exact .inr ⟨rfl, hc, hpid⟩
        · obtain ⟨d, hd⟩ := exactMatch_isSome hc hpeer
          exact absurd (hex.symm.trans hd) (by simp)
  · rw [hsole]
    simp only [hfd, false_and, or_false]

theorem Tidy.new (maxHistory peekBytes : ℤ) : (Store.new maxHistory peekBytes).Tidy k pid :=
  ⟨rfl, by simp [Store.new]⟩

theorem Tidy.run (hops : ∀ op ∈ ops, op.Owned k pid) (h : s.Tidy k pid) :
    (s.run x509 ops).Tidy k pid :=
  foldl_invariant (fun _ _ hop => Tidy.step hop) hops h

theorem Some.run {P : Conn → Prop} (hP : Steady P) (hops : ∀ op ∈ ops, op.Owned k pid)
    (h : s.Some k P) : (s.run x509 ops).Some k P := by
  refine foldl_invariant (I := fun s : Store => s.Some k P) (p := Op.Owned k pid) (fun s op hop hs => ?_) hops h
  cases op with
  | updateFlows v flows => exact hs.updateFlows hP
  | applyWire now w => exact hs.applyWire hP
  | applyData d => exact hop.elim
  | applyClose v e => exact hop.elim
  | updateSSLStats stats => exact hop.elim

theorem All.run {P : Conn → Prop} (hP : Steady P)
    (hnew : ∀ o k now, P { obj := o, sock := k, firstSeen := now })
    (hops : ∀ op ∈ ops, op.Owned k pid) (h : s.All P) : (s.run x509 ops).All P := by
  refine foldl_invariant (I := fun s : Store => s.All P) (p := Op.Owned k pid) (fun s op hop hs => ?_) hops h
  cases op with
  | updateFlows v flows => exact hs.updateFlows hP fun o _ => hnew o
  | applyWire now w => exact hs.applyWire hP fun o _ => hnew o
  | applyData d => exact hop.elim
  | applyClose v e => exact hop.elim
  | updateSSLStats stats => exact hop.elim

theorem some_of_polls (hpoll : op.Polls k pid) : (s.step x509 op).Some k fun _ => True := by
  cases op with
  | updateFlows v flows =>
    obtain ⟨f, hf, hsock, -⟩ := hpoll
    have hrep : flowsOf k flows ≠ [] := by
      intro hnil
      exact flowsOf_eq_nil.mp hnil f hf hsock
    obtain ⟨o, -, hget, -⟩ := updateFlows_get_of_reported (s := s) (v := v) hrep
    exact ⟨_, holds_of_live hget, (s.updateFlows v flows).keyed _ _ hget, trivial⟩
  | applyWire now w => exact hpoll.elim
  | applyData d => exact hpoll.elim
  | applyClose v e => exact hpoll.elim
  | updateSSLStats stats => exact hpoll.elim

theorem some_run_of_polls (hops : ∀ op ∈ ops, op.Owned k pid) (hpoll : ∃ op ∈ ops, op.Polls k pid) :
    (s.run x509 ops).Some k fun _ => True := by
  obtain ⟨op, hmem, hpoll⟩ := hpoll
  obtain ⟨as, bs, rfl⟩ := List.append_of_mem hmem
  unfold run
  rw [List.foldl_append, List.foldl_cons]
  have hbs : ∀ op ∈ bs, op.Owned k pid := fun op hop =>
    hops op (List.mem_append_right _ (List.mem_cons_of_mem _ hop))
  exact Some.run ⟨fun _ _ _ => id, fun _ _ _ => id, fun _ _ => id⟩ hbs (some_of_polls hpoll)

theorem credited_of_recognises (h : s.Tidy k e.pid) (hrec : s.Recognises v k e)
    (hproc : ∀ ap, v.procPeer e.pid e.fd = some ap →
      ∀ (k' : UInt64) (c : Conn), s.conns[k']? = some c → c.remote = ap → k' = k) :
    (s.applyClose v e).Credited k e := by
  obtain ⟨c, hc, hwho⟩ := hrec
  have hres := (h.resolve_iff hproc).mpr ⟨hc, hwho⟩
  have hget := applyClose_get (s := s) (v := v) (e := e) (k := k)
  rw [hres, Option.map_some, s.keyed k c hc, if_pos rfl, hc, Option.map_some] at hget
  exact ⟨_, holds_of_live hget, (s.applyClose v e).keyed _ _ hget, Conn.finalize_totals e _ _⟩

theorem applyClose_conns_of_not_recognises (h : s.Tidy k e.pid) (hrec : ¬s.Recognises v k e)
    (hproc : ∀ ap, v.procPeer e.pid e.fd = some ap →
      ∀ (k' : UInt64) (c : Conn), s.conns[k']? = some c → c.remote = ap → k' = k) (c : Conn) :
    (s.applyClose v e).Holds c ↔ s.Holds c := by
  have hres : (s.resolve v e.pid e.fd).1 = none := by
    rw [Option.eq_none_iff_forall_ne_some]
    intro c hc
    exact hrec ⟨c, (h.resolve_iff hproc).mp hc⟩
  unfold Holds
  rw [applyClose_get, applyClose_log, hres]
  rfl

/-- **A session's final totals reach its connection exactly when the store recognises the
connection at the close** (or there is nothing to credit). The order of polls, wire events and
the close is free; `hproc` is what `/proc` promises. -/
theorem close_credited_iff (x509 : X509) (maxHistory peekBytes : ℤ) {k : UInt64} {v : View}
    {e : CloseEvent} {pre post : List Op}
    (hpre : ∀ op ∈ pre, op.Owned k e.pid) (hpost : ∀ op ∈ post, op.Owned k e.pid)
    (hpoll : ∃ op ∈ pre ++ post, op.Polls k e.pid)
    (hproc : ∀ ap, v.procPeer e.pid e.fd = some ap → ∀ (k' : UInt64) (c : Conn),
      ((new maxHistory peekBytes).run x509 pre).conns[k']? = some c → c.remote = ap → k' = k) :
    ((new maxHistory peekBytes).run x509 (pre ++ .applyClose v e :: post)).Credited k e ↔
      ((new maxHistory peekBytes).run x509 pre).Recognises v k e ∨ e.ptx = 0 ∧ e.prx = 0 := by
  have hsplit : (new maxHistory peekBytes).run x509 (pre ++ .applyClose v e :: post) =
      ((((new maxHistory peekBytes).run x509 pre).applyClose v e).run x509 post) :=
    List.foldl_append
  have htidy : ((new maxHistory peekBytes).run x509 pre).Tidy k e.pid :=
    (Tidy.new maxHistory peekBytes).run hpre
  have hzero : ((new maxHistory peekBytes).run x509 pre).All fun c => c.totals = (0, 0) :=
    All.run (steady_totals _) (fun _ _ _ => rfl) hpre (by simp [All, Holds, new])
  -- whichever side of the close the poll is on, there is a connection at the end
  have hexists : ((new maxHistory peekBytes).run x509 (pre ++ .applyClose v e :: post)).Some k
      fun _ => True := by
    have htrue : Steady fun _ => True := ⟨fun _ _ _ => id, fun _ _ _ => id, fun _ _ => id⟩
    obtain ⟨op, hmem, hop⟩ := hpoll
    rw [hsplit]
    rcases List.mem_append.mp hmem with hmem | hmem
    · exact (some_run_of_polls hpre ⟨op, hmem, hop⟩).applyClose (fun _ _ => id) |>.run htrue hpost
    · exact some_run_of_polls hpost ⟨op, hmem, hop⟩
  generalize (new maxHistory peekBytes).run x509 pre = s at *
  rw [hsplit] at hexists ⊢
  by_cases hrec : s.Recognises v k e
  · simp only [hrec, true_or, iff_true]
    exact (credited_of_recognises htidy hrec hproc).run (steady_totals _) hpost
  · have hzero' : ((s.applyClose v e).run x509 post).All fun c => c.totals = (0, 0) :=
      All.run (steady_totals _) (fun _ _ _ => rfl) hpost fun c hc =>
        hzero c ((applyClose_conns_of_not_recognises htidy hrec hproc c).mp hc)
    simp only [hrec, false_or]
    constructor
    · rintro ⟨c, hc, -, htot⟩
      have h0 := (hzero' c hc).symm.trans htot
      exact ⟨(congrArg Prod.fst h0).symm, (congrArg Prod.snd h0).symm⟩
    · rintro ⟨hptx, hprx⟩
      obtain ⟨c, hc, hk, -⟩ := hexists
      exact ⟨c, hc, hk, (hzero' c hc).trans (by rw [hptx, hprx])⟩

def shortFlow : Flow := { sock := 1, pid := 7, closed := true, tx := 300, rx := 400 }
def shortClose : CloseEvent := { pid := 7, fd := -1, ssl := 16, ptx := 100, prx := 200 }

theorem close_before_poll_not_credited :
    (Op.updateFlows (.blind 0) [shortFlow]).Owned 1 shortClose.pid ∧
    (Op.updateFlows (.blind 0) [shortFlow]).Polls 1 shortClose.pid ∧
    ¬((new 500 8192).run (fun _ => none)
      [.applyClose (.blind 0) shortClose,
       .updateFlows (.blind 0) [shortFlow]]).Credited 1 shortClose := by
  refine ⟨by simp [Op.Owned, shortFlow], by simp [Op.Polls, shortFlow, shortClose], ?_⟩
  rintro ⟨c, hc | hc, hk, htot⟩
  · have hlive : (((new 500 8192).run (fun _ => none)
        [.applyClose (.blind 0) shortClose,
         .updateFlows (.blind 0) [shortFlow]]).conns[(1 : UInt64)]?).map Conn.totals =
        some (0, 0) := by decide +kernel
    rw [hk] at hc
    rw [hc, Option.map_some, htot] at hlive
    exact absurd hlive (by decide)
  · have hlog : ((new 500 8192).run (fun _ => none)
        [.applyClose (.blind 0) shortClose,
         .updateFlows (.blind 0) [shortFlow]]).log = [] := by decide +kernel
    rw [hlog] at hc
    exact List.not_mem_nil hc

theorem close_after_poll_credited :
    ((new 500 8192).run (fun _ => none)
      ([.updateFlows (.blind 0) [shortFlow]] ++
        .applyClose (.blind 0) shortClose :: [])).Credited 1 shortClose := by
  refine (close_credited_iff _ 500 8192 ?_ (by simp) ?_ (by simp [View.blind])).mpr (.inl ?_)
  · simp [Op.Owned, shortFlow]
  · simp [Op.Polls, shortFlow, shortClose]
  · have hlive : (((new 500 8192).run (fun _ => none)
        [.updateFlows (.blind 0) [shortFlow]]).conns[(1 : UInt64)]?).map Conn.pid =
        some shortClose.pid := by decide +kernel
    obtain ⟨c, hc, hpid⟩ := Option.map_eq_some_iff.mp hlive
    exact ⟨c, hc, .inl hpid⟩

end Store
end Tlstat.Model
