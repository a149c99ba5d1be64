import Mathlib.Order.Monotone.Basic
import Tlstat.Model.Conservation
import Tlstat.Model.Socket
import Tlstat.System.Feed

/-! What the rows show of the kernel's table. A row is never put together from two moments, and it
never goes back to an earlier one. -/

namespace Tlstat

namespace Model
open Base Loader Tlsparse

/-- The part of a row that a poll writes anew each time. -/
structure Report where
  pid : UInt32 := 0
  comm : Bytes := []
  localAddr : AddrPort := {}
  remote : AddrPort := {}
  txBytes : UInt64 := 0
  rxBytes : UInt64 := 0
  closed : Bool := false
deriving DecidableEq, Repr

def Conn.report (c : Conn) : Report where
  pid := c.pid
  comm := c.comm
  localAddr := c.localAddr
  remote := c.remote
  txBytes := c.txBytes
  rxBytes := c.rxBytes
  closed := c.closed

def reportOf (f : Flow) : Report where
  pid := f.pid
  comm := f.comm
  localAddr := localOf f
  remote := remoteOf f
  txBytes := f.tx
  rxBytes := f.rx
  closed := f.closed

theorem report_reconcileAll (now : Time) (fs : List Flow) (c : Conn) :
    (Store.reconcileAll now fs c).report = (fs.map reportOf).getLast?.getD c.report := by
  unfold Store.reconcileAll
  rw [List.map_eq_flatMap]
  exact foldl_last (fun c f => Conn.reconcile f now c) (g := Conn.report) (fun _ _ => rfl) c fs

theorem report_applyWire (x509 : X509) (w : WireEvent) (c : Conn) :
    (c.applyWire x509 w).report = c.report :=
  Conn.applyWire_frame (P := fun d => d.report = c.report) fun _ _ _ _ _ => rfl

def Sight.Lists : Sight → Prop
  | .poll _ _ fs => fs ≠ []
  | .wire _ _ => False

namespace Socket
variable {x509 : X509} {k : UInt64} {s : Socket} {P Q : Report → Prop} {u u' : Prop}

/-- Every row of the socket reports something of `P`, but a live one that is still unlisted, which
reports nothing. -/
structure Reporting (unlisted : Prop) (P : Report → Prop) (s : Socket) : Prop where
  live : ∀ c, s.live = some c → unlisted ∧ c.report = {} ∨ P c.report
  past : ∀ c ∈ s.past, P c.report ∧ c.closed = true

theorem Reporting.mono (h : s.Reporting u P) (hu : u → u') (hPQ : ∀ r, P r → Q r) : s.Reporting u' Q :=
  ⟨fun c hc => (h.live c hc).imp (fun hnone => ⟨hu hnone.1, hnone.2⟩) (hPQ _),
    fun c hc => (h.past c hc).imp (hPQ _) id⟩

theorem Reporting.opened (h : s.Reporting u P) (hu : u ∨ s.live = none → u') (now : Time) :
    u' ∧ (s.opened k now).report = {} ∨ P (s.opened k now).report := by
  unfold Socket.opened
  cases hl : s.live with
  | none => exact .inl ⟨hu (.inr hl), rfl⟩
  | some c => exact (h.live c hl).imp (fun hnone => ⟨hu (.inl hnone.1), hnone.2⟩) id

theorem Reporting.step (h : s.Reporting u P) {x : Sight} (hu : ¬x.Lists → u ∨ s.live = none → u')
    (hx : ∀ now retireNow fs, x = .poll now retireNow fs → ∀ f ∈ fs, P (reportOf f)) :
    (s.step x509 k x).Reporting u' P := by
  cases x with
  | poll now retireNow fs =>
    cases fs with
    | nil =>
      have hkeep : u → u' := fun hold => hu (fun hne => hne rfl) (.inl hold)
      refine ⟨fun c hc => ?_, fun c hc => ?_⟩
      · exact (h.live c (Option.filter_eq_some_iff.mp hc).1).imp (fun hnone => ⟨hkeep hnone.1, hnone.2⟩) id
      rcases List.mem_append.mp hc with hc | hc
      · exact h.past c hc
      · obtain ⟨d, hd, rfl⟩ := Option.map_eq_some_iff.mp (Option.mem_toList.mp hc)
        obtain ⟨hlive, hclosed⟩ := Option.filter_eq_some_iff.mp hd
        rcases h.live d hlive with ⟨-, hnone⟩ | hP
        · -- a row that reports nothing is not closed
          have hopen : d.closed = false := congrArg Report.closed hnone
          rw [hopen] at hclosed
          cases hclosed
        · exact ⟨hP, hclosed⟩
    | cons f fs =>
      refine ⟨fun c hc => .inr ?_, h.past⟩
      obtain rfl := Option.some.inj hc
      rw [report_reconcileAll]
      obtain ⟨g, hg⟩ : ∃ g, (f :: fs).getLast? = some g :=
        ⟨_, List.getLast?_eq_some_getLast (List.cons_ne_nil f fs)⟩
      rw [List.getLast?_map, hg, Option.map_some, Option.getD_some]
      exact hx now retireNow _ rfl g (List.mem_of_getLast? hg)
  | wire now w =>
    refine ⟨fun c hc => ?_, h.past⟩
    obtain rfl := Option.some.inj hc
    rw [report_applyWire]
    exact h.opened (hu id) now

end Socket

theorem mem_flowsOf {k : UInt64} {flows : List Flow} {f : Flow} :
    f ∈ Store.flowsOf k flows ↔ f ∈ flows ∧ f.sock = k := by
  unfold Store.flowsOf
  rw [List.mem_filter, decide_eq_true_iff]

/-- Some poll of the run listed the socket with this report. -/
def Listed (ops : List Op) (k : UInt64) (r : Report) : Prop :=
  ∃ v flows f, .updateFlows v flows ∈ ops ∧ f ∈ flows ∧ f.sock = k ∧ r = reportOf f

theorem Listed.later {ops : List Op} {k : UInt64} {r : Report} (h : Listed ops k r) (op : Op) :
    Listed (ops ++ [op]) k r := by
  obtain ⟨v, flows, f, hop, hf⟩ := h
  exact ⟨v, flows, f, List.mem_append_left _ hop, hf⟩

namespace Store
variable {x509 : X509} {s : Store} {ops : List Op} {op : Op} {k : UInt64}

/-- At some point of the run the socket had no live connection, and no poll since has listed it. -/
def Unlisted (x509 : X509) (s : Store) (ops : List Op) (k : UInt64) : Prop :=
  ∃ before since, before ++ since = ops ∧ (s.run x509 before).conns[k]? = none ∧
    ∀ op ∈ since, ¬Lists k op

theorem unlisted_of_free (h : (s.run x509 ops).conns[k]? = none) : s.Unlisted x509 ops k :=
  ⟨ops, [], List.append_nil _, h, fun _ hop => absurd hop List.not_mem_nil⟩

theorem Unlisted.later (h : s.Unlisted x509 ops k) (hop : ¬Lists k op) :
    s.Unlisted x509 (ops ++ [op]) k := by
  obtain ⟨before, since, rfl, hfree, hsince⟩ := h
  refine ⟨before, since ++ [op], (List.append_assoc _ _ _).symm, hfree, ?_⟩
  exact List.forall_mem_append.mpr ⟨hsince, List.forall_mem_singleton.mpr hop⟩

theorem lists_of_sight {x : Sight} (hx : sight k op = some x) (h : Lists k op) : x.Lists := by
  cases op with
  | updateFlows v flows =>
    obtain rfl := Option.some.inj hx
    exact h
  | applyWire now w | applyData d | applyClose v e | updateSSLStats stats => exact absurd h id

theorem reporting_run (x509 : X509) (maxHistory peekBytes : ℤ) (k : UInt64) (ops : List Op) :
    (((new maxHistory peekBytes).run x509 ops).socket k).Reporting
      ((new maxHistory peekBytes).Unlisted x509 ops k) (Listed ops k) := by
  induction ops using List.reverseRecOn with
  | nil =>
    change ((new maxHistory peekBytes).socket k).Reporting _ _
    rw [socket_new]
    constructor
    · intro c hc
      cases hc
    · intro c hc
      cases hc
  | append_singleton ops op ih =>
    have hrun : (new maxHistory peekBytes).run x509 (ops ++ [op]) =
        ((new maxHistory peekBytes).run x509 ops).step x509 op := List.foldl_append
    have hlisted := ih.mono id fun r hr => hr.later op
    rw [hrun, socket_step]
    cases hsight : sight k op with
    | none =>
      have hop : ¬Lists k op := by
        cases op with
        | updateFlows v flows => cases hsight
        | applyWire now w | applyData d | applyClose v e | updateSSLStats stats => exact id
      exact hlisted.mono (fun h => h.later hop) fun _ => id
    | some x =>
      refine hlisted.step (fun hx hold => ?_) fun now retireNow fs hpoll f hf => ?_
      · have hop : ¬Lists k op := fun h => hx (lists_of_sight hsight h)
        rcases hold with hold | hnone
        · exact hold.later hop
        · exact (unlisted_of_free (Option.map_eq_none_iff.mp hnone)).later hop
      · cases op with
        | updateFlows v flows =>
          obtain rfl := Option.some.inj hsight
          obtain ⟨-, -, rfl⟩ := Sight.poll.inj hpoll
          obtain ⟨hmem, hsock⟩ := mem_flowsOf.mp hf
          exact ⟨v, flows, f, List.mem_append_right _ (List.mem_singleton.mpr rfl), hmem, hsock, rfl⟩
        | applyWire now' w =>
          change (if w.sock = k ∧ w.data ≠ [] then some (Sight.wire now' w) else none) = some x at hsight
          split_ifs at hsight
          rw [hpoll] at hsight
          cases hsight
        | applyData d | applyClose v e | updateSSLStats stats => cases hsight

end Store
end Model

namespace System
open Base Loader Model Tlsparse
variable {x509 : X509} {s₀ : State} {moves : List Move}

/-- Between two polls nothing is retired, and the rows report what they reported. -/
theorem step_socket (x509 : X509) (k : UInt64) {s : State} {m : Move} (hm : ∀ v, m ≠ .applyFlows v) :
    ((step x509 s m).store.socket k).past = (s.store.socket k).past ∧
    ∀ c, ((step x509 s m).store.socket k).live = some c →
      (s.store.socket k).live = none ∧ c.report = {} ∨
      ∃ d, (s.store.socket k).live = some d ∧ d.report = c.report := by
  have hsame : (s.store.socket k).past = (s.store.socket k).past ∧
      ∀ c, (s.store.socket k).live = some c →
        (s.store.socket k).live = none ∧ c.report = {} ∨
        ∃ d, (s.store.socket k).live = some d ∧ d.report = c.report :=
    ⟨rfl, fun c hc => .inr ⟨c, hc, rfl⟩⟩
  rw [step_store]
  cases hop : call s m with
  | none => exact hsame
  | some op =>
    rw [Option.elim_some, Store.socket_step]
    cases op with
    | updateFlows v flows => exact absurd rfl (call_ne_updateFlows hm hop v flows)
    | applyWire now w =>
      have hsight : sight k (.applyWire now w) =
          if w.sock = k ∧ w.data ≠ [] then some (Sight.wire now w) else none := rfl
      rw [hsight]
      split_ifs
      · refine ⟨rfl, fun c hc => ?_⟩
        obtain rfl := Option.some.inj hc
        rw [report_applyWire]
        unfold Socket.opened
        cases hl : (s.store.socket k).live with
        | none => exact .inl ⟨rfl, rfl⟩
        | some d => exact .inr ⟨d, rfl, rfl⟩
      · exact hsame
    | applyData d | applyClose v e | updateSSLStats stats => exact hsame

/-- No snapshot that was applied since the socket last had no live connection lists it. -/
def Unlisted (x509 : X509) (s₀ : State) (moves : List Move) (k : UInt64) : Prop :=
  s₀.store.Unlisted x509 (calls x509 s₀ moves) k

theorem unlisted_of_free {k : UInt64} (h : (run x509 s₀ moves).store.conns[k]? = none) :
    Unlisted x509 s₀ moves k := by
  rw [run_store] at h
  exact Store.unlisted_of_free h

theorem Unlisted.later {k : UInt64} {m : Move} (h : Unlisted x509 s₀ moves k)
    (hm : ∀ op, call (run x509 s₀ moves) m = some op → ¬Store.Lists k op) :
    Unlisted x509 s₀ (moves ++ [m]) k := by
  unfold Unlisted at h ⊢
  rw [calls_concat]
  cases hop : call (run x509 s₀ moves) m with
  | none =>
    rw [Option.toList_none, List.append_nil]
    exact h
  | some op => exact Store.Unlisted.later h (hm op hop)

/-- At some moment of the run the entry of the socket was one of `P`. -/
def Showed (x509 : X509) (s₀ : State) (moves : List Move) (k : UInt64) (P : Bpf.Flow → Prop) : Prop :=
  ∃ pre, pre <+: moves ∧ ∃ f, (run x509 s₀ pre).kernel.flows[k]? = some f ∧ P f

/-- In every run the rows of a socket report entries that the kernel had of it. -/
theorem reporting_showed (x509 : X509) (maxHistory peekBytes : ℤ) (moves : List Move) (k : UInt64) :
    ((run x509 (init maxHistory peekBytes) moves).store.socket k).Reporting
      (Unlisted x509 (init maxHistory peekBytes) moves k) fun r =>
        Showed x509 (init maxHistory peekBytes) moves k fun f => r = reportOf (flowOf (k, f)) := by
  have hfed := fed_calls x509 maxHistory peekBytes moves
  have hrows := Store.reporting_run x509 maxHistory peekBytes k
    (calls x509 (init maxHistory peekBytes) moves)
  rw [hfed.store]
  refine hrows.mono id ?_
  rintro r ⟨v, flows, f, hop, hf, rfl, rfl⟩
  obtain ⟨pre, hpre, g, hg, hfg⟩ :=
    (hfed.flows flows (List.mem_filterMap.mpr ⟨_, hop, rfl⟩)).entry hf
  exact ⟨pre, hpre, g, hg, congrArg reportOf hfg⟩

/-- **A row shows one moment of the kernel.** In every run of the whole program, the process, the
addresses, the byte counts and the closed mark of a live row, unless no snapshot that was applied since
the socket last had no live row lists it, and of every retired one, are all those that the kernel's
entry of the socket had together at one moment of the run; and that entry was marked closed, for a
retired row. A row that is still unlisted shows none of them. -/
theorem rows_whole (x509 : X509) (maxHistory peekBytes : ℤ) (moves : List Move) :
    (∀ (k : UInt64) c, (run x509 (init maxHistory peekBytes) moves).store.conns[k]? = some c →
      Unlisted x509 (init maxHistory peekBytes) moves k ∧ c.report = {} ∨
      Showed x509 (init maxHistory peekBytes) moves k fun f => c.report = reportOf (flowOf (k, f))) ∧
    ∀ c ∈ (run x509 (init maxHistory peekBytes) moves).store.log,
      Showed x509 (init maxHistory peekBytes) moves c.sock fun f =>
        c.report = reportOf (flowOf (c.sock, f)) ∧ f.closed ≠ 0 := by
  refine ⟨fun k c hc => ?_, fun c hc => ?_⟩
  · exact (reporting_showed x509 maxHistory peekBytes moves k).live c.core
      (Store.socket_live hc)
  · obtain ⟨hshowed, hclosed⟩ := (reporting_showed x509 maxHistory peekBytes moves c.sock).past c.core
      (Store.mem_socket_past hc)
    obtain ⟨pre, hpre, f, hf, hr⟩ := hshowed
    refine ⟨pre, hpre, f, hf, hr, ?_⟩
    have hflag : c.closed = decide (f.closed ≠ 0) := congrArg Report.closed hr
    change c.closed = true at hclosed
    rw [hclosed] at hflag
    exact of_decide_eq_true hflag.symm

/-! ### The order of the moments -/

/-- A run with the moments that matter for one socket: when the snapshot in hand was taken, and the
one the row shows. -/
structure Watch where
  state : State
  clock : ℕ := 0
  taken : ℕ := 0
  shown : ℕ := 0

namespace Watch
variable {k : UInt64} {g : Watch} {m : Move}

def step (x509 : X509) (k : UInt64) (g : Watch) (m : Move) : Watch where
  state := System.step x509 g.state m
  clock := g.clock + 1
  taken :=
    match m, g.state.poller with
    | .takeFlows _ _, .idle => g.clock
    | _, _ => g.taken
  shown :=
    match m, g.state.poller with
    | .applyFlows _, .flows flows => if Store.flowsOf k flows = [] then g.shown else g.taken
    | _, _ => g.shown

/-- The entry of the socket at a moment of the run. -/
def entryAt (x509 : X509) (s₀ : State) (moves : List Move) (k : UInt64) (n : ℕ) : Option Bpf.Flow :=
  (run x509 s₀ (moves.take n)).kernel.flows[k]?

structure Inv (x509 : X509) (s₀ : State) (k : UInt64) (moves : List Move) (g : Watch) : Prop where
  state : g.state = run x509 s₀ moves
  clock : g.clock = moves.length
  taken_le : g.taken ≤ g.clock
  shown_le : g.shown ≤ g.taken
  inHand : ∀ flows, g.state.poller = .flows flows → ∀ f ∈ flows, ∃ e,
    entryAt x509 s₀ moves f.sock g.taken = some e ∧ f = flowOf (f.sock, e)
  row : ∀ c, (g.state.store.socket k).live = some c →
    Unlisted x509 s₀ moves k ∧ c.report = {} ∨ ∃ e,
      entryAt x509 s₀ moves k g.shown = some e ∧ c.report = reportOf (flowOf (k, e))

theorem entryAt_concat {n : ℕ} (hn : n ≤ moves.length) :
    entryAt x509 s₀ (moves ++ [m]) k n = entryAt x509 s₀ moves k n := by
  unfold entryAt
  rw [List.take_append_of_le_length hn]

theorem entryAt_length : entryAt x509 s₀ moves k moves.length = (run x509 s₀ moves).kernel.flows[k]? := by
  unfold entryAt
  rw [List.take_length]

theorem shown_step_of_not_poll (hm : ∀ v, m ≠ .applyFlows v) : (g.step x509 k m).shown = g.shown := by
  cases m with
  | applyFlows v => exact absurd rfl (hm v)
  | hit env h | read v | takeFlows order perm | deleteFlow | takeStats order perm | applyStats views
  | skip => rfl

theorem taken_step_of_not_take (x509 : X509) (k : UInt64) (hm : ∀ order perm, m ≠ .takeFlows order perm) :
    (g.step x509 k m).taken = g.taken := by
  cases m with
  | takeFlows order perm => exact absurd rfl (hm order perm)
  | hit env h | read v | applyFlows v | deleteFlow | takeStats order perm | applyStats views | skip =>
    rfl

theorem Inv.step_state (h : Inv x509 s₀ k moves g) (m : Move) :
    (g.step x509 k m).state = run x509 s₀ (moves ++ [m]) := by
  have hrun : run x509 s₀ (moves ++ [m]) = System.step x509 (run x509 s₀ moves) m := List.foldl_append
  rw [hrun, ← h.state]
  rfl

theorem Inv.step_clock (h : Inv x509 s₀ k moves g) (m : Move) :
    (g.step x509 k m).clock = (moves ++ [m]).length := by
  rw [List.length_append]
  exact congrArg (· + 1) h.clock

/-- A row that no poll wrote reports what it reported. -/
theorem Inv.row_quiet (h : Inv x509 s₀ k moves g) (hm : ∀ v, m ≠ .applyFlows v) :
    ∀ c, ((g.step x509 k m).state.store.socket k).live = some c →
      Unlisted x509 s₀ (moves ++ [m]) k ∧ c.report = {} ∨ ∃ e,
        entryAt x509 s₀ (moves ++ [m]) k (g.step x509 k m).shown = some e ∧
          c.report = reportOf (flowOf (k, e)) := by
  intro c hc
  have hle : g.shown ≤ moves.length := h.clock ▸ h.shown_le.trans h.taken_le
  have hquiet : Unlisted x509 s₀ moves k → Unlisted x509 s₀ (moves ++ [m]) k := by
    refine fun hold => hold.later fun op hop hlists => ?_
    cases op with
    | updateFlows v flows => exact call_ne_updateFlows hm hop v flows rfl
    | applyWire now w | applyData d | applyClose v e | updateSSLStats stats => exact hlists
  rw [shown_step_of_not_poll hm, entryAt_concat hle]
  rcases (step_socket x509 k hm).2 c hc with ⟨hfree, hnone⟩ | ⟨d, hd, hreport⟩
  · have hnew : (run x509 s₀ moves).store.conns[k]? = none :=
      h.state ▸ Option.map_eq_none_iff.mp hfree
    exact .inl ⟨hquiet (unlisted_of_free hnew), hnone⟩
  · rw [← hreport]
    exact (h.row d hd).imp (fun hold => ⟨hquiet hold.1, hold.2⟩) id

theorem Inv.quiet (h : Inv x509 s₀ k moves g) (hm : ∀ v, m ≠ .applyFlows v)
    (hm' : ∀ order perm, m ≠ .takeFlows order perm)
    (hpoller : ∀ flows, (System.step x509 g.state m).poller = .flows flows →
      g.state.poller = .flows flows) : Inv x509 s₀ k (moves ++ [m]) (g.step x509 k m) := by
  have htaken := taken_step_of_not_take x509 k (g := g) hm'
  refine ⟨h.step_state m, h.step_clock m, ?_, ?_, fun flows hp f hf => ?_, h.row_quiet hm⟩
  · rw [htaken]
    exact h.taken_le.trans (Nat.le_succ _)
  · rw [htaken, shown_step_of_not_poll hm]
    exact h.shown_le
  · rw [htaken, entryAt_concat (h.clock ▸ h.taken_le)]
    exact h.inHand flows (hpoller flows hp) f hf

theorem Inv.takeFlows (h : Inv x509 s₀ k moves g) (order : List Flow → List Flow)
    (perm : ∀ l, (order l).Perm l) :
    Inv x509 s₀ k (moves ++ [.takeFlows order perm]) (g.step x509 k (.takeFlows order perm)) := by
  cases hp : g.state.poller with
  | idle =>
    have htaken : (g.step x509 k (.takeFlows order perm)).taken = g.clock := by
      unfold step
      rw [hp]
    refine ⟨h.step_state _, h.step_clock _, ?_, ?_, fun flows hq f hf => ?_,
      h.row_quiet fun _ hv => nomatch hv⟩
    · rw [htaken]
      exact Nat.le_succ _
    · rw [htaken]
      exact h.shown_le.trans h.taken_le
    · have hown : (System.step x509 g.state (.takeFlows order perm)).poller =
          .flows (order (g.state.kernel.flows.toList.map flowOf)) := by
        unfold System.step
        rw [hp]
      obtain rfl := Poller.flows.inj (hown.symm.trans hq)
      obtain ⟨p, hmem, rfl⟩ := List.mem_map.mp ((perm _).mem_iff.mp hf)
      refine ⟨p.2, ?_, rfl⟩
      rw [htaken, h.clock, entryAt_concat le_rfl, entryAt_length, ← h.state]
      exact Table.mem_toList.mp hmem
  | flows flows | deleting socks | stats stats =>
    have hstay : System.step x509 g.state (.takeFlows order perm) = g.state := by
      unfold System.step
      rw [hp]
    have htaken : (g.step x509 k (.takeFlows order perm)).taken = g.taken := by
      unfold step
      rw [hp]
    refine ⟨h.step_state _, h.step_clock _, ?_, ?_, fun flows hq f hf => ?_,
      h.row_quiet fun _ hv => nomatch hv⟩
    · rw [htaken]
      exact h.taken_le.trans (Nat.le_succ _)
    · rw [htaken]
      exact h.shown_le
    · rw [htaken, entryAt_concat (h.clock ▸ h.taken_le)]
      exact h.inHand flows (hstay ▸ hq) f hf

/-- A poll that lists the socket shows the moment of its snapshot, one that does not leaves the row
as it is or takes it away. -/
theorem Inv.applyFlows (h : Inv x509 s₀ k moves g) (v : View) :
    Inv x509 s₀ k (moves ++ [.applyFlows v]) (g.step x509 k (.applyFlows v)) := by
  have htaken := taken_step_of_not_take x509 k (g := g) (m := .applyFlows v)
    fun _ _ hv => nomatch hv
  have hle : g.taken ≤ moves.length := h.clock ▸ h.taken_le
  cases hp : g.state.poller with
  | flows flows =>
    have hown : System.step x509 g.state (.applyFlows v) = { g.state with
        store := g.state.store.updateFlows v flows
        poller := .deleting ((flows.filter Flow.closed).map Flow.sock) } := by
      unfold System.step
      rw [hp]
    have hshown : (g.step x509 k (.applyFlows v)).shown =
        if Store.flowsOf k flows = [] then g.shown else g.taken := by
      unfold step
      rw [hp]
    refine ⟨h.step_state _, h.step_clock _, ?_, ?_, fun flows' hq f hf => ?_, fun c hc => ?_⟩
    · rw [htaken]
      exact h.taken_le.trans (Nat.le_succ _)
    · rw [htaken, hshown]
      split_ifs
      · exact h.shown_le
      · exact le_rfl
    · change (System.step x509 g.state (.applyFlows v)).poller = _ at hq
      rw [hown] at hq
      cases hq
    · change ((System.step x509 g.state (.applyFlows v)).store.socket k).live = _ at hc
      rw [hown, Store.socket_updateFlows x509] at hc
      rw [hshown]
      cases hfs : Store.flowsOf k flows with
      | nil =>
        rw [hfs] at hc
        rw [if_pos rfl, entryAt_concat (h.shown_le.trans hle)]
        refine (h.row c (Option.filter_eq_some_iff.mp hc).1).imp (fun hold => ⟨?_, hold.2⟩) id
        refine hold.1.later fun op hop hlists => ?_
        rw [← h.state] at hop
        unfold call at hop
        rw [hp] at hop
        obtain rfl := Option.some.inj hop
        exact hlists hfs
      | cons f fs =>
        rw [hfs] at hc
        rw [if_neg (List.cons_ne_nil f fs), entryAt_concat hle]
        obtain rfl := Option.some.inj hc
        rw [report_reconcileAll]
        obtain ⟨l, hl⟩ : ∃ l, (f :: fs).getLast? = some l :=
          ⟨_, List.getLast?_eq_some_getLast (List.cons_ne_nil f fs)⟩
        have hmem : l ∈ Store.flowsOf k flows := hfs ▸ List.mem_of_getLast? hl
        obtain ⟨hlisted, rfl⟩ := mem_flowsOf.mp hmem
        obtain ⟨e, he, hle⟩ := h.inHand flows hp l hlisted
        rw [List.getLast?_map, hl, Option.map_some, Option.getD_some]
        exact .inr ⟨e, he, congrArg reportOf hle⟩
  | idle | deleting socks | stats stats =>
    have hstay : System.step x509 g.state (.applyFlows v) = g.state := by
      unfold System.step
      rw [hp]
    have hshown : (g.step x509 k (.applyFlows v)).shown = g.shown := by
      unfold step
      rw [hp]
    refine ⟨h.step_state _, h.step_clock _, ?_, ?_, fun flows' hq f hf => ?_, fun c hc => ?_⟩
    · rw [htaken]
      exact h.taken_le.trans (Nat.le_succ _)
    · rw [htaken, hshown]
      exact h.shown_le
    · rw [htaken, entryAt_concat hle]
      exact h.inHand flows' (hstay ▸ hq) f hf
    · rw [hshown, entryAt_concat (h.shown_le.trans hle)]
      refine (h.row c (hstay ▸ hc)).imp (fun hold => ⟨?_, hold.2⟩) id
      refine hold.1.later fun op hop => ?_
      rw [← h.state] at hop
      unfold call at hop
      rw [hp] at hop
      cases hop

theorem Inv.step (h : Inv x509 s₀ k moves g) (m : Move) :
    Inv x509 s₀ k (moves ++ [m]) (g.step x509 k m) := by
  cases m with
  | takeFlows order perm => exact h.takeFlows order perm
  | applyFlows v => exact h.applyFlows v
  | hit env a => exact h.quiet (fun _ hv => nomatch hv) (fun _ _ hv => nomatch hv) fun _ hp => hp
  | read v | deleteFlow | takeStats order perm | applyStats views | skip =>
    refine h.quiet (fun _ hv => nomatch hv) (fun _ _ hv => nomatch hv) fun flows hp => ?_
    unfold System.step at hp
    dsimp only at hp
    split at hp <;> first | exact hp | cases hp

/-- The run, watched. -/
def watched (x509 : X509) (k : UInt64) (s₀ : State) (moves : List Move) : Watch :=
  moves.foldl (step x509 k) { state := s₀ }

theorem inv_watched (x509 : X509) (k : UInt64) (maxHistory peekBytes : ℤ) (moves : List Move) :
    Inv x509 (init maxHistory peekBytes) k moves (watched x509 k (init maxHistory peekBytes) moves) := by
  induction moves using List.reverseRecOn with
  | nil =>
    refine ⟨rfl, rfl, le_rfl, le_rfl, fun flows hp => ?_, fun c hc => ?_⟩
    · cases hp
    · cases hc
  | append_singleton moves m ih =>
    unfold watched at ih ⊢
    rw [List.foldl_concat]
    exact ih.step m

/-- The moment a row shows only moves on. -/
theorem Inv.shown_le_step (h : Inv x509 s₀ k moves g) (m : Move) :
    g.shown ≤ (g.step x509 k m).shown := by
  unfold Watch.step
  dsimp only
  split
  · split_ifs
    · exact le_rfl
    · exact h.shown_le
  · exact le_rfl

end Watch

/-- **A row never goes back.** In every run of the whole program there is, for each socket, a moment
of the kernel for each point of the run, never later than that point and never earlier than for a
point before, such that the row of the socket, unless no snapshot that was applied since the socket
last had no row lists it, shows the entry of the socket as it was at that moment. -/
theorem rows_in_order (x509 : X509) (maxHistory peekBytes : ℤ) (moves : List Move) (k : UInt64) :
    ∃ moment : ℕ → ℕ, Monotone moment ∧ ∀ n ≤ moves.length, moment n ≤ n ∧
      ∀ c, (run x509 (init maxHistory peekBytes) (moves.take n)).store.conns[k]? = some c →
        Unlisted x509 (init maxHistory peekBytes) (moves.take n) k ∧ c.report = {} ∨ ∃ f,
          (run x509 (init maxHistory peekBytes) (moves.take (moment n))).kernel.flows[k]? = some f ∧
          c.report = reportOf (flowOf (k, f)) := by
  let watch := fun n => Watch.watched x509 k (init maxHistory peekBytes) (moves.take n)
  have hinv : ∀ n, Watch.Inv x509 (init maxHistory peekBytes) k (moves.take n) (watch n) :=
    fun n => Watch.inv_watched x509 k maxHistory peekBytes (moves.take n)
  refine ⟨fun n => (watch n).shown, monotone_nat_of_le_succ fun n => ?_, fun n hn => ⟨?_, fun c hc => ?_⟩⟩
  · by_cases hlt : n < moves.length
    · have htake : moves.take (n + 1) = moves.take n ++ [moves[n]] := List.take_succ_eq_append_getElem hlt
      have hnext : watch (n + 1) = (watch n).step x509 k moves[n] := by
        change Watch.watched _ _ _ (moves.take (n + 1)) = _
        rw [htake]
        exact List.foldl_concat ..
      rw [hnext]
      exact (hinv n).shown_le_step _
    · have hsame : moves.take (n + 1) = moves.take n := by
        rw [List.take_of_length_le (by omega), List.take_of_length_le (by omega)]
      change (Watch.watched _ _ _ (moves.take n)).shown ≤
        (Watch.watched _ _ _ (moves.take (n + 1))).shown
      rw [hsame]
  · have hle := (hinv n).shown_le.trans (hinv n).taken_le
    rw [(hinv n).clock, List.length_take, Nat.min_eq_left hn] at hle
    exact hle
  · have hlive : ((watch n).state.store.socket k).live = some c.core := by
      rw [(hinv n).state]
      exact Store.socket_live hc
    refine ((hinv n).row c.core hlive).imp id fun ⟨f, hf, hreport⟩ => ⟨f, ?_, hreport⟩
    have hle := (hinv n).shown_le.trans (hinv n).taken_le
    rw [(hinv n).clock, List.length_take, Nat.min_eq_left hn] at hle
    unfold Watch.entryAt at hf
    rwa [List.take_take, Nat.min_eq_left hle] at hf

end System
end Tlstat
