import Tlstat.Model.Conservation
import Tlstat.System.OneRow
import Tlstat.Ui.Model

/-! What reaches the history in a run of the whole program, and from there the screen. The live
rows are filtered by `HasEndpoint` on the way; the history is not. -/

namespace Tlstat
open Base

/-- The end of a list after an append, when the end of the list itself is known. -/
theorem forall_tail_append {α : Type} {P : α → Prop} {l l' : List α} {n : ℕ}
    (h : ∀ a ∈ l.drop (l.length - n), P a) :
    (∀ a ∈ (l ++ l').drop ((l ++ l').length - n), P a) ↔ ∀ a ∈ l'.drop (l'.length - n), P a := by
  have hsub : (l ++ l').length - n - l.length = l'.length - n := by
    rw [List.length_append]
    omega
  rw [List.drop_append, hsub]
  constructor
  · intro hall a ha
    exact hall a (List.mem_append_right _ ha)
  · intro htail a ha
    rcases List.mem_append.mp ha with ha | ha
    · refine h a ?_
      have hsplit : (l ++ l').length - n =
          (l.length - n) + ((l ++ l').length - n - (l.length - n)) := by
        rw [List.length_append]
        omega
      rw [hsplit, ← List.drop_drop] at ha
      exact List.mem_of_mem_drop ha
    · exact htail a ha

namespace Model.Store
open Loader
variable {s : Store} {v : View} {flows : List Flow}

/-- What the retirement loop takes out of the table, in the order of the range. -/
def retiring (s : Store) (v : View) (flows : List Flow) : List Conn :=
  ((v.order (flows.foldl (updateFlow v.now) s).conns.toList).filter (gone flows)).map Prod.snd

/-- They are the closed connections that the snapshot misses, as they were before the poll. -/
theorem mem_retiring {c : Conn} : c ∈ s.retiring v flows ↔
    s.conns[c.sock]? = some c ∧ c.closed = true ∧ flowsOf c.sock flows = [] := by
  have hrow : ∀ k : UInt64, (k, c) ∈ (v.order (flows.foldl (updateFlow v.now) s).conns.toList).filter
      (gone flows) ↔ s.conns[k]? = some c ∧ c.closed = true ∧ flowsOf k flows = [] := by
    intro k
    obtain ⟨o, -, hget⟩ := foldl_updateFlow_get (s := s) (k := k) flows v.now
    rw [List.mem_filter, gone_iff, mem_order, hget]
    constructor
    · rintro ⟨hc, hflows, hclosed⟩
      rw [if_pos hflows] at hc
      exact ⟨hc, hclosed, hflows⟩
    · rintro ⟨hc, hclosed, hflows⟩
      rw [if_pos hflows]
      exact ⟨hc, hflows, hclosed⟩
  unfold retiring
  rw [← hrow, List.mem_map]
  constructor
  · rintro ⟨p, hp, rfl⟩
    have hkey : p.2.sock = p.1 := s.keyed _ _ ((hrow p.1).mp hp).1
    rwa [hkey]
  · intro h
    exact ⟨_, h, rfl⟩

theorem updateFlows_log (s : Store) (v : View) (flows : List Flow) :
    (s.updateFlows v flows).log =
      s.log ++ (s.retiring v flows).map fun c => c.retired (v.retireNow c.sock) := by
  have hsweep := foldl_sweep_log (s := flows.foldl (updateFlow v.now) s) v flows
    (nodup_order (v := v)) fun p hp => mem_order.mp hp
  have hkey : ∀ p ∈ (v.order (flows.foldl (updateFlow v.now) s).conns.toList).filter (gone flows),
      p.2.sock = p.1 := by
    intro p hp
    exact Store.keyed _ p.1 p.2 (mem_order.mp (List.mem_of_mem_filter hp))
  unfold updateFlows retiring
  rw [hsweep, foldl_updateFlow_log, List.map_map]
  refine congrArg (s.log ++ ·) (List.map_congr_left fun p hp => ?_)
  rw [Function.comp_apply, hkey p hp]

end Model.Store

namespace System
open Loader Model Tlsparse
variable {x509 : X509} {s : State}

/-- No connection is lost or doubled in a run of the whole program. -/
theorem conserved (x509 : X509) (maxHistory peekBytes : ℤ) (moves : List Move) :
    Along (step x509) (fun s => s.store.Conserved maxHistory) (init maxHistory peekBytes) moves := by
  refine along_iff_isPrefix.mpr fun pre _ => ?_
  have hrun := Store.conserved_run x509 maxHistory peekBytes (calls x509 (init maxHistory peekBytes) pre)
  rwa [show (Store.new maxHistory peekBytes).run x509 _ =
    (pre.foldl (step x509) (init maxHistory peekBytes)).store from
      (run_store x509 (init maxHistory peekBytes) pre).symm] at hrun

/-! ### The endpoints -/

theorem step_ring {n : ℕ} (h : s.store.Ring n) (m : Move) : (step x509 s m).store.Ring n := by
  rw [step_store]
  cases call s m with
  | none => exact h
  | some op => exact (Store.preserved_ring n).step op h

/-- The screen refreshed at any time in the run, in any view: the live connections are taken in
one state, the history in that state or in a later one. Every row has an endpoint. -/
def RowsFilled (x509 : X509) (s : State) (moves : List Move) : Prop :=
  ∀ pre mid, pre ++ mid <+: moves → ∀ (sorting : Sorting Conn) (v : View) (m : Ui.Model),
    ∀ c ∈ (m.refresh sorting ((run x509 s pre).store.snapshot v)
      (run x509 s (pre ++ mid)).store.snapshotHistory).rows, c.hasEndpoint = true

def HistoryFilled (s : State) : Prop := ∀ c ∈ s.store.history, c.hasEndpoint = true

instance (s : State) : Decidable (HistoryFilled s) :=
  inferInstanceAs (Decidable (∀ c ∈ s.store.history, c.hasEndpoint = true))

/-- The connections a poll retires have an endpoint by then, the last `maxHistory` of them, which
are the ones the history has room for. -/
def RetiresFilled (s : State) : Move → Prop
  | .applyFlows v =>
    match s.poller with
    | .flows flows => ∀ c ∈ (s.store.retiring v flows).drop
        ((s.store.retiring v flows).length - s.store.maxHistory), c.hasEndpoint = true
    | _ => True
  | _ => True

/-- The live rows are filtered, so only the history matters. -/
theorem rowsFilled_iff {moves : List Move} :
    RowsFilled x509 s moves ↔ Along (step x509) HistoryFilled s moves := by
  rw [along_iff_isPrefix]
  constructor
  · intro h pre hpre c hc
    have hrows := h pre [] (by rwa [List.append_nil]) Sorting.stable (View.blind 0)
      { view := .closed } c
    rw [List.append_nil] at hrows
    exact hrows (Ui.Model.mem_refresh.mpr (.inr ⟨.inl rfl, List.mem_reverse.mpr hc⟩))
  · intro h pre mid hpre sorting v m c hc
    rcases Ui.Model.mem_refresh.mp hc with ⟨-, -, hfilled⟩ | ⟨-, hhist⟩
    · exact hfilled
    · exact h (pre ++ mid) hpre c (List.mem_reverse.mp hhist)

theorem historyFilled_applyFlows {n : ℕ} {v : View} {flows : List Flow} (hring : s.store.Ring n)
    (hs : HistoryFilled s) (hpoller : s.poller = .flows flows) :
    HistoryFilled (step x509 s (.applyFlows v)) ↔ RetiresFilled s (.applyFlows v) := by
  have hstore : (step x509 s (.applyFlows v)).store = s.store.updateFlows v flows := by
    unfold step
    dsimp only
    rw [hpoller]
  have hring' : (step x509 s (.applyFlows v)).store.Ring n := step_ring hring _
  unfold HistoryFilled RetiresFilled
  dsimp only
  rw [hpoller, hring'.2, hstore, Store.updateFlows_log, hring.1]
  have htail : ∀ c ∈ s.store.log.drop (s.store.log.length - n), c.hasEndpoint = true :=
    hring.2 ▸ hs
  refine (forall_tail_append htail).trans ?_
  rw [List.length_map, ← List.map_drop]
  exact List.forall_mem_map

theorem historyFilled_step_iff {n : ℕ} (hring : s.store.Ring n) (hs : HistoryFilled s) (m : Move) :
    HistoryFilled (step x509 s m) ↔ RetiresFilled s m := by
  have hring' : (step x509 s m).store.Ring n := step_ring hring m
  have hkeep : (step x509 s m).store.log = s.store.log → HistoryFilled (step x509 s m) := by
    intro hlog c hc
    rw [hring'.2, hlog, ← hring.2] at hc
    exact hs c hc
  cases m with
  | applyFlows v =>
    cases hpoller : s.poller with
    | flows flows => exact historyFilled_applyFlows hring hs hpoller
    | idle | deleting socks | stats stats =>
      have hstuck : step x509 s (.applyFlows v) = s := by
        unfold step
        dsimp only
        rw [hpoller]
      rw [hstuck]
      refine iff_of_true hs ?_
      unfold RetiresFilled
      dsimp only
      rw [hpoller]
      trivial
  | hit env h | read v | takeFlows order perm | deleteFlow | takeStats order perm
  | applyStats views | skip =>
    exact iff_of_true (hkeep (step_log fun v hv => nomatch hv)) trivial

/-- **When every listed connection has an endpoint.** In every run, whatever is on the screen at
whatever time, exactly when no poll retires into the history a connection whose tuple no snapshot
has shown yet. -/
theorem rows_filled_iff (x509 : X509) (maxHistory peekBytes : ℤ) (moves : List Move) :
    RowsFilled x509 (init maxHistory peekBytes) moves ↔
      Meets (step x509) RetiresFilled (init maxHistory peekBytes) moves := by
  have hring : (init maxHistory peekBytes).store.Ring maxHistory.toNat :=
    ⟨rfl, List.drop_nil.symm⟩
  have hinit : HistoryFilled (init maxHistory peekBytes) := fun c hc => absurd hc List.not_mem_nil
  refine rowsFilled_iff.trans ?_
  exact along_iff_meets (p := fun _ => True) (J := fun s => s.store.Ring maxHistory.toNat)
    (fun _ m _ hs => step_ring hs m) (fun _ m _ hJ hs => historyFilled_step_iff hJ hs m)
    (fun _ _ => trivial) hring hinit

/-- A connection that is established and closed and never sends or receives, until it is
retired. -/
def silent : List Move :=
  [.hit (Bpf.Env.task 7) (.inetSockSetState 6 9 .synSent .established),
    .hit (Bpf.Env.task 7) (.inetSockSetState 6 9 .established .close)] ++ round 1 1 ++ round 0 2

/-- The history has it, and the closed view lists it. -/
theorem silent_connection_listed : ¬RowsFilled (fun _ => none) (init 500 8192) silent := by
  intro h
  have hlast : HistoryFilled (silent.foldl (System.step fun _ => none) (init 500 8192)) :=
    (rowsFilled_iff.mp h).last
  exact absurd hlast (by decide +kernel)

end System
end Tlstat
