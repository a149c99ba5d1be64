import Tlstat.Base.Merge
import Tlstat.Model.Chunking
import Tlstat.Tlsparse.Flags

/-! The poller and the ring reader share the table. While nothing is retired, the order in
which their calls take the lock shows in the clock fields only. -/

namespace Tlstat.Model
open Base Loader Tlsparse
namespace Conn
variable {x509 : X509} {c : Conn} {w : WireEvent} {f : Flow} {now : Time}

/-- A connection without what the clock and the allocator put into it. -/
def unclocked (c : Conn) : Conn := { c with obj := 0, firstSeen := 0, lastActive := 0 }

/-- `ApplyWire` on everything but the buffers: the new `Info`, and what its hello flags decide. -/
theorem applyWire_flags : c.applyWire x509 w =
    { c with
      wireIn := (c.applyWire x509 w).wireIn
      wireOut := (c.applyWire x509 w).wireOut
      info := (c.applyWire x509 w).info
      isTLS := (c.applyWire x509 w).info.hello || c.isTLS
      preexisting := !(c.applyWire x509 w).info.hello && c.preexisting } := by
  unfold applyWire Info.hello
  dsimp only
  split_ifs with _ h h <;> simp [h]

theorem reconcile_preexisting : (c.reconcile f now).preexisting =
    ((f.isTLS || c.isTLS) && !c.info.hello) := by
  unfold reconcile Info.hello
  rw [Bool.not_or, ← Bool.and_assoc]

theorem applyWire_hello (h : c.info.hello = true) : (c.applyWire x509 w).info.hello = true := by
  rw [applyWire_info]
  exact (parse_upIn x509 _ c.info).hello h

/-- A poll and a wire event of one connection commute: the one recomputes `Preexisting` from the
hello flags, the other clears it when it raises one, and no flag comes down in between. -/
theorem reconcile_applyWire :
    (c.applyWire x509 w).reconcile f now = (c.reconcile f now).applyWire x509 w := by
  have hbuf : ∀ d, ((c.reconcile f now).applyWire x509 w).buf d = (c.applyWire x509 w).buf d := by
    intro d
    rw [applyWire_buf, applyWire_buf]
    rfl
  have hinfo : ((c.reconcile f now).applyWire x509 w).info = (c.applyWire x509 w).info := by
    rw [applyWire_info, applyWire_info]
    rfl
  have hin : ((c.reconcile f now).applyWire x509 w).wireIn = (c.applyWire x509 w).wireIn := hbuf true
  have hout : ((c.reconcile f now).applyWire x509 w).wireOut = (c.applyWire x509 w).wireOut :=
    hbuf false
  have hup : c.info.hello = true → (c.applyWire x509 w).info.hello = true := applyWire_hello
  have hpre : ((c.applyWire x509 w).reconcile f now).preexisting =
      (!(c.applyWire x509 w).info.hello && ((f.isTLS || c.isTLS) && !c.info.hello)) := by
    rw [reconcile_preexisting]
    have htls : (c.applyWire x509 w).isTLS = ((c.applyWire x509 w).info.hello || c.isTLS) :=
      congrArg Conn.isTLS applyWire_flags
    rw [htls]
    cases hold : c.info.hello
    · cases (c.applyWire x509 w).info.hello <;> simp
    · rw [hup hold]
      simp
  rw [applyWire_flags (c := c.reconcile f now), hin, hout, hinfo, reconcile_preexisting, ← hpre,
    applyWire_flags (c := c)]
  unfold reconcile
  dsimp only
  congr 1
  exact Bool.or_left_comm ..

theorem reconcileAll_applyWire {fs : List Flow} :
    Store.reconcileAll now fs (c.applyWire x509 w) =
      (Store.reconcileAll now fs c).applyWire x509 w := by
  induction fs generalizing c with
  | nil => rfl
  | cons f fs ih =>
    change Store.reconcileAll now fs ((c.applyWire x509 w).reconcile f now) =
      (Store.reconcileAll now fs (c.reconcile f now)).applyWire x509 w
    rw [reconcile_applyWire]
    exact ih

theorem unclocked_reconcileAll (now : Time) (fs : List Flow) :
    (Store.reconcileAll now fs c).unclocked = Store.reconcileAll 0 fs c.unclocked := by
  induction fs generalizing c with
  | nil => rfl
  | cons f fs ih =>
    change (Store.reconcileAll now fs (c.reconcile f now)).unclocked =
      Store.reconcileAll 0 fs (c.unclocked.reconcile f 0)
    have hclock : (c.reconcile f now).unclocked = c.unclocked.reconcile f 0 := by
      unfold reconcile unclocked
      simp only [ite_self]
    rw [ih, hclock]

theorem unclocked_applyWire : (c.applyWire x509 w).unclocked = c.unclocked.applyWire x509 w := by
  unfold applyWire unclocked
  dsimp only
  split_ifs <;> rfl

end Conn

namespace Store
variable {s : Store} {k : UInt64} {x509 : X509}

/-! ### One row of the table, as the two goroutines see it -/

section Row
variable (k x509)

/-- The row of `k` in the table, without clocks. -/
def row (s : Store) : Option Conn := s.conns[k]?.map Conn.unclocked

def blank : Conn := { obj := 0, sock := k }

/-- What a snapshot does to the row of `k`. -/
def pollRow (e : Option Conn) (flows : List Flow) : Option Conn :=
  if flowsOf k flows = [] then e.filter fun c => !c.closed
  else some (reconcileAll 0 (flowsOf k flows) (e.getD (blank k)))

/-- What a wire event does to the row of `k`. -/
def wireRow (e : Option Conn) (w : WireEvent) : Option Conn :=
  if w.sock = k ∧ w.data ≠ [] then some ((e.getD (blank k)).applyWire x509 w) else e

/-- The snapshot does not retire the row. -/
def Spares (e : Option Conn) (flows : List Flow) : Prop :=
  flowsOf k flows = [] → e.filter Conn.closed = none

end Row

theorem getD_unclocked (o : ℕ) (now : Time) :
    (s.conns[k]?.getD { obj := o, sock := k, firstSeen := now }).unclocked =
      (row k s).getD (blank k) := by
  unfold row
  cases s.conns[k]? <;> rfl

theorem row_updateFlows (v : View) (flows : List Flow) :
    row k (s.updateFlows v flows) = pollRow k (row k s) flows := by
  unfold pollRow
  split_ifs with h
  · unfold row
    rw [(updateFlows_of_unreported h).1, Option.filter_map]
    rfl
  · obtain ⟨o, -, hget, -⟩ := updateFlows_get_of_reported (s := s) (v := v) h
    rw [← getD_unclocked o v.now, ← Conn.unclocked_reconcileAll v.now]
    unfold row
    rw [hget]
    rfl

theorem row_applyWire (now : Time) (w : WireEvent) :
    row k (s.applyWire x509 now w) = wireRow k x509 (row k s) w := by
  unfold wireRow
  by_cases hw : w.data = []
  · rw [if_neg fun h => h.2 hw]
    unfold applyWire
    rw [if_pos hw]
  · unfold row
    rw [applyWire_get x509 now hw]
    by_cases hk : w.sock = k
    · rw [if_pos hk, if_pos ⟨hk, hw⟩, Option.map_some, Conn.unclocked_applyWire]
      exact congrArg (fun c => some (Conn.applyWire x509 w c)) (getD_unclocked _ now)
    · rw [if_neg hk, if_neg fun h => hk h.1]

theorem wireRow_closed (e : Option Conn) (w : WireEvent) :
    (wireRow k x509 e w).filter Conn.closed = none ↔ e.filter Conn.closed = none := by
  unfold wireRow
  split_ifs
  · cases e <;> simp [Option.filter, Conn.applyWire_closed, blank]
  · exact Iff.rfl

theorem Spares.pollRow {e : Option Conn} {flows : List Flow} (h : Spares k e flows)
    (hrep : flowsOf k flows = []) : pollRow k e flows = e := by
  have hopen := h hrep
  unfold Store.pollRow
  rw [if_pos hrep]
  cases e with
  | none => rfl
  | some c =>
    cases hc : c.closed
    · simp [Option.filter, hc]
    · simp [Option.filter, hc] at hopen

theorem spares_wireRow {e : Option Conn} {w : WireEvent} {flows : List Flow} :
    Spares k (wireRow k x509 e w) flows ↔ Spares k e flows :=
  forall_congr' fun _ => wireRow_closed e w

/-- On one row the two kinds of call commute, unless the poll retires it. -/
theorem pollRow_wireRow {e : Option Conn} {w : WireEvent} {flows : List Flow}
    (h : Spares k e flows) :
    pollRow k (wireRow k x509 e w) flows = wireRow k x509 (pollRow k e flows) w := by
  by_cases hrep : flowsOf k flows = []
  · rw [h.pollRow hrep, (spares_wireRow.mpr h).pollRow hrep]
  · unfold pollRow
    rw [if_neg hrep, if_neg hrep]
    unfold wireRow
    split_ifs
    · exact congrArg some Conn.reconcileAll_applyWire
    · rfl

/-! ### Whole runs -/

/-- `ops` takes the snapshots and the wire events each in their order, under any clock and any
view of the outside. -/
def Interleaves : List (List Flow) → List WireEvent → List Op → Prop :=
  Merge (fun flows op => ∃ v, op = .updateFlows v flows) fun w op => ∃ now, op = .applyWire now w

/-- The call, if it is a poll, retires nothing. -/
def Retains (s : Store) : Op → Prop
  | .updateFlows v flows => (s.updateFlows v flows).log = s.log
  | _ => True

instance : ∀ (s : Store) (op : Op), Decidable (Retains s op)
  | s, .updateFlows v flows => inferInstanceAs (Decidable ((s.updateFlows v flows).log = s.log))
  | _, .applyWire _ _ => inferInstanceAs (Decidable True)
  | _, .applyData _ => inferInstanceAs (Decidable True)
  | _, .applyClose _ _ => inferInstanceAs (Decidable True)
  | _, .updateSSLStats _ => inferInstanceAs (Decidable True)

theorem Retains.spares {v : View} {flows : List Flow} (h : Retains s (.updateFlows v flows)) :
    Spares k (row k s) flows := by
  intro hrep
  have hlog : (s.updateFlows v flows).logOf k = s.logOf k := congrArg (List.filter _) h
  rw [(updateFlows_of_unreported hrep).2] at hlog
  have hnone := List.append_right_eq_self.mp hlog
  rw [Option.toList_eq_nil_iff, Option.map_eq_none_iff] at hnone
  unfold row
  rw [Option.filter_map]
  exact Option.map_eq_none_iff.mpr hnone

/-- **The poller and the reader commute.** If no poll of one interleaving retires a connection,
every interleaving of the same snapshots and wire events leaves the same live table, clocks
apart. -/
theorem polls_wires_commute (x509 : X509) {snapshots : List (List Flow)} {wires : List WireEvent}
    {ops ops' : List Op} (hops : Interleaves snapshots wires ops)
    (hops' : Interleaves snapshots wires ops') (hretain : Meets (step x509) Retains s ops)
    (k : UInt64) :
    (s.run x509 ops).conns[k]?.map Conn.unclocked =
      (s.run x509 ops').conns[k]?.map Conn.unclocked := by
  have hpoll : ∀ (s : Store) flows op, (∃ v, op = Op.updateFlows v flows) →
      row k (s.step x509 op) = pollRow k (row k s) flows := by
    rintro s flows op ⟨v, rfl⟩
    exact row_updateFlows v flows
  have hwire : ∀ (s : Store) w op, (∃ now, op = Op.applyWire now w) →
      row k (s.step x509 op) = wireRow k x509 (row k s) w := by
    rintro s w op ⟨now, rfl⟩
    exact row_applyWire now w
  have hspare : ∀ (s : Store) flows op, (∃ v, op = Op.updateFlows v flows) → Retains s op →
      Spares k (row k s) flows := by
    rintro s flows op ⟨v, rfl⟩ h
    exact h.spares
  have hmeets : Meets (pollRow k) (Spares k) (row k s) snapshots :=
    hops.meets hpoll hwire (fun _ _ _ => spares_wireRow) (fun _ _ _ => pollRow_wireRow) hspare
      hretain
  have hend : ∀ {ops}, Interleaves snapshots wires ops →
      row k (s.run x509 ops) = wires.foldl (wireRow k x509) (snapshots.foldl (pollRow k) (row k s)) :=
    fun h => h.foldl_eq hpoll hwire (fun _ _ _ => spares_wireRow) (fun _ _ _ => pollRow_wireRow)
      hmeets
  exact (hend hops).trans (hend hops').symm

def onePoll : List Flow := [{ sock := 1, pid := 7, isTLS := true, tx := 10 }]

def oneChunk : Loader.WireEvent := ⟨1, 1, [22, 3, 1]⟩

theorem poll_wire_swap :
    (((new 500 8192).run (fun _ => none)
      [.updateFlows (.blind 0) onePoll, .applyWire 2 oneChunk]).conns[(1 : UInt64)]?).map
        Conn.unclocked =
    (((new 500 8192).run (fun _ => none)
      [.applyWire 5 oneChunk, .updateFlows (.blind 7) onePoll]).conns[(1 : UInt64)]?).map
        Conn.unclocked := by
  have hpoll : Interleaves [onePoll] [oneChunk]
      [.updateFlows (.blind 0) onePoll, .applyWire 2 oneChunk] :=
    .left ⟨_, rfl⟩ (.right ⟨_, rfl⟩ .nil)
  have hwire : Interleaves [onePoll] [oneChunk]
      [.applyWire 5 oneChunk, .updateFlows (.blind 7) onePoll] :=
    .right ⟨_, rfl⟩ (.left ⟨_, rfl⟩ .nil)
  exact polls_wires_commute (fun _ => none) hpoll hwire (by decide +kernel) 1

end Store
end Tlstat.Model
