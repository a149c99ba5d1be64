import Tlstat.Model.Conservation

/-! The times of a connection. Every reading of the clock happens under the lock, so the readings of
a run follow one another; where the clock never goes back, the times of a connection are in order
and the history is in the order of closing. -/

namespace Tlstat.Model
open Base Loader Tlsparse

/-- Seen first, then active, and nothing later than `t`. -/
structure Conn.Timed (t : Time) (c : Conn) : Prop where
  firstSeen : c.firstSeen ≤ t
  lastActive : c.lastActive = 0 ∨ c.firstSeen ≤ c.lastActive ∧ c.lastActive ≤ t

theorem Conn.Timed.mono {t t' : Time} {c : Conn} (h : c.Timed t) (hle : t ≤ t') : c.Timed t' :=
  ⟨h.firstSeen.trans hle, h.lastActive.imp id fun hc => ⟨hc.1, hc.2.trans hle⟩⟩

def Conn.times (c : Conn) : Time × Time × Time := (c.firstSeen, c.lastActive, c.closedAt)

namespace Store
variable {s s' : Store} {t t' now : Time} {k : UInt64} {flows : List Flow} {v : View}

/-- The readings of the clock in an operation, in the order in which it takes them. -/
def reads (s : Store) : Op → List Time
  | .updateFlows v flows => v.now ::
    ((v.order (flows.foldl (updateFlow v.now) s).conns.toList).filter (gone flows)).map fun p =>
      v.retireNow p.1
  | .applyWire now w => if w.data ≠ [] ∧ s.conns[w.sock]? = none then [now] else []
  | .applyData _ | .applyClose _ _ | .updateSSLStats _ => []

/-- The table and the log at a time when the clock last read `t`. -/
structure Timed (t : Time) (s : Store) : Prop where
  live : ∀ (k : UInt64) c, s.conns[k]? = some c → c.closedAt = 0 ∧ c.Timed t
  past : ∀ c ∈ s.log, 0 < c.closedAt ∧ c.closedAt ≤ t ∧ c.Timed c.closedAt
  sorted : s.log.Pairwise fun a b => a.closedAt ≤ b.closedAt

theorem Timed.mono (h : s.Timed t) (hle : t ≤ t') : s.Timed t' := by
  refine ⟨fun k c hc => ?_, fun c hc => ?_, h.sorted⟩
  · obtain ⟨hopen, htimes⟩ := h.live k c hc
    exact ⟨hopen, htimes.mono hle⟩
  · obtain ⟨hpos, hclosed, htimes⟩ := h.past c hc
    exact ⟨hpos, hclosed.trans hle, htimes⟩

/-- What does not touch the times keeps them. -/
theorem Timed.frame (h : s.Timed t) (hget : ∀ k : UInt64, s'.conns[k]?.map Conn.times =
    s.conns[k]?.map Conn.times) (hlog : s'.log = s.log) : s'.Timed t := by
  refine ⟨fun k c hc => ?_, hlog ▸ h.past, hlog ▸ h.sorted⟩
  have hmap := hget k
  rw [hc] at hmap
  obtain ⟨d, hd, htimes⟩ := Option.map_eq_some_iff.mp hmap.symm
  obtain ⟨hfirst, hlast, hclosed⟩ : d.firstSeen = c.firstSeen ∧ d.lastActive = c.lastActive ∧
      d.closedAt = c.closedAt := by
    simpa only [Conn.times, Prod.mk.injEq] using htimes
  obtain ⟨hopen, hd'⟩ := h.live k d hd
  refine ⟨hclosed.symm.trans hopen, ?_, ?_⟩
  · rw [← hfirst]
    exact hd'.firstSeen
  · rw [← hfirst, ← hlast]
    exact hd'.lastActive

theorem Timed.touch (h : s.Timed t) (k : UInt64) : (s.touch k t).Timed t := by
  have hlog : (s.touch k t).log = s.log := touch_log
  refine ⟨fun k' c hc => ?_, hlog ▸ h.past, hlog ▸ h.sorted⟩
  rw [touch_get] at hc
  split_ifs at hc with hk
  · cases hs : s.conns[k]? with
    | none =>
      rw [hs] at hc
      obtain rfl := Option.some.inj hc
      exact ⟨rfl, le_rfl, .inl rfl⟩
    | some d =>
      rw [hs] at hc
      obtain rfl := Option.some.inj hc
      exact h.live k d hs
  · exact h.live k' c hc

theorem Timed.updateFlow (h : s.Timed t) (f : Flow) : (updateFlow t s f).Timed t := by
  have htouch := h.touch f.sock
  refine ⟨fun k c hc => ?_, htouch.past, htouch.sorted⟩
  change ((s.touch f.sock t).modify f.sock (Conn.reconcile f t) (Conn.keeps_reconcile f t)).conns[k]? = _
    at hc
  rw [modify_get] at hc
  split_ifs at hc
  · obtain ⟨d, hd, rfl⟩ := Option.map_eq_some_iff.mp hc
    obtain ⟨hopen, htimes⟩ := htouch.live _ d hd
    refine ⟨hopen, htimes.firstSeen, ?_⟩
    -- the entry counts as active now if its totals moved, and else as it did
    unfold Conn.reconcile
    dsimp only
    split_ifs
    · exact .inr ⟨htimes.firstSeen, le_rfl⟩
    · exact htimes.lastActive
  · exact htouch.live k c hc

theorem Timed.retire (h : s.Timed t) (ht : 0 < t) (k : UInt64) : (s.retire k t).Timed t := by
  have hlive : ∀ (k' : UInt64) c, (s.retire k t).conns[k']? = some c → c.closedAt = 0 ∧ c.Timed t := by
    intro k' c hc
    rw [retire_get] at hc
    split_ifs at hc
    exact h.live k' c hc
  cases hs : s.conns[k]? with
  | none =>
    have hlog : (s.retire k t).log = s.log := by
      rw [retire_log, hs]
      exact List.append_nil _
    exact ⟨hlive, hlog ▸ h.past, hlog ▸ h.sorted⟩
  | some c =>
    have hlog : (s.retire k t).log = s.log ++ [c.retired t] := by
      rw [retire_log, hs]
      rfl
    obtain ⟨hopen, htimes⟩ := h.live k c hs
    have hnow : (c.retired t).closedAt = t := if_pos hopen
    refine ⟨hlive, fun d hd => ?_, ?_⟩
    · rw [hlog] at hd
      rcases List.mem_append.mp hd with hd | hd
      · exact h.past d hd
      · obtain rfl := List.mem_singleton.mp hd
        rw [hnow]
        exact ⟨ht, le_rfl, htimes.firstSeen, htimes.lastActive⟩
    · rw [hlog, List.pairwise_append]
      refine ⟨h.sorted, List.pairwise_singleton _ _, fun a ha b hb => ?_⟩
      obtain rfl := List.mem_singleton.mp hb
      rw [hnow]
      exact (h.past a ha).2.1

theorem Timed.sweep (h : s.Timed t) (ps : List (UInt64 × Conn))
    (hclock : (t :: ((ps.filter (gone flows)).map fun p => v.retireNow p.1)).Pairwise (· ≤ ·)) :
    ∃ t' ∈ t :: (ps.filter (gone flows)).map fun p => v.retireNow p.1,
      (ps.foldl (sweep v flows) s).Timed t' := by
  induction ps generalizing s t with
  | nil => exact ⟨t, List.mem_singleton_self t, h⟩
  | cons p ps ih =>
    rw [List.foldl_cons]
    by_cases hgone : gone flows p = true
    · rw [List.filter_cons_of_pos hgone, List.map_cons] at hclock ⊢
      obtain ⟨hle, hrest⟩ := List.pairwise_cons.mp hclock
      have hstep : (Store.sweep v flows s p).Timed (v.retireNow p.1) := by
        unfold Store.sweep
        rw [if_pos hgone]
        exact (h.mono (hle _ List.mem_cons_self)).retire (v.retireNow_pos p.1) p.1
      obtain ⟨t', ht', htimed⟩ := ih hstep hrest
      exact ⟨t', List.mem_cons_of_mem _ ht', htimed⟩
    · rw [List.filter_cons_of_neg hgone] at hclock ⊢
      have hstay : Store.sweep v flows s p = s := if_neg hgone
      rw [hstay]
      exact ih h hclock

theorem Timed.step (x509 : X509) (h : s.Timed t) (op : Op)
    (hclock : (t :: s.reads op).Pairwise (· ≤ ·)) :
    ∃ t' ∈ t :: s.reads op, (s.step x509 op).Timed t' := by
  cases op with
  | updateFlows v flows =>
    obtain ⟨hle, hrest⟩ := List.pairwise_cons.mp hclock
    have hflows : (flows.foldl (Store.updateFlow v.now) s).Timed v.now :=
      foldl_invariant (I := Timed v.now) (p := fun _ => True) (fun s f _ hs => hs.updateFlow f)
        (fun _ _ => trivial) (h.mono (hle _ List.mem_cons_self))
    obtain ⟨t', ht', htimed⟩ := hflows.sweep _ hrest
    exact ⟨t', List.mem_cons_of_mem _ ht', htimed⟩
  | applyWire now w =>
    have hreads : s.reads (.applyWire now w) =
        if w.data ≠ [] ∧ s.conns[w.sock]? = none then [now] else [] := rfl
    change ∃ t' ∈ _, (s.applyWire x509 now w).Timed t'
    rw [hreads] at hclock ⊢
    by_cases hw : w.data = []
    · have hstay : s.applyWire x509 now w = s := if_pos hw
      rw [hstay]
      exact ⟨t, List.mem_cons_self, h⟩
    · have happly : ∀ {u : Time}, (s.touch w.sock now).Timed u → (s.applyWire x509 now w).Timed u := by
        intro u hu
        unfold Store.applyWire
        rw [if_neg hw]
        refine hu.frame (fun k => ?_) modify_log
        rw [modify_get]
        split_ifs with hk
        · rw [hk, Option.map_map]
          congr 1
          funext c
          exact Conn.applyWire_frame (P := fun d => d.times = c.times) fun _ _ _ _ _ => rfl
        · rfl
      by_cases hnew : s.conns[w.sock]? = none
      · rw [if_pos ⟨hw, hnew⟩] at hclock ⊢
        have hle : t ≤ now := (List.pairwise_cons.mp hclock).1 now List.mem_cons_self
        exact ⟨now, List.mem_cons_of_mem _ List.mem_cons_self, happly ((h.mono hle).touch w.sock)⟩
      · have hstay : s.touch w.sock now = s := by
          unfold Store.touch
          rw [dif_neg hnew]
        have htouched : (s.touch w.sock now).Timed t := by
          rw [hstay]
          exact h
        exact ⟨t, List.mem_cons_self, happly htouched⟩
  | applyData d =>
    refine ⟨t, List.mem_cons_self, h.frame (fun k => ?_) applyData_log⟩
    exact congrArg (fun m => m[k]?.map Conn.times) applyData_conns
  | applyClose v e =>
    refine ⟨t, List.mem_cons_self, h.frame (fun k => applyClose_map (fun e smp c => ?_) v e)
      applyClose_log⟩
    cases smp <;> rfl
  | updateSSLStats stats =>
    refine ⟨t, List.mem_cons_self, h.frame (fun k => updateSSLStats_map (fun c => ?_)
      (fun st smp c => ?_) stats) updateSSLStats_log⟩
    · unfold Conn.zeroPlain
      split_ifs <;> rfl
    · cases smp <;> rfl

theorem timed_run (x509 : X509) (maxHistory peekBytes : ℤ) (ops : List Op)
    (hclock : (readings (Store.step x509) reads (new maxHistory peekBytes) ops).Pairwise (· ≤ ·)) :
    ∃ t, ((new maxHistory peekBytes).run x509 ops).Timed t := by
  have hnew : (new maxHistory peekBytes).Timed 0 := by
    refine ⟨fun k c hc => ?_, fun c hc => ?_, List.Pairwise.nil⟩
    · rw [show (new maxHistory peekBytes).conns[k]? = none from Table.get_empty k] at hc
      cases hc
    · cases hc
  refine foldl_clocked (fun t s op ht hs => hs.step x509 op ht) ops ?_ hnew
  exact List.pairwise_cons.mpr ⟨fun _ _ => Nat.zero_le _, hclock⟩

/-- **The times of a connection are in order, and the history is newest first.** In every run in
which the clock never goes back between two of its readings, a live connection has no closing time
and was not active before it was first seen; a retired one was closed after it was first seen and
after it was last active, so that its lifetime is never negative; and `SnapshotHistory` lists the
retired connections by their closing time, the latest first. -/
theorem times_in_order (x509 : X509) (maxHistory peekBytes : ℤ) (ops : List Op)
    (hclock : (readings (Store.step x509) reads (new maxHistory peekBytes) ops).Pairwise (· ≤ ·)) :
    (∀ (k : UInt64) c, ((new maxHistory peekBytes).run x509 ops).conns[k]? = some c →
      c.closedAt = 0 ∧ (c.lastActive = 0 ∨ c.firstSeen ≤ c.lastActive)) ∧
    (∀ c ∈ ((new maxHistory peekBytes).run x509 ops).log,
      0 < c.closedAt ∧ c.firstSeen ≤ c.closedAt ∧
        (c.lastActive = 0 ∨ c.firstSeen ≤ c.lastActive ∧ c.lastActive ≤ c.closedAt)) ∧
    ((new maxHistory peekBytes).run x509 ops).snapshotHistory.Pairwise fun a b =>
      b.closedAt ≤ a.closedAt := by
  obtain ⟨t, h⟩ := timed_run x509 maxHistory peekBytes ops hclock
  refine ⟨fun k c hc => ?_, fun c hc => ?_, ?_⟩
  · obtain ⟨hopen, htimes⟩ := h.live k c hc
    exact ⟨hopen, htimes.lastActive.imp id And.left⟩
  · obtain ⟨hpos, -, htimes⟩ := h.past c hc
    exact ⟨hpos, htimes.firstSeen, htimes.lastActive⟩
  · unfold snapshotHistory
    rw [List.pairwise_reverse, (ring_run x509 maxHistory peekBytes ops).2]
    exact h.sorted.sublist (List.drop_sublist _ _)

/-- Two connections, retired one after the other. -/
def twoClosed : List Op :=
  let f : Flow := { sock := 1, pid := 7, dport := 443, tx := 5, closed := true }
  [.updateFlows (.blind 0) [f, { f with sock := 2 }], .applyWire 2 ⟨1, 3, [22]⟩,
    .updateFlows (.blind 2) [{ f with sock := 2 }], .updateFlows (.blind 4) []]

theorem times_in_order_twoClosed :
    ((new 500 8192).run (fun _ => none) twoClosed).snapshotHistory.map
      (fun c => (c.sock, c.closedAt)) = [(2, 5), (1, 3)] ∧
    ((new 500 8192).run (fun _ => none) twoClosed).snapshotHistory.Pairwise fun a b =>
      b.closedAt ≤ a.closedAt :=
  ⟨by decide +kernel, (times_in_order (fun _ => none) 500 8192 twoClosed (by decide +kernel)).2.2⟩

end Store
end Tlstat.Model
