import Mathlib.Data.List.Range
import Tlstat.Base.Window
import Tlstat.Model.Chunking
import Tlstat.Model.SockReuse

/-! No connection is lost or doubled between the live table and the log of retirements, and
the history is the tail of that log. -/

namespace Tlstat.Model
open Base Loader Tlsparse
namespace Store

/-- What the primitives of the store keep. -/
structure Preserved (I : Store → Prop) : Prop where
  touch : ∀ s k now, I s → I (s.touch k now)
  modify : ∀ s k f hf, I s → I (s.modify k f hf)
  mapConns : ∀ s f hf, I s → I (s.mapConns f hf)
  retire : ∀ s k now, 0 < now → I s → I (s.retire k now)
  caches : ∀ s pidfd plain, I s → I { s with pidfd := pidfd, plainBySSL := plain }

namespace Preserved
variable {I : Store → Prop} {s : Store} {x509 : X509}

theorem resolve (h : Preserved I) (v : View) (pid : UInt32) (fd : Int32) (hs : I s) :
    I (s.resolve v pid fd).2 := by
  rw [resolve_snd]
  exact h.caches s _ s.plainBySSL hs

theorem updateFlows (h : Preserved I) (v : View) (flows : List Flow) (hs : I s) :
    I (s.updateFlows v flows) := by
  have hflows : I (flows.foldl (updateFlow v.now) s) :=
    foldl_invariant (p := fun _ => True) (fun s f _ hs => h.modify _ _ _ _ (h.touch s _ _ hs))
      (fun _ _ => trivial) hs
  refine foldl_invariant (p := fun _ => True) (fun s p _ hs => ?_) (fun _ _ => trivial) hflows
  unfold sweep
  split_ifs
  · exact h.retire s _ _ (v.retireNow_pos _) hs
  · exact hs

theorem credit (h : Preserved I) (p : SSLStat × View) (hs : I s) : I (s.credit p) := by
  have hr := h.resolve p.2 p.1.pid p.1.fd hs
  unfold Store.credit
  dsimp only
  cases (s.resolve p.2 p.1.pid p.1.fd).1 with
  | none => exact hr
  | some c => exact h.modify _ _ _ _ hr

theorem applyClose (h : Preserved I) (v : View) (e : CloseEvent) (hs : I s) :
    I (s.applyClose v e) := by
  have hr := h.resolve v e.pid e.fd hs
  unfold Store.applyClose
  dsimp only
  cases (s.resolve v e.pid e.fd).1 with
  | none => exact h.caches _ _ _ hr
  | some c => exact h.caches _ _ _ (h.modify _ _ _ _ hr)

/-- What the primitives keep, every operation keeps. -/
theorem step (h : Preserved I) (op : Op) (hs : I s) : I (s.step x509 op) := by
  cases op with
  | updateFlows v flows => exact h.updateFlows v flows hs
  | applyWire now w =>
    change I (s.applyWire x509 now w)
    unfold Store.applyWire
    split_ifs
    · exact hs
    · exact h.modify _ _ _ _ (h.touch s _ _ hs)
  | applyData d =>
    change I (s.applyData d)
    unfold Store.applyData
    split_ifs
    · exact hs
    · exact h.caches s s.pidfd _ hs
  | applyClose v e => exact h.applyClose v e hs
  | updateSSLStats stats =>
    have hcredit : I (stats.foldl Store.credit (s.mapConns Conn.zeroPlain Conn.keeps_zeroPlain)) :=
      foldl_invariant (p := fun _ => True) (fun s p _ hs => h.credit p hs) (fun _ _ => trivial)
        (h.mapConns s _ _ hs)
    exact h.caches _ _ _ hcredit

theorem run (h : Preserved I) (ops : List Op) (hs : I s) : I (s.run x509 ops) :=
  foldl_invariant (p := fun _ => True) (fun _ op _ hs => h.step op hs) (fun _ _ => trivial) hs

end Preserved

/-! ### Every object is somewhere -/

/-- The objects the store can still reach, live ones first. -/
def objects (s : Store) : List ℕ := s.conns.toList.map (fun p => p.2.obj) ++ s.log.map Conn.obj

theorem mem_objects {s : Store} {o : ℕ} : o ∈ s.objects ↔ ∃ c, s.Holds c ∧ c.obj = o := by
  unfold objects
  rw [List.mem_append, List.mem_map, List.mem_map]
  constructor
  · rintro (⟨p, hp, rfl⟩ | ⟨c, hc, rfl⟩)
    · exact ⟨p.2, holds_of_live (Table.mem_toList.mp hp), rfl⟩
    · exact ⟨c, .inr hc, rfl⟩
  · rintro ⟨c, hc | hc, rfl⟩
    · exact .inl ⟨(c.sock, c), Table.mem_toList.mpr hc, rfl⟩
    · exact .inr ⟨c, hc, rfl⟩

theorem nodup_objects (s : Store) : s.objects.Nodup := by
  unfold objects
  rw [List.nodup_append]
  refine ⟨?_, s.log_nodup, ?_⟩
  · refine List.Nodup.map_on ?_ (List.Nodup.of_map _ (Table.nodup_keys_toList s.conns))
    intro p hp q hq ho
    have hp' : s.conns[p.1]? = some p.2 := Table.mem_toList.mp hp
    have hq' : s.conns[q.1]? = some q.2 := Table.mem_toList.mp hq
    have hkey : p.1 = q.1 := s.live_inj _ _ _ _ hp' hq' ho
    exact Prod.ext hkey (Option.some.inj (hp'.symm.trans (hkey ▸ hq')))
  · intro a ha b hb
    obtain ⟨p, hp, rfl⟩ := List.mem_map.mp ha
    obtain ⟨c, hc, rfl⟩ := List.mem_map.mp hb
    exact (s.log_ne c hc p.1 p.2 (Table.mem_toList.mp hp)).symm

def Full (s : Store) : Prop := ∀ o < s.next, ∃ c, s.Holds c ∧ c.obj = o

theorem Full.of_maps {s t : Store} (hs : s.Full) (hnext : t.next = s.next) (hlog : t.log = s.log)
    (hget : ∀ (k : UInt64) c, s.conns[k]? = some c → ∃ d, t.conns[k]? = some d ∧ d.obj = c.obj) :
    t.Full := by
  intro o ho
  obtain ⟨c, hc | hc, rfl⟩ := hs o (hnext ▸ ho)
  · obtain ⟨d, hd, hdo⟩ := hget _ c hc
    exact ⟨d, holds_of_live hd, hdo⟩
  · exact ⟨c, .inr (hlog ▸ hc), rfl⟩

theorem preserved_full : Preserved Full where
  touch := by
    intro s k now hs
    by_cases h : s.conns[k]? = none
    · intro o ho
      have hnext : (s.touch k now).next = s.next + 1 := by
        unfold touch
        rw [dif_pos h]
      rw [hnext] at ho
      rcases Nat.lt_succ_iff_lt_or_eq.mp ho with ho | rfl
      · obtain ⟨c, hc | hc, rfl⟩ := hs o ho
        · refine ⟨c, holds_of_live (k := c.sock) ?_, rfl⟩
          have hne : k ≠ c.sock := by
            rintro rfl
            rw [hc] at h
            cases h
          rw [touch_get, if_neg hne, hc]
        · exact ⟨c, .inr (touch_log.symm ▸ hc), rfl⟩
      · refine ⟨s.fresh k now, holds_of_live (k := k) ?_, rfl⟩
        rw [touch_get, if_pos rfl, h]
        rfl
    · unfold touch
      rwa [dif_neg h]
  modify := by
    intro s k f hf hs
    refine hs.of_maps rfl rfl fun k' c hc => ?_
    rw [modify_get]
    split_ifs with hk
    · rw [hk, hc]
      exact ⟨f c, rfl, (hf c).1⟩
    · exact ⟨c, hc, rfl⟩
  mapConns := by
    intro s f hf hs
    refine hs.of_maps rfl rfl fun k c hc => ?_
    rw [mapConns_get, hc]
    exact ⟨f c, rfl, (hf c).1⟩
  retire := by
    intro s k now _ hs o ho
    rw [retire_next] at ho
    obtain ⟨c, hc | hc, rfl⟩ := hs o ho
    · by_cases hk : k = c.sock
      · refine ⟨c.retired now, .inr ?_, rfl⟩
        rw [retire_log, hk, hc]
        simp
      · refine ⟨c, holds_of_live (k := c.sock) ?_, rfl⟩
        rw [retire_get, if_neg hk, hc]
    · refine ⟨c, .inr ?_, rfl⟩
      rw [retire_log]
      exact List.mem_append_left _ hc
  caches := fun _ _ _ hs => hs

theorem Full.perm {s : Store} (hs : s.Full) : s.objects.Perm (List.range s.next) := by
  refine (List.perm_ext_iff_of_nodup s.nodup_objects List.nodup_range).mpr fun o => ?_
  rw [mem_objects, List.mem_range]
  constructor
  · rintro ⟨c, hc, rfl⟩
    exact hc.lt_next
  · exact hs o

/-! ### The history ring -/

/-- The history is the end of the log, as long as the ring allows. -/
def Ring (maxHistory : ℕ) (s : Store) : Prop :=
  s.maxHistory = maxHistory ∧ s.history = s.log.drop (s.log.length - maxHistory)

theorem trim_append (l : List Conn) (c : Conn) (n : ℕ) :
    trim n (l.drop (l.length - n) ++ [c]) = (l ++ [c]).drop ((l ++ [c]).length - n) := by
  have htrim : ∀ l : List Conn, trim n l = lastN n l := by
    intro l
    unfold trim
    split_ifs with hlen
    · rw [lastN_eq_drop]
    · exact (lastN_of_length_le (Nat.le_of_not_lt hlen)).symm
  rw [htrim, ← lastN_eq_drop, ← lastN_eq_drop, lastN_lastN_append]

theorem preserved_ring (maxHistory : ℕ) : Preserved (Ring maxHistory) where
  touch := by
    intro s k now hs
    unfold touch
    split_ifs <;> exact hs
  modify := fun _ _ _ _ hs => hs
  mapConns := fun _ _ _ hs => hs
  retire := by
    intro s k now _ hs
    unfold retire
    split
    · exact hs
    · next c h =>
      refine ⟨hs.1, ?_⟩
      change (if s.maxHistory = 0 then s.history else trim s.maxHistory (s.history ++ [c.retired now])) =
        (s.log ++ [c.retired now]).drop ((s.log ++ [c.retired now]).length - maxHistory)
      rw [hs.1, hs.2]
      split_ifs with hzero
      · simp [hzero]
      · exact trim_append s.log _ maxHistory
  caches := fun _ _ _ hs => hs

def Sealed (s : Store) : Prop := ∀ c ∈ s.log, c.closedAt ≠ 0 ∧ c.wireOut = [] ∧ c.wireIn = []

theorem preserved_sealed : Preserved Sealed where
  touch := fun _ _ _ hs => by
    unfold Sealed
    rwa [touch_log]
  modify := fun _ _ _ _ hs => hs
  mapConns := fun _ _ _ hs => hs
  retire := by
    intro s k now hnow hs c hc
    rw [retire_log] at hc
    rcases List.mem_append.mp hc with hc | hc
    · exact hs c hc
    · obtain ⟨d, -, rfl⟩ := Option.map_eq_some_iff.mp (Option.mem_toList.mp hc)
      refine ⟨?_, rfl, rfl⟩
      change (if d.closedAt = 0 then now else d.closedAt) ≠ 0
      split_ifs with h
      · exact hnow.ne'
      · exact h
  caches := fun _ _ _ hs => hs

theorem preserved_log (l : List Conn) : Preserved fun s => l <+: s.log where
  touch := fun _ _ _ hs => by rwa [touch_log]
  modify := fun _ _ _ _ hs => hs
  mapConns := fun _ _ _ hs => hs
  retire := by
    intro s k now _ hs
    rw [retire_log]
    exact hs.trans (List.prefix_append _ _)
  caches := fun _ _ _ hs => hs

/-! ### What a retirement needs -/

/-- The call is a poll that lists `k`. -/
def Lists (k : UInt64) : Op → Prop
  | .updateFlows _ flows => flowsOf k flows ≠ []
  | _ => False

/-- The last snapshot that listed `k` said closed, and object `o` was live on `k` by then. -/
def LastClosed (x509 : X509) (s : Store) (ops : List Op) (k : UInt64) (o : ℕ) : Prop :=
  ∃ pre v flows post, ops = pre ++ .updateFlows v flows :: post ∧ Reports k true flows ∧
    (∀ op ∈ post, ¬Lists k op) ∧
    (s.run x509 (pre ++ [.updateFlows v flows])).conns[k]?.map Conn.obj = some o

variable {x509 : X509} {s : Store} {ops : List Op} {k : UInt64} {o : ℕ}

theorem LastClosed.later {op : Op} (h : LastClosed x509 s ops k o) (hop : ¬Lists k op) :
    LastClosed x509 s (ops ++ [op]) k o := by
  obtain ⟨pre, v, flows, post, rfl, hrep, hpost, hobj⟩ := h
  refine ⟨pre, v, flows, post ++ [op], by simp, hrep, fun a ha => ?_, hobj⟩
  rcases List.mem_append.mp ha with ha | ha
  · exact hpost a ha
  · exact List.mem_singleton.mp ha ▸ hop

theorem reconcileAll_closed {now : Time} {fs : List Flow} {c : Conn} {f : Flow}
    (h : fs.getLast? = some f) : (reconcileAll now fs c).closed = f.closed := by
  obtain ⟨init, rfl⟩ := List.getLast?_eq_some_iff.mp h
  unfold reconcileAll
  rw [List.foldl_append]
  rfl

/-- A connection that is marked closed after a call was marked by that call, which then lists it,
or before it. -/
theorem closed_step {op : Op} {c : Conn} (hc : (s.step x509 op).conns[k]? = some c)
    (hclosed : c.closed = true) :
    (∃ v flows, op = .updateFlows v flows ∧ Reports k true flows) ∨
    ¬Lists k op ∧ s.conns[k]?.map (fun d => (d.obj, d.closed)) = some (c.obj, true) := by
  -- a call that rewrites the row in place, if it touches it at all
  have hedit : (s.step x509 op).conns[k]?.map (fun d => (d.obj, d.closed)) =
      s.conns[k]?.map (fun d => (d.obj, d.closed)) →
      s.conns[k]?.map (fun d => (d.obj, d.closed)) = some (c.obj, true) := by
    intro hmap
    rw [← hmap, hc, Option.map_some, hclosed]
  cases op with
  | updateFlows v flows =>
    change (s.updateFlows v flows).conns[k]? = some c at hc
    by_cases hrep : flowsOf k flows = []
    · rw [(updateFlows_of_unreported hrep).1] at hc
      have hopen := (Option.filter_eq_some_iff.mp hc).2
      rw [hclosed] at hopen
      exact absurd hopen Bool.false_ne_true
    · obtain ⟨o, -, hget, -⟩ := updateFlows_get_of_reported (s := s) (v := v) hrep
      rw [hget] at hc
      obtain rfl := Option.some.inj hc
      have hlast := List.getLast?_eq_getLast_of_ne_nil hrep
      rw [reconcileAll_closed hlast] at hclosed
      exact .inl ⟨v, flows, rfl, _, hlast, hclosed⟩
  | applyWire now w =>
    refine .inr ⟨id, hedit ?_⟩
    change (s.applyWire x509 now w).conns[k]?.map _ = _
    by_cases hw : w.data = []
    · unfold Store.applyWire
      rw [if_pos hw]
    · change (s.applyWire x509 now w).conns[k]? = some c at hc
      cases hd : s.conns[k]? with
      | none =>
        rw [applyWire_get x509 now hw, hd] at hc
        split_ifs at hc
        obtain rfl := Option.some.inj hc
        rw [Conn.applyWire_closed] at hclosed
        exact absurd hclosed Bool.false_ne_true
      | some d =>
        rw [applyWire_get x509 now hw, hd]
        split_ifs
        · rw [Option.map_some, Option.getD_some, (Conn.keeps_applyWire x509 w d).1,
            Conn.applyWire_closed]
          rfl
        · rfl
  | applyData d =>
    refine .inr ⟨id, hedit ?_⟩
    change (s.applyData d).conns[k]?.map _ = _
    rw [applyData_conns]
  | applyClose v e =>
    exact .inr ⟨id, hedit (applyClose_map (fun _ smp _ => by cases smp <;> rfl) v e)⟩
  | updateSSLStats stats =>
    refine .inr ⟨id, hedit (updateSSLStats_map (fun c => ?_) (fun _ smp _ => ?_) stats)⟩
    · unfold Conn.zeroPlain
      split_ifs <;> rfl
    · cases smp <;> rfl

/-- A live connection is marked closed only by the last snapshot that lists it. -/
theorem lastClosed_of_closed {c : Conn} (hs : ∀ (k : UInt64) c, s.conns[k]? = some c → c.closed = false)
    (hc : (s.run x509 ops).conns[k]? = some c) (hclosed : c.closed = true) :
    LastClosed x509 s ops k c.obj := by
  induction ops using List.reverseRecOn generalizing c with
  | nil => exact absurd (hs k c hc) (by simp [hclosed])
  | append_singleton ops op ih =>
    have hrun : s.run x509 (ops ++ [op]) = (s.run x509 ops).step x509 op := List.foldl_append
    have hstep := hc
    rw [hrun] at hstep
    rcases closed_step hstep hclosed with ⟨v, flows, rfl, hrep⟩ | ⟨hop, hbefore⟩
    · exact ⟨ops, v, flows, [], rfl, hrep, by simp, congrArg (Option.map Conn.obj) hc⟩
    · obtain ⟨d, hd, hpair⟩ := Option.map_eq_some_iff.mp hbefore
      obtain ⟨hobj, hcl⟩ := Prod.mk.inj hpair
      exact hobj ▸ (ih hd hcl).later hop

/-- What enters the log in one call: a connection whose socket the snapshot misses. -/
theorem retired_in_step {op : Op} {c : Conn} (hc : c ∈ (s.step x509 op).log) (hnew : c ∉ s.log) :
    ∃ v flows d, op = .updateFlows v flows ∧ flowsOf c.sock flows = [] ∧
      s.conns[c.sock]? = some d ∧ d.closed = true ∧ c.obj = d.obj := by
  cases op with
  | updateFlows v flows =>
    change c ∈ (s.updateFlows v flows).log at hc
    have hmem : c ∈ (s.updateFlows v flows).logOf c.sock := mem_logOf.mpr ⟨hc, rfl⟩
    by_cases hrep : flowsOf c.sock flows = []
    · rw [(updateFlows_of_unreported hrep).2] at hmem
      rcases List.mem_append.mp hmem with hmem | hmem
      · exact absurd (mem_log_of_mem_logOf hmem) hnew
      · obtain ⟨d, hd, hdc⟩ := Option.map_eq_some_iff.mp (Option.mem_toList.mp hmem)
        obtain ⟨hlive, hclosed⟩ := Option.filter_eq_some_iff.mp hd
        exact ⟨v, flows, d, rfl, hrep, hlive, hclosed, hdc ▸ rfl⟩
    · obtain ⟨o, -, -, hlog⟩ := updateFlows_get_of_reported (s := s) (v := v) hrep
      rw [hlog] at hmem
      exact absurd (mem_log_of_mem_logOf hmem) hnew
  | applyWire now w => exact absurd (applyWire_log (s := s) ▸ hc) hnew
  | applyData d => exact absurd (applyData_log (s := s) ▸ hc) hnew
  | applyClose v e => exact absurd (applyClose_log (s := s) ▸ hc) hnew
  | updateSSLStats stats => exact absurd (updateSSLStats_log (s := s) ▸ hc) hnew

/-- What holds between two calls: every object made so far is live under its own socket or in
the log, once, and the history is the end of the log. -/
structure Conserved (maxHistory : ℤ) (s : Store) : Prop where
  once : (s.conns.toList.map (fun p => p.2.obj) ++ s.log.map Conn.obj).Perm (List.range s.next)
  own_key : ∀ (k : UInt64) (c : Conn), s.conns[k]? = some c → c.sock = k
  history : s.history = s.log.drop (s.log.length - maxHistory.toNat)
  reversed : s.snapshotHistory = s.history.reverse
  entries : ∀ c ∈ s.snapshotHistory, c.closedAt ≠ 0 ∧ c.wireOut = [] ∧ c.wireIn = []

theorem ring_run (x509 : X509) (maxHistory peekBytes : ℤ) (ops : List Op) :
    Ring maxHistory.toNat ((new maxHistory peekBytes).run x509 ops) :=
  (preserved_ring _).run ops ⟨rfl, List.drop_nil.symm⟩

theorem conserved_run (x509 : X509) (maxHistory peekBytes : ℤ) (ops : List Op) :
    Conserved maxHistory ((new maxHistory peekBytes).run x509 ops) where
  once := by
    refine Full.perm (preserved_full.run ops fun o ho => ?_)
    exact absurd ho (Nat.not_lt_zero o)
  own_key := Store.keyed _
  history := (ring_run x509 maxHistory peekBytes ops).2
  reversed := rfl
  entries := by
    intro c hc
    have hseal : Sealed ((new maxHistory peekBytes).run x509 ops) :=
      preserved_sealed.run ops fun c hc => absurd hc List.not_mem_nil
    exact hseal c (Store.history_sub _ c (List.mem_reverse.mp hc))

/-- **Connections are conserved.** In every run from an empty store every object is in one place
at each moment; the log only grows, by connections that a poll misses after the last snapshot
that listed them said closed; and nothing else changes the history. -/
theorem connections_conserved (x509 : X509) (maxHistory peekBytes : ℤ) (ops : List Op) :
    Conserved maxHistory ((new maxHistory peekBytes).run x509 ops) ∧
    ∀ op,
      ((new maxHistory peekBytes).run x509 ops).log <+:
        ((new maxHistory peekBytes).run x509 (ops ++ [op])).log ∧
      (∀ c ∈ ((new maxHistory peekBytes).run x509 (ops ++ [op])).log,
        c ∉ ((new maxHistory peekBytes).run x509 ops).log →
        (∃ v flows, op = .updateFlows v flows ∧ flowsOf c.sock flows = []) ∧
        ((new maxHistory peekBytes).run x509 ops).conns[c.sock]?.map Conn.obj = some c.obj ∧
        LastClosed x509 (new maxHistory peekBytes) ops c.sock c.obj) ∧
      ((∀ v flows, op ≠ .updateFlows v flows) →
        ((new maxHistory peekBytes).run x509 (ops ++ [op])).log =
          ((new maxHistory peekBytes).run x509 ops).log) ∧
      (((new maxHistory peekBytes).run x509 (ops ++ [op])).log =
          ((new maxHistory peekBytes).run x509 ops).log →
        ((new maxHistory peekBytes).run x509 (ops ++ [op])).history =
          ((new maxHistory peekBytes).run x509 ops).history) := by
  refine ⟨conserved_run x509 maxHistory peekBytes ops, fun op => ?_⟩
  have hring := ring_run x509 maxHistory peekBytes ops
  have hring' := ring_run x509 maxHistory peekBytes (ops ++ [op])
  have hopen : ∀ (k : UInt64) c, (new maxHistory peekBytes).conns[k]? = some c → c.closed = false := by
    intro k c hc
    rw [show (new maxHistory peekBytes).conns = ∅ from rfl, Table.get_empty] at hc
    cases hc
  have hrun : (new maxHistory peekBytes).run x509 (ops ++ [op]) =
      ((new maxHistory peekBytes).run x509 ops).step x509 op := List.foldl_append
  refine ⟨?_, fun c hc hnew => ?_, fun hop => hrun ▸ step_log_of_not_poll hop, fun hlog => ?_⟩
  · rw [hrun]
    exact (preserved_log _).step op List.prefix_rfl
  · rw [hrun] at hc
    obtain ⟨v, flows, d, hop, hrep, hd, hclosed, hobj⟩ := retired_in_step hc hnew
    refine ⟨⟨v, flows, hop, hrep⟩, by rw [hd, hobj]; rfl, ?_⟩
    rw [hobj]
    exact lastClosed_of_closed hopen hd hclosed
  · rw [hring'.2, hring.2, hlog]

end Store
end Tlstat.Model
