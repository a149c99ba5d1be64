import Tlstat.System.Mirror

/-! Once the probes and the reader are quiet, two rounds of the poller bring the rows to where the
kernel is, and further rounds change nothing. -/

namespace Tlstat.Model
open Base Loader Tlsparse

theorem Conn.reconcile_again (f : Flow) (now now' : Time) (c : Conn) :
    (c.reconcile f now).reconcile f now' = c.reconcile f now := by
  unfold reconcile
  by_cases hd : f.direction = 0 <;> simp [hd]

/-- A snapshot of a table lists each key once. -/
theorem Store.flowsOf_snapshot {t : Table Bpf.Flow} {flows : List Flow}
    (h : flows.Perm (t.toList.map flowOf)) (k : UInt64) :
    flowsOf k flows = (t[k]?.map fun f => flowOf (k, f)).toList := by
  have hperm : (flowsOf k flows).Perm
      ((t.toList.filter fun p => p.1 = k).map flowOf) := by
    unfold flowsOf
    refine (h.filter _).trans (.of_eq ?_)
    rw [List.filter_map]
    rfl
  have hone : (t.toList.filter fun p => p.1 = k) = (t[k]?.map fun f => (k, f)).toList := by
    have hmem : ∀ p, p ∈ (t.toList.filter fun p => p.1 = k) ↔ t[k]? = some p.2 ∧ p.1 = k := by
      intro p
      rw [List.mem_filter, decide_eq_true_iff]
      constructor
      · rintro ⟨hp, rfl⟩
        exact ⟨Table.mem_toList.mp hp, rfl⟩
      · rintro ⟨hp, rfl⟩
        exact ⟨Table.mem_toList.mpr hp, rfl⟩
    have hnd : (t.toList.filter fun p => p.1 = k).Nodup :=
      (List.Nodup.of_map _ (Table.nodup_keys_toList t)).filter _
    cases hk : t[k]? with
    | none =>
      refine List.eq_nil_iff_forall_not_mem.mpr fun p hp => ?_
      rw [hmem, hk] at hp
      cases hp.1
    | some f =>
      refine List.perm_singleton.mp ((List.perm_ext_iff_of_nodup hnd (List.nodup_singleton _)).mpr ?_)
      intro p
      rw [hmem, hk, List.mem_singleton, Option.some.injEq]
      constructor
      · rintro ⟨rfl, rfl⟩
        rfl
      · rintro rfl
        exact ⟨rfl, rfl⟩
  rw [hone] at hperm
  cases hk : t[k]? with
  | none =>
    rw [hk] at hperm
    exact List.perm_nil.mp hperm
  | some f =>
    rw [hk] at hperm
    exact List.perm_singleton.mp hperm

namespace Socket
variable {x509 : X509} {k : UInt64}

/-- What a poll of a table shows of the socket. -/
def look (k : UInt64) (v : View) (t : Table Bpf.Flow) : Sight :=
  .poll v.now (v.retireNow k) (t[k]?.map fun f => flowOf (k, f)).toList

theorem step_look_some {t : Table Bpf.Flow} {f : Bpf.Flow} (h : t[k]? = some f) (s : Socket)
    (v : View) : s.step x509 k (look k v t) =
      { s with live := some ((s.opened k v.now).reconcile (flowOf (k, f)) v.now) } := by
  unfold look
  rw [h]
  rfl

theorem step_look_none {t : Table Bpf.Flow} (h : t[k]? = none) (s : Socket) (v : View) :
    s.step x509 k (look k v t) =
      { live := s.live.filter fun c => !c.closed
        past := s.past ++ ((s.live.filter Conn.closed).map (Conn.retired (v.retireNow k))).toList } := by
  unfold look
  rw [h]
  rfl

/-- Where the socket stands to its entry: an open entry is shown as it is, and without an entry
nothing is left to retire. -/
def Settled (k : UInt64) (entry : Option Bpf.Flow) (s : Socket) : Prop :=
  match entry with
  | none => ∀ c, s.live = some c → c.closed = false
  | some f => f.closed = 0 ∧ ∃ c now, s.live = some (Conn.reconcile (flowOf (k, f)) now c)

theorem Settled.step {t : Table Bpf.Flow} {s : Socket} (h : s.Settled k t[k]?) (v : View) :
    s.step x509 k (look k v t) = s := by
  cases ht : t[k]? with
  | none =>
    rw [ht] at h
    rw [step_look_none ht]
    cases hl : s.live with
    | none =>
      rw [← hl]
      cases s
      simp_all
    | some c =>
      have hopen : c.closed = false := h c hl
      rw [Option.filter_some, Option.filter_some, hopen]
      cases s
      simp_all
  | some f =>
    rw [ht] at h
    obtain ⟨-, c, now, hl⟩ := h
    rw [step_look_some ht]
    unfold opened
    rw [hl, Option.getD_some, Conn.reconcile_again, ← hl]

section Twice
variable {t t' : Table Bpf.Flow} {f : Bpf.Flow} (s : Socket) (v v' : View)

end Twice

end Socket
end Tlstat.Model

namespace Tlstat.System
open Base Loader Model Tlsparse

/-- What a round of the poller finds: the order of the two maps, the clock and `/proc`. -/
structure Round where
  flowOrder : List Flow → List Flow
  flowPerm : ∀ l, (flowOrder l).Perm l
  view : View
  statOrder : List SSLStat → List SSLStat
  statPerm : ∀ l, (statOrder l).Perm l
  views : SSLStat → View

/-- A round deletes as many entries as the snapshot had closed ones. -/
def Round.moves (r : Round) (closed : ℕ) : List Move :=
  .takeFlows r.flowOrder r.flowPerm :: .applyFlows r.view ::
    (List.replicate closed .deleteFlow ++ [.takeStats r.statOrder r.statPerm, .applyStats r.views])

def isClosed (p : UInt64 × Bpf.Flow) : Bool := p.2.closed ≠ 0

/-- One round of the poller while nothing else moves. -/
def turn (x509 : X509) (s : State) (r : Round) : State :=
  run x509 s (r.moves (s.kernel.flows.toList.filter isClosed).length)

section Turn
variable {x509 : X509} {s : State} {r : Round}

theorem run_deleteFlows (socks : List UInt64) {s : State} (h : s.poller = .deleting socks) :
    run x509 s (List.replicate socks.length .deleteFlow) =
      { s with
        kernel := socks.foldl (fun k sock => k.deleteFlow sock) s.kernel
        poller := .deleting [] } := by
  induction socks generalizing s with
  | nil =>
    rw [← h]
    rfl
  | cons sock socks ih =>
    have hstep : step x509 s .deleteFlow =
        { s with kernel := s.kernel.deleteFlow sock, poller := .deleting socks } := by
      unfold step
      rw [h]
    rw [List.length_cons, List.replicate_succ]
    change run x509 (step x509 s .deleteFlow) _ = _
    rw [hstep, ih rfl]
    rfl

/-- The snapshot of the round, and the closed ones of it. -/
def Round.snapshot (r : Round) (s : State) : List Flow :=
  r.flowOrder (s.kernel.flows.toList.map flowOf)

def Round.closedSocks (r : Round) (s : State) : List UInt64 :=
  ((r.snapshot s).filter Flow.closed).map Flow.sock

theorem Round.length_closedSocks (r : Round) (s : State) :
    (r.closedSocks s).length = (s.kernel.flows.toList.filter isClosed).length := by
  unfold Round.closedSocks Round.snapshot
  rw [List.length_map, ((r.flowPerm _).filter _).length_eq, List.filter_map, List.length_map]
  rfl

theorem Round.mem_closedSocks {k : UInt64} : k ∈ r.closedSocks s ↔
    ∃ f, s.kernel.flows[k]? = some f ∧ f.closed ≠ 0 := by
  unfold Round.closedSocks Round.snapshot
  rw [List.mem_map]
  constructor
  · rintro ⟨f, hf, rfl⟩
    obtain ⟨hmem, hclosed⟩ := List.mem_filter.mp hf
    obtain ⟨p, hp, rfl⟩ := List.mem_map.mp ((r.flowPerm _).mem_iff.mp hmem)
    exact ⟨p.2, Table.mem_toList.mp hp, of_decide_eq_true hclosed⟩
  · rintro ⟨f, hf, hclosed⟩
    refine ⟨flowOf (k, f), List.mem_filter.mpr ⟨(r.flowPerm _).mem_iff.mpr ?_, ?_⟩, rfl⟩
    · exact List.mem_map_of_mem (Table.mem_toList.mpr hf)
    · exact decide_eq_true hclosed

/-- One round, step by step: the whole `flows` map, the deletions, the whole `ssl_stats` map. -/
theorem turn_eq (h : s.poller = .idle) (r : Round) : turn x509 s r =
    { s with
      kernel := (r.closedSocks s).foldl (fun k sock => k.deleteFlow sock) s.kernel
      store := (s.store.updateFlows r.view (r.snapshot s)).updateSSLStats
        ((r.statOrder (((r.closedSocks s).foldl (fun k sock => k.deleteFlow sock)
          s.kernel).sslStats.toList.map statOf)).map fun st => (st, r.views st)) } := by
  have htake : step x509 s (.takeFlows r.flowOrder r.flowPerm) =
      { s with poller := .flows (r.snapshot s) } := by
    unfold step
    rw [h]
    rfl
  unfold turn Round.moves
  rw [← r.length_closedSocks s]
  change run x509 (step x509 (step x509 s _) (.applyFlows r.view)) _ = _
  rw [htake]
  change run x509 { s with
    store := s.store.updateFlows r.view (r.snapshot s)
    poller := .deleting (r.closedSocks s) } _ = _
  unfold run
  rw [List.foldl_append]
  change run x509 (run x509 _ _) _ = _
  rw [run_deleteFlows (r.closedSocks s) rfl]
  cases s
  obtain rfl := h
  rfl

theorem turn_socket (h : s.poller = .idle) (r : Round) (k : UInt64) :
    (turn x509 s r).store.socket k =
      (s.store.socket k).step x509 k (Socket.look k r.view s.kernel.flows) := by
  rw [turn_eq h]
  dsimp only
  refine (Store.socket_edit (Store.updateSSLStats_map Conn.core_zeroPlain
    (fun st smp c => c.core_accumulate st smp) _) Store.updateSSLStats_log).trans ?_
  rw [Store.socket_updateFlows x509]
  unfold Socket.look
  have hone := Store.flowsOf_snapshot (r.flowPerm (s.kernel.flows.toList.map flowOf)) k
  change Store.flowsOf k (r.snapshot s) = _ at hone
  rw [hone]

end Turn

section Settling
variable {x509 : X509} {s : State}

/-- Every socket stands where its entry does. -/
def AtRest (s : State) : Prop := ∀ k, (s.store.socket k).Settled k s.kernel.flows[k]?

/-- A state at rest has nothing to delete and nothing to retire. -/
theorem AtRest.turn (x509 : X509) (hrest : AtRest s) (h : s.poller = .idle) (r : Round) :
    (turn x509 s r).kernel = s.kernel ∧ ∀ k, (turn x509 s r).store.socket k = s.store.socket k := by
  have hnone : r.closedSocks s = [] := by
    refine List.eq_nil_iff_forall_not_mem.mpr fun k hk => ?_
    obtain ⟨f, hf, hclosed⟩ := Round.mem_closedSocks.mp hk
    have hset := hrest k
    rw [hf] at hset
    exact hclosed hset.1
  refine ⟨?_, fun k => ?_⟩
  · rw [turn_eq h, hnone]
    rfl
  · rw [turn_socket h, (hrest k).step]

/-- A round that finds the maps in their own order. -/
def Round.blind (t : ℕ) : Round := ⟨id, List.Perm.refl, View.blind t, id, List.Perm.refl, fun _ => View.blind t⟩

end Settling

end Tlstat.System
