import Mathlib.Data.List.Nodup
import Tlstat.Base.Run
import Tlstat.Model.Store

/-! What the store's primitives do to the table and to the log of retirements, stated
once so that no later proof opens them. -/

namespace Tlstat.Model
open Base Loader Tlsparse
namespace Store
variable {s : Store} {k k' : UInt64} {f : Conn → Conn} {hf : Keeps f} {v : View} {now : Time}

/-! ### Lookups -/

theorem touch_get : (s.touch k now).conns[k']? =
    if k = k' then some (s.conns[k]?.getD (s.fresh k now)) else s.conns[k']? := by
  unfold touch
  split_ifs with h hk hk
  · rw [h]
    exact (Table.get_insert ..).trans (if_pos hk)
  · exact (Table.get_insert ..).trans (if_neg hk)
  · subst hk
    obtain ⟨c, hc⟩ := Option.ne_none_iff_exists'.mp h
    rw [hc]
    rfl
  · rfl

theorem modify_get : (s.modify k f hf).conns[k']? =
    if k = k' then s.conns[k]?.map f else s.conns[k']? :=
  Table.get_modify ..

theorem mapConns_get : (s.mapConns f hf).conns[k]? = s.conns[k]?.map f := Table.get_map ..

theorem retire_get : (s.retire k now).conns[k']? = if k = k' then none else s.conns[k']? := by
  unfold retire
  split
  · next h =>
    split_ifs with hk
    · exact hk ▸ h
    · rfl
  · exact Table.get_erase ..

theorem retire_log : (s.retire k now).log =
    s.log ++ (s.conns[k]?.map (Conn.retired now)).toList := by
  unfold retire
  split
  · next h => simp [h]
  · next c h => simp [h]

/-! ### What they leave alone -/

section Frame

@[simp] theorem touch_log : (s.touch k now).log = s.log := by unfold touch; split <;> rfl
@[simp] theorem touch_pidfd : (s.touch k now).pidfd = s.pidfd := by unfold touch; split <;> rfl
@[simp] theorem touch_plainBySSL : (s.touch k now).plainBySSL = s.plainBySSL := by
  unfold touch; split <;> rfl

theorem next_le_touch : s.next ≤ (s.touch k now).next := by
  unfold touch
  split
  · exact Nat.le_succ _
  · exact le_rfl

@[simp] theorem modify_log : (s.modify k f hf).log = s.log := rfl
@[simp] theorem modify_next : (s.modify k f hf).next = s.next := rfl
@[simp] theorem modify_pidfd : (s.modify k f hf).pidfd = s.pidfd := rfl
@[simp] theorem modify_plainBySSL : (s.modify k f hf).plainBySSL = s.plainBySSL := rfl
@[simp] theorem mapConns_log : (s.mapConns f hf).log = s.log := rfl
@[simp] theorem mapConns_next : (s.mapConns f hf).next = s.next := rfl
@[simp] theorem mapConns_pidfd : (s.mapConns f hf).pidfd = s.pidfd := rfl
@[simp] theorem mapConns_plainBySSL : (s.mapConns f hf).plainBySSL = s.plainBySSL := rfl

@[simp] theorem retire_next : (s.retire k now).next = s.next := by unfold retire; split <;> rfl
@[simp] theorem retire_pidfd : (s.retire k now).pidfd = s.pidfd := by unfold retire; split <;> rfl
@[simp] theorem retire_plainBySSL : (s.retire k now).plainBySSL = s.plainBySSL := by
  unfold retire; split <;> rfl

end Frame

/-! ### Attribution -/

section Resolve
variable {pid : UInt32} {fd : Int32} {c : Conn}

/-- `resolve` writes nothing but the cache. -/
theorem resolve_snd : (s.resolve v pid fd).2 =
    { s with pidfd := (s.resolve v pid fd).2.pidfd } := by
  unfold resolve
  split
  · dsimp only
    split
    · rfl
    · split
      · rfl
      · split <;> rfl
  · rfl

@[simp] theorem resolve_conns : (s.resolve v pid fd).2.conns = s.conns := by rw [resolve_snd]
@[simp] theorem resolve_log : (s.resolve v pid fd).2.log = s.log := by rw [resolve_snd]
@[simp] theorem resolve_next : (s.resolve v pid fd).2.next = s.next := by rw [resolve_snd]
@[simp] theorem resolve_plainBySSL : (s.resolve v pid fd).2.plainBySSL = s.plainBySSL := by
  rw [resolve_snd]

theorem mem_order {p : UInt64 × Conn} : p ∈ v.order s.conns.toList ↔ s.conns[p.1]? = some p.2 :=
  (v.order_perm _).mem_iff.trans Table.mem_toList

theorem nodup_order : ((v.order s.conns.toList).map Prod.fst).Nodup :=
  ((v.order_perm _).map _).nodup_iff.mpr (Table.nodup_keys_toList _)

theorem soleLoop_eq (l : List (UInt64 × Conn)) (m : Option Conn) :
    soleLoop pid l m = match m.toList ++ (l.filter fun p => p.2.pid = pid).map Prod.snd with
      | [c] => some c
      | _ => none := by
  induction l generalizing m with
  | nil => cases m <;> rfl
  | cons p l ih =>
    unfold soleLoop
    by_cases hp : p.2.pid = pid
    · rw [if_pos hp, List.filter_cons_of_pos (by simpa using hp)]
      cases m with
      | none => rw [ih]; rfl
      | some d => rfl
    · rw [if_neg hp, List.filter_cons_of_neg (by simpa using hp)]
      exact ih m

theorem sole_eq_some_iff : s.sole v pid = some c ↔
    s.conns[c.sock]? = some c ∧ c.pid = pid ∧
      ∀ (k : UInt64) (d : Conn), s.conns[k]? = some d → d.pid = pid → k = c.sock := by
  have hmem : ∀ p : UInt64 × Conn, p ∈ (v.order s.conns.toList).filter (fun p => p.2.pid = pid) ↔
      s.conns[p.1]? = some p.2 ∧ p.2.pid = pid := by
    intro p
    rw [List.mem_filter, mem_order, decide_eq_true_iff]
  have hnd : ((v.order s.conns.toList).filter (fun p => p.2.pid = pid)).Nodup :=
    (List.Nodup.of_map _ nodup_order).filter _
  unfold sole
  rw [soleLoop_eq, Option.toList_none, List.nil_append]
  revert hmem hnd
  generalize (v.order s.conns.toList).filter (fun p => p.2.pid = pid) = l
  intro hmem hnd
  match l with
  | [] =>
    simp only [List.map_nil, reduceCtorEq, false_iff]
    intro h
    exact List.not_mem_nil ((hmem (c.sock, c)).mpr ⟨h.1, h.2.1⟩)
  | [p] =>
    simp only [List.map_cons, List.map_nil, Option.some.injEq]
    obtain ⟨hp, hpid⟩ := (hmem p).mp List.mem_cons_self
    have hsock : p.2.sock = p.1 := s.keyed _ _ hp
    constructor
    · rintro rfl
      refine ⟨hsock ▸ hp, hpid, fun k d hd hdp => ?_⟩
      have : (k, d) = p := List.mem_singleton.mp ((hmem (k, d)).mpr ⟨hd, hdp⟩)
      rw [hsock, ← this]
    · intro h
      have : (c.sock, c) = p := List.mem_singleton.mp ((hmem (c.sock, c)).mpr ⟨h.1, h.2.1⟩)
      rw [← this]
  | p :: q :: l =>
    simp only [List.map_cons, reduceCtorEq, false_iff]
    intro h
    obtain ⟨hp, hpid⟩ := (hmem p).mp List.mem_cons_self
    obtain ⟨hq, hqid⟩ := (hmem q).mp (List.mem_cons_of_mem _ List.mem_cons_self)
    have hkey : p.1 = q.1 := (h.2.2 _ _ hp hpid).trans (h.2.2 _ _ hq hqid).symm
    have hval : p.2 = q.2 := Option.some.inj (hp.symm.trans (hkey ▸ hq))
    have hne : p ≠ q := fun hpq => (List.nodup_cons.mp hnd).1 (hpq ▸ List.mem_cons_self)
    exact hne (Prod.ext hkey hval)

def cached (s : Store) (pid : UInt32) (fd : Int32) : Option Conn :=
  s.pidfd[pidfdKey pid fd]?.bind fun sock => s.conns[sock]?

/-- The first connection in range order with the peer `/proc` reports. -/
def exactMatch (s : Store) (v : View) (pid : UInt32) (fd : Int32) : Option Conn :=
  (v.procPeer pid fd).bind fun ap =>
    ((v.order s.conns.toList).find? fun p => p.2.remote = ap).map Prod.snd

/-- The three strategies of `resolve`, in order. -/
theorem resolve_fst : (s.resolve v pid fd).1 =
    if fd ≥ 0 then (s.cached pid fd).or ((s.exactMatch v pid fd).or (s.sole v pid))
    else s.sole v pid := by
  unfold resolve cached exactMatch
  split
  · dsimp only
    split
    · next c hc => rw [hc]; rfl
    · next hc =>
      rw [hc]
      split
      · next hp => rw [hp]; rfl
      · next ap hp =>
        rw [hp]
        split
        · next hfind => simp [hfind]
        · next hfind =>
          rw [Option.bind_some, hfind]
          rfl
  · rfl

theorem exactMatch_live (h : s.exactMatch v pid fd = some c) :
    s.conns[c.sock]? = some c ∧ v.procPeer pid fd = some c.remote := by
  obtain ⟨ap, hap, hc⟩ := Option.bind_eq_some_iff.mp h
  obtain ⟨p, hp, rfl⟩ := Option.map_eq_some_iff.mp hc
  have hlive : s.conns[p.1]? = some p.2 := mem_order.mp (List.mem_of_find?_eq_some hp)
  have hremote : p.2.remote = ap := by simpa using List.find?_some hp
  exact ⟨s.keyed _ _ hlive ▸ hlive, hremote ▸ hap⟩

theorem exactMatch_isSome (h : s.conns[k]? = some c) (hp : v.procPeer pid fd = some c.remote) :
    ∃ d, s.exactMatch v pid fd = some d := by
  have hfind : ((v.order s.conns.toList).find? fun p => p.2.remote = c.remote).isSome := by
    rw [List.find?_isSome]
    exact ⟨(k, c), mem_order.mpr h, by simp⟩
  obtain ⟨p, hp'⟩ := Option.isSome_iff_exists.mp hfind
  refine ⟨p.2, ?_⟩
  unfold exactMatch
  rw [hp, Option.bind_some, hp']
  rfl

theorem cached_live (h : s.cached pid fd = some c) : s.conns[c.sock]? = some c := by
  obtain ⟨sock, -, hsock⟩ := Option.bind_eq_some_iff.mp h
  exact s.keyed _ _ hsock ▸ hsock

/-- `resolve` only ever answers with a live connection. -/
theorem resolve_live (h : (s.resolve v pid fd).1 = some c) : s.conns[c.sock]? = some c := by
  rw [resolve_fst] at h
  split_ifs at h
  · rcases Option.or_eq_some_iff.mp h with h | ⟨-, h⟩
    · exact cached_live h
    · rcases Option.or_eq_some_iff.mp h with h | ⟨-, h⟩
      · exact (exactMatch_live h).1
      · exact (sole_eq_some_iff.mp h).1
  · exact (sole_eq_some_iff.mp h).1

end Resolve

/-! ### The flow poll, seen from one socket -/

section Poll
variable {flows : List Flow}

/-- The retirements of one socket, oldest first. -/
def logOf (s : Store) (k : UInt64) : List Conn := s.log.filter fun c => c.sock = k

theorem mem_logOf {c : Conn} : c ∈ s.logOf k ↔ c ∈ s.log ∧ c.sock = k := by
  unfold logOf
  rw [List.mem_filter, decide_eq_true_iff]

/-- The flows of a snapshot that describe `k`, in snapshot order. -/
def flowsOf (k : UInt64) (flows : List Flow) : List Flow := flows.filter fun f => f.sock = k

theorem flowsOf_eq_nil : flowsOf k flows = [] ↔ ∀ f ∈ flows, f.sock ≠ k := by
  unfold flowsOf
  simp only [List.filter_eq_nil_iff, decide_eq_true_iff, ne_eq]

def reconcileAll (now : Time) (fs : List Flow) (c : Conn) : Conn :=
  fs.foldl (fun c f => c.reconcile f now) c

theorem keeps_reconcileAll (fs : List Flow) : Keeps (reconcileAll now fs) := by
  intro c
  induction fs generalizing c with
  | nil => exact ⟨rfl, rfl⟩
  | cons f fs ih => exact ih (c.reconcile f now)

theorem updateFlow_get (f : Flow) : (updateFlow now s f).conns[k]? =
    if f.sock = k then some ((s.conns[k]?.getD (s.fresh k now)).reconcile f now)
    else s.conns[k]? := by
  unfold updateFlow
  rw [modify_get, touch_get, touch_get, if_pos rfl]
  split_ifs with hk
  · subst hk
    rfl
  · rfl

theorem next_le_updateFlow (f : Flow) : s.next ≤ (updateFlow now s f).next :=
  next_le_touch

theorem foldl_updateFlow_log : (flows.foldl (updateFlow now) s).log = s.log :=
  foldl_frame (updateFlow now) (g := log) (fun _ _ => touch_log) s flows

theorem next_le_foldl_updateFlow : s.next ≤ (flows.foldl (updateFlow now) s).next := by
  induction flows generalizing s with
  | nil => exact le_rfl
  | cons f fs ih => exact (next_le_updateFlow f).trans ih

/-- The reconciling loop, on one socket: the flows of `k` in order, on the entry it had or on
a new object. -/
theorem foldl_updateFlow_get (flows : List Flow) (now : Time) : ∃ o, s.next ≤ o ∧
    (flows.foldl (updateFlow now) s).conns[k]? =
      if flowsOf k flows = [] then s.conns[k]?
      else some (reconcileAll now (flowsOf k flows)
        (s.conns[k]?.getD { obj := o, sock := k, firstSeen := now })) := by
  induction flows generalizing s with
  | nil => exact ⟨s.next, le_rfl, rfl⟩
  | cons f fs ih =>
    obtain ⟨o, ho, hget⟩ := ih (s := updateFlow now s f)
    rw [List.foldl_cons, hget, updateFlow_get]
    by_cases hf : f.sock = k
    · have hcons : flowsOf k (f :: fs) = f :: flowsOf k fs :=
        List.filter_cons_of_pos (by simpa using hf)
      -- the entry exists from here on, so the object is the one made for `f`
      refine ⟨s.next, le_rfl, ?_⟩
      rw [hcons, if_pos hf, if_neg (List.cons_ne_nil _ _)]
      split_ifs with hfs
      · rw [hfs]
        rfl
      · rfl
    · have hcons : flowsOf k (f :: fs) = flowsOf k fs :=
        List.filter_cons_of_neg (by simpa using hf)
      refine ⟨o, (next_le_updateFlow f).trans ho, ?_⟩
      rw [hcons, if_neg hf]

theorem retire_logOf : (s.retire k' now).logOf k =
    s.logOf k ++ if k' = k then (s.conns[k]?.map (Conn.retired now)).toList else [] := by
  unfold logOf
  rw [retire_log, List.filter_append]
  congr 1
  cases h : s.conns[k']? with
  | none =>
    split_ifs with hk
    · rw [← hk, h]
      rfl
    · rfl
  | some c =>
    have hsock : (c.retired now).sock = k' := s.keyed k' c h
    split_ifs with hk
    · rw [← hk, h]
      exact List.filter_cons_of_pos (by simpa using hsock)
    · exact List.filter_cons_of_neg (by simpa [hsock] using hk)

variable {l : List (UInt64 × Conn)}

theorem foldl_sweep_of_not_mem (v : View) (flows : List Flow) (hl : k ∉ l.map Prod.fst) :
    (l.foldl (sweep v flows) s).conns[k]? = s.conns[k]? ∧
      (l.foldl (sweep v flows) s).logOf k = s.logOf k := by
  induction l generalizing s with
  | nil => exact ⟨rfl, rfl⟩
  | cons p l ih =>
    have hp : p.1 ≠ k := fun hp => hl (hp ▸ List.mem_cons_self)
    have hl' : k ∉ l.map Prod.fst := fun hk => hl (List.mem_cons_of_mem _ hk)
    rw [List.foldl_cons, (ih hl').1, (ih hl').2]
    unfold sweep
    split_ifs with hg
    · rw [retire_get, if_neg hp, retire_logOf, if_neg hp, List.append_nil]
      exact ⟨rfl, rfl⟩
    · exact ⟨rfl, rfl⟩

theorem foldl_sweep_of_mem (v : View) (flows : List Flow) (hl : (l.map Prod.fst).Nodup) {c : Conn}
    (hmem : (k, c) ∈ l) (hc : s.conns[k]? = some c) :
    (l.foldl (sweep v flows) s).conns[k]? = (if gone flows (k, c) then none else some c) ∧
      (l.foldl (sweep v flows) s).logOf k =
        s.logOf k ++ if gone flows (k, c) then [c.retired (v.retireNow k)] else [] := by
  induction l generalizing s with
  | nil => exact absurd hmem List.not_mem_nil
  | cons p l ih =>
    obtain ⟨hp, hl'⟩ := List.nodup_cons.mp hl
    rw [List.foldl_cons]
    rcases List.mem_cons.mp hmem with rfl | hmem
    · rw [(foldl_sweep_of_not_mem v flows hp).1, (foldl_sweep_of_not_mem v flows hp).2]
      unfold sweep
      split_ifs with hg
      · rw [retire_get, if_pos rfl, retire_logOf, if_pos rfl, hc]
        exact ⟨rfl, rfl⟩
      · exact ⟨hc, (List.append_nil _).symm⟩
    · have hpk : p.1 ≠ k := fun h => hp (h ▸ List.mem_map_of_mem hmem)
      have hs : (sweep v flows s p).conns[k]? = s.conns[k]? ∧
          (sweep v flows s p).logOf k = s.logOf k :=
        foldl_sweep_of_not_mem v flows (l := [p]) (by simpa using hpk.symm)
      obtain ⟨hget, hlog⟩ := ih hl' hmem (hs.1.trans hc)
      exact ⟨hget, hs.2 ▸ hlog⟩

/-- What the retirement loop appends to the log, in the order of the range. -/
theorem foldl_sweep_log (v : View) (flows : List Flow) (hl : (l.map Prod.fst).Nodup)
    (hlive : ∀ p ∈ l, s.conns[p.1]? = some p.2) :
    (l.foldl (sweep v flows) s).log =
      s.log ++ (l.filter (gone flows)).map fun p => p.2.retired (v.retireNow p.1) := by
  induction l generalizing s with
  | nil => exact (List.append_nil _).symm
  | cons p l ih =>
    obtain ⟨hp, hl'⟩ := List.nodup_cons.mp hl
    have hkeep : ∀ q ∈ l, (sweep v flows s p).conns[q.1]? = some q.2 := by
      intro q hq
      have hne : q.1 ≠ p.1 := fun h => hp (h ▸ List.mem_map_of_mem hq)
      have hsame := foldl_sweep_of_not_mem (s := s) v flows (l := [p]) (k := q.1) (by simpa using hne)
      exact hsame.1.trans (hlive q (List.mem_cons_of_mem _ hq))
    rw [List.foldl_cons, ih hl' hkeep]
    unfold sweep
    by_cases hg : gone flows p = true
    · rw [if_pos hg, List.filter_cons_of_pos hg, retire_log, hlive p List.mem_cons_self,
        List.map_cons, List.append_assoc]
      rfl
    · rw [if_neg hg, List.filter_cons_of_neg hg]

theorem gone_iff {c : Conn} : gone flows (k, c) = true ↔ flowsOf k flows = [] ∧ c.closed = true := by
  unfold gone
  rw [Bool.and_eq_true, Bool.not_eq_true', List.any_eq_false, flowsOf_eq_nil]
  simp only [beq_iff_eq, ne_eq]

/-- A reported socket is live after the poll, on the entry it had or on a new object. -/
theorem updateFlows_get_of_reported (h : flowsOf k flows ≠ []) : ∃ o, s.next ≤ o ∧
    (s.updateFlows v flows).conns[k]? = some (reconcileAll v.now (flowsOf k flows)
      (s.conns[k]?.getD { obj := o, sock := k, firstSeen := v.now })) ∧
    (s.updateFlows v flows).logOf k = s.logOf k := by
  obtain ⟨o, ho, hget⟩ := foldl_updateFlow_get (s := s) (k := k) flows v.now
  rw [if_neg h] at hget
  have hmem := (mem_order (v := v) (p := (k, _))).mpr hget
  have hsweep := foldl_sweep_of_mem v flows nodup_order hmem hget
  have hgone : ∀ c, gone flows (k, c) = false :=
    fun c => Bool.eq_false_iff.mpr fun hg => h (gone_iff.mp hg).1
  rw [hgone] at hsweep
  refine ⟨o, ho, hsweep.1, hsweep.2.trans ?_⟩
  unfold logOf
  rw [foldl_updateFlow_log]
  exact List.append_nil _

/-- An unreported socket is retired if it was closed and is untouched otherwise. -/
theorem updateFlows_of_unreported (h : flowsOf k flows = []) :
    (s.updateFlows v flows).conns[k]? = s.conns[k]?.filter (fun c => !c.closed) ∧
      (s.updateFlows v flows).logOf k = s.logOf k ++
        ((s.conns[k]?.filter Conn.closed).map (Conn.retired (v.retireNow k))).toList := by
  obtain ⟨o, -, hget⟩ := foldl_updateFlow_get (s := s) (k := k) flows v.now
  rw [if_pos h] at hget
  have hlog : (flows.foldl (updateFlow v.now) s).logOf k = s.logOf k := by
    unfold logOf
    rw [foldl_updateFlow_log]
  cases hc : s.conns[k]? with
  | none =>
    rw [hc] at hget
    have hnot : k ∉ (v.order (flows.foldl (updateFlow v.now) s).conns.toList).map Prod.fst := by
      intro hk
      obtain ⟨p, hp, rfl⟩ := List.mem_map.mp hk
      rw [mem_order, hget] at hp
      cases hp
    have hsweep := foldl_sweep_of_not_mem v flows
      (s := flows.foldl (updateFlow v.now) s) hnot
    exact ⟨hsweep.1.trans hget, hsweep.2.trans (hlog.trans (List.append_nil _).symm)⟩
  | some c =>
    rw [hc] at hget
    have hmem := (mem_order (v := v) (p := (k, c))).mpr hget
    have hsweep := foldl_sweep_of_mem v flows nodup_order hmem hget
    have hgone : gone flows (k, c) = c.closed := by
      rw [Bool.eq_iff_iff, gone_iff, and_iff_right h]
    rw [hgone, hlog] at hsweep
    unfold updateFlows
    cases hcl : c.closed <;> simpa [hcl, Option.filter] using hsweep

theorem foldl_sweep_frame {β : Type} {g : Store → β} (hretire : ∀ s k now, g (retire s k now) = g s)
    (s : Store) (l : List (UInt64 × Conn)) : g (l.foldl (sweep v flows) s) = g s := by
  refine foldl_frame (sweep v flows) (fun s p => ?_) s l
  unfold sweep
  split_ifs
  · exact hretire s _ _
  · rfl

theorem updateFlows_frame {β : Type} {g : Store → β}
    (hflow : ∀ s f, g (updateFlow v.now s f) = g s)
    (hretire : ∀ s k now, g (retire s k now) = g s) : g (s.updateFlows v flows) = g s :=
  (foldl_sweep_frame hretire _ _).trans (foldl_frame (updateFlow v.now) hflow s flows)

theorem updateFlows_pidfd : (s.updateFlows v flows).pidfd = s.pidfd :=
  updateFlows_frame (g := pidfd) (fun _ _ => touch_pidfd) fun _ _ _ => retire_pidfd

theorem updateFlows_plainBySSL : (s.updateFlows v flows).plainBySSL = s.plainBySSL :=
  updateFlows_frame (g := plainBySSL) (fun _ _ => touch_plainBySSL) fun _ _ _ => retire_plainBySSL

theorem next_le_updateFlows : s.next ≤ (s.updateFlows v flows).next :=
  next_le_foldl_updateFlow.trans (foldl_sweep_frame (g := next) (fun _ _ _ => retire_next) _ _).ge

end Poll

/-! ### The events, seen from one socket -/

section Events
variable {x509 : X509} {w : WireEvent} {d : DataEvent} {e : CloseEvent} {p : SSLStat × View}

theorem applyWire_get (x509 : X509) (now : Time) (hw : w.data ≠ []) : (s.applyWire x509 now w).conns[k]? =
    if w.sock = k then some ((s.conns[k]?.getD (s.fresh k now)).applyWire x509 w)
    else s.conns[k]? := by
  unfold applyWire
  rw [if_neg hw, modify_get, touch_get, touch_get, if_pos rfl]
  split_ifs with hk
  · subst hk
    rfl
  · rfl

theorem applyWire_frame {β : Type*} {g : Store → β}
    (htouch : ∀ (s : Store) k now, g (s.touch k now) = g s)
    (hmodify : ∀ (s : Store) k f hf, g (s.modify k f hf) = g s) :
    g (s.applyWire x509 now w) = g s := by
  unfold applyWire
  split_ifs
  · rfl
  · rw [hmodify, htouch]

@[simp] theorem applyWire_log : (s.applyWire x509 now w).log = s.log :=
  applyWire_frame (g := log) (fun _ _ _ => touch_log) fun _ _ _ _ => rfl

theorem applyWire_pidfd : (s.applyWire x509 now w).pidfd = s.pidfd :=
  applyWire_frame (g := pidfd) (fun _ _ _ => touch_pidfd) fun _ _ _ _ => rfl

theorem applyWire_plainBySSL : (s.applyWire x509 now w).plainBySSL = s.plainBySSL :=
  applyWire_frame (g := plainBySSL) (fun _ _ _ => touch_plainBySSL) fun _ _ _ _ => rfl

theorem next_le_applyWire : s.next ≤ (s.applyWire x509 now w).next := by
  unfold applyWire
  split_ifs
  · exact le_rfl
  · exact next_le_touch

@[simp] theorem applyData_conns : (s.applyData d).conns = s.conns := by
  unfold applyData; split_ifs <;> rfl
@[simp] theorem applyData_log : (s.applyData d).log = s.log := by
  unfold applyData; split_ifs <;> rfl
@[simp] theorem applyData_next : (s.applyData d).next = s.next := by
  unfold applyData; split_ifs <;> rfl

theorem applyClose_get : (s.applyClose v e).conns[k]? =
    if (s.resolve v e.pid e.fd).1.map Conn.sock = some k
    then s.conns[k]?.map (Conn.finalize e s.plainBySSL[e.ssl]?) else s.conns[k]? := by
  unfold applyClose
  dsimp only
  cases hr : (s.resolve v e.pid e.fd).1 with
  | none => simp
  | some c =>
    simp only [Option.map_some, Option.some.injEq, modify_get, resolve_conns, resolve_plainBySSL]
    split_ifs with hk
    · rw [hk]
    · rfl

@[simp] theorem applyClose_log : (s.applyClose v e).log = s.log := by
  unfold applyClose
  dsimp only
  cases (s.resolve v e.pid e.fd).1 <;> simp

@[simp] theorem applyClose_next : (s.applyClose v e).next = s.next := by
  unfold applyClose
  dsimp only
  cases (s.resolve v e.pid e.fd).1 <;> simp

theorem credit_get : (s.credit p).conns[k]? =
    if (s.resolve p.2 p.1.pid p.1.fd).1.map Conn.sock = some k
    then s.conns[k]?.map (Conn.accumulate p.1 s.plainBySSL[p.1.ssl]?) else s.conns[k]? := by
  unfold credit
  dsimp only
  cases hr : (s.resolve p.2 p.1.pid p.1.fd).1 with
  | none => simp
  | some c =>
    simp only [Option.map_some, Option.some.injEq, modify_get, resolve_conns, resolve_plainBySSL]
    split_ifs with hk
    · rw [hk]
    · rfl

@[simp] theorem credit_log : (s.credit p).log = s.log := by
  unfold credit
  dsimp only
  cases (s.resolve p.2 p.1.pid p.1.fd).1 <;> simp

@[simp] theorem credit_next : (s.credit p).next = s.next := by
  unfold credit
  dsimp only
  cases (s.resolve p.2 p.1.pid p.1.fd).1 <;> simp

@[simp] theorem credit_plainBySSL : (s.credit p).plainBySSL = s.plainBySSL := by
  unfold credit
  dsimp only
  cases (s.resolve p.2 p.1.pid p.1.fd).1 <;> simp

@[simp] theorem updateSSLStats_log {ps : List (SSLStat × View)} :
    (s.updateSSLStats ps).log = s.log :=
  (foldl_frame credit (g := log) (fun _ _ => credit_log) _ ps).trans mapConns_log
@[simp] theorem updateSSLStats_next {ps : List (SSLStat × View)} :
    (s.updateSSLStats ps).next = s.next :=
  (foldl_frame credit (g := next) (fun _ _ => credit_next) _ ps).trans mapConns_next

/-- The samples through the events: a data event records in one, a close drops one, and what a
snapshot does not list is dropped. -/
theorem applyData_sample {a : UInt64} : (s.applyData d).plainBySSL[a]? =
    if d.ssl = a ∧ d.data ≠ [] then some ((s.plainBySSL[a]?.getD {}).record s.peekBytes d)
    else s.plainBySSL[a]? := by
  unfold applyData
  by_cases hdata : d.data = []
  · simp [hdata]
  · rw [if_neg hdata]
    change (s.plainBySSL.insert d.ssl _)[a]? = _
    rw [Table.get_insert]
    by_cases ha : d.ssl = a
    · subst ha
      simp [hdata]
    · simp [ha]

theorem applyClose_sample {a : UInt64} : (s.applyClose v e).plainBySSL[a]? =
    if e.ssl = a then none else s.plainBySSL[a]? := by
  have hkeep : (s.applyClose v e).plainBySSL = s.plainBySSL.erase e.ssl := by
    unfold applyClose
    dsimp only
    cases (s.resolve v e.pid e.fd).1 <;> simp
  rw [hkeep, Table.get_erase]

theorem updateSSLStats_sample {a : UInt64} (ps : List (SSLStat × View)) :
    (s.updateSSLStats ps).plainBySSL[a]? =
      if ps.any (fun p => p.1.ssl == a) then s.plainBySSL[a]? else none := by
  have hcredit := foldl_frame credit (g := plainBySSL) (fun _ _ => credit_plainBySSL)
    (s.mapConns Conn.zeroPlain Conn.keeps_zeroPlain) ps
  unfold updateSSLStats
  dsimp only
  rw [hcredit, Table.get_filter, mapConns_plainBySSL]

end Events

/-- Only a poll retires. -/
theorem step_log_of_not_poll {x509 : X509} {op : Op} (hop : ∀ v flows, op ≠ .updateFlows v flows) :
    (s.step x509 op).log = s.log := by
  cases op with
  | updateFlows v flows => exact absurd rfl (hop v flows)
  | applyWire now w => exact applyWire_log
  | applyData d => exact applyData_log
  | applyClose v e => exact applyClose_log
  | updateSSLStats stats => exact updateSSLStats_log

end Store
end Tlstat.Model
