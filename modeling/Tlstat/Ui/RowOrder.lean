import Tlstat.Model.Spec
import Tlstat.Ui.Model

/-! The order of the rows against the order in which Go ranges over the table. A sort decides it
only as far as its comparison does: the pid order names the socket last, the other two leave
connections of equal rank where the range put them. -/

namespace Tlstat.Model
open Base

namespace Store
variable {s : Store} {v v' : View} {c : Conn}

theorem mem_snapshot : c ∈ s.snapshot v ↔ s.conns[c.sock]? = some c := by
  unfold snapshot
  rw [List.mem_map]
  constructor
  · rintro ⟨p, hp, rfl⟩
    have hget := mem_order.mp hp
    rw [s.keyed _ _ hget]
    exact hget
  · intro hc
    exact ⟨(c.sock, c), mem_order.mpr hc, rfl⟩

theorem snapshot_nodup : (s.snapshot v).Nodup := by
  have hkeys : (s.snapshot v).map Conn.sock = (v.order s.conns.toList).map Prod.fst := by
    unfold snapshot
    rw [List.map_map]
    exact List.map_congr_left fun p hp => s.keyed _ _ (mem_order.mp hp)
  refine List.Nodup.of_map Conn.sock ?_
  rw [hkeys]
  exact nodup_order

theorem snapshot_perm : (s.snapshot v).Perm (s.snapshot v') :=
  ((v.order_perm _).trans (v'.order_perm _).symm).map _

end Store

/-- A range that comes to the entry of `k` first. -/
def View.fronting (k : UInt64) : View :=
  { View.blind 0 with
    order := fun l => l.filter (fun p => p.1 == k) ++ l.filter fun p => !(p.1 == k)
    order_perm := fun l => List.filter_append_perm _ l }

theorem Store.fronting_pair {s : Store} {a b : Conn} (ha : s.conns[a.sock]? = some a)
    (hb : s.conns[b.sock]? = some b) (hne : a ≠ b) :
    [a, b].Sublist (s.snapshot (View.fronting a.sock)) := by
  have hsock : b.sock ≠ a.sock := by
    intro h
    rw [h, ha] at hb
    exact hne (Option.some.inj hb)
  have ha' : [(a.sock, a)].Sublist (s.conns.toList.filter fun p => p.1 == a.sock) :=
    List.singleton_sublist.mpr (List.mem_filter.mpr ⟨Table.mem_toList.mpr ha, by simp⟩)
  have hb' : [(b.sock, b)].Sublist (s.conns.toList.filter fun p => !(p.1 == a.sock)) :=
    List.singleton_sublist.mpr (List.mem_filter.mpr ⟨Table.mem_toList.mpr hb, by simp [hsock]⟩)
  exact (ha'.append hb').map Prod.snd

end Tlstat.Model

namespace Tlstat.Ui
open Base Loader Tlstat.Model
variable {mode : SortMode} {s : Store} {m : Model} {sorting : Sorting Conn} {v v' : View}
  {a b : Conn}

/-- What the comparison of `sortConns` looks at agrees. -/
def SameRank (mode : SortMode) (a b : Conn) : Prop :=
  a.isTLS = b.isTLS ∧
  match mode with
  | .bytes => a.txBytes + a.rxBytes = b.txBytes + b.rxBytes
  | .pid => a.pid = b.pid ∧ a.sock = b.sock
  | .active => a.lastActive = b.lastActive

theorem tied_tlsFirst : Tied tlsFirst a b ↔ a.isTLS = b.isTLS := by
  unfold Tied tlsFirst
  cases a.isTLS <;> cases b.isTLS <;> simp

theorem tied_byMode : Tied (byMode mode) a b ↔
    match mode with
    | .bytes => a.txBytes + a.rxBytes = b.txBytes + b.rxBytes
    | .pid => a.pid = b.pid ∧ a.sock = b.sock
    | .active => a.lastActive = b.lastActive := by
  unfold Tied byMode
  cases mode with
  | bytes =>
    simp only [decide_eq_false_iff_not, Nat.not_lt, ← UInt64.toNat_inj]
    omega
  | pid =>
    simp only [← UInt32.toNat_inj, ← UInt64.toNat_inj, Bool.or_eq_false_iff, Bool.and_eq_false_iff,
      Bool.not_eq_eq_eq_not, Bool.not_false, decide_eq_false_iff_not, decide_eq_true_eq]
    omega
  | active =>
    simp only [decide_eq_false_iff_not, Nat.not_lt]
    exact ⟨fun h => Nat.le_antisymm h.1 h.2, fun h => ⟨Nat.le_of_eq h, Nat.le_of_eq h.symm⟩⟩

theorem tied_less : Tied (less mode) a b ↔ SameRank mode a b := by
  unfold SameRank
  rw [← tied_tlsFirst, ← tied_byMode]
  unfold Tied
  simp only [less_eq, Bool.or_eq_false_iff, Bool.and_eq_false_iff, Bool.not_eq_eq_eq_not,
    Bool.not_false]
  constructor
  · rintro ⟨⟨hab, hmode⟩, hba, hmode'⟩
    rw [hba] at hmode
    rw [hab] at hmode'
    exact ⟨⟨hab, hba⟩, by simpa using hmode, by simpa using hmode'⟩
  · rintro ⟨⟨hab, hba⟩, hmode, hmode'⟩
    exact ⟨⟨hab, .inr hmode⟩, hba, .inr hmode'⟩

namespace Model

/-- The model after a refresh from the store, ranged over as `v` has it. -/
def refreshFrom (sorting : Sorting Conn) (s : Store) (v : View) (m : Model) : Model :=
  m.refresh sorting (s.snapshot v) s.snapshotHistory

/-- The rows do not depend on the order of the range, and a second refresh from an unchanged store
changes nothing, the selected row included. -/
def Steady (s : Store) (m : Model) : Prop := ∀ (sorting : Sorting Conn) (v v' : View),
  (m.refreshFrom sorting s v').rows = (m.refreshFrom sorting s v).rows ∧
  (m.refreshFrom sorting s v).refreshFrom sorting s v' = m.refreshFrom sorting s v

/-- No two connections of the live rows rank the same. -/
def Ranked (s : Store) (m : Model) : Prop := ∀ a b : Conn,
  s.conns[a.sock]? = some a → s.conns[b.sock]? = some b →
  a.hasEndpoint = true → b.hasEndpoint = true → SameRank m.sortBy a b → a = b

theorem ranked_of_pid (hmode : m.sortBy = .pid) : m.Ranked s := by
  intro a b ha hb _ _ hrank
  unfold SameRank at hrank
  rw [hmode] at hrank
  rw [hrank.2.2, hb] at ha
  exact (Option.some.inj ha).symm

theorem liveRows_eq (hranked : m.Ranked s) :
    m.liveRows sorting (s.snapshot v') = m.liveRows sorting (s.snapshot v) := by
  unfold liveRows
  refine if_congr Iff.rfl ?_ rfl
  refine Sorting.sort_eq sorting sorting (strictWeak_less m.sortBy)
    (Store.snapshot_perm.filter Conn.hasEndpoint) ?_
  intro a ha b hb htied
  have hlive : ∀ {c}, c ∈ (s.snapshot v').filter Conn.hasEndpoint →
      s.conns[c.sock]? = some c ∧ c.hasEndpoint = true := fun hc =>
    ⟨Store.mem_snapshot.mp (List.mem_filter.mp hc).1, (List.mem_filter.mp hc).2⟩
  exact hranked a b (hlive ha).1 (hlive hb).1 (hlive ha).2 (hlive hb).2 (tied_less.mp htied)

/-- A refresh reads nothing of the rows before it, and the selection it leaves is in range. -/
theorem refresh_refresh {live live' closed : List Conn}
    (h : (m.refresh sorting live' closed).rows = (m.refresh sorting live closed).rows) :
    (m.refresh sorting live closed).refresh sorting live' closed =
      m.refresh sorting live closed := by
  have hrows : ((m.refresh sorting live closed).refresh sorting live' closed).rows =
      (m.refresh sorting live closed).rows := h
  have hsel : ∀ (n : ℕ) (sel : ℤ),
      (let sel' := if sel ≥ n then (n : ℤ) - 1 else sel
       let sel' := if sel' < 0 then 0 else sel'
       let sel'' := if sel' ≥ n then (n : ℤ) - 1 else sel'
       if sel'' < 0 then 0 else sel'') =
      (let sel' := if sel ≥ n then (n : ℤ) - 1 else sel
       if sel' < 0 then 0 else sel') := by
    intro n sel
    dsimp only
    split_ifs <;> omega
  unfold refresh at h hrows ⊢
  dsimp only at h hrows ⊢
  rw [h]
  exact congrArg (fun sel => Model.mk _ sel _ _ _ _ _) (hsel _ m.sel)

theorem steady_of_ranked (hranked : m.Ranked s) : m.Steady s := by
  intro sorting v v'
  have hrows : (m.refreshFrom sorting s v').rows = (m.refreshFrom sorting s v).rows := by
    unfold refreshFrom
    rw [refresh_rows, refresh_rows, liveRows_eq hranked]
  exact ⟨hrows, refresh_refresh hrows⟩

theorem steady_of_closed (hview : m.view = .closed) : m.Steady s := by
  intro sorting v v'
  have hrows : (m.refreshFrom sorting s v').rows = (m.refreshFrom sorting s v).rows := by
    unfold refreshFrom
    rw [refresh_rows, refresh_rows]
    simp [liveRows, hview]
  exact ⟨hrows, refresh_refresh hrows⟩

/-- The stable sort shows a tied pair in the order of the range. -/
theorem liveRows_fronting (hview : m.view ≠ .closed) (hne : a ≠ b) (ha : s.conns[a.sock]? = some a)
    (hb : s.conns[b.sock]? = some b) (hea : a.hasEndpoint = true) (heb : b.hasEndpoint = true)
    (hrank : SameRank m.sortBy a b) :
    [a, b].Sublist (m.liveRows Sorting.stable (s.snapshot (View.fronting a.sock))) := by
  have hlive : m.view = .active ∨ m.view = .all := by
    cases hv : m.view with
    | active => exact .inl rfl
    | closed => exact absurd hv hview
    | all => exact .inr rfl
  unfold liveRows
  rw [if_pos hlive]
  refine Sorting.stable_pair (strictWeak_less m.sortBy) (tied_less.mpr hrank) ?_
  have hpair := (Store.fronting_pair ha hb hne).filter Conn.hasEndpoint
  simpa [hea, heb] using hpair

theorem SameRank.symm (h : SameRank mode a b) : SameRank mode b a := by
  rw [← tied_less] at h ⊢
  exact h.symm

theorem ranked_of_steady (hview : m.view ≠ .closed) (hsteady : m.Steady s) : m.Ranked s := by
  intro a b ha hb hea heb hrank
  by_contra hne
  have hab := liveRows_fronting hview hne ha hb hea heb hrank
  have hba := liveRows_fronting hview (Ne.symm hne) hb ha heb hea (SameRank.symm hrank)
  have hrows := (hsteady .stable (View.fronting a.sock) (View.fronting b.sock)).1
  unfold refreshFrom at hrows
  rw [refresh_rows, refresh_rows, List.append_cancel_right_eq] at hrows
  rw [hrows] at hba
  refine not_sublist_swap ?_ hab hba
  unfold liveRows
  split_ifs
  · exact (Sorting.stable.perm _ _).nodup_iff.mpr (Store.snapshot_nodup.filter _)
  · exact List.nodup_nil

/-- **The rows are the same for every order of the range exactly when the live rows are hidden,
are sorted by pid, or hold no two connections of equal rank.** -/
theorem steady_iff (s : Store) (m : Model) :
    m.Steady s ↔ m.view = .closed ∨ m.sortBy = .pid ∨ m.Ranked s := by
  constructor
  · intro hsteady
    by_cases hview : m.view = .closed
    · exact .inl hview
    · exact .inr (.inr (ranked_of_steady hview hsteady))
  · rintro (hview | hmode | hranked)
    · exact steady_of_closed hview
    · exact steady_of_ranked (ranked_of_pid hmode)
    · exact steady_of_ranked hranked

def twin (sock : UInt64) : Flow :=
  { sock, pid := 7, dport := 443, daddr := { w₀ := 1 }, isTLS := true, tx := 10 }

/-- Two connections of one poll, under the default sort: each range shows its own order. -/
theorem one_poll_not_steady :
    ¬Model.Steady ((Store.new 500 8192).run (fun _ => none)
      [.updateFlows (.blind 0) [twin 1, twin 2]]) {} := by
  intro hsteady
  have hranked := ranked_of_steady (by decide) hsteady
  have hrow : ∀ k ∈ [(1 : UInt64), 2], ∃ c : Conn, ((Store.new 500 8192).run (fun _ => none)
      [.updateFlows (.blind 0) [twin 1, twin 2]]).conns[c.sock]? = some c ∧ c.sock = k ∧
      c.hasEndpoint = true ∧ c.isTLS = true ∧ c.lastActive = 1 := by
    intro k hk
    have hget : (((Store.new 500 8192).run (fun _ => none)
        [.updateFlows (.blind 0) [twin 1, twin 2]]).conns[k]?).map
        (fun c => (c.sock, c.hasEndpoint, c.isTLS, c.lastActive)) = some (k, true, true, 1) := by
      rcases List.mem_pair.mp hk with rfl | rfl
      · decide +kernel
      · decide +kernel
    obtain ⟨c, hc, hfields⟩ := Option.map_eq_some_iff.mp hget
    simp only [Prod.mk.injEq] at hfields
    refine ⟨c, ?_, hfields⟩
    rw [hfields.1]
    exact hc
  obtain ⟨a, ha, hsa, hea, hta, hla⟩ := hrow 1 (by simp)
  obtain ⟨b, hb, hsb, heb, htb, hlb⟩ := hrow 2 (by simp)
  have hab := hranked a b ha hb hea heb ⟨hta.trans htb.symm, hla.trans hlb.symm⟩
  rw [hab, hsb] at hsa
  exact absurd hsa (by decide)

end Model
end Tlstat.Ui
