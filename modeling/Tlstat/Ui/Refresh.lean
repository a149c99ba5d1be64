import Tlstat.Model.Conservation
import Tlstat.Ui.RowOrder

/-! A refresh takes the lock twice, for the live connections and then for the history. What the
other goroutines do in between shows in the rows: a connection retired there is listed as it was and
as it ended, and none is lost. -/

namespace Tlstat.Ui
open Base Loader Tlsparse Tlstat.Model
variable {s : Store} {v : View} {o : ℕ}

theorem count_snapshot_le (s : Store) (v : View) (o : ℕ) :
    (((s.snapshot v).filter Conn.hasEndpoint).map Conn.obj).count o ≤ 1 := by
  refine List.nodup_iff_count_le_one.mp ?_ o
  refine List.Nodup.map_on ?_ (Store.snapshot_nodup.filter _)
  intro a ha b hb ho
  have hlive : ∀ {c}, c ∈ (s.snapshot v).filter Conn.hasEndpoint → s.conns[c.sock]? = some c :=
    fun hc => Store.mem_snapshot.mp (List.mem_filter.mp hc).1
  exact (Store.Holds.unique (.inl (hlive ha)) (.inl (hlive hb)) ho)

theorem nodup_history (x509 : X509) (maxHistory peekBytes : ℤ) (ops : List Op) :
    ((((Store.new maxHistory peekBytes).run x509 ops).snapshotHistory).map Conn.obj).Nodup := by
  unfold Store.snapshotHistory
  rw [List.map_reverse, List.nodup_reverse, (Store.ring_run x509 maxHistory peekBytes ops).2,
    List.map_drop]
  exact (Store.log_nodup _).sublist (List.drop_sublist _ _)

/-- The rows of one object, the live one and the closed one. -/
theorem Model.count_refresh (sorting : Sorting Conn) (m : Model)
    (snapshot snapshotHistory : List Conn) (o : ℕ) :
    ((m.refresh sorting snapshot snapshotHistory).rows.map Conn.obj).count o =
      (if m.view = .active ∨ m.view = .all then
        ((snapshot.filter Conn.hasEndpoint).map Conn.obj).count o else 0) +
      if m.view = .closed ∨ m.view = .all then (snapshotHistory.map Conn.obj).count o else 0 := by
  rw [refresh_rows, List.map_append, List.count_append]
  congr 1
  · unfold liveRows
    split_ifs
    · exact ((sorting.perm _ _).map Conn.obj).count_eq o
    · rfl
  · split_ifs <;> rfl

/-- The object of a live connection that has an endpoint. -/
def LiveRow (s : Store) (o : ℕ) : Prop :=
  ∃ c : Conn, s.conns[c.sock]? = some c ∧ c.hasEndpoint = true ∧ c.obj = o

theorem count_snapshot_pos :
    0 < (((s.snapshot v).filter Conn.hasEndpoint).map Conn.obj).count o ↔ LiveRow s o := by
  rw [List.count_pos_iff, List.mem_map]
  refine exists_congr fun c => ?_
  rw [List.mem_filter, Store.mem_snapshot, and_assoc]

/-- The rows of a refresh that reads the live connections of `first` and the history of `second`. -/
def Model.rowsBetween (sorting : Sorting Conn) (first : Store) (v : View) (second : Store)
    (m : Model) : List Conn :=
  (m.refresh sorting (first.snapshot v) second.snapshotHistory).rows

theorem rowsBetween_count (sorting : Sorting Conn) (first : Store) (v : View) {second : Store}
    (m : Model) (o : ℕ) (hnodup : (second.snapshotHistory.map Conn.obj).Nodup) :
    ((∃ c ∈ m.rowsBetween sorting first v second, c.obj = o) ↔
      (m.view ≠ .closed ∧ LiveRow first o) ∨
      (m.view ≠ .active ∧ ∃ c ∈ second.snapshotHistory, c.obj = o)) ∧
    ((m.rowsBetween sorting first v second).map Conn.obj).count o ≤ 2 ∧
    (((m.rowsBetween sorting first v second).map Conn.obj).count o = 2 ↔
      m.view = .all ∧ LiveRow first o ∧ ∃ c ∈ second.snapshotHistory, c.obj = o) := by
  have hlive := count_snapshot_le first v o
  have hpast := List.nodup_iff_count_le_one.mp hnodup o
  have hlive' : 0 < ((first.snapshot v).filter Conn.hasEndpoint |>.map Conn.obj).count o ↔
      LiveRow first o := count_snapshot_pos
  have hpast' : 0 < (second.snapshotHistory.map Conn.obj).count o ↔
      ∃ c ∈ second.snapshotHistory, c.obj = o := by
    rw [List.count_pos_iff, List.mem_map]
  have hcount := Model.count_refresh sorting m (first.snapshot v) second.snapshotHistory o
  have hrow : (∃ c ∈ m.rowsBetween sorting first v second, c.obj = o) ↔
      0 < ((m.rowsBetween sorting first v second).map Conn.obj).count o := by
    rw [List.count_pos_iff, List.mem_map]
  rw [hrow, ← hlive', ← hpast']
  unfold Model.rowsBetween
  rw [hcount]
  clear hrow hcount hlive' hpast'
  generalize ((first.snapshot v).filter Conn.hasEndpoint |>.map Conn.obj).count o = live at hlive ⊢
  generalize (second.snapshotHistory.map Conn.obj).count o = past at hpast ⊢
  cases m.view with
  | active => simp; omega
  | closed => simp; omega
  | all => simp; omega

/-- **A refresh over a store that moves loses no connection.** Whatever happens between its two
looks at the store, an object has a row exactly if it was live with an endpoint at the first look or
is in the history at the second, as far as the view lists these. No object has more than two rows,
and it has two exactly if the view lists both parts, it was live with an endpoint at the first look,
and it was retired in between and is not yet pushed out of the history. -/
theorem moving_rows (x509 : X509) (maxHistory peekBytes : ℤ) (before between : List Op)
    (sorting : Sorting Conn) (v : View) (m : Model) (o : ℕ) :
    ((∃ c ∈ m.rowsBetween sorting ((Store.new maxHistory peekBytes).run x509 before) v
        ((Store.new maxHistory peekBytes).run x509 (before ++ between)), c.obj = o) ↔
      (m.view ≠ .closed ∧ LiveRow ((Store.new maxHistory peekBytes).run x509 before) o) ∨
      (m.view ≠ .active ∧ ∃ c ∈ ((Store.new maxHistory peekBytes).run x509
        (before ++ between)).snapshotHistory, c.obj = o)) ∧
    ((m.rowsBetween sorting ((Store.new maxHistory peekBytes).run x509 before) v
        ((Store.new maxHistory peekBytes).run x509 (before ++ between))).map Conn.obj).count o ≤ 2 ∧
    (((m.rowsBetween sorting ((Store.new maxHistory peekBytes).run x509 before) v
        ((Store.new maxHistory peekBytes).run x509 (before ++ between))).map Conn.obj).count o = 2 ↔
      m.view = .all ∧ LiveRow ((Store.new maxHistory peekBytes).run x509 before) o ∧
      ∃ c ∈ ((Store.new maxHistory peekBytes).run x509 (before ++ between)).snapshotHistory,
        c ∉ ((Store.new maxHistory peekBytes).run x509 before).log ∧ c.obj = o) := by
  have hnodup := nodup_history x509 maxHistory peekBytes (before ++ between)
  obtain ⟨hrow, hle, htwo⟩ := rowsBetween_count sorting
    ((Store.new maxHistory peekBytes).run x509 before) v m o hnodup
  refine ⟨hrow, hle, htwo.trans (and_congr_right fun _ => and_congr_right fun hlive => ?_)⟩
  -- what was in the log at the first look was not live there
  obtain ⟨d, hd, -, rfl⟩ := hlive
  refine exists_congr fun c => and_congr_right fun _ => ⟨fun ho => ⟨fun hc => ?_, ho⟩, And.right⟩
  exact Store.log_ne _ c hc _ d hd ho

end Tlstat.Ui
