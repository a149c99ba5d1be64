import Mathlib.Data.Int.Notation
import Tlstat.Base.Sorting
import Tlstat.Model.Store

/-! The model of the screen: which rows a refresh lists and in which order, and what the keys
do. -/

namespace Tlstat.Ui
open Base Tlstat.Model

inductive SortMode
  | active
  | bytes
  | pid
deriving DecidableEq, Repr

/-- `(m.sortBy + 1) % 3` -/
def SortMode.next : SortMode → SortMode
  | .active => .bytes
  | .bytes => .pid
  | .pid => .active

inductive ViewMode
  | active
  | closed
  | all
deriving DecidableEq, Repr

/-- `(m.view + 1) % 3` -/
def ViewMode.next : ViewMode → ViewMode
  | .active => .closed
  | .closed => .all
  | .all => .active

structure Model where
  rows : List Conn := []
  sel : ℤ := 0
  sortBy : SortMode := .active
  view : ViewMode := .active
  peek : Bool := false
  w : ℤ := 0
  h : ℤ := 0

/-- The comparison of `sortConns`. -/
def less (mode : SortMode) (a b : Conn) : Bool :=
  if a.isTLS ≠ b.isTLS then a.isTLS
  else
    match mode with
    | .bytes => a.txBytes + a.rxBytes > b.txBytes + b.rxBytes
    | .pid => if a.pid ≠ b.pid then a.pid < b.pid else a.sock < b.sock
    | .active => a.lastActive > b.lastActive

def sortConns (sorting : Sorting Conn) (cs : List Conn) (mode : SortMode) : List Conn :=
  sorting.sort (less mode) cs

namespace Model

/-- `refresh`, given what `Snapshot` and `SnapshotHistory` return. Each takes the lock for
itself, so the store may move between the two. -/
def refresh (sorting : Sorting Conn) (snapshot snapshotHistory : List Conn) (m : Model) : Model :=
  let rows := if m.view = .active ∨ m.view = .all then snapshot.filter Conn.hasEndpoint else []
  let active := rows.length
  -- what never had an endpoint is left out of the live part alone
  let rows := if m.view = .closed ∨ m.view = .all then rows ++ snapshotHistory else rows
  -- only the active portion is sorted, the history keeps its recency order
  let rows := sortConns sorting (rows.take active) m.sortBy ++ rows.drop active
  let sel := if m.sel ≥ rows.length then (rows.length : ℤ) - 1 else m.sel
  { m with rows, sel := if sel < 0 then 0 else sel }

end Model

inductive Key
  | q
  | ctrlC
  | up
  | k
  | down
  | j
  | enter
  | space
  | tab
  | s
  | g
  | shiftG
  | other
deriving DecidableEq, Repr

/-- The messages of the event loop; a tick comes with what the store returns to its refresh. -/
inductive Msg
  | windowSize (w h : ℤ)
  | key (key : Key)
  | tick (snapshot snapshotHistory : List Conn)
  | other

inductive Cmd
  | quit
  | tick
deriving DecidableEq, Repr

def Model.update (sorting : Sorting Conn) (m : Model) : Msg → Model × Option Cmd
  | .windowSize w h => ({ m with w, h }, none)
  | .key key =>
    match key with
    | .q | .ctrlC => (m, some .quit)
    | .up | .k => (if m.sel > 0 then { m with sel := m.sel - 1 } else m, none)
    | .down | .j => (if m.sel < (m.rows.length : ℤ) - 1 then { m with sel := m.sel + 1 } else m, none)
    | .enter | .space => ({ m with peek := !m.peek }, none)
    | .tab => ({ m with view := m.view.next, sel := 0 }, none)
    | .s => ({ m with sortBy := m.sortBy.next }, none)
    | .g => ({ m with sel := 0 }, none)
    | .shiftG => ({ m with sel := (m.rows.length : ℤ) - 1 }, none)
    | .other => (m, none)
  | .tick snapshot snapshotHistory => (m.refresh sorting snapshot snapshotHistory, some .tick)
  | .other => (m, none)

/-! ### The comparison -/

def tlsFirst (a b : Conn) : Bool := a.isTLS && !b.isTLS

/-- What `less` compares among connections that are both TLS or both plain. -/
def byMode (mode : SortMode) (a b : Conn) : Bool :=
  match mode with
  | .bytes => decide ((b.txBytes + b.rxBytes).toNat < (a.txBytes + a.rxBytes).toNat)
  | .pid => decide (a.pid.toNat < b.pid.toNat) ||
      (!decide (b.pid.toNat < a.pid.toNat) && decide (a.sock.toNat < b.sock.toNat))
  | .active => decide (b.lastActive < a.lastActive)

theorem strictWeak_tlsFirst : StrictWeak tlsFirst where
  asymm := by
    intro a b h
    unfold tlsFirst at h ⊢
    grind
  between := by
    intro a b c h
    unfold tlsFirst at h ⊢
    grind

theorem strictWeak_byMode (mode : SortMode) : StrictWeak (byMode mode) := by
  cases mode with
  | bytes => exact (strictWeak_key fun c : Conn => (c.txBytes + c.rxBytes).toNat).swap
  | pid =>
    exact (strictWeak_key fun c : Conn => c.pid.toNat).lex (strictWeak_key fun c : Conn => c.sock.toNat)
  | active => exact (strictWeak_key Conn.lastActive).swap

theorem less_eq (mode : SortMode) (a b : Conn) :
    less mode a b = (tlsFirst a b || (!tlsFirst b a && byMode mode a b)) := by
  have hmode : (match mode with
      | .bytes => decide (a.txBytes + a.rxBytes > b.txBytes + b.rxBytes)
      | .pid => if a.pid ≠ b.pid then decide (a.pid < b.pid) else decide (a.sock < b.sock)
      | .active => decide (a.lastActive > b.lastActive)) = byMode mode a b := by
    cases mode with
    | bytes => rfl
    | pid =>
      change (if a.pid ≠ b.pid then decide (a.pid.toNat < b.pid.toNat) else
          decide (a.sock.toNat < b.sock.toNat)) = byMode .pid a b
      unfold byMode
      by_cases hpid : a.pid = b.pid
      · simp [hpid]
      · have hne : a.pid.toNat ≠ b.pid.toNat := fun h => hpid (UInt32.toNat_inj.mp h)
        rw [if_pos hpid]
        rcases Nat.lt_or_gt_of_ne hne with hlt | hgt
        · simp [hlt]
        · simp [hgt, Nat.lt_asymm hgt]
    | active => rfl
  unfold less tlsFirst
  cases a.isTLS <;> cases b.isTLS <;> simp [← hmode]

theorem strictWeak_less (mode : SortMode) : StrictWeak (less mode) := by
  have hless : less mode = fun a b => tlsFirst a b || (!tlsFirst b a && byMode mode a b) := by
    funext a b
    exact less_eq mode a b
  rw [hless]
  exact strictWeak_tlsFirst.lex (strictWeak_byMode mode)

/-! ### The rows -/

section Rows
variable {sorting : Sorting Conn} {snapshot snapshotHistory : List Conn} {m : Model} {c : Conn}

/-- The live rows, as they are sorted. -/
def Model.liveRows (sorting : Sorting Conn) (snapshot : List Conn) (m : Model) : List Conn :=
  if m.view = .active ∨ m.view = .all then
    sortConns sorting (snapshot.filter Conn.hasEndpoint) m.sortBy
  else []

theorem Model.refresh_rows : (m.refresh sorting snapshot snapshotHistory).rows =
    m.liveRows sorting snapshot ++
      if m.view = .closed ∨ m.view = .all then snapshotHistory else [] := by
  have hnil : sortConns sorting [] m.sortBy = [] := List.perm_nil.mp (sorting.perm _ [])
  unfold refresh liveRows
  by_cases hlive : m.view = .active ∨ m.view = .all <;>
    by_cases hclosed : m.view = .closed ∨ m.view = .all <;>
    simp [hlive, hclosed, hnil]

theorem Model.mem_refresh : c ∈ (m.refresh sorting snapshot snapshotHistory).rows ↔
    ((m.view = .active ∨ m.view = .all) ∧ c ∈ snapshot ∧ c.hasEndpoint = true) ∨
    ((m.view = .closed ∨ m.view = .all) ∧ c ∈ snapshotHistory) := by
  rw [refresh_rows, List.mem_append]
  refine or_congr ?_ ?_
  · unfold liveRows
    split_ifs with h
    · rw [and_iff_right h]
      exact (sorting.perm _ _).mem_iff.trans List.mem_filter
    · simp [h]
  · split_ifs with h
    · rw [and_iff_right h]
    · simp [h]

/-- "TLS connections always sort above plain ones", among the live rows. -/
theorem Model.liveRows_tls_first : (m.liveRows sorting snapshot).Pairwise fun a b =>
    b.isTLS = true → a.isTLS = true := by
  unfold liveRows
  split_ifs
  · refine (sorting.sorted _ (strictWeak_less m.sortBy) _).imp fun {a b} hab hb => ?_
    rw [less_eq, Bool.or_eq_false_iff] at hab
    have htls : (b.isTLS && !a.isTLS) = false := hab.1
    rw [hb, Bool.true_and, Bool.not_eq_false'] at htls
    exact htls
  · exact List.Pairwise.nil

/-- Only a tick changes the rows. -/
theorem Model.update_rows {msg : Msg} (h : ∀ live closed, msg ≠ .tick live closed) :
    (m.update sorting msg).1.rows = m.rows := by
  cases msg with
  | windowSize w h => rfl
  | key key =>
    unfold update
    cases key <;> dsimp only <;> split_ifs <;> rfl
  | tick live closed => exact absurd rfl (h live closed)
  | other => rfl

end Rows

end Tlstat.Ui
