import Tlstat.Base.Run
import Tlstat.Ui.View

/-! The selection. Whatever the messages are it stays on a row, and the window of the table
stays on the selection. -/

namespace Tlstat.Ui
open Base Base.Checked Tlstat.Model

/-- Without rows the selection may be before the first one, or on it. -/
structure Model.Sound (m : Model) : Prop where
  nonneg : 0 < m.rows.length → 0 ≤ m.sel
  le : m.sel ≤ max ((m.rows.length : ℤ) - 1) 0

/-- `New` -/
def Model.new : Model := { sortBy := .active }

/-- The model after some messages. -/
def Model.after (sorting : Sorting Conn) (msgs : List Msg) : Model :=
  msgs.foldl (fun m msg => (m.update sorting msg).1) Model.new

/-! ### The invariant -/

section Sound
variable {sorting : Sorting Conn} {m : Model}

theorem Model.Sound.lt (h : m.Sound) (hrows : 0 < m.rows.length) : m.sel < m.rows.length := by
  have hle := h.le
  omega

/-- A refresh needs nothing of the selection that it finds. -/
theorem Model.sound_refresh (snapshot snapshotHistory : List Conn) :
    (m.refresh sorting snapshot snapshotHistory).Sound := by
  unfold refresh
  dsimp only
  generalize sortConns sorting _ m.sortBy ++ _ = rows
  constructor <;> dsimp only <;> split_ifs <;> omega

theorem Model.sound_move {sel : ℤ} (h₀ : 0 < m.rows.length → 0 ≤ sel)
    (hle : sel ≤ max ((m.rows.length : ℤ) - 1) 0) : { m with sel }.Sound := ⟨h₀, hle⟩

theorem Model.Sound.update (h : m.Sound) (msg : Msg) : (m.update sorting msg).1.Sound := by
  obtain ⟨h₀, hle⟩ := h
  have hup : (if m.sel > 0 then { m with sel := m.sel - 1 } else m).Sound := by
    split_ifs with hpos
    · exact sound_move (fun _ => by omega) (by omega)
    · exact ⟨h₀, hle⟩
  have hdown : (if m.sel < (m.rows.length : ℤ) - 1 then { m with sel := m.sel + 1 } else m).Sound := by
    split_ifs with hlt
    · exact sound_move (fun hrows => Int.le_add_one (h₀ hrows)) (by omega)
    · exact ⟨h₀, hle⟩
  have hfirst : ∀ view, { m with view, sel := 0 }.Sound :=
    fun view => ⟨fun _ => Int.le_refl 0, le_max_right _ _⟩
  cases msg with
  | windowSize w h => exact ⟨h₀, hle⟩
  | key key =>
    cases key with
    | q | ctrlC | other => exact ⟨h₀, hle⟩
    | up | k => exact hup
    | down | j => exact hdown
    | enter | space | s => exact ⟨h₀, hle⟩
    | tab => exact hfirst _
    | g => exact hfirst m.view
    | shiftG => exact sound_move (fun hrows => by omega) (le_max_left _ _)
  | tick snapshot snapshotHistory => exact sound_refresh snapshot snapshotHistory
  | other => exact ⟨h₀, hle⟩

theorem Model.sound_after (msgs : List Msg) : (Model.after sorting msgs).Sound := by
  refine foldl_invariant (p := fun _ => True) (fun m msg _ h => h.update msg) (fun _ _ => trivial) ?_
  exact ⟨fun h => absurd h (Nat.lt_irrefl 0), le_max_right _ _⟩

end Sound

/-! ### The window -/

namespace Checked

/-- The line of the table for row `i`. -/
inductive Shows (clock : Clock) (m : Model) (i : ℤ) : Option Span → Prop
  | row {c : Conn} {s : Span} (at_row : m.rows[i.toNat]? = some c)
      (rendered : renderRow clock c (i = m.sel) = .ok s) (style : s.style = .sel ↔ i = m.sel) :
      Shows clock m i (some s)
  | blank (behind : m.rows.length ≤ i) : Shows clock m i none

section Window
variable {clock : Clock} {m : Model}

theorem maxRows_ge (m : Model) : 3 ≤ maxRows m := by
  unfold maxRows
  dsimp only
  split_ifs with h
  · exact Int.le_refl 3
  · exact Int.not_lt.mp h

/-- The selection is in the window, and the window starts among the rows. -/
theorem start_le (h : m.Sound) : 0 ≤ start m ∧ start m ≤ m.rows.length ∧
    m.sel < start m + maxRows m ∧ (0 ≤ m.sel → start m ≤ m.sel) := by
  have hmax := maxRows_ge m
  have hle := h.le
  unfold start
  split_ifs with hsel <;> omega

theorem returns_table (h : m.Sound) : Returns (table clock m) fun t =>
    List.Forall₂ (Shows clock m) (Int.range (start m) (start m + maxRows m)) t := by
  obtain ⟨h₀, hstart, -, -⟩ := start_le h
  have hmax := maxRows_ge m
  have hblank : Int.range m.rows.length (start m + maxRows m) =
      Int.range (min m.rows.length (start m + maxRows m)) (start m + maxRows m) := by
    rcases le_total (m.rows.length : ℤ) (start m + maxRows m) with hle | hge
    · rw [min_eq_left hle]
    · rw [min_eq_right hge, range_eq_nil hge, range_eq_nil (Int.le_refl _)]
  unfold table
  refine .bind (.mapM (R := fun i s => Shows clock m i (some s)) fun i hi => ?_) fun shown hshown => ?_
  · obtain ⟨hi₀, hlt⟩ := Int.mem_range_iff.mp hi
    refine (returns_index (by omega) (by omega)).bind fun c hc => ?_
    obtain ⟨s, hs, hsel⟩ : Returns (renderRow clock c (i = m.sel)) _ := returns_renderRow c _
    exact ⟨s, hs, .row hc hs (hsel.trans decide_eq_true_iff)⟩
  · refine .ok ?_
    rw [hblank, range_append (b := min m.rows.length (start m + maxRows m)) (by omega) (by omega)]
    refine List.rel_append (List.forall₂_map_right_iff.mpr hshown) ?_
    refine List.forall₂_map_right_iff.mpr (List.forall₂_same.mpr fun i hi => .blank ?_)
    obtain ⟨hi₀, hlt⟩ := Int.mem_range_iff.mp hi
    omega

theorem returns_view (h : m.Sound) (hw : 0 < m.w) : Returns (view clock m) fun v =>
    ∃ screen, v = some screen ∧
      List.Forall₂ (Shows clock m) (Int.range (start m) (start m + maxRows m)) screen.table := by
  unfold view
  rw [if_neg (by omega)]
  refine (returns_columnHeads m).bind fun head _ => ?_
  refine (returns_table h).bind fun t ht => ?_
  refine (returns_renderDetail hw h.nonneg).bind fun detail _ => ?_
  exact .ok ⟨_, rfl, ht⟩

/-- **After any messages the selection is on a row, if there is one. Then `View` faults nowhere,
its table has exactly `maxRows` lines, each a rendered row or a blank one behind the last, and the
selected row is one of them, as the only one in the style of the selection.** -/
theorem selection_safe (sorting : Sorting Conn) (clock : Clock) (msgs : List Msg) :
    let m := Model.after sorting msgs
    (m.rows ≠ [] → 0 ≤ m.sel ∧ m.sel < m.rows.length) ∧
    (0 < m.w → ∃ screen, view clock m = .ok (some screen) ∧
      (screen.table.length : ℤ) = maxRows m ∧
      List.Forall₂ (Shows clock m) (Int.range (start m) (start m + maxRows m)) screen.table ∧
      (m.rows ≠ [] → ∃ c s, m.rows[m.sel.toNat]? = some c ∧ renderRow clock c true = .ok s ∧
        s.style = .sel ∧ some s ∈ screen.table)) := by
  intro m
  have hm : m.Sound := Model.sound_after msgs
  have hsel : m.rows ≠ [] → 0 ≤ m.sel ∧ m.sel < m.rows.length := fun hrows =>
    have hpos := List.length_pos_iff.mpr hrows
    ⟨hm.nonneg hpos, hm.lt hpos⟩
  refine ⟨hsel, fun hw => ?_⟩
  obtain ⟨_, hview, screen, rfl, htable⟩ : Returns (view clock m) _ := returns_view hm hw
  refine ⟨screen, hview, ?_, htable, fun hrows => ?_⟩
  · rw [← htable.length_eq, length_range]
    have hmax := maxRows_ge m
    omega
  · obtain ⟨h₀, hlt⟩ := hsel hrows
    obtain ⟨-, -, hin, hstart⟩ := start_le hm
    have hmem : m.sel ∈ Int.range (start m) (start m + maxRows m) :=
      Int.mem_range_iff.mpr ⟨hstart h₀, hin⟩
    obtain ⟨entry, hentry, hshows⟩ := exists_of_forall₂ htable hmem
    cases hshows with
    | row hc hs hstyle =>
      rw [decide_eq_true rfl] at hs
      exact ⟨_, _, hc, hs, hstyle.mpr rfl, hentry⟩
    | blank hbehind => exact absurd hlt (Int.not_lt.mpr hbehind)

/-- A terminal of 24 lines, one connection, and the selection on the last row. -/
theorem one_row_safe :
    let m := Model.after Sorting.stable [.windowSize 80 24,
      .tick [{ obj := 0, sock := 1, remote := ⟨.v4 [192, 0, 2, 1], 443⟩ }] [], .key .shiftG]
    ∃ screen, view ⟨fun _ => 0, fun _ _ => []⟩ m = .ok (some screen) ∧ screen.table.length = 7 ∧
      ∃ s, s.style = .sel ∧ some s ∈ screen.table := by
  intro m
  obtain ⟨-, hview⟩ := selection_safe Sorting.stable ⟨fun _ => 0, fun _ _ => []⟩ [.windowSize 80 24,
    .tick [{ obj := 0, sock := 1, remote := ⟨.v4 [192, 0, 2, 1], 443⟩ }] [], .key .shiftG]
  obtain ⟨screen, hok, hlen, -, hsel⟩ := hview (by decide)
  have hrows : m.rows ≠ [] := by
    refine List.ne_nil_of_mem (Model.mem_refresh.mpr (.inl ⟨.inl rfl, List.mem_singleton_self _, ?_⟩))
    decide
  obtain ⟨c, s, -, -, hstyle, hmem⟩ := hsel hrows
  have hseven : (screen.table.length : ℤ) = 7 := hlen.trans (by decide)
  exact ⟨screen, hok, by omega, s, hstyle, hmem⟩

end Window
end Checked
end Tlstat.Ui
