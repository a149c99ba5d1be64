import Tlstat.Ui.Selection

/-! The columns of the table. Every cell is padded or cut to the width of its column, counted in
runes, so that the rows and the header line up whatever bytes the cells are made of. -/

namespace Tlstat.Ui
open Base Base.Checked Tlstat.Model

/-! ### A cell -/

theorem isRune_space : IsRune [0x20] := ⟨0x20, [], [], rfl, rfl, rfl⟩

theorem apart_spaces (n : ℕ) : Apart (spaces n) := by
  cases n with
  | zero => exact fun b hb => absurd hb (by rintro ⟨⟩)
  | succ n =>
    intro b hb
    obtain rfl := Option.some.inj hb
    decide

theorem runes_spaces (n : ℕ) : runes (spaces n) = List.replicate n [0x20] := by
  have hflat : spaces n = (List.replicate n [0x20]).flatten := (Checked.flatten_spaces n).symm
  have h := runes_flatten (List.replicate n [0x20])
    (fun r hr => List.eq_of_mem_replicate hr ▸ isRune_space) []
  rw [List.append_nil, ← hflat] at h
  exact h.trans (by rw [runes, List.append_nil])

/-- `trunc` pads or cuts to exactly `w` runes. -/
theorem length_runes_trunc (s : Bytes) (w : ℕ) : (runes (trunc s w)).length = w := by
  have hellipsis : runes ellipsis = [ellipsis] := by decide +kernel
  unfold trunc
  split_ifs with hzero hlong hone
  · rw [hzero, runes, List.length_nil]
  · rw [hellipsis, hone, List.length_singleton]
  · rw [runes_flatten _ fun r hr => isRune_of_mem (List.mem_of_mem_take hr), hellipsis,
      List.length_append, List.length_take, List.length_singleton]
    omega
  · rw [runes_append s (apart_spaces _), runes_spaces, List.length_append, List.length_replicate]
    omega

/-! ### A line -/

/-- The line is cells of the widths, with single spaces between, and reads as their runes. -/
def Aligned (widths : List ℕ) (line : Bytes) : Prop := ∃ cells : List Bytes,
  line = [0x20].intercalate cells ∧
  runes line = [[0x20]].intercalate (cells.map runes) ∧
  cells.map (fun s => (runes s).length) = widths

theorem runes_intercalate (cells : List Bytes) :
    runes ([0x20].intercalate cells) = [[0x20]].intercalate (cells.map runes) := by
  induction cells with
  | nil => exact runes.eq_1
  | cons s cells ih =>
    cases cells with
    | nil => rw [List.map_cons, List.map_nil, List.intercalate_singleton, List.intercalate_singleton]
    | cons s' cells =>
      have happart : Apart ([0x20] ++ [0x20].intercalate (s' :: cells)) := by
        intro b hb
        obtain rfl := Option.some.inj hb
        decide
      have hspace := runes_flatten [[0x20]]
        (fun r hr => List.mem_singleton.mp hr ▸ isRune_space) ([0x20].intercalate (s' :: cells))
      rw [List.map_cons, List.map_cons, List.intercalate_cons_cons, List.intercalate_cons_cons,
        ← List.map_cons, ← ih, List.append_assoc, List.append_assoc, runes_append s happart]
      exact congrArg (runes s ++ ·) hspace

theorem aligned_intercalate {widths : List ℕ} {cells : List Bytes}
    (h : cells.map (fun s => (runes s).length) = widths) :
    Aligned widths ((Tlsparse.utf8 " ").intercalate cells) := by
  have hspace : Tlsparse.utf8 " " = [0x20] := by decide +kernel
  rw [hspace]
  exact ⟨cells, rfl, runes_intercalate cells, h⟩

/-! ### The table -/

namespace Checked

/-- The columns of the table. -/
def widths : List ℕ := [wPID, wComm, wRemote, wVer, wCipher, wIO, wIO, wState]

theorem returns_cell (s : Bytes) (w : ℕ) : Returns (trunc s w) fun t => (runes t).length = w :=
  ⟨_, trunc_eq s w, length_runes_trunc s w⟩

theorem aligned_renderRow (clock : Clock) (c : Conn) (selected : Bool) :
    Returns (renderRow clock c selected) fun s => Aligned widths s.text := by
  unfold renderRow
  refine (returns_cell _ _).bind fun pid hpid => ?_
  refine (returns_cell _ _).bind fun comm hcomm => ?_
  refine (returns_cell _ _).bind fun remote hremote => ?_
  refine (returns_cell _ _).bind fun ver hver => ?_
  refine (returns_cell _ _).bind fun cipher hcipher => ?_
  refine (returns_io _ _).bind fun wire _ => ?_
  refine (returns_cell _ _).bind fun wire hwire => ?_
  refine (returns_io _ _).bind fun plain _ => ?_
  refine (returns_cell _ _).bind fun plain hplain => ?_
  refine (returns_cell _ _).bind fun last hlast => .ok ?_
  have hcells : [pid, comm, remote, ver, cipher, wire, plain, last].map
      (fun s => (runes s).length) = widths := by
    simp only [List.map_cons, List.map_nil, hpid, hcomm, hremote, hver, hcipher, hwire, hplain, hlast]
    rfl
  exact aligned_intercalate hcells

theorem aligned_columnHeads (m : Ui.Model) :
    Returns (columnHeads m) fun s => Aligned widths s.text := by
  unfold columnHeads
  refine .bind (.mapM (R := fun col s => (runes s).length = col.2) fun col _ => returns_cell _ _)
    fun cols hcols => .ok ?_
  have hcells : cols.map (fun s => (runes s).length) = widths := by
    have hmap := List.forall₂_map_right_iff.mpr (hcols.imp fun _ _ h => h.symm)
    rw [← List.forall₂_map_left_iff] at hmap
    exact (List.forall₂_eq_eq_eq ▸ hmap).symm
  exact aligned_intercalate hcells

theorem aligned_table {clock : Clock} {m : Ui.Model} {t : List (Option Span)} {is : List ℤ}
    (h : List.Forall₂ (Shows clock m) is t) : ∀ s, some s ∈ t → Aligned widths s.text := by
  induction h with
  | nil => exact fun s hs => absurd hs List.not_mem_nil
  | cons hshows _ ih =>
    intro s hs
    rcases List.mem_cons.mp hs with rfl | hs
    · cases hshows with
      | row hc hrendered hstyle =>
        obtain ⟨s', hs', haligned⟩ := aligned_renderRow clock _ _
        obtain rfl := Except.ok.inj (hs'.symm.trans hrendered)
        exact haligned
    · exact ih s hs

/-- **The columns line up.** After any messages, on any window, the header of the table and every row
that is shown read as eight cells of the same widths with single spaces between, whatever the names
and addresses in the rows are, also where they are too long or are not valid text. -/
theorem columns_line_up (sorting : Sorting Conn) (clock : Clock) (msgs : List Msg)
    (hw : 0 < (Model.after sorting msgs).w) :
    ∃ screen, view clock (Model.after sorting msgs) = .ok (some screen) ∧
      Aligned widths screen.head.text ∧ ∀ s, some s ∈ screen.table → Aligned widths s.text := by
  have hsound : (Model.after sorting msgs).Sound := Model.sound_after msgs
  obtain ⟨head, hhead, haligned⟩ := aligned_columnHeads (Model.after sorting msgs)
  obtain ⟨t, htable, hshows⟩ : Returns (table clock _) _ := returns_table hsound
  obtain ⟨detail, hdetail, -⟩ : Returns (renderDetail clock _) _ :=
    returns_renderDetail hw hsound.nonneg
  have hview : ∃ screen, view clock (Model.after sorting msgs) = .ok (some screen) ∧
      screen.head = head ∧ screen.table = t := by
    unfold view
    rw [if_neg (by omega), hhead, ok_bind, htable, ok_bind, hdetail, ok_bind]
    exact ⟨_, rfl, rfl, rfl⟩
  obtain ⟨screen, hview, rfl, rfl⟩ := hview
  exact ⟨screen, hview, haligned, aligned_table hshows⟩

/-- A process name that is no text. -/
def unreadable : Conn :=
  { obj := 0, sock := 1, comm := [0xff, 0xe2, 0x82], remote := ⟨.v4 [192, 0, 2, 1], 443⟩ }

theorem columns_line_up_unreadable :
    ∃ screen, view ⟨fun _ => 0, fun _ _ => []⟩ (Model.after Sorting.stable
      [.windowSize 80 24, .tick [unreadable] []]) = .ok (some screen) ∧
    Aligned widths screen.head.text ∧ ∀ s, some s ∈ screen.table → Aligned widths s.text :=
  columns_line_up Sorting.stable _ _ (by decide)

end Checked
end Tlstat.Ui
