import Mathlib.Algebra.Group.Defs
import Mathlib.Data.List.Basic
import Mathlib.Data.List.Infix
import Mathlib.Tactic.Common

/-! Runs of a deterministic machine: what holds in every state of a run, what every
step of a run meets, and the rules that connect the two. -/

namespace Base
variable {σ α : Type*} (step : σ → α → σ)

/-- `P` holds in every state the run passes through, the first and the last included. -/
def Along (P : σ → Prop) : σ → List α → Prop
  | s, [] => P s
  | s, a :: as => P s ∧ Along P (step s a) as

/-- Every step of the run is taken in a state where it meets `C`. -/
def Meets (C : σ → α → Prop) : σ → List α → Prop
  | _, [] => True
  | s, a :: as => C s a ∧ Meets C (step s a) as

instance decidableMeets {C : σ → α → Prop} [∀ s a, Decidable (C s a)] :
    ∀ (s : σ) (as : List α), Decidable (Meets step C s as)
  | _, [] => inferInstanceAs (Decidable True)
  | s, a :: as =>
    have : Decidable (Meets step C (step s a) as) := decidableMeets (step s a) as
    inferInstanceAs (Decidable (C s a ∧ Meets step C (step s a) as))

variable {step} {P Q I : σ → Prop} {C D : σ → α → Prop} {s : σ} {as : List α}

theorem Along.first (h : Along step P s as) : P s := by
  cases as with
  | nil => exact h
  | cons a as => exact h.1

theorem Along.last (h : Along step P s as) : P (as.foldl step s) := by
  induction as generalizing s with
  | nil => exact h
  | cons a as ih => exact ih h.2

theorem Along.mono (hPQ : ∀ s, P s → Q s) (h : Along step P s as) : Along step Q s as := by
  induction as generalizing s with
  | nil => exact hPQ s h
  | cons a as ih => exact ⟨hPQ s h.1, ih h.2⟩

theorem along_iff_isPrefix : Along step P s as ↔ ∀ pre, pre <+: as → P (pre.foldl step s) := by
  induction as generalizing s with
  | nil =>
    constructor
    · intro h pre hpre
      obtain rfl := List.prefix_nil.mp hpre
      exact h
    · intro h
      exact h [] List.prefix_rfl
  | cons a as ih =>
    constructor
    · rintro ⟨hs, has⟩ pre hpre
      rcases List.prefix_cons_iff.mp hpre with rfl | ⟨pre', rfl, hpre'⟩
      · exact hs
      · exact ih.mp has pre' hpre'
    · intro h
      refine ⟨h [] (List.nil_prefix), ih.mpr fun pre hpre => ?_⟩
      exact h (a :: pre) (List.cons_prefix_cons.mpr ⟨rfl, hpre⟩)

theorem Meets.along (hstep : ∀ s a, I s → C s a → I (step s a)) (hs : I s)
    (h : Meets step C s as) : Along step I s as := by
  induction as generalizing s with
  | nil => exact hs
  | cons a as ih => exact ⟨hs, ih (hstep s a hs h.1) h.2⟩

theorem along_of_forall {p : α → Prop} (hstep : ∀ s a, p a → I s → I (step s a))
    (has : ∀ a ∈ as, p a) (hs : I s) : Along step I s as := by
  induction as generalizing s with
  | nil => exact hs
  | cons a as ih =>
    have ha : p a := has a List.mem_cons_self
    exact ⟨hs, ih (fun b hb => has b (List.mem_cons_of_mem a hb)) (hstep s a ha hs)⟩

/-- If, under a side invariant `J`, a step keeps `I` exactly when it meets the condition, then
`I` holds in every state of a run exactly when every step meets the condition. -/
theorem along_iff_meets {p : α → Prop} {J : σ → Prop}
    (hside : ∀ s a, p a → J s → J (step s a))
    (hstep : ∀ s a, p a → J s → I s → (I (step s a) ↔ C s a))
    (has : ∀ a ∈ as, p a) (hJ : J s) (hs : I s) : Along step I s as ↔ Meets step C s as := by
  induction as generalizing s with
  | nil => exact ⟨fun _ => trivial, fun _ => hs⟩
  | cons a as ih =>
    have ha : p a := has a List.mem_cons_self
    have has' : ∀ b ∈ as, p b := fun b hb => has b (List.mem_cons_of_mem a hb)
    constructor
    · intro h
      have hnext : I (step s a) := h.2.first
      exact ⟨(hstep s a ha hJ hs).mp hnext, (ih has' (hside s a ha hJ) hnext).mp h.2⟩
    · intro h
      have hnext : I (step s a) := (hstep s a ha hJ hs).mpr h.1
      exact ⟨hs, (ih has' (hside s a ha hJ) hnext).mpr h.2⟩

theorem meets_append {bs : List α} :
    Meets step C s (as ++ bs) ↔ Meets step C s as ∧ Meets step C (as.foldl step s) bs := by
  induction as generalizing s with
  | nil => exact ⟨fun h => ⟨trivial, h⟩, And.right⟩
  | cons a as ih => exact (and_congr_right fun _ => ih).trans and_assoc.symm

/-- A condition that keeps an invariant and has another one follow from it. -/
theorem Meets.imp (hside : ∀ s a, I s → C s a → I (step s a)) (himp : ∀ s a, I s → C s a → D s a)
    (hs : I s) (h : Meets step C s as) : Meets step D s as := by
  induction as generalizing s with
  | nil => exact trivial
  | cons a as ih => exact ⟨himp s a hs h.1, ih (hside s a hs h.1) h.2⟩

/-- Two conditions on a step that say the same under an invariant say the same of a run. -/
theorem meets_iff_meets (hside : ∀ s a, I s → I (step s a)) (hiff : ∀ s a, I s → (C s a ↔ D s a))
    (hs : I s) : Meets step C s as ↔ Meets step D s as := by
  constructor
  · exact Meets.imp (fun s a hs _ => hside s a hs) (fun s a hs => (hiff s a hs).mp) hs
  · exact Meets.imp (fun s a hs _ => hside s a hs) (fun s a hs => (hiff s a hs).mpr) hs

/-- What no step changes, no run changes. -/
theorem foldl_frame (step : σ → α → σ) {β : Type*} {g : σ → β}
    (hstep : ∀ s a, g (step s a) = g s) (s : σ) (as : List α) : g (as.foldl step s) = g s := by
  induction as generalizing s with
  | nil => rfl
  | cons a as ih => exact (ih (step s a)).trans (hstep s a)

theorem foldl_invariant {p : α → Prop} (hstep : ∀ s a, p a → I s → I (step s a))
    (has : ∀ a ∈ as, p a) (hs : I s) : I (as.foldl step s) := by
  induction as generalizing s with
  | nil => exact hs
  | cons a as ih =>
    have ha : p a := has a List.mem_cons_self
    exact ih (fun b hb => has b (List.mem_cons_of_mem a hb)) (hstep s a ha hs)

/-- An invariant indexed by the steps that are done, where what a step meets is said of a view of the
state and of what the steps done make of `t₀`. -/
theorem Meets.history {ρ τ : Type*} {view : σ → ρ} {vstep : ρ → α → ρ}
    (hview : ∀ s a, vstep (view s) a = view (step s a)) {pstep : τ → α → τ} {t₀ : τ}
    {C : ρ × τ → α → Prop} {I : List α → σ → Prop}
    (hstep : ∀ done s a, C (view s, done.foldl pstep t₀) a → I done s → I (done ++ [a]) (step s a))
    {done : List α}
    (h : Meets (fun r a => (vstep r.1 a, pstep r.2 a)) C (view s, done.foldl pstep t₀) as)
    (hs : I done s) : I (done ++ as) (as.foldl step s) := by
  induction as generalizing s done with
  | nil =>
    rw [List.append_nil]
    exact hs
  | cons a as ih =>
    have hnext : Meets (fun r a => (vstep r.1 a, pstep r.2 a)) C
        (view (step s a), (done ++ [a]).foldl pstep t₀) as := by
      rw [← hview, List.foldl_concat]
      exact h.2
    have hrun := ih hnext (hstep done s a h.1 hs)
    rw [List.append_assoc] at hrun
    exact hrun

/-- A field that every step overwrites with the last value it is given, if it is given any. -/
theorem foldl_last (step : σ → α → σ) {β : Type*} {g : σ → β} {f : α → List β}
    (hstep : ∀ s a, g (step s a) = (f a).getLast?.getD (g s)) (s : σ) (as : List α) :
    g (as.foldl step s) = (as.flatMap f).getLast?.getD (g s) := by
  induction as generalizing s with
  | nil => rfl
  | cons a as ih =>
    rw [List.foldl_cons, ih, hstep, List.flatMap_cons, List.getLast?_append, Option.getD_or]

/-- The same, where a step gives it at most one. -/
theorem foldl_last_some (step : σ → α → σ) {β : Type*} {g : σ → β} {f : α → Option β}
    (hstep : ∀ s a, g (step s a) = (f a).getD (g s)) (s : σ) (as : List α) :
    g (as.foldl step s) = (as.filterMap f).getLast?.getD (g s) := by
  rw [List.filterMap_eq_flatMap_toList]
  refine foldl_last step (fun s a => ?_) s as
  rw [hstep]
  cases f a with
  | none => rfl
  | some v => rfl

/-- The rule of a view: if the view of a state after a step is what an abstract machine makes of
the view before it, given what the step shows of itself, the view of a run is a run of that
machine over what its steps show. -/
theorem foldl_view (step : σ → α → σ) {τ β : Type*} (view : σ → τ) (sight : α → Option β)
    (astep : τ → β → τ)
    (hstep : ∀ s a, view (step s a) = (sight a).elim (view s) (astep (view s))) (s : σ)
    (as : List α) : view (as.foldl step s) = (as.filterMap sight).foldl astep (view s) := by
  induction as generalizing s with
  | nil => rfl
  | cons a as ih =>
    rw [List.foldl_cons, ih, hstep]
    cases h : sight a with
    | none => rw [List.filterMap_cons_none h, Option.elim_none]
    | some b => rw [List.filterMap_cons_some h, List.foldl_cons, Option.elim_some]

/-! ### Cells that count -/

section Count
variable {β τ M : Type*} [AddMonoid M] {cell : σ → Option β} {val : β → M} {add : σ → α → M}

/-- What the steps of a run add up to. -/
def total (step : σ → α → σ) (add : σ → α → M) : σ → List α → M
  | _, [] => 0
  | s, a :: as => add s a + total step add (step s a) as

theorem total_concat (s : σ) (as : List α) (a : α) :
    total step add s (as ++ [a]) = total step add s as + add (as.foldl step s) a := by
  induction as generalizing s with
  | nil => exact (add_zero _).trans (zero_add _).symm
  | cons b as ih =>
    change add s b + total step add (step s b) (as ++ [a]) = add s b + total step add (step s b) as + _
    rw [ih, add_assoc]
    rfl

/-- The steps `since` are a life of the cell: it is empty before them and full after each. -/
structure Lived (step : σ → α → σ) (cell : σ → Option β) (s : σ) (since : List α) : Prop where
  empty : cell s = none
  ne_nil : since ≠ []
  full : ∀ pre, pre <+: since → pre ≠ [] → cell (pre.foldl step s) ≠ none

theorem lived_singleton {a : α} (h : cell s = none) (hfull : cell (step s a) ≠ none) :
    Lived step cell s [a] := by
  refine ⟨h, List.cons_ne_nil a [], fun pre hpre hne => ?_⟩
  rcases List.prefix_cons_iff.mp hpre with rfl | ⟨pre', rfl, hpre'⟩
  · exact absurd rfl hne
  · obtain rfl := List.prefix_nil.mp hpre'
    exact hfull

theorem Lived.concat {since : List α} {a : α} (h : Lived step cell s since)
    (hfull : cell ((since ++ [a]).foldl step s) ≠ none) : Lived step cell s (since ++ [a]) := by
  refine ⟨h.empty, List.append_ne_nil_of_right_ne_nil _ (List.cons_ne_nil a []), fun pre hpre hne => ?_⟩
  rcases List.prefix_concat_iff.mp hpre with rfl | hpre
  · exact hfull
  · exact h.full pre hpre hne

/-- A cell of a view that goes its own way lives there as it does in the run. -/
theorem Lived.view (view : σ → τ) {astep : τ → α → τ} (hview : ∀ s a, astep (view s) a = view (step s a))
    {acell : τ → Option β} {since : List α} (h : Lived step (fun s => acell (view s)) s since) :
    Lived astep acell (view s) since := by
  refine ⟨h.empty, h.ne_nil, fun pre hpre hne => ?_⟩
  rw [List.foldl_hom view hview]
  exact h.full pre hpre hne

/-- The rule of a counting cell: if every step that leaves it full adds to it, starting from nothing
where it was empty, it holds what the steps of its life so far add up to. -/
theorem counted_lived (step : σ → α → σ) (cell : σ → Option β) (val : β → M)
    (hstep : ∀ s a b, cell (step s a) = some b → val b = (cell s).elim 0 val + add s a)
    (hs : cell s = none) (as : List α) {b : β} (hb : cell (as.foldl step s) = some b) :
    ∃ before since, before ++ since = as ∧ Lived step cell (before.foldl step s) since ∧
      val b = total step add (before.foldl step s) since := by
  induction as using List.reverseRecOn generalizing b with
  | nil =>
    rw [List.foldl_nil, hs] at hb
    cases hb
  | append_singleton as a ih =>
    have hfull : cell ((as ++ [a]).foldl step s) ≠ none := by
      rw [hb]
      exact Option.some_ne_none b
    rw [List.foldl_concat] at hb hfull
    have hval := hstep _ a b hb
    cases hcell : cell (as.foldl step s) with
    | none =>
      refine ⟨as, [a], rfl, lived_singleton hcell hfull, ?_⟩
      rw [hval, hcell]
      exact (zero_add _).trans (add_zero _).symm
    | some b' =>
      obtain ⟨before, since, rfl, hlived, hb'⟩ := ih hcell
      rw [hcell, Option.elim_some, hb', List.foldl_append] at hval
      rw [List.foldl_append] at hfull
      refine ⟨before, since ++ [a], (List.append_assoc _ _ _).symm, hlived.concat ?_, ?_⟩
      · rw [List.foldl_concat]
        exact hfull
      · rw [total_concat, hval]

/-- What a run adds up to may be read off a view that goes its own way. -/
theorem total_view (view : σ → τ) {astep : τ → α → τ} (hview : ∀ s a, astep (view s) a = view (step s a))
    (add : τ → α → M) (s : σ) (as : List α) :
    total step (fun s => add (view s)) s as = total astep add (view s) as := by
  induction as generalizing s with
  | nil => rfl
  | cons a as ih =>
    change add (view s) a + _ = add (view s) a + total astep add (astep (view s) a) as
    rw [ih, hview]

end Count

/-! ### Runs under a clock -/

/-- The readings of the clock that a run takes, in order. -/
def readings (step : σ → α → σ) (reads : σ → α → List ℕ) : σ → List α → List ℕ
  | _, [] => []
  | s, a :: as => reads s a ++ readings step reads (step s a) as

/-- A bound on what was read so far is kept along a run whose clock never goes back, if every step
keeps it up to one of its own readings. -/
theorem foldl_clocked {reads : σ → α → List ℕ} {J : ℕ → σ → Prop}
    (hstep : ∀ t s a, (t :: reads s a).Pairwise (· ≤ ·) → J t s → ∃ t' ∈ t :: reads s a, J t' (step s a))
    (as : List α) {t : ℕ} {s : σ} (hclock : (t :: readings step reads s as).Pairwise (· ≤ ·))
    (hs : J t s) : ∃ t', J t' (as.foldl step s) := by
  induction as generalizing t s with
  | nil => exact ⟨t, hs⟩
  | cons a as ih =>
    have hsplit : ((t :: reads s a) ++ readings step reads (step s a) as).Pairwise (· ≤ ·) := hclock
    obtain ⟨hown, hrest, hle⟩ := List.pairwise_append.mp hsplit
    obtain ⟨t', ht', hs'⟩ := hstep t s a hown hs
    exact ih (List.pairwise_cons.mpr ⟨fun b hb => hle t' ht' b hb, hrest⟩) hs'

end Base
