import Mathlib.Data.Nat.Notation
import Mathlib.Tactic.Common

/-! Sorting by a comparison that leaves ties, as an unstable sort does it: the order of tied
values is left open. -/

namespace Base
variable {α : Type}

/-- `less` is an order up to ties. -/
structure StrictWeak (less : α → α → Bool) : Prop where
  asymm : ∀ a b, less a b = true → less b a = false
  between : ∀ a b c, less a c = true → less a b = true ∨ less b c = true

theorem StrictWeak.trans_not {less : α → α → Bool} (h : StrictWeak less) {a b c : α}
    (hab : less b a = false) (hbc : less c b = false) : less c a = false := by
  refine Bool.eq_false_iff.mpr fun hca => ?_
  rcases h.between c b a hca with hcb | hba
  · rw [hbc] at hcb
    cases hcb
  · rw [hab] at hba
    cases hba

theorem StrictWeak.not_trans {less : α → α → Bool} (h : StrictWeak less) (a b c : α)
    (hab : (!less b a) = true) (hbc : (!less c b) = true) : (!less c a) = true := by
  rw [Bool.not_eq_true'] at hab hbc ⊢
  exact h.trans_not hab hbc

theorem StrictWeak.not_total {less : α → α → Bool} (h : StrictWeak less) (a b : α) :
    ((!less b a) || !less a b) = true := by
  cases hab : less a b
  · simp
  · simp [h.asymm a b hab]

theorem strictWeak_key (f : α → ℕ) : StrictWeak fun a b => decide (f a < f b) where
  asymm := by
    intro a b h
    exact decide_eq_false (Nat.lt_asymm (of_decide_eq_true h))
  between := by
    intro a b c h
    have hac : f a < f c := of_decide_eq_true h
    rcases Nat.lt_or_ge (f a) (f b) with hab | hba
    · exact .inl (decide_eq_true hab)
    · exact .inr (decide_eq_true (Nat.lt_of_le_of_lt hba hac))

theorem StrictWeak.swap {less : α → α → Bool} (h : StrictWeak less) :
    StrictWeak fun a b => less b a where
  asymm := fun a b => h.asymm b a
  between := fun a b c hca => (h.between c b a hca).symm

/-- Two keys, the second for the ties of the first. -/
theorem StrictWeak.lex {p q : α → α → Bool} (hp : StrictWeak p) (hq : StrictWeak q) :
    StrictWeak fun a b => p a b || (!p b a && q a b) where
  asymm := by
    intro a b h
    have hpa := hp.asymm a b
    have hqa := hq.asymm a b
    grind
  between := by
    intro a b c h
    have hpac := hp.between a b c
    have hqac := hq.between a b c
    -- a value that beats `a` or loses to `c` on the first key decides the other comparison
    have hba := hp.between b c a
    have hcb := hp.between c a b
    grind

/-- `sort.Slice`: the values of the slice in an order in which none is less than an earlier
one. -/
structure Sorting (α : Type) where
  sort : (α → α → Bool) → List α → List α
  perm : ∀ less l, (sort less l).Perm l
  sorted : ∀ less, StrictWeak less → ∀ l, (sort less l).Pairwise fun a b => less b a = false

/-- The stable sort is one of them. -/
def Sorting.stable : Sorting α where
  sort less l := l.mergeSort fun a b => !less b a
  perm less l := List.mergeSort_perm l _
  sorted := by
    intro less h l
    refine (List.pairwise_mergeSort h.not_trans h.not_total l).imp fun {a b} hab => ?_
    rwa [Bool.not_eq_true'] at hab

/-! ### Ties -/

/-- Neither is less than the other, so a sort may leave them either way round. -/
def Tied (less : α → α → Bool) (a b : α) : Prop := less a b = false ∧ less b a = false

/-- Where only equal values tie, every sort of every arrangement gives the same list. -/
theorem Sorting.sort_eq (S S' : Sorting α) {less : α → α → Bool} (h : StrictWeak less)
    {l l' : List α} (hperm : l.Perm l') (hties : ∀ a ∈ l, ∀ b ∈ l, Tied less a b → a = b) :
    S.sort less l = S'.sort less l' := by
  refine List.Perm.eq_of_pairwise ?_ (S.sorted less h l) (S'.sorted less h l')
    ((S.perm less l).trans (hperm.trans (S'.perm less l').symm))
  intro a b ha hb hba hab
  have ha' : a ∈ l := (S.perm less l).mem_iff.mp ha
  have hb' : b ∈ l := hperm.mem_iff.mpr ((S'.perm less l').mem_iff.mp hb)
  exact hties a ha' b hb' ⟨hab, hba⟩

/-- The stable sort leaves a tied pair as it found it. -/
theorem Sorting.stable_pair {less : α → α → Bool} (h : StrictWeak less) {a b : α} {l : List α}
    (htied : Tied less a b) (hl : [a, b].Sublist l) :
    [a, b].Sublist (Sorting.stable.sort less l) := by
  exact List.pair_sublist_mergeSort h.not_trans h.not_total (by rw [htied.2]; rfl) hl

theorem not_sublist_swap {a b : α} {l : List α} (hl : l.Nodup) (hab : [a, b].Sublist l)
    (hba : [b, a].Sublist l) : False := by
  induction l with
  | nil => cases hab
  | cons x l ih =>
    have hx : x ∉ l := (List.nodup_cons.mp hl).1
    rcases List.sublist_cons_iff.mp hab with hab' | ⟨r, hr, hab'⟩
    · rcases List.sublist_cons_iff.mp hba with hba' | ⟨r, hr, hba'⟩
      · exact ih (List.nodup_cons.mp hl).2 hab' hba'
      · obtain ⟨rfl, rfl⟩ := List.cons.inj hr
        exact hx (hab'.subset (by simp))
    · obtain ⟨rfl, rfl⟩ := List.cons.inj hr
      rcases List.sublist_cons_iff.mp hba with hba' | ⟨r, hr, hba'⟩
      · exact hx (hba'.subset (by simp))
      · obtain ⟨rfl, rfl⟩ := List.cons.inj hr
        exact hx (hab'.subset (by simp))

end Base
