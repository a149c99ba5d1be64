import Tlstat.Base.Run

/-! Merges of two sequences. If the steps of the two parties commute, seen through an
abstraction, every merge ends where running one party after the other ends. -/

namespace Base
variable {α β γ : Type*}

/-- `cs` carries out the items of `as` and those of `bs`, each in its own order: `p a c` and
`q b c` say that `c` carries out `a`, or `b`. -/
inductive Merge (p : α → γ → Prop) (q : β → γ → Prop) : List α → List β → List γ → Prop
  | nil : Merge p q [] [] []
  | left {a c as bs cs} (ha : p a c) (h : Merge p q as bs cs) : Merge p q (a :: as) bs (c :: cs)
  | right {b c as bs cs} (hb : q b c) (h : Merge p q as bs cs) : Merge p q as (b :: bs) (c :: cs)

section Parties
variable {τ : Type*} {f : τ → α → τ} {g : τ → β → τ} {C : τ → α → Prop} {t : τ} {as : List α}

theorem meets_of_comm (hC : ∀ t a b, C (g t b) a ↔ C t a)
    (hcomm : ∀ t a b, C t a → f (g t b) a = g (f t a) b) (b : β) :
    Meets f C (g t b) as ↔ Meets f C t as := by
  induction as generalizing t with
  | nil => exact Iff.rfl
  | cons a as ih =>
    change C (g t b) a ∧ Meets f C (f (g t b) a) as ↔ C t a ∧ Meets f C (f t a) as
    rw [hC]
    refine and_congr_right fun ha => ?_
    rw [hcomm t a b ha]
    exact ih

theorem foldl_of_comm (hcomm : ∀ t a b, C t a → f (g t b) a = g (f t a) b) (b : β)
    (h : Meets f C t as) :
    as.foldl f (g t b) = g (as.foldl f t) b := by
  induction as generalizing t with
  | nil => rfl
  | cons a as ih =>
    rw [List.foldl_cons, hcomm t a b h.1]
    exact ih h.2

variable {σ : Type*} {step : σ → γ → σ} {abs : σ → τ} {p : α → γ → Prop} {q : β → γ → Prop}
  {s : σ} {bs : List β} {cs : List γ}

/-- The abstract run of one party meets what the steps of the merged run meet. -/
theorem Merge.meets {D : σ → γ → Prop} (h : Merge p q as bs cs)
    (hf : ∀ s a c, p a c → abs (step s c) = f (abs s) a)
    (hg : ∀ s b c, q b c → abs (step s c) = g (abs s) b)
    (hC : ∀ t a b, C (g t b) a ↔ C t a)
    (hcomm : ∀ t a b, C t a → f (g t b) a = g (f t a) b)
    (hD : ∀ s a c, p a c → D s c → C (abs s) a) (hs : Meets step D s cs) :
    Meets f C (abs s) as := by
  induction h generalizing s with
  | nil => trivial
  | left ha _ ih => exact ⟨hD _ _ _ ha hs.1, hf _ _ _ ha ▸ ih hs.2⟩
  | @right b c as bs cs hb _ ih =>
    have hrest := ih hs.2
    rw [hg s b c hb] at hrest
    exact (meets_of_comm hC hcomm b).mp hrest

/-- **Every merge ends where one party after the other ends.** -/
theorem Merge.foldl_eq (h : Merge p q as bs cs)
    (hf : ∀ s a c, p a c → abs (step s c) = f (abs s) a)
    (hg : ∀ s b c, q b c → abs (step s c) = g (abs s) b)
    (hC : ∀ t a b, C (g t b) a ↔ C t a)
    (hcomm : ∀ t a b, C t a → f (g t b) a = g (f t a) b) (hs : Meets f C (abs s) as) :
    abs (cs.foldl step s) = bs.foldl g (as.foldl f (abs s)) := by
  induction h generalizing s with
  | nil => rfl
  | @left a c as bs cs ha _ ih =>
    have hnext := hf s a c ha
    have hs' := hs.2
    rw [← hnext] at hs'
    rw [List.foldl_cons, ih hs', hnext, List.foldl_cons]
  | @right b c as bs cs hb _ ih =>
    have hnext := hg s b c hb
    have hs' : Meets f C (g (abs s) b) as := (meets_of_comm hC hcomm b).mpr hs
    rw [← hnext] at hs'
    rw [List.foldl_cons, ih hs', hnext, foldl_of_comm hcomm b hs, List.foldl_cons]

end Parties
end Base
