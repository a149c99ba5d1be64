import Mathlib.Tactic.Common
import Mathlib.Data.Int.Notation
import Mathlib.Data.Int.Range

/-! Imperative code over slices with its run-time checks spelled out: an index or a slice
expression out of range, an assertion that fails, and a loop that does not move forward or does
not end are faults. -/

namespace Base

inductive Fault
  | index
  | slice
  | assertion
  | stuck
  | endless
deriving DecidableEq, Repr

abbrev Checked (α : Type) := Except Fault α

namespace Checked

@[simp] theorem ok_bind {α β : Type} (a : α) (f : α → Checked β) :
    ((Except.ok a : Checked α) >>= f) = f a := rfl

@[simp] theorem pure_eq {α : Type} (a : α) : (pure a : Checked α) = .ok a := rfl

section Slices
variable {α : Type}

/-- `b[i]` -/
def index (b : List α) (i : ℤ) : Checked α :=
  if 0 ≤ i then
    match b[i.toNat]? with
    | some v => .ok v
    | none => .error .index
  else .error .index

/-- `b[i:j]` -/
def subslice (b : List α) (i j : ℤ) : Checked (List α) :=
  if 0 ≤ i ∧ i ≤ j ∧ j ≤ b.length then .ok ((b.drop i.toNat).take (j.toNat - i.toNat))
  else .error .slice

def assert (p : Prop) [Decidable p] : Checked Unit := if p then .ok () else .error .assertion

theorem index_ok {b : List α} {i : ℤ} {n : ℕ} (hi : i = n) (h : n < b.length) :
    index b i = .ok b[n] := by
  rw [index, if_pos (by omega), hi, Int.toNat_natCast, List.getElem?_eq_getElem h]

theorem subslice_ok {b : List α} {i j : ℤ} {m n : ℕ} (hi : i = m) (hj : j = n) (hmn : m ≤ n)
    (hn : n ≤ b.length) : subslice b i j = .ok ((b.drop m).take (n - m)) := by
  rw [subslice, if_pos (by omega), hi, hj, Int.toNat_natCast, Int.toNat_natCast]

theorem assert_ok {p : Prop} [Decidable p] (h : p) : assert p = .ok () := if_pos h

end Slices

/-! ### Loops -/

inductive Step (σ β : Type)
  | done (y : β)
  | next (s : σ)

section Loop
variable {σ β : Type}

/-- `for` with the condition inside the body; `pos` must grow from one turn to the next, and
`fuel` turns must do. -/
def loop (pos : σ → ℤ) (body : σ → Checked (Step σ β)) : ℕ → σ → Checked β
  | 0, _ => .error .endless
  | fuel + 1, s => do
    match ← body s with
    | .done y => .ok y
    | .next s' => if pos s < pos s' then loop pos body fuel s' else .error .stuck

/-- A loop computes `g` where each turn ends with the result of `g`, or moves forward inside
`size` to a state with the same result. `I` holds at the start of every turn. -/
theorem loop_eq {τ : Type} {pos : σ → ℤ} {body : σ → Checked (Step σ β)} (e : τ → σ) (g : τ → β)
    (I : τ → Prop) (size : ℤ)
    (h : ∀ t, I t → pos (e t) ≤ size ∧ (body (e t) = .ok (.done (g t)) ∨
      ∃ t', body (e t) = .ok (.next (e t')) ∧ pos (e t) < pos (e t') ∧ I t' ∧ g t = g t'))
    {fuel : ℕ} {t : τ} (ht : I t) (hfuel : size - pos (e t) < fuel) :
    loop pos body fuel (e t) = .ok (g t) := by
  induction fuel generalizing t with
  | zero =>
    have := (h t ht).1
    omega
  | succ fuel ih =>
    rw [loop]
    rcases (h t ht).2 with hdone | ⟨t', hnext, hlt, ht', hg⟩
    · rw [hdone, ok_bind]
    · rw [hnext, ok_bind]
      dsimp only
      rw [if_pos hlt, hg]
      exact ih ht' (by omega)

end Loop

/-! ### What a computation returns -/

section Returns
variable {α β : Type} {x : Checked α} {P : α → Prop} {Q : β → Prop}

/-- It does not fault, and returns something with `P`. -/
def Returns (x : Checked α) (P : α → Prop) : Prop := ∃ a, x = .ok a ∧ P a

theorem Returns.ok {a : α} (h : P a) : Returns (.ok a) P := ⟨a, rfl, h⟩

theorem Returns.bind {f : α → Checked β} (hx : Returns x P) (hf : ∀ a, P a → Returns (f a) Q) :
    Returns (x >>= f) Q := by
  obtain ⟨a, rfl, ha⟩ := hx
  exact hf a ha

theorem returns_index {b : List α} {i : ℤ} (hi : 0 ≤ i) (h : i < b.length) :
    Returns (index b i) fun a => b[i.toNat]? = some a := by
  have hlt : i.toNat < b.length := by omega
  exact ⟨_, index_ok (Int.toNat_of_nonneg hi).symm hlt, List.getElem?_eq_getElem hlt⟩

theorem returns_subslice {b : List α} {i j : ℤ} (hi : 0 ≤ i) (hij : i ≤ j) (hj : j ≤ b.length) :
    Returns (subslice b i j) fun a => a = (b.drop i.toNat).take (j.toNat - i.toNat) :=
  ⟨_, if_pos ⟨hi, hij, hj⟩, rfl⟩

theorem mapM_ok {f : α → Checked β} {g : α → β} {as : List α} (h : ∀ a ∈ as, f a = .ok (g a)) :
    as.mapM f = .ok (as.map g) := by
  induction as with
  | nil => rfl
  | cons a as ih =>
    rw [List.mapM_cons, h a List.mem_cons_self, ok_bind,
      ih fun a' ha' => h a' (List.mem_cons_of_mem a ha')]
    rfl

/-- A loop that runs to its end returns what each of its turns returns. -/
theorem Returns.mapM {f : α → Checked β} {R : α → β → Prop} {as : List α}
    (h : ∀ a ∈ as, Returns (f a) (R a)) : Returns (as.mapM f) (List.Forall₂ R as) := by
  induction as with
  | nil => exact .ok .nil
  | cons a as ih =>
    rw [List.mapM_cons]
    refine .bind (h a List.mem_cons_self) fun b hb => ?_
    refine .bind (ih fun a' ha' => h a' (List.mem_cons_of_mem a ha')) fun bs hbs => ?_
    exact .ok (.cons hb hbs)

/-- A loop that an answer ends. -/
theorem Returns.allM {f : α → Checked Bool} {as : List α}
    (h : ∀ a ∈ as, Returns (f a) fun _ => True) : Returns (as.allM f) fun _ => True := by
  induction as with
  | nil => exact .ok trivial
  | cons a as ih =>
    rw [List.allM]
    refine .bind (h a List.mem_cons_self) fun b _ => ?_
    cases b with
    | false => exact .ok trivial
    | true => exact ih fun a' ha' => h a' (List.mem_cons_of_mem a ha')

theorem Returns.anyM {f : α → Checked Bool} {as : List α}
    (h : ∀ a ∈ as, Returns (f a) fun _ => True) : Returns (as.anyM f) fun _ => True := by
  induction as with
  | nil => exact .ok trivial
  | cons a as ih =>
    rw [List.anyM]
    refine .bind (h a List.mem_cons_self) fun b _ => ?_
    cases b with
    | false => exact ih fun a' ha' => h a' (List.mem_cons_of_mem a ha')
    | true => exact .ok trivial

/-- A loop that an answer ends, where every turn has one. -/
theorem allM_ok {f : α → Checked Bool} {g : α → Bool} {as : List α} (h : ∀ a ∈ as, f a = .ok (g a)) :
    as.allM f = .ok (as.all g) := by
  induction as with
  | nil => rfl
  | cons a as ih =>
    rw [List.allM, h a List.mem_cons_self, ok_bind, List.all_cons]
    cases g a with
    | false => rfl
    | true => exact ih fun a' ha' => h a' (List.mem_cons_of_mem a ha')

theorem anyM_ok {f : α → Checked Bool} {g : α → Bool} {as : List α} (h : ∀ a ∈ as, f a = .ok (g a)) :
    as.anyM f = .ok (as.any g) := by
  induction as with
  | nil => rfl
  | cons a as ih =>
    rw [List.anyM, h a List.mem_cons_self, ok_bind, List.any_cons]
    cases g a with
    | false => exact ih fun a' ha' => h a' (List.mem_cons_of_mem a ha')
    | true => rfl

theorem exists_of_forall₂ {R : α → β → Prop} {as : List α} {bs : List β} {a : α}
    (h : List.Forall₂ R as bs) (ha : a ∈ as) : ∃ b ∈ bs, R a b := by
  induction h with
  | nil => cases ha
  | cons hab _ ih =>
    rcases List.mem_cons.mp ha with rfl | ha
    · exact ⟨_, List.mem_cons_self, hab⟩
    · obtain ⟨b, hb, hR⟩ := ih ha
      exact ⟨b, List.mem_cons_of_mem _ hb, hR⟩

end Returns

/-! ### Loops over a range -/

section Range
variable {β : Type} {a b c : ℤ}

theorem range_append (hab : a ≤ b) (hbc : b ≤ c) :
    Int.range a c = Int.range a b ++ Int.range b c := by
  have hlen : (c - a).toNat = (b - a).toNat + (c - b).toNat := by omega
  unfold Int.range
  rw [hlen, List.range_add, List.map_append, List.map_map]
  refine congrArg _ (List.map_congr_left fun k _ => ?_)
  change a + ((b - a).toNat + k : ℕ) = b + k
  omega

theorem length_range (a b : ℤ) : (Int.range a b).length = (b - a).toNat := by
  rw [Int.range, List.length_map, List.length_range]

theorem range_eq_nil (h : b ≤ a) : Int.range a b = [] := by
  rw [← List.length_eq_zero_iff, length_range]
  omega

/-- A loop over a range of offsets, each turn by its distance from the first. -/
theorem mapM_range {f : ℤ → Checked β} {g : ℕ → β} {i j : ℤ} {n : ℕ} (hn : j - i = n)
    (h : ∀ k < n, f (i + k) = .ok (g k)) :
    (Int.range i j).mapM f = .ok ((List.range n).map g) := by
  rw [Int.range, hn, Int.toNat_natCast, List.mapM_map]
  exact mapM_ok fun k hk => h k (List.mem_range.mp hk)

end Range
end Checked
end Base
