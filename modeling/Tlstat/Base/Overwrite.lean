import Mathlib.Tactic.Common
import Mathlib.Algebra.BigOperators.Group.List.Basic

/-! Accumulation by overwriting. A pass over a prefix of some input and a later
pass over the whole of it leave what the second pass alone leaves, provided the
writes compose to idempotent maps. Composition is written left to right: `a * b`
is `a` first, then `b`. -/

namespace Base

section Band
variable {M : Type*} [Monoid M]

/-- After any earlier writes `w`, doing `a` first changes nothing that `b` leaves. -/
def Absorbed (a b : M) : Prop := ∀ w : M, w * a * (w * b) = w * b

theorem Absorbed.mul_eq {a b : M} (h : Absorbed a b) : a * b = b := by
  simpa only [one_mul] using h 1

theorem Absorbed.mul_right {a b : M} (h : Absorbed a b) (c : M) : Absorbed a (b * c) := by
  intro w
  rw [← mul_assoc w b c, ← mul_assoc, h w]

theorem Absorbed.mul_left {a b : M} (h : Absorbed a b) (c : M) : Absorbed (c * a) (c * b) := by
  intro w
  simpa only [mul_assoc] using h (w * c)

variable [Std.IdempotentOp fun a b : M => a * b]

theorem mul_self_eq (a : M) : a * a = a :=
  (inferInstance : Std.IdempotentOp fun a b : M => a * b).idempotent a

theorem Absorbed.refl (a : M) : Absorbed a a := fun w => mul_self_eq (w * a)

theorem one_absorbed (a : M) : Absorbed 1 a := by
  intro w
  rw [mul_one, ← mul_assoc, mul_self_eq]

end Band

/-- `xs` is what is left of `ys` when the input stops early: a prefix of `ys`
whose last item may itself be cut short, as `R` says. -/
inductive Truncates {α : Type*} (R : α → α → Prop) : List α → List α → Prop
  | nil (ys : List α) : Truncates R [] ys
  | last {x y : α} (h : R x y) (ys : List α) : Truncates R [x] (y :: ys)
  | cons (x : α) {xs ys : List α} (h : Truncates R xs ys) : Truncates R (x :: xs) (x :: ys)

namespace Truncates
variable {α M : Type*} {R : α → α → Prop} [Monoid M] [Std.IdempotentOp fun a b : M => a * b]

theorem absorbed {f : α → M} (hf : ∀ x y, R x y → Absorbed (f x) (f y)) {xs ys : List α}
    (h : Truncates R xs ys) : Absorbed (xs.map f).prod (ys.map f).prod := by
  induction h with
  | nil ys => exact one_absorbed _
  | last h ys =>
    simpa only [List.map_cons, List.map_nil, List.prod_cons, List.prod_nil, mul_one] using
      (hf _ _ h).mul_right (ys.map f).prod
  | cons x _ ih =>
    simpa only [List.map_cons, List.prod_cons] using ih.mul_left (f x)

omit [Monoid M] [Std.IdempotentOp fun a b : M => a * b] in
theorem forall_mem {P : α → Prop} (hR : ∀ x y, R x y → P y → P x) {xs ys : List α}
    (h : Truncates R xs ys) (hy : ∀ y ∈ ys, P y) : ∀ x ∈ xs, P x := by
  induction h with
  | nil ys => simp
  | last h ys =>
    intro z hz
    obtain rfl := List.mem_singleton.mp hz
    exact hR _ _ h (hy _ (List.mem_cons_self ..))
  | cons x _ ih =>
    intro z hz
    rcases List.mem_cons.mp hz with rfl | hz
    · exact hy _ (List.mem_cons_self ..)
    · exact ih (fun y hy' => hy y (List.mem_cons_of_mem _ hy')) z hz

omit [Monoid M] [Std.IdempotentOp fun a b : M => a * b] in
/-- The first hit in what is left of a list is related to the first hit in the whole. -/
theorem findSome? {β : Type*} {S : β → β → Prop} {f : α → Option β} (hS : ∀ b, S b b)
    (hR : ∀ x y, R x y → f x = none ∨ ∃ a b, f x = some a ∧ f y = some b ∧ S a b)
    {xs ys : List α} (h : Truncates R xs ys) :
    xs.findSome? f = none ∨
      ∃ a b, xs.findSome? f = some a ∧ ys.findSome? f = some b ∧ S a b := by
  induction h with
  | nil ys => exact .inl rfl
  | @last x y h ys =>
    rcases hR x y h with hx | ⟨a, b, hx, hy, hab⟩
    · exact .inl (by rw [List.findSome?_cons, hx, List.findSome?_nil])
    · exact .inr ⟨a, b, by rw [List.findSome?_cons, hx], by rw [List.findSome?_cons, hy], hab⟩
  | cons x _ ih =>
    rw [List.findSome?_cons, List.findSome?_cons]
    cases f x with
    | none => exact ih
    | some b => exact .inr ⟨b, b, rfl, rfl, hS b⟩

omit [Monoid M] [Std.IdempotentOp fun a b : M => a * b] in
/-- What is left of a list yields the first of what the whole yields, if a cut item yields nothing
or the same. -/
theorem filterMap {β : Type*} {f : α → Option β} (hR : ∀ x y, R x y → f x = none ∨ f x = f y)
    {xs ys : List α} (h : Truncates R xs ys) : xs.filterMap f <+: ys.filterMap f := by
  induction h with
  | nil ys => exact List.nil_prefix
  | @last x y hxy ys =>
    rcases hR x y hxy with hx | hx
    · rw [List.filterMap_cons_none hx]
      exact List.nil_prefix
    · rw [List.filterMap_cons, List.filterMap_cons, hx]
      cases f y with
      | none => exact List.nil_prefix
      | some b => exact List.prefix_append [b] _
  | cons x _ ih =>
    rw [List.filterMap_cons, List.filterMap_cons]
    cases f x with
    | none => exact ih
    | some b => exact (List.prefix_cons_inj b).mpr ih

end Truncates

theorem findSome?_map_congr {α β γ : Type*} {m : α → β} {f : β → Option γ} {g : α → Option γ}
    {xs : List α} (h : ∀ x ∈ xs, f (m x) = g x) : (xs.map m).findSome? f = xs.findSome? g := by
  induction xs with
  | nil => rfl
  | cons x xs ih =>
    rw [List.map_cons, List.findSome?_cons, List.findSome?_cons, h x List.mem_cons_self,
      ih fun y hy => h y (List.mem_cons_of_mem _ hy)]

/-- Where the keys are distinct, a later item does not overwrite what an earlier one with key `k`
has written. -/
theorem findSome?_getD_of_key {α β κ : Type*} {key : α → κ} {k : κ} {f : α → Option β}
    (hf : ∀ x b, f x = some b → key x = k) {x : α} {xs : List α}
    (h : ((x :: xs).map key).Nodup) (d : β) :
    (xs.findSome? f).getD ((f x).getD d) = ((x :: xs).findSome? f).getD d := by
  rw [List.findSome?_cons]
  cases hx : f x with
  | none => rfl
  | some b =>
    have hnone : xs.findSome? f = none := by
      rw [List.findSome?_eq_none_iff]
      intro y hy
      by_contra hne
      obtain ⟨c, hc⟩ := Option.ne_none_iff_exists'.mp hne
      rw [List.map_cons, List.nodup_cons] at h
      refine h.1 (List.mem_map.mpr ⟨y, hy, ?_⟩)
      rw [hf x b hx, hf y c hc]
    rw [hnone]
    rfl

/-- What a sequence of writes does to one field: nothing, set it, or set it only
where it still has its default value. -/
inductive Slot (α : Type*)
  | keep
  | put (v : α)
  | fill (v : α)
deriving DecidableEq, Repr

namespace Slot
variable {α : Type*} [Inhabited α] [DecidableEq α]

def apply : Slot α → α → α
  | keep, x => x
  | put v, _ => v
  | fill v, x => if x = default then v else x

def orElse (u v : α) : α := if u = default then v else u

instance : Mul (Slot α) where
  mul
    | s, keep => s
    | _, put v => put v
    | keep, fill v => fill v
    | put u, fill v => put (orElse u v)
    | fill u, fill v => fill (orElse u v)

instance : One (Slot α) where
  one := keep

@[simp] theorem mul_keep (s : Slot α) : s * keep = s := by cases s <;> rfl
@[simp] theorem keep_mul (s : Slot α) : keep * s = s := by cases s <;> rfl
@[simp] theorem mul_put (s : Slot α) (v : α) : s * put v = put v := by cases s <;> rfl
@[simp] theorem put_mul_fill (u v : α) : put u * fill v = put (orElse u v) := rfl
@[simp] theorem fill_mul_fill (u v : α) : fill u * fill v = fill (orElse u v) := rfl

theorem orElse_assoc (u v w : α) : orElse (orElse u v) w = orElse u (orElse v w) := by
  unfold orElse
  split_ifs <;> simp_all

theorem orElse_self (u : α) : orElse u u = u := by
  unfold orElse
  split_ifs <;> rfl

theorem orElse_of_ne {u : α} (h : u ≠ default) (v : α) : orElse u v = u := if_neg h

instance : Monoid (Slot α) where
  mul_assoc a b c := by
    cases a <;> cases b <;> cases c <;>
      simp only [mul_keep, keep_mul, mul_put, put_mul_fill, fill_mul_fill, orElse_assoc]
  one_mul := keep_mul
  mul_one := mul_keep

instance : Std.IdempotentOp fun a b : Slot α => a * b where
  idempotent a := by
    cases a <;> simp only [mul_keep, mul_put, fill_mul_fill, orElse_self]

theorem apply_mul (s t : Slot α) (x : α) : (s * t).apply x = t.apply (s.apply x) := by
  cases t with
  | keep => rw [mul_keep]; rfl
  | put v => rw [mul_put]; rfl
  | fill v =>
    cases s with
    | keep => rfl
    | put u => rfl
    | fill u =>
      change (if x = default then orElse u v else x) = _
      simp only [apply, orElse]
      split_ifs <;> simp_all

theorem absorbed_put (s : Slot α) (v : α) : Absorbed s (put v) := by
  intro w
  simp only [mul_put]

theorem keep_absorbed (s : Slot α) : Absorbed keep s := one_absorbed s

theorem eq_keep_of_mul_eq_keep {s t : Slot α} (h : s * t = keep) : s = keep := by
  cases s with
  | keep => rfl
  | put u => cases t <;> simp at h
  | fill u => cases t <;> simp at h

end Slot
end Base
