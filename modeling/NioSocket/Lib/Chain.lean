import Mathlib.Data.List.Basic
import Mathlib.Logic.Function.Basic

/-!
# Singly linked lists

Objects with a `next` pointer. The links lead from a first pointer through the members of
a list to null (`Chain`).
-/

namespace Nio

variable {α : Type*} {next next' : α → Option α} {p : Option α} {x y t : α} {xs : List α}

/-- The links lead from `p` through the objects of a list to null. -/
def Chain (next : α → Option α) : Option α → List α → Prop
  | p, [] => p = none
  | p, x :: xs => p = some x ∧ Chain next (next x) xs

namespace Chain

@[simp] theorem nil_iff : Chain next p [] ↔ p = none := Iff.rfl

@[simp] theorem cons_iff : Chain next p (x :: xs) ↔ p = some x ∧ Chain next (next x) xs := Iff.rfl

/-- Where there is no first object, there is none. -/
theorem eq_nil (h : Chain next none xs) : xs = [] := by
  cases xs with
  | nil => rfl
  | cons x xs => cases h.1

theorem congr (h : Chain next p xs) (he : ∀ x ∈ xs, next' x = next x) : Chain next' p xs := by
  induction xs generalizing p with
  | nil => exact h
  | cons x xs ih =>
    refine ⟨h.1, ih ?_ fun y hy => he y (List.mem_cons_of_mem _ hy)⟩
    rw [he x List.mem_cons_self]
    exact h.2

/-- The last object leads to null. -/
theorem next_last (h : Chain next p (xs ++ [t])) : next t = none := by
  induction xs generalizing p with
  | nil => exact h.2
  | cons x xs ih => exact ih h.2

/-- Linking an object behind the last. -/
theorem snoc [DecidableEq α] (h : Chain next p (xs ++ [t])) (hd : (xs ++ [t]).Nodup) (hy : y ∉ xs ++ [t])
    (hn : next y = none) : Chain (Function.update next t (some y)) p (xs ++ [t] ++ [y]) := by
  induction xs generalizing p with
  | nil =>
    have hne : y ≠ t := by simpa using hy
    simp [h.1, Function.update_of_ne hne, hn]
  | cons x xs ih =>
    obtain ⟨hx, hd⟩ := List.nodup_cons.mp hd
    have hxt : x ≠ t := fun e => hx (by simp [e])
    refine ⟨h.1, ?_⟩
    rw [Function.update_of_ne hxt]
    exact ih h.2 hd fun hm => hy (List.mem_cons_of_mem _ hm)

end Chain

end Nio
