import Mathlib.Data.List.Flatten

/-!
# Breadth-first order

A queue from whose front an element is taken, and at whose end its children are put, until it is empty
(`Queued`). The order in which the elements are taken is that of the generations: the roots, their children,
the children of these, and so on (`queued_breadthFirst`).
-/

namespace Nio

variable {α : Type*} (children : α → List α)

/-- The elements are taken from the queue in this order. -/
inductive Queued : List α → List α → Prop
  | nil : Queued [] []
  | cons {x : α} {queue order : List α} : Queued (queue ++ children x) order → Queued (x :: queue) (x :: order)

/-- The elements that stand `n` generations below the roots. -/
def generation : Nat → List α → List α
  | 0, roots => roots
  | n + 1, roots => generation n (roots.flatMap children)

/-- The first `n` generations, one after the other. -/
def breadthFirst : Nat → List α → List α
  | 0, _ => []
  | n + 1, roots => roots ++ breadthFirst n (roots.flatMap children)

variable {children} {queue order : List α}

theorem Queued.isPrefix (h : Queued children queue order) : queue <+: order := by
  induction h with
  | nil => exact List.prefix_refl _
  | @cons x queue order _ ih =>
    apply List.cons_prefix_cons.mpr
    exact ⟨rfl, (List.prefix_append queue (children x)).trans ih⟩

/-- A part of the queue is taken out, and the children of its elements stand behind what was behind it. -/
theorem Queued.append {l rest : List α} (h : Queued children (rest ++ l.flatMap children) order) :
    Queued children (l ++ rest) (l ++ order) := by
  induction l generalizing rest with
  | nil => simpa using h
  | cons x l ih =>
    rw [List.cons_append, List.cons_append]
    apply Queued.cons
    rw [List.append_assoc]
    apply ih
    simpa using h

/-- A queue is taken out by generations, if there is a last one. -/
theorem queued_breadthFirst {n : Nat} {roots : List α} (h : generation children n roots = []) :
    Queued children roots (breadthFirst children n roots) := by
  induction n generalizing roots with
  | zero =>
    obtain rfl : roots = [] := h
    exact .nil
  | succ n ih =>
    have hq : Queued children (roots ++ []) (roots ++ breadthFirst children n (roots.flatMap children)) :=
      .append (ih h)
    rwa [List.append_nil] at hq

end Nio
