import Mathlib.Data.List.Basic

/-!
# Sequences whose items carry a number

The items with number `k` (`part`), and the shape of a sequence whose numbers
never decrease (`parts_flatten`): it is its parts, one after another, so none of
them is interleaved with another.
-/

namespace Nio

variable {α : Type*}

/-- The items of `l` with number `k`, in order. -/
def part (l : List (Nat × α)) (k : Nat) : List α := (l.filter (·.1 = k)).map (·.2)

@[simp] theorem part_nil (k : Nat) : part ([] : List (Nat × α)) k = [] := rfl

@[simp] theorem part_append (l l' : List (Nat × α)) (k : Nat) :
    part (l ++ l') k = part l k ++ part l' k := by
  simp [part]

@[simp] theorem part_map_self (xs : List α) (k : Nat) : part (xs.map (k, ·)) k = xs := by
  induction xs with
  | nil => rfl
  | cons x xs ih => simpa [part] using ih

theorem part_map_of_ne (xs : List α) {j k : Nat} (h : k ≠ j) : part (xs.map (j, ·)) k = [] := by
  simp [part, Ne.symm h]

theorem part_eq_nil {l : List (Nat × α)} {k : Nat} (h : ∀ x ∈ l, x.1 ≠ k) : part l k = [] := by
  simpa [part, List.filter_eq_nil_iff] using h

theorem part_filter {l : List (Nat × α)} (p : Nat → Prop) [DecidablePred p] (k : Nat) :
    part (l.filter fun x => p x.1) k = if p k then part l k else [] := by
  simp only [part, List.filter_filter]
  split
  · rename_i hk
    congr 1
    refine List.filter_congr fun x _ => ?_
    by_cases h : x.1 = k <;> simp [h, hk]
  · rename_i hk
    simp only [List.map_eq_nil_iff, List.filter_eq_nil_iff, Bool.and_eq_true, decide_eq_true_eq]
    rintro x - ⟨rfl, hp⟩
    exact hk hp

/-- The items with the largest number are a suffix of a sequence whose numbers
never decrease. -/
theorem filter_lt_append_filter_eq {n : Nat} : ∀ {l : List (Nat × α)},
    (l.map (·.1)).Pairwise (· ≤ ·) → (∀ x ∈ l, x.1 ≤ n) →
      l = l.filter (·.1 < n) ++ l.filter (·.1 = n)
  | [], _, _ => rfl
  | x :: l, hs, hn => by
    rw [List.map_cons, List.pairwise_cons] at hs
    have hx := hn x List.mem_cons_self
    have hl := filter_lt_append_filter_eq hs.2 fun y hy => hn y (List.mem_cons_of_mem _ hy)
    by_cases h : x.1 < n
    · simp only [List.filter_cons, h, decide_true, if_true, show x.1 ≠ n by omega, decide_false,
        Bool.false_eq_true, if_false, List.cons_append]
      exact congrArg _ hl
    · have hxn : x.1 = n := by omega
      have h0 : l.filter (·.1 < n) = [] := by
        simp only [List.filter_eq_nil_iff, decide_eq_true_eq]
        intro y hy
        have := hs.1 _ (List.mem_map_of_mem hy)
        omega
      rw [h0, List.nil_append] at hl
      simp only [List.filter_cons, hxn, Nat.lt_irrefl, decide_false, Bool.false_eq_true, if_false,
        decide_true, if_true, h0, List.nil_append]
      exact congrArg _ hl

/-- A sequence whose numbers never decrease is its parts, one after another. -/
theorem parts_flatten {l : List (Nat × α)} (hs : (l.map (·.1)).Pairwise (· ≤ ·)) {n : Nat}
    (hn : ∀ x ∈ l, x.1 < n) : l.map (·.2) = (List.range n).flatMap (part l) := by
  induction n generalizing l with
  | zero =>
    cases l with
    | nil => rfl
    | cons x l => exact absurd (hn x List.mem_cons_self) (Nat.not_lt_zero _)
  | succ n ih =>
    have hlow := @ih (l.filter (·.1 < n)) (hs.sublist (List.filter_sublist.map _)) (by simp)
    rw [List.range_succ, List.flatMap_append, List.flatMap_singleton]
    conv_lhs => rw [filter_lt_append_filter_eq hs fun x hx => Nat.le_of_lt_succ (hn x hx)]
    rw [List.map_append, hlow, show (l.filter (·.1 = n)).map (·.2) = part l n from rfl]
    congr 1
    refine List.flatMap_congr fun k hk => ?_
    rw [part_filter (fun i => i < n), if_pos (List.mem_range.mp hk)]

end Nio
