import NioSocket.Lib.Trans
import Mathlib.Algebra.BigOperators.Group.List.Basic
import Mathlib.Algebra.GroupWithZero.Nat

/-!
# Interleaved threads

Threads with states in `τ` take turns on a shared state in `σ`, one atomic step at a
time (`Threads.Step`). What is counted over all threads (`total`) changes by what it
changes for the one that takes the step.
-/

namespace Nio

/-- A shared state, and the states of the threads. -/
structure Threads (σ τ : Type) where
  shared : σ
  threads : List τ

namespace Threads

variable {σ τ : Type}

/-- Thread `i` takes a step of its own. -/
inductive Step (step : σ → τ → Option (σ × τ)) : Threads σ τ → Nat → Threads σ τ → Prop
  | mk {s s' : σ} {t t' : τ} {xs ys : List τ} : step s t = some (s', t') →
      Step step ⟨s, xs ++ t :: ys⟩ xs.length ⟨s', xs ++ t' :: ys⟩

variable {step : σ → τ → Option (σ × τ)}

/-- The step of thread `i`, computed. -/
def next (step : σ → τ → Option (σ × τ)) (w : Threads σ τ) (i : Nat) : Option (Threads σ τ) :=
  match w.threads[i]? with
  | some t => (step w.shared t).map fun (s', t') => ⟨s', w.threads.set i t'⟩
  | none => none

theorem Step.of_next {w w' : Threads σ τ} {i : Nat} (h : w.next step i = some w') : Step step w i w' := by
  unfold next at h
  split at h
  · rename_i t ht
    obtain ⟨⟨s', t'⟩, hs, rfl⟩ := Option.map_eq_some_iff.mp h
    obtain ⟨s, ts⟩ := w
    obtain ⟨hi, rfl⟩ := List.getElem?_eq_some_iff.mp ht
    have hsplit := List.take_append_drop i ts
    rw [List.drop_eq_getElem_cons hi] at hsplit
    have hlen : (ts.take i).length = i := List.length_take_of_le (Nat.le_of_lt hi)
    have : Step step ⟨s, ts.take i ++ ts[i] :: ts.drop (i + 1)⟩ (ts.take i).length
        ⟨s', ts.take i ++ t' :: ts.drop (i + 1)⟩ := .mk hs
    rwa [hsplit, hlen, show ts.take i ++ t' :: ts.drop (i + 1) = ts.set i t' by
      rw [List.set_eq_take_append_cons_drop, if_pos hi]] at this
  · cases h

theorem exists_run {P : Threads σ τ → Prop} [DecidablePred P] {w : Threads σ τ} {es : List Nat}
    (h : ((es.foldlM (next step) w).any fun w => P w) = true) : ∃ w', Run (Step step) w es w' ∧ P w' :=
  Run.exists_of_next (fun _ _ _ => Step.of_next) es h

/-- What `f` counts, over all threads. -/
def total (f : τ → Nat) (ts : List τ) : Nat := (ts.map f).sum

@[simp] theorem total_append_cons (f : τ → Nat) (t : τ) (xs ys : List τ) :
    total f (xs ++ t :: ys) = total f xs + f t + total f ys := by
  simp [total, Nat.add_assoc]

theorem total_eq_zero {f : τ → Nat} {ts : List τ} : total f ts = 0 ↔ ∀ t ∈ ts, f t = 0 := by
  induction ts with
  | nil => simp [total]
  | cons t ts ih => simpa [total] using fun _ => ih

theorem le_total {f : τ → Nat} {ts : List τ} {t : τ} (h : t ∈ ts) : f t ≤ total f ts := by
  obtain ⟨xs, ys, rfl⟩ := List.append_of_mem h
  rw [total_append_cons]
  omega

/-- Two of the threads. -/
theorem total_pair {f : τ → Nat} {ts : List τ} {i j : Nat} {t u : τ} (hij : i < j) (hi : ts[i]? = some t)
    (hj : ts[j]? = some u) : f t + f u ≤ total f ts := by
  induction ts generalizing i j with
  | nil => cases hi
  | cons x xs ih =>
    obtain ⟨j, rfl⟩ : ∃ k, j = k + 1 := ⟨j - 1, by omega⟩
    have e : total f (x :: xs) = f x + total f xs := List.sum_cons
    rw [List.getElem?_cons_succ] at hj
    cases i with
    | zero =>
      obtain rfl : x = t := by simpa using hi
      have := le_total (f := f) (List.mem_of_getElem? hj)
      omega
    | succ i =>
      rw [List.getElem?_cons_succ] at hi
      have := ih (Nat.lt_of_succ_lt_succ hij) hi hj
      omega

end Threads

end Nio
