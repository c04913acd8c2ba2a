import Mathlib.Logic.Basic

/-!
# Runs of a transition system

A run (`Run`) of a step relation, with the events it took, and the induction
every invariant uses (`Run.inv`): what holds of the first state and is kept by
each step holds of every state a run reaches.
-/

namespace Nio

/-- The events taken, in order, lead from `s` to the last state. -/
inductive Run {σ ε : Type*} (step : σ → ε → σ → Prop) (s : σ) : List ε → σ → Prop
  | nil : Run step s [] s
  | snoc {es : List ε} {e : ε} {t u : σ} :
      Run step s es t → step t e u → Run step s (es ++ [e]) u

variable {σ ε : Type*} {step step' : σ → ε → σ → Prop} {s t u : σ} {e : ε} {es es' : List ε}

theorem Run.inv {P : σ → Prop} (h0 : P s) (hs : ∀ t e u, P t → step t e u → P u)
    (h : Run step s es t) : P t := by
  induction h with
  | nil => exact h0
  | snoc _ h ih => exact hs _ _ _ ih h

/-- The same, of the events the run took. -/
theorem Run.inv_mem {P : σ → Prop} (h0 : P s) (h : Run step s es t)
    (hs : ∀ t e u, e ∈ es → P t → step t e u → P u) : P t := by
  induction h with
  | nil => exact h0
  | snoc _ h ih =>
    exact hs _ _ _ (by simp) (ih fun t e u he => hs t e u (List.mem_append_left _ he)) h

/-- A function that follows the events stays related to the state. -/
theorem Run.foldl {α : Type*} {f : α → ε → α} {R : σ → α → Prop} {a : α} (h0 : R s a) (h : Run step s es t)
    (hs : ∀ t e u a, e ∈ es → R t a → step t e u → R u (f a e)) : R t (es.foldl f a) := by
  induction h with
  | nil => exact h0
  | snoc _ h ih =>
    rw [List.foldl_append]
    exact hs _ _ _ _ (by simp) (ih fun t e u a he => hs t e u a (List.mem_append_left _ he)) h

/-- A system that follows another step by step follows it in every run. -/
theorem Run.simulate {τ : Type*} {step' : τ → ε → τ → Prop} {R : σ → τ → Prop} {a : τ} (h0 : R s a) (h : Run step s es t)
    (hs : ∀ s e t a, R s a → step s e t → ∃ b, step' a e b ∧ R t b) : ∃ b, Run step' a es b ∧ R t b := by
  induction h with
  | nil => exact ⟨a, .nil, h0⟩
  | snoc _ st ih =>
    obtain ⟨b, hr, hR⟩ := ih
    obtain ⟨b', st', hR'⟩ := hs _ _ _ _ hR st
    exact ⟨b', .snoc hr st', hR'⟩

theorem Run.mono (hm : ∀ t e u, step t e u → step' t e u) (h : Run step s es t) :
    Run step' s es t := by
  induction h with
  | nil => exact .nil
  | snoc _ h ih => exact .snoc ih (hm _ _ _ h)

theorem Run.append (h : Run step s es t) (h' : Run step t es' u) : Run step s (es ++ es') u := by
  induction h' with
  | nil => rwa [List.append_nil]
  | snoc _ hs ih => rw [← List.append_assoc]; exact .snoc ih hs

theorem Run.one (h : step s e t) : Run step s [e] t := .snoc .nil h

theorem Run.of_nil (h : Run step s [] t) : t = s := by
  generalize hl : [] = l at h
  cases h with
  | nil => rfl
  | snoc => simp at hl

theorem Run.of_one (h : Run step s [e] t) : step s e t := by
  generalize hl : [e] = l at h
  cases h with
  | nil => cases hl
  | @snoc es _ _ _ hr h =>
    cases es with
    | nil =>
      cases hl
      obtain rfl := Run.of_nil hr
      exact h
    | cons => simp at hl

theorem Run.of_snoc (h : Run step s (es ++ [e]) u) : ∃ t, Run step s es t ∧ step t e u := by
  generalize hl : es ++ [e] = l at h
  cases h with
  | nil => simp at hl
  | snoc hr h =>
    obtain ⟨rfl, he⟩ := List.append_inj' hl rfl
    obtain rfl := List.head_eq_of_cons_eq he
    exact ⟨_, hr, h⟩

theorem Run.of_cons (h : Run step s (e :: es) u) : ∃ t, step s e t ∧ Run step t es u := by
  generalize hl : e :: es = l at h
  induction h generalizing es with
  | nil => cases hl
  | @snoc l e' t u hr hs ih =>
    cases l with
    | nil =>
      obtain ⟨rfl, rfl⟩ := List.cons.inj hl
      obtain rfl := Run.of_nil hr
      exact ⟨u, hs, .nil⟩
    | cons a l =>
      obtain ⟨rfl, rfl⟩ := List.cons.inj hl
      obtain ⟨t', h', hr'⟩ := ih rfl
      exact ⟨t', h', .snoc hr' hs⟩

/-- A run of a deterministic system ends where another of the same events does. -/
theorem Run.unique (hu : ∀ t e u u', step t e u → step t e u' → u = u') (h : Run step s es t) (h' : Run step s es u) :
    t = u := by
  induction h generalizing u with
  | nil => exact (Run.of_nil h').symm
  | snoc _ hs ih =>
    obtain ⟨t', hr, hs'⟩ := h'.of_snoc
    rw [← ih hr] at hs'
    exact hu _ _ _ _ hs hs'

theorem Run.cons (h : step s e t) (h' : Run step t es u) : Run step s (e :: es) u :=
  (Run.one h).append h'

/-- A system whose steps are runs of another is followed by it in every run. -/
theorem Run.refine {τ ε' : Type*} {step' : τ → ε' → τ → Prop} {f : ε → List ε'} {R : σ → τ → Prop} {a : τ} (h0 : R s a)
    (h : Run step s es t) (hs : ∀ s e t a, R s a → step s e t → ∃ b, Run step' a (f e) b ∧ R t b) :
    ∃ b, Run step' a (es.flatMap f) b ∧ R t b := by
  induction h with
  | nil => exact ⟨a, .nil, h0⟩
  | snoc _ st ih =>
    obtain ⟨b, hr, hR⟩ := ih
    obtain ⟨b', hr', hR'⟩ := hs _ _ _ _ hR st
    refine ⟨b', ?_, hR'⟩
    rw [List.flatMap_append, List.flatMap_singleton]
    exact hr.append hr'

/-- A run that a function computes. -/
theorem Run.of_next {next : σ → ε → Option σ} (hn : ∀ s e t, next s e = some t → step s e t)
    (h : es.foldlM next s = some t) : Run step s es t := by
  induction es generalizing s with
  | nil => cases h; exact .nil
  | cons e es ih =>
    rw [List.foldlM_cons] at h
    obtain ⟨u, hu, h'⟩ := Option.bind_eq_some_iff.mp h
    exact .cons (hn _ _ _ hu) (ih h')

/-- The same, with what can be checked of the state it ends in. -/
theorem Run.exists_of_next {next : σ → ε → Option σ} (hn : ∀ s e t, next s e = some t → step s e t)
    {P : σ → Prop} [DecidablePred P] (es : List ε) (h : ((es.foldlM next s).any fun t => P t) = true) :
    ∃ t, Run step s es t ∧ P t := by
  obtain ⟨t, ht, hP⟩ := (Option.any_eq_true _ _).mp h
  exact ⟨t, .of_next hn ht, of_decide_eq_true hP⟩

end Nio
