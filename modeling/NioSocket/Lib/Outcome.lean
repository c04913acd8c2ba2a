import Mathlib.Logic.Basic

/-!
# What a member function does

A call on an object in state `σ` returns a value, throws, reads or writes memory
it must not (`ub`), or never returns (`hang`). An exception keeps what the call
has changed before it. `Outcome.Rel` relates the calls of two implementations:
both return, or both throw, in related states; for `Outcome.Alike` both may also
fail to return, on a condition.
-/

namespace Nio

/-- What a call comes to: it returns, it throws, it does what is undefined, or it does not end. -/
inductive Outcome (σ α : Type) where
  | ok (a : α) (s : σ)
  | throw (what : String) (s : σ)
  | ub
  | hang

/-- A member function of an object in state `σ`. -/
abbrev Method (σ α : Type) := σ → Outcome σ α

variable {σ τ α β : Type}

namespace Outcome

/-- Going on with the value and the state of a call that returns. -/
def bind (o : Outcome σ α) (f : α → Method σ β) : Outcome σ β :=
  match o with
  | ok a s => f a s
  | throw what s => throw what s
  | ub => ub
  | hang => hang

@[simp] theorem bind_ok (a : α) (s : σ) (f : α → Method σ β) : (ok a s).bind f = f a s := rfl
@[simp] theorem bind_throw (e : String) (s : σ) (f : α → Method σ β) :
    (throw e s : Outcome σ α).bind f = throw e s := rfl

theorem bind_assoc {γ : Type} (o : Outcome σ α) (f : α → Method σ β) (g : β → Method σ γ) :
    (o.bind f).bind g = o.bind fun a s => (f a s).bind g := by
  cases o <;> rfl

theorem bind_eq_ok {o : Outcome σ α} {f : α → Method σ β} {b : β} {s : σ} (h : o.bind f = ok b s) :
    ∃ a s', o = ok a s' ∧ f a s' = ok b s := by
  cases o with
  | ok a s' => exact ⟨a, s', rfl, h⟩
  | throw | ub | hang => cases h

/-- The state of a call that returns. -/
def ok? : Outcome σ α → Option σ
  | ok _ s => some s
  | _ => none

theorem ok?_eq_some {o : Outcome σ Unit} {s : σ} : o.ok? = some s ↔ o = ok () s := by
  cases o <;> simp [ok?]

/-- Whether a call returns with a value and a state that pass a test. -/
def any (p : α → σ → Bool) : Outcome σ α → Bool
  | ok a s => p a s
  | _ => false

theorem any_eq_true {p : α → σ → Bool} {o : Outcome σ α} : o.any p = true ↔ ∃ a s, o = ok a s ∧ p a s = true := by
  constructor
  · intro h
    cases o with
    | ok a s => exact ⟨a, s, rfl, h⟩
    | throw | ub | hang => cases h
  · rintro ⟨a, s, rfl, h⟩
    exact h

instance (o : Outcome σ α) : Decidable (o = ub) :=
  match o with
  | ub => isTrue rfl
  | ok _ _ | throw _ _ | hang => isFalse nofun

/-- `o` does not return, or is `o'`: what a loop does with less fuel, and with more. -/
def Below (o o' : Outcome σ α) : Prop := o = hang ∨ o = o'

namespace Below

variable {o o' : Outcome σ α}

theorem refl (o : Outcome σ α) : Below o o := .inr rfl

theorem bind {f f' : α → Method σ β} (h : Below o o') (hf : ∀ a s, Below (f a s) (f' a s)) :
    Below (o.bind f) (o'.bind f') := by
  rcases h with rfl | rfl
  · exact .inl rfl
  · cases o with
    | ok a s => exact hf a s
    | throw | ub | hang => exact .inr rfl

theorem eq_ok {a : α} {s : σ} (h : Below o o') (ho : o = ok a s) : o' = ok a s := by
  rcases h with rfl | rfl
  · cases ho
  · exact ho

end Below

/-- Two outcomes of the same kind, with equal values and related states. -/
inductive Rel (R : σ → τ → Prop) : Outcome σ α → Outcome τ α → Prop
  | ok {s : σ} {t : τ} (a : α) : R s t → Rel R (ok a s) (ok a t)
  | throw {s : σ} {t : τ} (e : String) : R s t → Rel R (throw e s) (throw e t)

theorem Rel.bind {R S : σ → τ → Prop} {o : Outcome σ α} {o' : Outcome τ α} {f : α → Method σ β}
    {f' : α → Method τ β} (h : Rel R o o') (hf : ∀ a s t, R s t → Rel S (f a s) (f' a t))
    (ht : ∀ s t, R s t → S s t) : Rel S (o.bind f) (o'.bind f') := by
  cases h with
  | ok a h => exact hf a _ _ h
  | throw e h => exact .throw e (ht _ _ h)

theorem Rel.imp {R S : σ → τ → Prop} {o : Outcome σ α} {o' : Outcome τ α} (h : Rel R o o')
    (hi : ∀ s t, R s t → S s t) : Rel S o o' := by
  cases h with
  | ok a h => exact .ok a (hi _ _ h)
  | throw e h => exact .throw e (hi _ _ h)

theorem Rel.map {R : σ → τ → Prop} {o : Outcome σ α} {o' : Outcome τ α} (f : α → β) (h : Rel R o o') :
    Rel R (o.bind fun a s => .ok (f a) s) (o'.bind fun a t => .ok (f a) t) :=
  h.bind (fun a _ _ hR => .ok (f a) hR) fun _ _ hR => hR

/-- Two outcomes of the same kind, neither of them undefined; neither returns only if `P`. -/
inductive Alike (R : σ → τ → Prop) (P : Prop) : Outcome σ α → Outcome τ α → Prop
  | ok {s : σ} {t : τ} (a : α) : R s t → Alike R P (ok a s) (ok a t)
  | throw {s : σ} {t : τ} (e : String) : R s t → Alike R P (throw e s) (throw e t)
  | hang : P → Alike R P hang hang

theorem Rel.alike {R : σ → τ → Prop} {P : Prop} {o : Outcome σ α} {o' : Outcome τ α} (h : Rel R o o') :
    Alike R P o o' := by
  cases h with
  | ok a h => exact .ok a h
  | throw e h => exact .throw e h

namespace Alike

variable {R S : σ → τ → Prop} {P : Prop} {o : Outcome σ α} {o' : Outcome τ α}

theorem map (f : α → β) (h : Alike R P o o') :
    Alike R P (o.bind fun a s => .ok (f a) s) (o'.bind fun a t => .ok (f a) t) := by
  cases h with
  | ok a h => exact .ok (f a) h
  | throw e h => exact .throw e h
  | hang hP => exact .hang hP

theorem imp (h : Alike R P o o') (hi : ∀ s t, R s t → S s t) : Alike S P o o' := by
  cases h with
  | ok a h => exact .ok a (hi _ _ h)
  | throw e h => exact .throw e (hi _ _ h)
  | hang hP => exact .hang hP

/-- The condition weakened. -/
theorem mono {Q : Prop} (h : Alike R P o o') (hi : P → Q) : Alike R Q o o' := by
  cases h with
  | ok a h => exact .ok a h
  | throw e h => exact .throw e h
  | hang hP => exact .hang (hi hP)

theorem flip (h : Alike R P o o') : Alike (fun t s => R s t) P o' o := by
  cases h with
  | ok a h => exact .ok a h
  | throw e h => exact .throw e h
  | hang hP => exact .hang hP

theorem exists_ok {a : α} {s : σ} (h : Alike R P o o') (ho : o = .ok a s) : ∃ t, o' = .ok a t ∧ R s t := by
  subst ho
  cases h with
  | ok _ h => exact ⟨_, rfl, h⟩

theorem exists_throw {e : String} {s : σ} (h : Alike R P o o') (ho : o = .throw e s) :
    ∃ t, o' = .throw e t ∧ R s t := by
  subst ho
  cases h with
  | throw _ h => exact ⟨_, rfl, h⟩

theorem of_hang (h : Alike R P o o') (ho : o = .hang) : P := by
  subst ho
  cases h with
  | hang hP => exact hP

theorem rel (h : Alike R P o o') (hP : ¬P) : Rel R o o' := by
  cases h with
  | ok a h => exact .ok a h
  | throw e h => exact .throw e h
  | hang h => exact absurd h hP

end Alike

/-- The call returns or throws, and leaves `s`. -/
def Leaves (o : Outcome σ α) (s : σ) : Prop := (∃ a, o = ok a s) ∨ ∃ what, o = throw what s

namespace Rel

variable {R : σ → τ → Prop} {o : Outcome σ α} {o' : Outcome τ α}

theorem of_leaves {s : σ} {t : τ} (h : Rel R o o') (hs : o.Leaves s) (ht : o'.Leaves t) : R s t := by
  cases h with
  | ok a h =>
    obtain ⟨_, e⟩ | ⟨_, e⟩ := hs <;> cases e
    obtain ⟨_, e⟩ | ⟨_, e⟩ := ht <;> cases e
    exact h
  | throw what h =>
    obtain ⟨_, e⟩ | ⟨_, e⟩ := hs <;> cases e
    obtain ⟨_, e⟩ | ⟨_, e⟩ := ht <;> cases e
    exact h

theorem exists_leaves (h : Rel R o o') : ∃ s t, o.Leaves s ∧ o'.Leaves t := by
  cases h with
  | ok a h => exact ⟨_, _, .inl ⟨a, rfl⟩, .inl ⟨a, rfl⟩⟩
  | throw what h => exact ⟨_, _, .inr ⟨what, rfl⟩, .inr ⟨what, rfl⟩⟩

end Rel

end Outcome

namespace Method

instance : Monad (Method σ) where
  pure a := fun s => .ok a s
  bind m f := fun s => (m s).bind f

/-- What a member function reads of the object. -/
def get (f : σ → α) : Method σ α := fun s => .ok (f s) s

/-- What a member function changes of the object. -/
def modify (f : σ → σ) : Method σ Unit := fun s => .ok () (f s)

/-- The call throws. -/
def throw (what : String) : Method σ α := fun s => .throw what s

theorem bind_apply (m : Method σ α) (f : α → Method σ β) (s : σ) : (m >>= f) s = (m s).bind f := rfl
@[simp] theorem pure_apply (a : α) (s : σ) : (pure a : Method σ α) s = .ok a s := rfl
@[simp] theorem get_apply (f : σ → α) (s : σ) : get f s = .ok (f s) s := rfl
@[simp] theorem modify_apply (f : σ → σ) (s : σ) : modify f s = .ok () (f s) := rfl
@[simp] theorem throw_apply (e : String) (s : σ) : (throw e : Method σ α) s = .throw e s := rfl

theorem below_bind {m m' : Method σ α} {f f' : α → Method σ β} {s : σ} (h : (m s).Below (m' s))
    (hf : ∀ a s, (f a s).Below (f' a s)) : ((m >>= f) s).Below ((m' >>= f') s) := Outcome.Below.bind h hf

theorem ite_apply (c : Prop) [Decidable c] (m m' : Method σ α) (s : σ) :
    (if c then m else m') s = if c then m s else m' s := by
  split <;> rfl

end Method

end Nio
