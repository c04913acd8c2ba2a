import NioSocket.Lib.Outcome

/-!
# Triples

`Triple P m Q E` is partial correctness of a member function: from a state in `P` it
returns in `Q`, or throws in `E`; what reads or writes memory it must not, or never
returns, satisfies every triple. `Keeps f m` says that `m` leaves a part `f` of the
state alone, whether it returns or throws.
-/

namespace Nio

variable {σ τ α β : Type}

/-- The values and states of an outcome that returns, and the states of one that throws. -/
def Outcome.Sat (Q : α → σ → Prop) (E : σ → Prop) : Outcome σ α → Prop
  | .ok a s => Q a s
  | .throw _ s => E s
  | .ub | .hang => True

/-- A triple: precondition, call, postcondition, and what holds where it throws. -/
def Triple (P : σ → Prop) (m : Method σ α) (Q : α → σ → Prop) (E : σ → Prop) : Prop :=
  ∀ s, P s → (m s).Sat Q E

variable {P P' E E' : σ → Prop} {Q Q' : α → σ → Prop} {R : β → σ → Prop} {m : Method σ α}

theorem Outcome.Sat.mono {o : Outcome σ α} (h : o.Sat Q E) (hQ : ∀ a s, Q a s → Q' a s)
    (hE : ∀ s, E s → E' s) : o.Sat Q' E' := by
  cases o with
  | ok a s => exact hQ a s h
  | throw e s => exact hE s h
  | ub | hang => trivial

theorem Outcome.Sat.bind {o : Outcome σ α} {f : α → Method σ β} (h : o.Sat Q E)
    (hf : ∀ a, Triple (Q a) (f a) R E) : (o.bind f).Sat R E := by
  cases o with
  | ok a s => exact hf a s h
  | throw e s => exact h
  | ub | hang => trivial

/-- What one of two related outcomes satisfies besides. -/
theorem Outcome.Rel.and_sat {R S : σ → τ → Prop} {F : τ → Prop} {o : Outcome σ α} {o' : Outcome τ α}
    (h : o.Rel R o') (hs : o'.Sat (fun _ => F) F) (hi : ∀ s t, R s t → F t → S s t) : o.Rel S o' := by
  cases h with
  | ok a h => exact .ok a (hi _ _ h hs)
  | throw e h => exact .throw e (hi _ _ h hs)

namespace Triple

theorem conseq (h : Triple P m Q E) (hP : ∀ s, P' s → P s) (hQ : ∀ a s, Q a s → Q' a s)
    (hE : ∀ s, E s → E' s) : Triple P' m Q' E' :=
  fun s hs => (h s (hP s hs)).mono hQ hE

theorem pre (h : Triple P m Q E) (hP : ∀ s, P' s → P s) : Triple P' m Q E :=
  fun s hs => h s (hP s hs)

theorem bind {f : α → Method σ β} (h : Triple P m Q E) (hf : ∀ a, Triple (Q a) (f a) R E) :
    Triple P (m >>= f) R E := fun s hs => (h s hs).bind hf

theorem pure {a : α} (h : ∀ s, P s → Q a s) : Triple P (Pure.pure a : Method σ α) Q E := h

theorem get {f : σ → α} (h : ∀ s, P s → Q (f s) s) : Triple P (Method.get f) Q E := h

theorem modify {f : σ → σ} {Q : Unit → σ → Prop} (h : ∀ s, P s → Q () (f s)) :
    Triple P (Method.modify f) Q E := h

theorem throw {what : String} (h : ∀ s, P s → E s) : Triple P (Method.throw what : Method σ α) Q E := h

theorem ite {c : Prop} [Decidable c] {m' : Method σ α} (h : c → Triple P m Q E)
    (h' : ¬c → Triple P m' Q E) : Triple P (if c then m else m') Q E := by
  split
  · exact h ‹_›
  · exact h' ‹_›

/-- Reasoning from the state itself. -/
theorem of_state {m : Method σ α} (h : ∀ s, P s → Triple (· = s) m Q E) : Triple P m Q E :=
  fun s hs => h s hs s rfl

end Triple

/-- A call leaves a part of the state alone. -/
def Method.Keeps (f : σ → τ) (m : Method σ α) : Prop :=
  ∀ s, (m s).Sat (fun _ t => f t = f s) (fun t => f t = f s)

namespace Method.Keeps

variable {f : σ → τ} {g : α → Method σ β}

theorem pure (a : α) : (Pure.pure a : Method σ α).Keeps f := fun _ => rfl
theorem get (g : σ → α) : (Method.get g).Keeps f := fun _ => rfl
theorem throw (what : String) : (Method.throw what : Method σ α).Keeps f := fun _ => rfl
theorem modify {g : σ → σ} (h : ∀ s, f (g s) = f s) : (Method.modify g).Keeps f := h

theorem bind (h : m.Keeps f) (hg : ∀ a, (g a).Keeps f) : (m >>= g).Keeps f := fun s => by
  have hs := h s
  show ((m s).bind g).Sat _ _
  cases e : m s with
  | ok a t =>
    rw [e] at hs
    exact (hg a t).mono (fun _ _ h => h.trans hs) (fun _ h => h.trans hs)
  | throw what t => rw [e] at hs; exact hs
  | ub | hang => trivial

theorem ite {c : Prop} [Decidable c] {m' : Method σ α} (h : m.Keeps f) (h' : m'.Keeps f) :
    (if c then m else m').Keeps f := by
  split
  · exact h
  · exact h'

/-- A call whose text depends on the state. -/
theorem of_state {m : σ → Method σ α} (h : ∀ s, (m s).Keeps f) : Method.Keeps f fun s => m s s :=
  fun s => h s s

theorem ok {a : α} {s t : σ} (h : m.Keeps f) (e : m s = .ok a t) : f t = f s := by
  have hs := h s
  rwa [e] at hs

end Method.Keeps

/-- What a call leaves alone is what it was. -/
theorem Triple.frame {f : σ → τ} (h : Triple P m Q E) (hk : m.Keeps f) (v : τ) :
    Triple (fun s => P s ∧ f s = v) m (fun a s => Q a s ∧ f s = v) E := by
  rintro s ⟨hs, hv⟩
  have h1 := h s hs
  have h2 := hk s
  cases e : m s with
  | ok a t => rw [e] at h1 h2; exact ⟨h1, h2.trans hv⟩
  | throw what t => rw [e] at h1; exact h1
  | ub | hang => trivial

end Nio
