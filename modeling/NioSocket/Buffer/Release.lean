import NioSocket.Lib.Threads

/-!
# Giving up references from several threads

`release()` on one `PooledCharBuf` from any number of threads, each access to the
`AtomicInteger` one atomic step. The count is decremented in one step, and read again
in later ones.
-/

namespace Nio.Buffer

/-- What a thread does next: `idle` calls `release()` and decrements the count, `negative`
and `zero` compare it, `deallocate` calls `deallocate()`, which tests `handle_`, gives the
memory back (`free`) and clears `handle_` (`clear`). -/
inductive Pc
  | idle | negative | print | zero | deallocate | free | clear
  deriving DecidableEq, Repr

/-- A thread with the calls of `release()` it has still to begin. -/
structure Releaser where
  calls : Nat
  pc : Pc
  deriving DecidableEq, Repr

/-- The buffer, with how often `deallocate()` has run and its memory was given back. -/
structure RefCounted where
  refCnt_ : Int
  handle_ : Int
  deallocations : Nat
  frees : Nat
  deriving DecidableEq, Repr

namespace Releaser

/-- One access of a thread. -/
def step (s : RefCounted) (t : Releaser) : Option (RefCounted × Releaser) :=
  match t.pc with
  | .idle =>
    match t.calls with
    | 0 => none
    | k + 1 => some ({ s with refCnt_ := s.refCnt_ - 1 }, ⟨k, .negative⟩)
  | .negative => some (s, { t with pc := if s.refCnt_ < 0 then .print else .zero })
  | .print => some (s, { t with pc := .zero })
  | .zero => some (s, { t with pc := if s.refCnt_ = 0 then .deallocate else .idle })
  | .deallocate =>
    some ({ s with deallocations := s.deallocations + 1 },
      { t with pc := if s.handle_ ≥ 0 then .free else .idle })
  | .free => some ({ s with frees := s.frees + 1 }, { t with pc := .clear })
  | .clear => some ({ s with handle_ := -1 }, { t with pc := .idle })

/-- The call has decremented the count, and not yet compared it to zero. -/
def Late (t : Releaser) : Prop := t.pc = .negative ∨ t.pc = .print ∨ t.pc = .zero

instance (t : Releaser) : Decidable t.Late := inferInstanceAs (Decidable (_ ∨ _))

/-- Whether a call is late, as a number. -/
def late (t : Releaser) : Nat := if t.Late then 1 else 0

/-- Whether it is about to call `deallocate()`, as a number. -/
def called (t : Releaser) : Nat := if t.pc = .deallocate then 1 else 0

/-- A call begins: the count is decremented. -/
structure Begins (s : RefCounted) (t : Releaser) (s' : RefCounted) (t' : Releaser) : Prop where
  idle : t.pc = .idle
  calls : t.calls = t'.calls + 1
  refCnt : s'.refCnt_ = s.refCnt_ - 1
  late : t.late = 0 ∧ t'.late = 1
  called : t.called = 0 ∧ t'.called = 0
  deallocations : s'.deallocations = s.deallocations

/-- A call goes on: when the count is zero it will make, or has made, the one call of `deallocate()`
it comes to; when it is not, it comes to none. -/
structure GoesOn (s : RefCounted) (t : Releaser) (s' : RefCounted) (t' : Releaser) : Prop where
  not_idle : t.pc ≠ .idle
  calls : t'.calls = t.calls
  refCnt : s'.refCnt_ = s.refCnt_
  due : s.refCnt_ = 0 → t'.late + t'.called + s'.deallocations = t.late + t.called + s.deallocations
  early : s.refCnt_ ≠ 0 → t.called = 0 → t'.called = 0 ∧ s'.deallocations = s.deallocations

theorem step_cases {s s' : RefCounted} {t t' : Releaser} (h : step s t = some (s', t')) :
    Begins s t s' t' ∨ GoesOn s t s' t' := by
  obtain ⟨calls, pc⟩ := t
  cases pc with
  | idle =>
    cases calls with
    | zero => cases h
    | succ k => cases h; exact .inl ⟨rfl, rfl, rfl, ⟨rfl, rfl⟩, ⟨rfl, rfl⟩, rfl⟩
  | negative =>
    cases h
    refine .inr ⟨by simp, rfl, rfl, fun h0 => ?_, fun _ _ => ⟨?_, rfl⟩⟩
    · rw [h0]; rfl
    · dsimp only [called]; split <;> simp
  | print => cases h; exact .inr ⟨by simp, rfl, rfl, fun _ => rfl, fun _ _ => ⟨rfl, rfl⟩⟩
  | zero =>
    cases h
    refine .inr ⟨by simp, rfl, rfl, fun h0 => ?_, fun h0 _ => ⟨?_, rfl⟩⟩
    · rw [if_pos h0]; rfl
    · rw [if_neg h0]; rfl
  | deallocate =>
    cases h
    refine .inr ⟨by simp, rfl, rfl, fun _ => ?_, fun _ h => absurd h (by simp [called])⟩
    dsimp only
    split
    · simp [late, Late, called]; omega
    · simp [late, Late, called]; omega
  | free => cases h; exact .inr ⟨by simp, rfl, rfl, fun _ => rfl, fun _ _ => ⟨rfl, rfl⟩⟩
  | clear => cases h; exact .inr ⟨by simp, rfl, rfl, fun _ => rfl, fun _ _ => ⟨rfl, rfl⟩⟩

end Releaser

/-- A buffer, and the threads that release it. -/
abbrev Releasing := Threads RefCounted Releaser

namespace Releasing

open Threads (total)

/-- A buffer with as many references as the threads together release. -/
def init (handle : Int) (calls : List Nat) : Releasing :=
  ⟨⟨calls.sum, handle, 0, 0⟩, calls.map fun k => ⟨k, .idle⟩⟩

/-- A step of one of the threads. -/
abbrev Step : Releasing → Nat → Releasing → Prop := Threads.Step Releaser.step

/-- Every call has returned. -/
def Completed (w : Releasing) : Prop := ∀ t ∈ w.threads, t.calls = 0 ∧ t.pc = .idle

/-- If thread `i` is about to bring the count to zero, no other call is between its decrement
and its comparison. -/
def Alone (w : Releasing) (i : Nat) : Prop :=
  w.threads[i]?.map (·.pc) = some .idle → w.shared.refCnt_ = 1 → ∀ t ∈ w.threads, ¬t.Late

/-- A step taken so. -/
def AloneStep (w : Releasing) (i : Nat) (w' : Releasing) : Prop := w.Alone i ∧ Step w i w'

/-- What each run keeps: the count is the calls not begun, and nothing is given back before it is zero. -/
structure Counts (w : Releasing) : Prop where
  refCnt : w.shared.refCnt_ = total Releaser.calls w.threads
  early : 0 < total Releaser.calls w.threads → total Releaser.called w.threads = 0 ∧ w.shared.deallocations = 0

/-- The calls of `deallocate()` that were made or will be, once the count is zero. -/
def due (w : Releasing) : Nat :=
  total Releaser.late w.threads + total Releaser.called w.threads + w.shared.deallocations

variable {w w' : Releasing} {i : Nat} {es : List Nat} {handle : Int} {calls : List Nat}

theorem init_counts (handle : Int) (calls : List Nat) : (init handle calls).Counts := by
  have hcalls : total Releaser.calls (calls.map fun k => ⟨k, .idle⟩) = calls.sum := by
    rw [total, List.map_map]
    exact congrArg List.sum (List.map_id' calls)
  have hcalled : total Releaser.called (calls.map fun k => ⟨k, .idle⟩) = 0 := by
    refine Threads.total_eq_zero.mpr fun t ht => ?_
    obtain ⟨k, -, rfl⟩ := List.mem_map.mp ht
    rfl
  exact ⟨by rw [init, hcalls], fun _ => ⟨hcalled, rfl⟩⟩

theorem total_late_eq_zero : total Releaser.late w.threads = 0 ↔ ∀ t ∈ w.threads, ¬t.Late := by
  rw [Threads.total_eq_zero]
  refine forall₂_congr fun t _ => ?_
  rw [Releaser.late]
  split <;> simp [*]

/-- While calls are still to begin, and when the last one begins. -/
theorem Counts.step (h : w.Counts) (st : Step w i w') : w'.Counts ∧
    (total Releaser.calls w.threads = 0 → w.Alone i ∧ total Releaser.calls w'.threads = 0 ∧ w'.due = w.due) ∧
    (total Releaser.calls w.threads ≠ 0 → total Releaser.calls w'.threads = 0 →
      w'.due = total Releaser.late w.threads + 1 ∧ (w.Alone i ↔ total Releaser.late w.threads = 0)) ∧
    (total Releaser.calls w'.threads ≠ 0 → w.Alone i) := by
  obtain ⟨hcnt, hearly⟩ := h
  obtain @⟨s, s', t, t', xs, ys, hst⟩ := st
  have hi : (xs ++ t :: ys)[xs.length]?.map (·.pc) = some t.pc := by simp
  simp only [Threads.total_append_cons] at hcnt hearly
  rw [Alone, ← total_late_eq_zero, hi]
  simp only [due, Threads.total_append_cons]
  rcases Releaser.step_cases hst with ⟨hidle, hc, hr, ⟨hl, hl'⟩, ⟨hd, hd'⟩, hdeal⟩ | ⟨hidle, hc, hr, hdue, hlate⟩
  · -- the count was positive, so nothing has come to `deallocate()` yet
    obtain ⟨h0, h1⟩ := hearly (by omega)
    refine ⟨⟨?_, fun _ => ?_⟩, fun h => by omega, fun _ hc' => ⟨by omega, fun ha => ?_, fun h _ _ => h⟩, fun hc' _ h => ?_⟩
    · simp only [Threads.total_append_cons]; omega
    · simp only [Threads.total_append_cons]; omega
    · exact ha (congrArg some hidle) (by omega)
    · omega
  · have hvac : ¬some t.pc = some Pc.idle := fun h => hidle (Option.some.inj h)
    refine ⟨⟨?_, fun hpos => ?_⟩, fun h => ⟨fun h => absurd h hvac, by omega, ?_⟩, fun h h' => by omega, fun _ h => absurd h hvac⟩
    · simp only [Threads.total_append_cons]; omega
    · simp only [Threads.total_append_cons] at hpos ⊢
      obtain ⟨h0, h1⟩ := hearly (by omega)
      obtain ⟨h2, h3⟩ := hlate (by omega) (by omega)
      omega
    · have := hdue (by omega)
      omega

theorem AloneStep.step (h : AloneStep w i w') : Step w i w' := h.2

theorem run_counts (h : Run Step (init handle calls) es w) : w.Counts :=
  h.inv (init_counts handle calls) fun _ _ _ h st => (h.step st).1

theorem total_calls_init : total Releaser.calls (init handle calls).threads = calls.sum := by
  have := (init_counts handle calls).refCnt
  exact (Int.ofNat_inj.mp this).symm

/-- Where no two calls come to the last comparison together, one call of `deallocate()` is due. -/
theorem alone_due (hpos : 0 < calls.sum) (h : Run AloneStep (init handle calls) es w) :
    total Releaser.calls w.threads = 0 → w.due = 1 := by
  induction h with
  | nil =>
    intro h0
    rw [total_calls_init] at h0
    omega
  | @snoc es i w w' hr hst ih =>
    intro h0
    obtain ⟨-, hafter, hlast, -⟩ := (run_counts (hr.mono fun _ _ _ => AloneStep.step)).step hst.2
    by_cases h : total Releaser.calls w.threads = 0
    · rw [(hafter h).2.2, ih h]
    · obtain ⟨hdue, halone⟩ := hlast h h0
      rw [hdue, halone.mp hst.1]

/-- Otherwise two or more are due. -/
theorem alone_or_due (h : Run Step (init handle calls) es w) : Run AloneStep (init handle calls) es w ∨
    total Releaser.calls w.threads = 0 ∧ 2 ≤ w.due := by
  induction h with
  | nil => exact .inl .nil
  | @snoc es i w w' hr hst ih =>
    obtain ⟨-, hafter, hlast, hearly⟩ := (run_counts hr).step hst
    rcases ih with ha | ⟨h0, h2⟩
    · by_cases h' : total Releaser.calls w'.threads = 0
      · by_cases h : total Releaser.calls w.threads = 0
        · exact .inl (.snoc ha ⟨(hafter h).1, hst⟩)
        · obtain ⟨hdue, halone⟩ := hlast h h'
          by_cases hl : total Releaser.late w.threads = 0
          · exact .inl (.snoc ha ⟨halone.mpr hl, hst⟩)
          · exact .inr ⟨h', by omega⟩
      · exact .inl (.snoc ha ⟨hearly h', hst⟩)
    · obtain ⟨-, h0', hdue⟩ := hafter h0
      exact .inr ⟨h0', by omega⟩

theorem Completed.due (h : w.Completed) : total Releaser.calls w.threads = 0 ∧ w.due = w.shared.deallocations := by
  have hz : ∀ f : Releaser → Nat, (∀ t : Releaser, t.calls = 0 ∧ t.pc = .idle → f t = 0) → total f w.threads = 0 :=
    fun f hf => Threads.total_eq_zero.mpr fun t ht => hf t (h t ht)
  refine ⟨hz _ fun t ht => ht.1, ?_⟩
  rw [Releasing.due, hz Releaser.late, hz Releaser.called, Nat.zero_add]
  · rintro ⟨c, pc⟩ ⟨-, rfl⟩; rfl
  · rintro ⟨c, pc⟩ ⟨-, rfl⟩; rfl

/-- `deallocate()` runs once in a completed run exactly when the call that brings the count to zero
finds no other between its decrement and its comparison; and then it never runs more often. -/
theorem deallocate_once_iff (hpos : 0 < calls.sum) (h : Run Step (init handle calls) es w) :
    (w.Completed → (w.shared.deallocations = 1 ↔ Run AloneStep (init handle calls) es w)) ∧
    (Run AloneStep (init handle calls) es w → w.shared.deallocations ≤ 1) := by
  refine ⟨fun hc => ?_, fun ha => ?_⟩
  · obtain ⟨h0, hdue⟩ := hc.due
    refine ⟨fun h1 => (alone_or_due h).resolve_right fun h2 => by omega, fun ha => ?_⟩
    have := alone_due hpos ha h0
    omega
  · by_cases h0 : total Releaser.calls w.threads = 0
    · have hdue := alone_due hpos ha h0
      unfold Releasing.due at hdue
      omega
    · have := ((run_counts h).early (by omega)).2
      omega

/-- Two threads and three references: two calls of `release()` overlap, and the last one begins behind both. -/
theorem deallocate_once_iff_two_threads : ∃ w, Run Step (init 0 [2, 1]) [0, 1, 0, 1, 0, 1, 0, 0, 0, 0, 0, 0] w ∧
    w.Completed ∧ w.shared.deallocations = 1 ∧ Run AloneStep (init 0 [2, 1]) [0, 1, 0, 1, 0, 1, 0, 0, 0, 0, 0, 0] w := by
  obtain ⟨w, hr, hc, hd⟩ : ∃ w, Run Step (init 0 [2, 1]) [0, 1, 0, 1, 0, 1, 0, 0, 0, 0, 0, 0] w ∧
      (∀ t ∈ w.threads, t.calls = 0 ∧ t.pc = .idle) ∧ w.shared.deallocations = 1 := Threads.exists_run (by decide)
  exact ⟨w, hr, hc, hd, ((deallocate_once_iff (by decide) hr).1 hc).mp hd⟩

/-- Two threads that both decrement before either compares: `deallocate()` runs twice, and the memory is
given back twice. -/
theorem deallocate_twice : ∃ w, Run Step (init 0 [1, 1]) [0, 1, 0, 0, 1, 1, 0, 1, 0, 1, 0, 1] w ∧
    Completed w ∧ w.shared.deallocations = 2 ∧ w.shared.frees = 2 := by
  obtain ⟨w, hr, hc, hd⟩ : ∃ w, Run Step (init 0 [1, 1]) [0, 1, 0, 0, 1, 1, 0, 1, 0, 1, 0, 1] w ∧
      (∀ t ∈ w.threads, t.calls = 0 ∧ t.pc = .idle) ∧ w.shared.deallocations = 2 ∧ w.shared.frees = 2 :=
    Threads.exists_run (by decide)
  exact ⟨w, hr, hc, hd⟩

end Releasing

end Nio.Buffer
