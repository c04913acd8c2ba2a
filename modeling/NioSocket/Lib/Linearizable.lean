import Mathlib.Data.List.Nodup
import Mathlib.Logic.Function.Basic
import NioSocket.Lib.Trans

/-!
# Linearizable histories

A history is what is seen of an object that threads use at the same time: where their calls begin, and
what they return. It is linearizable if the calls can be put in an order in which the object, used by
one thread, returns the same, and in which a call that had returned before another one began comes
before it (`Linearization`). An object whose calls have a point each at which they take effect
(`AtomicObject`) has such histories only (`AtomicObject.linearizable_of_run`), and so has every system that it
simulates (`linearizable_of_refines`).
-/

namespace Nio

variable {σ Op Res : Type*}

/-- A call of a thread begins, or returns. -/
inductive HistoryEvent (Op Res : Type*)
  | call (thread : Nat) (op : Op)
  | ret (thread : Nat) (res : Res)

/-- The thread that an event is seen of. -/
def HistoryEvent.thread : HistoryEvent Op Res → Nat
  | call i _ | ret i _ => i

/-- What a call returns, and what it leaves, when nobody else uses the object. -/
abbrev Sequential (σ Op Res : Type*) := σ → Op → Res × σ

namespace Sequential

variable (spec : Sequential σ Op Res)

/-- What calls return, one after the other. -/
def results : σ → List Op → List Res
  | _, [] => []
  | s, op :: ops => (spec s op).1 :: results (spec s op).2 ops

/-- What they leave. -/
def final (s : σ) (ops : List Op) : σ := ops.foldl (fun s op => (spec s op).2) s

theorem results_append (s : σ) (ops ops' : List Op) :
    spec.results s (ops ++ ops') = spec.results s ops ++ spec.results (spec.final s ops) ops' := by
  induction ops generalizing s with
  | nil => rfl
  | cons op ops ih => rw [List.cons_append, results, results, ih, List.cons_append, final, final, List.foldl_cons]

end Sequential

/-- A call in the order of a linearization: where it begins in the history, what is called, and what it returns. -/
structure Linearized (Op Res : Type*) where
  call : Nat
  op : Op
  res : Res

variable {spec : Sequential σ Op Res} {s₀ : σ} {h : List (HistoryEvent Op Res)} {l : List (Linearized Op Res)}
  {i c j : Nat} {op : Op} {res : Res} {e : HistoryEvent Op Res}

/-- The call that begins at `c` is the last thing that is seen of the thread `i`. -/
def IsLast (h : List (HistoryEvent Op Res)) (i c : Nat) : Prop := ∀ k e, c < k → h[k]? = some e → e.thread ≠ i

/-- The call that begins at `c` returns at `j`. -/
def Returns (h : List (HistoryEvent Op Res)) (c j : Nat) : Prop :=
  ∃ i op res, h[c]? = some (.call i op) ∧ h[j]? = some (.ret i res) ∧ c < j ∧
    ∀ k e, c < k → k < j → h[k]? = some e → e.thread ≠ i

/-- An order of calls that explains a history. -/
structure Linearization (spec : Sequential σ Op Res) (s₀ : σ) (h : List (HistoryEvent Op Res))
    (l : List (Linearized Op Res)) : Prop where
  called : ∀ x ∈ l, ∃ i, h[x.call]? = some (.call i x.op)
  distinct : (l.map (·.call)).Nodup
  returned : ∀ j i res, h[j]? = some (.ret i res) → ∃ x ∈ l, Returns h x.call j ∧ x.res = res
  order : ∀ x ∈ l, ∀ y ∈ l, ∀ j, Returns h x.call j → j < y.call → [x, y].Sublist l
  legal : spec.results s₀ (l.map (·.op)) = l.map (·.res)

/-- There is an order that explains the history. -/
def Linearizable (spec : Sequential σ Op Res) (s₀ : σ) (h : List (HistoryEvent Op Res)) : Prop :=
  ∃ l, Linearization spec s₀ h l

/-! ## Longer histories -/

theorem event_concat (h : List (HistoryEvent Op Res)) (e f : HistoryEvent Op Res) (k : Nat) :
    (h ++ [e])[k]? = some f ↔ h[k]? = some f ∨ k = h.length ∧ e = f := by
  rcases Nat.lt_trichotomy k h.length with hk | rfl | hk
  · rw [List.getElem?_append_left hk]
    simp [Nat.ne_of_lt hk]
  · simp
  · rw [List.getElem?_eq_none (by simp; omega), List.getElem?_eq_none (by omega)]
    simp [Nat.ne_of_gt hk]

theorem lt_length_of_getElem? (hc : h[c]? = some e) : c < h.length := (List.getElem?_eq_some_iff.mp hc).1

theorem Returns.concat (hr : Returns h c j) : Returns (h ++ [e]) c j := by
  obtain ⟨i, op, res, hc, hj, hlt, hb⟩ := hr
  refine ⟨i, op, res, (event_concat ..).mpr (.inl hc), (event_concat ..).mpr (.inl hj), hlt, fun k f hk hkj hf => ?_⟩
  rcases (event_concat ..).mp hf with hf | ⟨rfl, -⟩
  · exact hb k f hk hkj hf
  · exact absurd (lt_length_of_getElem? hj) (Nat.lt_asymm hkj)

theorem returns_concat : Returns (h ++ [e]) c j ↔ Returns h c j ∨
    j = h.length ∧ ∃ i op res, e = .ret i res ∧ h[c]? = some (.call i op) ∧ IsLast h i c := by
  constructor
  · rintro ⟨i, op, res, hc, hj, hlt, hb⟩
    have hc' : h[c]? = some (.call i op) := by
      rcases (event_concat ..).mp hc with hc | ⟨rfl, -⟩
      · exact hc
      · have := lt_length_of_getElem? hj
        simp at this
        omega
    have hb' : ∀ k f, c < k → k < j → h[k]? = some f → f.thread ≠ i := fun k f hk hkj hf =>
      hb k f hk hkj ((event_concat ..).mpr (.inl hf))
    rcases (event_concat ..).mp hj with hj | ⟨rfl, rfl⟩
    · exact .inl ⟨i, op, res, hc', hj, hlt, hb'⟩
    · exact .inr ⟨rfl, i, op, res, rfl, hc', fun k f hk hf => hb' k f hk (lt_length_of_getElem? hf) hf⟩
  · rintro (hr | ⟨rfl, i, op, res, rfl, hc, hl⟩)
    · exact hr.concat
    · refine ⟨i, op, res, (event_concat ..).mpr (.inl hc), (event_concat ..).mpr (.inr ⟨rfl, rfl⟩),
        lt_length_of_getElem? hc, fun k f hk hkj hf => ?_⟩
      rcases (event_concat ..).mp hf with hf | ⟨rfl, -⟩
      · exact hl k f hk hf
      · exact absurd hkj (Nat.lt_irrefl _)

/-- What is last of a thread is so still, when another one is seen. -/
theorem IsLast.concat (hl : IsLast h i c) (he : e.thread ≠ i) : IsLast (h ++ [e]) i c := by
  intro k f hk hf
  rcases (event_concat ..).mp hf with hf | ⟨-, rfl⟩
  · exact hl k f hk hf
  · exact he

theorem isLast_call (h : List (HistoryEvent Op Res)) (i : Nat) (op : Op) : IsLast (h ++ [.call i op]) i h.length := by
  intro k f hk hf
  have := lt_length_of_getElem? hf
  simp at this
  omega

/-- A call that is the last of its thread has not returned. -/
theorem IsLast.not_returns (hl : IsLast h i c) (hc : h[c]? = some (.call i op)) : ¬Returns h c j := by
  rintro ⟨i', op', res, hc', hj, hlt, -⟩
  obtain ⟨rfl, rfl⟩ : i = i' ∧ op = op' := by simpa using hc.symm.trans hc'
  exact hl j _ hlt hj rfl

namespace Linearization

variable (L : Linearization spec s₀ h l)

include L

/-- A call begins. -/
theorem concat_call (i : Nat) (op : Op) : Linearization spec s₀ (h ++ [.call i op]) l where
  called x hx := (L.called x hx).imp fun _ hc => (event_concat ..).mpr (.inl hc)
  distinct := L.distinct
  returned j i' res hj := by
    rcases (event_concat ..).mp hj with hj | ⟨-, he⟩
    · obtain ⟨x, hx, hr, hres⟩ := L.returned j i' res hj
      exact ⟨x, hx, hr.concat, hres⟩
    · cases he
  order x hx y hy j hr hj := by
    rcases returns_concat.mp hr with hr | ⟨-, _, _, _, he, -⟩
    · exact L.order x hx y hy j hr hj
    · cases he
  legal := L.legal

/-- A call that has been put in its place returns. -/
theorem concat_ret {x : Linearized Op Res} (hx : x ∈ l) (hc : h[x.call]? = some (.call i x.op))
    (hl : IsLast h i x.call) : Linearization spec s₀ (h ++ [.ret i x.res]) l where
  called y hy := (L.called y hy).imp fun _ hc => (event_concat ..).mpr (.inl hc)
  distinct := L.distinct
  returned j i' res hj := by
    rcases (event_concat ..).mp hj with hj | ⟨rfl, he⟩
    · obtain ⟨y, hy, hr, hres⟩ := L.returned j i' res hj
      exact ⟨y, hy, hr.concat, hres⟩
    · cases he
      exact ⟨x, hx, returns_concat.mpr (.inr ⟨rfl, i, x.op, x.res, rfl, hc, hl⟩), rfl⟩
  order y hy z hz j hr hj := by
    rcases returns_concat.mp hr with hr | ⟨rfl, -⟩
    · exact L.order y hy z hz j hr hj
    · obtain ⟨i', hz'⟩ := L.called z hz
      exact absurd hj (Nat.lt_asymm (lt_length_of_getElem? hz'))
  legal := L.legal

/-- A call takes effect, and is put behind those that did before. -/
theorem snoc (hc : h[c]? = some (.call i op)) (hl : IsLast h i c) (hn : ∀ x ∈ l, x.call ≠ c) :
    Linearization spec s₀ h (l ++ [⟨c, op, (spec (spec.final s₀ (l.map (·.op))) op).1⟩]) where
  called x hx := by
    rcases List.mem_append.mp hx with hx | hx
    · exact L.called x hx
    · rw [List.mem_singleton.mp hx]
      exact ⟨i, hc⟩
  distinct := by
    rw [List.map_append, List.nodup_append]
    refine ⟨L.distinct, List.nodup_singleton _, ?_⟩
    intro a ha b hb
    obtain ⟨x, hx, rfl⟩ := List.mem_map.mp ha
    rw [List.mem_singleton.mp hb]
    exact hn x hx
  returned j i' res hj := by
    obtain ⟨x, hx, hr⟩ := L.returned j i' res hj
    exact ⟨x, List.mem_append_left _ hx, hr⟩
  order x hx y hy j hr hj := by
    rcases List.mem_append.mp hx with hx | hx
    · rcases List.mem_append.mp hy with hy | hy
      · exact (L.order x hx y hy j hr hj).trans (List.sublist_append_left ..)
      · rw [List.mem_singleton.mp hy]
        exact (List.singleton_sublist.mpr hx).append (List.Sublist.refl _)
    · rw [List.mem_singleton.mp hx] at hr
      exact absurd hr (hl.not_returns hc)
  legal := by
    rw [List.map_append, spec.results_append, L.legal, List.map_append]
    rfl

end Linearization

/-! ## Objects whose calls take effect at a point -/

/-- What a thread is at. -/
inductive CallPhase (Op Res : Type*)
  | idle
  /-- The call has begun, and has had no effect. -/
  | called (op : Op)
  /-- The call has had its effect, and returns this. -/
  | done (res : Res)

/-- An object, and what its threads are at. -/
structure AtomicObject (σ Op Res : Type*) where
  shared : σ
  phase : Nat → CallPhase Op Res

/-- A call begins, takes effect, or returns. -/
inductive AtomicEvent (Op Res : Type*)
  | call (thread : Nat) (op : Op)
  | point (thread : Nat)
  | ret (thread : Nat) (res : Res)

/-- What is seen of a run. -/
def AtomicEvent.visible : AtomicEvent Op Res → Option (HistoryEvent Op Res)
  | call i op => some (.call i op)
  | point _ => none
  | ret i res => some (.ret i res)

/-- What is seen of some events. -/
def history (es : List (AtomicEvent Op Res)) : List (HistoryEvent Op Res) := es.filterMap AtomicEvent.visible

namespace AtomicObject

/-- An object that no thread uses. -/
def init (s : σ) : AtomicObject σ Op Res := ⟨s, fun _ => .idle⟩

/-- A step of a thread. -/
inductive Step (spec : Sequential σ Op Res) :
    AtomicObject σ Op Res → AtomicEvent Op Res → AtomicObject σ Op Res → Prop
  | call {o : AtomicObject σ Op Res} {i : Nat} (op : Op) : o.phase i = .idle →
      Step spec o (.call i op) { o with phase := Function.update o.phase i (.called op) }
  | point {o : AtomicObject σ Op Res} {i : Nat} {op : Op} : o.phase i = .called op →
      Step spec o (.point i) ⟨(spec o.shared op).2, Function.update o.phase i (.done (spec o.shared op).1)⟩
  | ret {o : AtomicObject σ Op Res} {i : Nat} {res : Res} : o.phase i = .done res →
      Step spec o (.ret i res) { o with phase := Function.update o.phase i .idle }

/-- The calls that have had their effect explain the history, and the state of the object. -/
structure Explains (spec : Sequential σ Op Res) (s₀ : σ) (h : List (HistoryEvent Op Res)) (l : List (Linearized Op Res))
    (o : AtomicObject σ Op Res) : Prop where
  linearization : Linearization spec s₀ h l
  shared : o.shared = spec.final s₀ (l.map (·.op))
  called : ∀ i op, o.phase i = .called op → ∃ c, h[c]? = some (.call i op) ∧ IsLast h i c ∧ ∀ x ∈ l, x.call ≠ c
  done : ∀ i res, o.phase i = .done res → ∃ x ∈ l, h[x.call]? = some (.call i x.op) ∧ IsLast h i x.call ∧ x.res = res

variable {o o' : AtomicObject σ Op Res} {a : AtomicEvent Op Res}

theorem explains_init (spec : Sequential σ Op Res) (s₀ : σ) : Explains spec s₀ [] [] (init s₀ : AtomicObject σ Op Res) where
  linearization := ⟨by simp, List.nodup_nil, by simp, by simp, rfl⟩
  shared := rfl
  called i op h := by cases h
  done i res h := by cases h

theorem eq_of_update {f : Nat → CallPhase Op Res} {q r : CallPhase Op Res} (hu : Function.update f i q j = r) :
    j = i ∧ q = r ∨ j ≠ i ∧ f j = r := by
  by_cases hj : j = i
  · subst hj
    exact .inl ⟨rfl, by rwa [Function.update_self] at hu⟩
  · exact .inr ⟨hj, by rwa [Function.update_of_ne hj] at hu⟩

namespace Explains

variable (E : Explains spec s₀ h l o)

include E

/-- What is known of the other threads is not changed by what is seen of one. -/
theorem called_concat (hi : e.thread ≠ i) (ho : o.phase i = .called op) :
    ∃ c, (h ++ [e])[c]? = some (.call i op) ∧ IsLast (h ++ [e]) i c ∧ ∀ x ∈ l, x.call ≠ c := by
  obtain ⟨c, hc, hl, hn⟩ := E.called i op ho
  exact ⟨c, (event_concat ..).mpr (.inl hc), hl.concat hi, hn⟩

theorem done_concat (hi : e.thread ≠ i) (ho : o.phase i = .done res) :
    ∃ x ∈ l, (h ++ [e])[x.call]? = some (.call i x.op) ∧ IsLast (h ++ [e]) i x.call ∧ x.res = res := by
  obtain ⟨x, hx, hc, hl, hr⟩ := E.done i res ho
  exact ⟨x, hx, (event_concat ..).mpr (.inl hc), hl.concat hi, hr⟩

theorem call (ho : o.phase i = .idle) (op : Op) :
    Explains spec s₀ (h ++ [.call i op]) l { o with phase := Function.update o.phase i (.called op) } where
  linearization := E.linearization.concat_call i op
  shared := E.shared
  called i' op' h' := by
    rcases eq_of_update h' with ⟨rfl, hq⟩ | ⟨hi, h'⟩
    · cases hq
      refine ⟨h.length, (event_concat ..).mpr (.inr ⟨rfl, rfl⟩), isLast_call h i' op, fun x hx => ?_⟩
      obtain ⟨_, hc⟩ := E.linearization.called x hx
      exact Nat.ne_of_lt (lt_length_of_getElem? hc)
    · exact E.called_concat (Ne.symm hi) h'
  done i' res h' := by
    rcases eq_of_update h' with ⟨-, h'⟩ | ⟨hi, h'⟩
    · cases h'
    · exact E.done_concat (Ne.symm hi) h'

theorem point (ho : o.phase i = .called op) :
    ∃ l', Explains spec s₀ h l'
      ⟨(spec o.shared op).2, Function.update o.phase i (.done (spec o.shared op).1)⟩ := by
  obtain ⟨c, hc, hl, hn⟩ := E.called i op ho
  have hs := E.shared
  refine ⟨_, E.linearization.snoc hc hl hn, ?_, fun i' op' h' => ?_, fun i' res h' => ?_⟩
  · rw [hs, Sequential.final, Sequential.final, List.map_append, List.foldl_append]
    rfl
  · rcases eq_of_update h' with ⟨-, h'⟩ | ⟨hi, h'⟩
    · cases h'
    · obtain ⟨c', hc', hl', hn'⟩ := E.called i' op' h'
      refine ⟨c', hc', hl', fun x hx => ?_⟩
      rcases List.mem_append.mp hx with hx | hx
      · exact hn' x hx
      · rw [List.mem_singleton.mp hx]
        rintro rfl
        have he := Option.some.inj (hc.symm.trans hc')
        cases he
        exact hi rfl
  · rcases eq_of_update h' with ⟨rfl, hq⟩ | ⟨hi, h'⟩
    · cases hq
      exact ⟨_, List.mem_append_right _ (List.mem_singleton_self _), hc, hl, by rw [hs]⟩
    · obtain ⟨x, hx, hr⟩ := E.done i' res h'
      exact ⟨x, List.mem_append_left _ hx, hr⟩

theorem ret (ho : o.phase i = .done res) :
    Explains spec s₀ (h ++ [.ret i res]) l { o with phase := Function.update o.phase i .idle } := by
  obtain ⟨x, hx, hc, hl, rfl⟩ := E.done i res ho
  refine ⟨E.linearization.concat_ret hx hc hl, E.shared, fun i' op' h' => ?_, fun i' res h' => ?_⟩
  · rcases eq_of_update h' with ⟨-, h'⟩ | ⟨hi, h'⟩
    · cases h'
    · exact E.called_concat (Ne.symm hi) h'
  · rcases eq_of_update h' with ⟨-, h'⟩ | ⟨hi, h'⟩
    · cases h'
    · exact E.done_concat (Ne.symm hi) h'

theorem step (hs : Step spec o a o') : ∃ l', Explains spec s₀ (h ++ a.visible.toList) l' o' := by
  cases hs with
  | call op ho => exact ⟨l, E.call ho op⟩
  | point ho =>
    obtain ⟨l', E'⟩ := E.point ho
    exact ⟨l', by rwa [AtomicEvent.visible, Option.toList_none, List.append_nil]⟩
  | ret ho => exact ⟨l, E.ret ho⟩

end Explains

theorem history_concat (es : List (AtomicEvent Op Res)) (a : AtomicEvent Op Res) :
    history (es ++ [a]) = history es ++ a.visible.toList := by
  rw [history, List.filterMap_append]
  cases h : a.visible <;> simp [history, h]

/-- Whatever threads call, what is seen of the object is linearizable. -/
theorem linearizable_of_run {es : List (AtomicEvent Op Res)} (hr : Run (Step spec) (init s₀) es o) :
    Linearizable spec s₀ (history es) := by
  have hE : ∃ l, Explains spec s₀ (history es) l o := by
    induction hr with
    | nil => exact ⟨[], explains_init spec s₀⟩
    | snoc _ hs ih =>
      obtain ⟨l, E⟩ := ih
      rw [history_concat]
      exact E.step hs
  obtain ⟨l, E⟩ := hE
  exact ⟨l, E.linearization⟩

end AtomicObject

/-- A system that follows an atomic object, each of its steps some steps of the object. -/
theorem linearizable_of_refines {τ ε : Type*} {step : τ → ε → τ → Prop} {f : ε → List (AtomicEvent Op Res)}
    {R : τ → AtomicObject σ Op Res → Prop} {t₀ t : τ} {es : List ε} (h0 : R t₀ (.init s₀)) (hr : Run step t₀ es t)
    (hs : ∀ t e u o, R t o → step t e u → ∃ o', Run (AtomicObject.Step spec) o (f e) o' ∧ R u o') :
    Linearizable spec s₀ (history (es.flatMap f)) := by
  obtain ⟨o, hr', -⟩ := hr.refine h0 hs
  exact AtomicObject.linearizable_of_run hr'

end Nio
