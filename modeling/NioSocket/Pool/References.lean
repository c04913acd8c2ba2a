import NioSocket.Pool.Reachable
import NioSocket.Pool.Store

/-!
# References to a pooled buffer and to its slices

`PooledCharBuf::retainedSlice` makes a `PooledSlicedCharBuf`, which counts its own references
and holds one of the buffer's until it has none left. What the holders of references have is a
`Ledger`; in every run of calls of holders, as long as an `int` can count the references, the count
of the buffer is what the ledger says, and the region is given back to the arena once, with the last
reference (`references_of_run`). Counts that wrap give it back while there are references.
-/

namespace Nio.Pool

open Buffer (Slice)

/-! ## The functions -/

/-- A `PooledSlicedCharBuf`: the slice it is, and the count of the references to it. -/
structure PooledSlicedCharBuf where
  view : Slice
  refCnt_ : Int
  deriving DecidableEq, Repr

namespace PooledSlicedCharBuf

/-- The sign of the `or` of four words. -/
def isOutOfBounds (index length capacity : Int) : Bool :=
  let bits := fun x : Int => BitVec.ofInt 32 x
  (bits index ||| bits length ||| bits (index + length) ||| bits (capacity - i32 (index + length))).toInt < 0

/-- The slice that the constructor leaves, `init` and all. -/
def new (index length : Int) : PooledSlicedCharBuf := ⟨.new index length, 1⟩

/-- `retain(increment)`; the count is an `AtomicInteger<int>`, which wraps. -/
def retain (increment : Int) (x : PooledSlicedCharBuf) : PooledSlicedCharBuf :=
  if increment > 0 then { x with refCnt_ := i32 (x.refCnt_ + increment) } else x

/-- `release(decrement)`, up to the call of `deallocate()`. -/
def dropped (decrement : Int) (x : PooledSlicedCharBuf) : PooledSlicedCharBuf :=
  if decrement > 0 then { x with refCnt_ := i32 (x.refCnt_ - decrement) } else x

end PooledSlicedCharBuf

namespace Pooled

/-- `retain(increment)`. -/
def retain (increment : Int) : Method Pooled Unit := onBuf (.retain increment)

/-- `PooledSlicedCharBuf::newInstance(unwrapped, wrapped, index, length)`: the slice retains the buffer. -/
def newInstance (index length : Int) : Method Pooled PooledSlicedCharBuf := fun s =>
  if PooledSlicedCharBuf.isOutOfBounds index length s.buf.length_ then .throw s!"buffer .slice({index}, {length})" s
  else (retain 1 s).bind fun _ s => .ok (.new index length) s

/-- `retainedSlice(index, length)`. -/
def retainedSlice (index length : Int) : Method Pooled PooledSlicedCharBuf := newInstance index length

end Pooled

/-- A buffer, and the slices of it that were made, in order. -/
structure Shared where
  base : Pooled
  slices : List PooledSlicedCharBuf

namespace Shared

/-- The calls, on the buffer and on slice `k`. -/
inductive Call
  | retain (increment : Int)
  | release (decrement : Int)
  | retainedSlice (index length : Int)
  | retainSlice (k : Nat) (increment : Int)
  | releaseSlice (k : Nat) (decrement : Int)
  deriving DecidableEq, Repr

variable {α : Type}

/-- A call on the buffer. -/
def onBase (m : Method Pooled α) : Method Shared α := fun s =>
  match m s.base with
  | .ok a p => .ok a { s with base := p }
  | .throw e p => .throw e { s with base := p }
  | .ub => .ub
  | .hang => .hang

/-- `retainedSlice(index, length)` of the buffer. -/
def retainedSlice (index length : Int) : Method Shared Unit := do
  let x ← onBase (Pooled.retainedSlice index length)
  .modify fun s => { s with slices := s.slices ++ [x] }

/-- `retain(increment)` of slice `k`. -/
def retainSlice (k : Nat) (increment : Int) : Method Shared Unit := fun s =>
  match s.slices[k]? with
  | some x => .ok () { s with slices := s.slices.set k (x.retain increment) }
  | none => .ub

/-- `release(decrement)` of slice `k`; `deallocate()` is `parent_->release()`. -/
def releaseSlice (k : Nat) (decrement : Int) : Method Shared Unit := fun s =>
  match s.slices[k]? with
  | some x =>
    let s := { s with slices := s.slices.set k (x.dropped decrement) }
    if (x.dropped decrement).refCnt_ = 0 then onBase (Pooled.release 1) s else .ok () s
  | none => .ub

/-- A call, run. -/
def call : Call → Method Shared Unit
  | .retain n => onBase (Pooled.retain n)
  | .release n => onBase (Pooled.release n)
  | .retainedSlice index length => retainedSlice index length
  | .retainSlice k n => retainSlice k n
  | .releaseSlice k n => releaseSlice k n

end Shared

/-! ## Who has which references -/

/-- The references that the holders have, of the buffer and of each of its slices. -/
structure Ledger where
  own : Int
  refs : List Int
  deriving DecidableEq, Repr

namespace Ledger

/-- The slices that are referred to. -/
def live (g : Ledger) : Nat := g.refs.countP (0 < ·)

/-- What the buffer is referred to by. -/
def total (g : Ledger) : Int := g.own + g.live

/-- The call is one of a holder, who gives up no more than there is: a buffer that nothing refers
to any more, and a slice that nothing does, have no holders. -/
def Allows (g : Ledger) : Shared.Call → Prop
  | .retain _ | .retainedSlice _ _ => 0 < g.total
  | .release n => 0 < g.total ∧ n ≤ g.own
  | .retainSlice k _ => ∃ m, g.refs[k]? = some m ∧ 0 < m
  | .releaseSlice k n => ∃ m, g.refs[k]? = some m ∧ 0 < m ∧ n ≤ m

/-- What the holders have after a call. -/
def after (g : Ledger) : Shared.Call → Ledger
  | .retain n => { g with own := g.own + max n 0 }
  | .release n => { g with own := g.own - max n 0 }
  | .retainedSlice _ _ => { g with refs := g.refs ++ [1] }
  | .retainSlice k n => { g with refs := g.refs.modify k (· + max n 0) }
  | .releaseSlice k n => { g with refs := g.refs.modify k (· - max n 0) }

/-- An `int` can count the references to the buffer, and those to each slice. -/
def Countable (g : Ledger) : Prop := i32 g.total = g.total ∧ ∀ m ∈ g.refs, i32 m = m

end Ledger

/-- The buffer with its slices, and what the holders have. -/
structure References where
  ledger : Ledger
  shared : Shared

namespace References

/-- A buffer that its creator has. -/
def init (base : Pooled) : References := ⟨⟨1, []⟩, ⟨base, []⟩⟩

/-- A call that a holder makes, and that returns or throws. -/
inductive Step (s : References) : Shared.Call → References → Prop
  | ok {e : Shared.Call} {p : Shared} : s.ledger.Allows e → Shared.call e s.shared = .ok () p →
      Step s e ⟨s.ledger.after e, p⟩
  | refused {e : Shared.Call} {what : String} {p : Shared} : s.ledger.Allows e →
      Shared.call e s.shared = .throw what p → Step s e ⟨s.ledger, p⟩

/-- A call after which an `int` can count the references. -/
def CountableStep (s : References) (e : Shared.Call) (s' : References) : Prop :=
  Step s e s' ∧ s'.ledger.Countable

end References

/-! ## Counting -/

namespace Pooled

variable {l : Layout} {t : Slot} {p : Pooled} {m n : Int}

/-- The buffer, referred to by `n`. -/
def counted (p : Pooled) (n : Int) : Pooled := { p with buf := { p.buf with refCnt_ := n } }

theorem Holding.counted (h : p.Holding l t) (n : Int) : (p.counted n).Holding l t :=
  ⟨h.whole, { h.holds with }, h.length_⟩

/-- `retain`, of a count that may wrap. -/
theorem retain_counted (p : Pooled) (hm : i32 m = m) (n : Int) :
    retain n (p.counted m) = .ok () (p.counted (i32 (m + max n 0))) := by
  have e : (p.counted m).buf.retain n = (p.counted (i32 (m + max n 0))).buf := by
    unfold PooledCharBuf.retain
    split
    · rw [Int.max_eq_left (by omega)]
      rfl
    · rw [Int.max_eq_right (by omega), Int.add_zero, hm]
  rw [retain, onBuf, Method.modify_apply, e]
  rfl

/-- What `release` leaves of a buffer that is then referred to by `n`: with the last reference the
region has been given back, by one call of `PoolArena::free`. -/
structure Dropped (l : Layout) (t : Slot) (p : Pooled) (n : Int) (p' : Pooled) : Prop where
  refCnt_ : p'.buf.refCnt_ = n
  kept : n ≠ 0 → p' = p.counted n
  memory_ : n = 0 → p'.buf.memory_ = none
  free : n = 0 → PoolArena.free t.chunk p.buf.handle_ p.arena = .ok () p'.arena
  given : n = 0 → p'.arena.given l =
    if p.buf.maxLength_ = 0 then p.arena.given l else Function.update (p.arena.given l) t none

/-- `release` gives the region back with the last references. -/
theorem release_counted (h : p.Holding l t) (hn : i32 (m - max n 0) = m - max n 0) :
    ∃ p', release n (p.counted m) = .ok () p' ∧ Dropped l t p (m - max n 0) p' := by
  by_cases h0 : m - max n 0 = 0
  · have hc := h.counted m
    obtain ⟨a', e, hf, hF⟩ := release_last (n := n) hc.whole hc.holds (show m = max n 0 by omega)
    exact ⟨_, e, h0.symm, fun hne => absurd h0 hne, fun _ => rfl, fun _ => hf, fun _ => hF.given⟩
  · refine ⟨p.counted (m - max n 0), ?_, rfl, fun _ => rfl, fun h => absurd h h0, fun h => absurd h h0,
      fun h => absurd h h0⟩
    have e := release_eq (a := (p.counted m).arena) (b := (p.counted m).buf) hn
    dsimp only at e
    rw [if_neg (show ¬(p.counted m).buf.refCnt_ - max n 0 = 0 from h0)] at e
    exact e

end Pooled

namespace PooledSlicedCharBuf

variable {x : PooledSlicedCharBuf} {n : Int}

theorem retain_refCnt (hx : i32 x.refCnt_ = x.refCnt_) : (x.retain n).refCnt_ = i32 (x.refCnt_ + max n 0) := by
  unfold retain
  split
  · rw [Int.max_eq_left (by omega)]
  · rw [Int.max_eq_right (by omega), Int.add_zero, hx]

theorem dropped_refCnt (hx : i32 x.refCnt_ = x.refCnt_) : (x.dropped n).refCnt_ = i32 (x.refCnt_ - max n 0) := by
  unfold dropped
  split
  · rw [Int.max_eq_left (by omega)]
  · rw [Int.max_eq_right (by omega), Int.sub_zero, hx]

end PooledSlicedCharBuf

namespace Ledger

variable {g : Ledger} {k : Nat} {m n : Int}

theorem live_pos (h : g.refs[k]? = some m) (hm : 0 < m) : 0 < g.live :=
  List.countP_pos_iff.mpr ⟨m, List.mem_of_getElem? h, by simpa using hm⟩

theorem modify_eq (h : g.refs[k]? = some m) (f : Int → Int) : g.refs.modify k f = g.refs.set k (f m) := by
  rw [List.modify_eq_set_getElem?, h]
  rfl

theorem live_modify (h : g.refs[k]? = some m) (f : Int → Int) : (g.refs.modify k f).countP (0 < ·) +
    (if 0 < m then 1 else 0) = g.live + if 0 < f m then 1 else 0 := by
  obtain ⟨hk, hm⟩ := List.getElem?_eq_some_iff.mp h
  have hpos : 0 < m → 0 < g.live := live_pos h
  rw [modify_eq h, List.countP_set (h := hk), hm]
  simp only [decide_eq_true_eq]
  unfold live at *
  split <;> split <;> omega

/-- The counts of slices, as `int`s. -/
theorem Countable.map_i32 (h : g.Countable) : g.refs.map i32 = g.refs := by
  rw [List.map_congr_left h.2, List.map_id']

end Ledger

/-! ## Runs -/

namespace References

/-- The counts are what the ledger says, and until the last reference is given up nothing else of
the buffer and of the arena has changed. -/
structure Agrees (l : Layout) (t : Slot) (p : Pooled) (R : References) : Prop where
  countable : R.ledger.Countable
  refs : R.shared.slices.map (·.refCnt_) = R.ledger.refs
  own_nonneg : 0 ≤ R.ledger.own
  base : Pooled.Dropped l t p R.ledger.total R.shared.base

variable {l : Layout} {t : Slot} {p : Pooled} {R R' : References} {e : Shared.Call} {es : List Shared.Call} {m n : Int}

/-- What a call leaves, if an `int` can count the references then; and what it makes of the counts
in any case. -/
structure Counts (l : Layout) (t : Slot) (p : Pooled) (R : References) (e : Shared.Call) (q : Shared) : Prop where
  ok : Shared.call e R.shared = .ok () q
  refCnt_ : q.base.buf.refCnt_ = i32 (R.ledger.after e).total
  refs : q.slices.map (·.refCnt_) = (R.ledger.after e).refs.map i32
  agrees : (R.ledger.after e).Countable → Agrees l t p ⟨R.ledger.after e, q⟩

/-- The counts are what the ledger says exactly when they do not wrap. -/
theorem Counts.iff {q : Shared} (C : Counts l t p R e q) : q.base.buf.refCnt_ = (R.ledger.after e).total ∧
    q.slices.map (·.refCnt_) = (R.ledger.after e).refs ↔ (R.ledger.after e).Countable := by
  rw [C.refCnt_, C.refs]
  refine ⟨fun ⟨ht, hr⟩ => ⟨ht, fun m hm => ?_⟩, fun h => ⟨h.1, h.map_i32⟩⟩
  exact List.map_inj_left.mp (hr.trans (List.map_id' _).symm) m hm

theorem Counts.step {q : Shared} (C : Counts l t p R e q) (ha : R.ledger.Allows e) (hc : (R.ledger.after e).Countable) :
    CountableStep R e ⟨R.ledger.after e, q⟩ :=
  ⟨.ok ha C.ok, hc⟩

theorem init_agrees (h : p.buf.refCnt_ = 1) : Agrees l t p (init p) := by
  have hne : (init p).ledger.total ≠ 0 := show (⟨1, []⟩ : Ledger).total ≠ 0 by decide
  have hc : (⟨1, []⟩ : Ledger).Countable := ⟨by decide, fun _ hm => absurd hm List.not_mem_nil⟩
  refine ⟨hc, rfl, Int.le_of_lt Int.one_pos, h, fun _ => ?_, fun h => absurd h hne, fun h => absurd h hne,
    fun h => absurd h hne⟩
  show p = p.counted 1
  rw [Pooled.counted, ← h]

namespace Agrees

variable (A : Agrees l t p R)
include A

theorem base_eq (ht : 0 < R.ledger.total) : R.shared.base = p.counted R.ledger.total := A.base.kept (by omega)

omit A in
theorem onBase_ok {α : Type} {m : Method Pooled α} {x : α} {q : Pooled} (h : m R.shared.base = .ok x q) :
    Shared.onBase m R.shared = .ok x { R.shared with base := q } := by
  simp only [Shared.onBase, h]

omit A in
/-- The buffer with a count that is not `0`. -/
theorem counted {g : Ledger} {xs : List PooledSlicedCharBuf} (hc : g.Countable) (hx : xs.map (·.refCnt_) = g.refs.map i32)
    (h0 : 0 ≤ g.own) (hg : 0 < g.total) : Agrees l t p ⟨g, ⟨p.counted (i32 g.total), xs⟩⟩ where
  countable := hc
  refs := hx.trans hc.map_i32
  own_nonneg := h0
  base := by
    have hne : g.total ≠ 0 := by omega
    exact ⟨hc.1, fun _ => by rw [hc.1], fun h => absurd h hne, fun h => absurd h hne, fun h => absurd h hne⟩

theorem retain (ht : 0 < R.ledger.total) : ∃ q, Counts l t p R (.retain n) q := by
  have hg : (R.ledger.after (.retain n)).total = R.ledger.total + max n 0 := by
    show R.ledger.own + max n 0 + R.ledger.live = R.ledger.own + R.ledger.live + _
    omega
  have hown : 0 ≤ (R.ledger.after (.retain n)).own := by
    show 0 ≤ R.ledger.own + _
    have := A.own_nonneg
    omega
  have e := Pooled.retain_counted p A.countable.1 n
  rw [← A.base_eq ht, ← hg] at e
  have hrefs : R.shared.slices.map (·.refCnt_) = (R.ledger.after (.retain n)).refs.map i32 :=
    A.refs.trans A.countable.map_i32.symm
  exact ⟨_, onBase_ok e, rfl, hrefs, fun hc => counted hc hrefs hown (by omega)⟩

theorem release (hp : p.Holding l t) (ht : 0 < R.ledger.total) (hn : n ≤ R.ledger.own) :
    ∃ q, Counts l t p R (.release n) q := by
  have hg : (R.ledger.after (.release n)).total = R.ledger.total - max n 0 := by
    show R.ledger.own - max n 0 + R.ledger.live = R.ledger.own + R.ledger.live - _
    omega
  have h0 := A.own_nonneg
  have hown : 0 ≤ (R.ledger.after (.release n)).own := by
    show 0 ≤ R.ledger.own - _
    omega
  have hrange := i32_range R.ledger.total
  rw [A.countable.1] at hrange
  have hw : i32 (R.ledger.total - max n 0) = R.ledger.total - max n 0 := by
    have : R.ledger.total = R.ledger.own + R.ledger.live := rfl
    exact i32_eq (by omega) (by omega)
  obtain ⟨q, e, D⟩ := Pooled.release_counted hp hw
  rw [← A.base_eq ht] at e
  rw [← hg] at D hw
  have hrefs : R.shared.slices.map (·.refCnt_) = (R.ledger.after (.release n)).refs.map i32 :=
    A.refs.trans A.countable.map_i32.symm
  exact ⟨_, onBase_ok e, D.refCnt_.trans hw.symm, hrefs, fun hc => ⟨hc, A.refs, hown, D⟩⟩

theorem retainedSlice {i n : Int} (ht : 0 < R.ledger.total)
    (hi : PooledSlicedCharBuf.isOutOfBounds i n R.shared.base.buf.length_ = false) :
    ∃ q, Counts l t p R (.retainedSlice i n) q := by
  have hg : (R.ledger.after (.retainedSlice i n)).total = R.ledger.total + max 1 0 := by
    show R.ledger.own + ((R.ledger.refs ++ [1]).countP (0 < ·) : Nat) = R.ledger.own + R.ledger.live + 1
    rw [List.countP_append, Ledger.live]
    show R.ledger.own + ((_ + 1 : Nat) : Int) = _
    omega
  have er := Pooled.retain_counted p A.countable.1 1
  rw [← A.base_eq ht, ← hg] at er
  have e : Pooled.retainedSlice i n R.shared.base =
      .ok (.new i n) (p.counted (i32 (R.ledger.after (.retainedSlice i n)).total)) := by
    simp only [Pooled.retainedSlice, Pooled.newInstance, hi, Bool.false_eq_true, if_false, er]
    rfl
  have hrefs : (R.shared.slices ++ [PooledSlicedCharBuf.new i n]).map (·.refCnt_) =
      (R.ledger.after (.retainedSlice i n)).refs.map i32 := by
    show _ = (R.ledger.refs ++ [1]).map i32
    rw [List.map_append, List.map_append, A.refs, A.countable.map_i32]
    rfl
  refine ⟨_, ?_, rfl, hrefs, fun hc => counted hc hrefs A.own_nonneg (by omega)⟩
  simp only [Shared.call, Shared.retainedSlice, Method.bind_apply, onBase_ok e]
  rfl

omit A in
/-- A range that is not in the buffer is refused. -/
theorem retainedSlice_throw {i n : Int} (hi : PooledSlicedCharBuf.isOutOfBounds i n R.shared.base.buf.length_ = true) :
    Shared.call (.retainedSlice i n) R.shared = .throw s!"buffer .slice({i}, {n})" R.shared := by
  have e : Pooled.retainedSlice i n R.shared.base = .throw s!"buffer .slice({i}, {n})" R.shared.base := if_pos hi
  simp only [Shared.call, Shared.retainedSlice, Method.bind_apply, Shared.onBase, e]
  rfl

/-- A slice that is referred to. -/
theorem exists_slice {k : Nat} (h : R.ledger.refs[k]? = some m) : ∃ x, R.shared.slices[k]? = some x ∧ x.refCnt_ = m := by
  rw [← A.refs, List.getElem?_map] at h
  exact Option.map_eq_some_iff.mp h

/-- The count of a slice changes. -/
theorem refs_set {k : Nat} {y : PooledSlicedCharBuf} {f : Int → Int} (h : R.ledger.refs[k]? = some m)
    (hy : y.refCnt_ = i32 (f m)) : (R.shared.slices.set k y).map (·.refCnt_) = (R.ledger.refs.modify k f).map i32 := by
  rw [Ledger.modify_eq h, List.map_set, List.map_set, A.refs, A.countable.map_i32, hy]

theorem retainSlice {k : Nat} (h : R.ledger.refs[k]? = some m) (hm : 0 < m) : ∃ q, Counts l t p R (.retainSlice k n) q := by
  obtain ⟨x, hx, hxm⟩ := A.exists_slice h
  have hlive := Ledger.live_pos h hm
  have h0 := A.own_nonneg
  have ht : 0 < R.ledger.total := by unfold Ledger.total; omega
  have hg : (R.ledger.after (.retainSlice k n)).total = R.ledger.total := by
    have := Ledger.live_modify h (· + max n 0)
    show R.ledger.own + ((R.ledger.refs.modify k (· + max n 0)).countP (0 < ·) : Nat) = R.ledger.own + R.ledger.live
    rw [if_pos hm, if_pos (by omega)] at this
    omega
  have hm32 : i32 m = m := A.countable.2 m (List.mem_of_getElem? h)
  have hy : (x.retain n).refCnt_ = i32 (m + max n 0) := by
    rw [PooledSlicedCharBuf.retain_refCnt (by rw [hxm, hm32]), hxm]
  have hrefs := A.refs_set (f := (· + max n 0)) h hy
  refine ⟨⟨p.counted (i32 (R.ledger.after (.retainSlice k n)).total), R.shared.slices.set k (x.retain n)⟩, ?_, rfl,
    hrefs, fun hc => counted hc hrefs h0 (by omega)⟩
  simp only [Shared.call, Shared.retainSlice, hx, hg, A.countable.1, ← A.base_eq ht]

theorem releaseSlice (hp : p.Holding l t) {k : Nat} (h : R.ledger.refs[k]? = some m) (hm : 0 < m) (hn : n ≤ m) :
    ∃ q, Counts l t p R (.releaseSlice k n) q := by
  obtain ⟨x, hx, hxm⟩ := A.exists_slice h
  have hlive := Ledger.live_pos h hm
  have h0 := A.own_nonneg
  have ht : 0 < R.ledger.total := by unfold Ledger.total; omega
  have hm32 : i32 m = m := A.countable.2 m (List.mem_of_getElem? h)
  have hrange := i32_range m
  rw [hm32] at hrange
  have hw : i32 (m - max n 0) = m - max n 0 := i32_eq (by omega) (by omega)
  have hy : (x.dropped n).refCnt_ = i32 (m - max n 0) := by
    rw [PooledSlicedCharBuf.dropped_refCnt (by rw [hxm, hm32]), hxm]
  have hmod := Ledger.live_modify h (· - max n 0)
  rw [if_pos hm] at hmod
  have hrefs := A.refs_set (f := (· - max n 0)) h hy
  by_cases hz : m - max n 0 = 0
  · -- the slice gives up its reference to the buffer
    have hg : (R.ledger.after (.releaseSlice k n)).total = R.ledger.total - max 1 0 := by
      show R.ledger.own + ((R.ledger.refs.modify k (· - max n 0)).countP (0 < ·) : Nat) = R.ledger.own + R.ledger.live - 1
      rw [if_neg (by omega)] at hmod
      omega
    have htr := i32_range R.ledger.total
    rw [A.countable.1] at htr
    have hwt : i32 (R.ledger.total - max 1 0) = R.ledger.total - max 1 0 := i32_eq (by omega) (by omega)
    obtain ⟨q, e, D⟩ := Pooled.release_counted hp hwt
    rw [← A.base_eq ht] at e
    rw [← hg] at D hwt
    refine ⟨⟨q, R.shared.slices.set k (x.dropped n)⟩, ?_, D.refCnt_.trans hwt.symm, hrefs,
      fun hc => ⟨hc, hrefs.trans hc.map_i32, h0, D⟩⟩
    simp only [Shared.call, Shared.releaseSlice, hx, if_pos (show (x.dropped n).refCnt_ = 0 by omega), Shared.onBase, e]
  · have hg : (R.ledger.after (.releaseSlice k n)).total = R.ledger.total := by
      show R.ledger.own + ((R.ledger.refs.modify k (· - max n 0)).countP (0 < ·) : Nat) = R.ledger.own + R.ledger.live
      rw [if_pos (by omega)] at hmod
      omega
    refine ⟨⟨p.counted (i32 (R.ledger.after (.releaseSlice k n)).total), R.shared.slices.set k (x.dropped n)⟩, ?_, rfl,
      hrefs, fun hc => counted hc hrefs h0 (by omega)⟩
    simp only [Shared.call, Shared.releaseSlice, hx, if_neg (show ¬(x.dropped n).refCnt_ = 0 by omega), hg,
      A.countable.1, ← A.base_eq ht]

/-- A call of a holder returns, or throws and changes nothing. -/
theorem call (hp : p.Holding l t) (ha : R.ledger.Allows e) :
    (∃ q, Counts l t p R e q) ∨ ∃ what, Shared.call e R.shared = .throw what R.shared := by
  cases e with
  | retain n => exact .inl (A.retain ha)
  | release n => exact .inl (A.release hp ha.1 ha.2)
  | retainedSlice i n =>
    cases hi : PooledSlicedCharBuf.isOutOfBounds i n R.shared.base.buf.length_ with
    | false => exact .inl (A.retainedSlice ha hi)
    | true => exact .inr ⟨_, retainedSlice_throw hi⟩
  | retainSlice k n =>
    obtain ⟨m, h, hm⟩ := ha
    exact .inl (A.retainSlice h hm)
  | releaseSlice k n =>
    obtain ⟨m, h, hm, hn⟩ := ha
    exact .inl (A.releaseSlice hp h hm hn)

theorem step (hp : p.Holding l t) (st : CountableStep R e R') : Agrees l t p R' := by
  obtain ⟨st, hc⟩ := st
  cases st with
  | ok ha he =>
    rcases A.call hp ha with ⟨q, C⟩ | ⟨what, e⟩
    · obtain ⟨-, rfl⟩ := Outcome.ok.inj (C.ok.symm.trans he)
      exact C.agrees hc
    · cases e.symm.trans he
  | refused ha he =>
    rcases A.call hp ha with ⟨q, C⟩ | ⟨what, e⟩
    · cases C.ok.symm.trans he
    · obtain ⟨-, rfl⟩ := Outcome.throw.inj (e.symm.trans he)
      exact A

/-- What nothing refers to any more, in the words of the counts. -/
theorem total_eq_zero_iff : R.ledger.total = 0 ↔
    R.ledger.own = 0 ∧ ∀ x ∈ R.shared.slices, ¬0 < x.refCnt_ := by
  have h0 := A.own_nonneg
  have hnone : R.ledger.live = 0 ↔ ∀ x ∈ R.shared.slices, ¬0 < x.refCnt_ := by
    rw [Ledger.live, ← A.refs, List.countP_map, List.countP_eq_zero]
    simp only [Function.comp_apply, decide_eq_true_eq]
  rw [← hnone, Ledger.total]
  omega

end Agrees

/-- In every run of calls of holders in which an `int` can count the references, the count of the
buffer is that of its own references and of the slices that are referred to. While there are any, the
buffer keeps its memory, its region and the arena as it was; with the last one the region has been
given back, by one call of `PoolArena::free`. Every further call returns, or throws and changes
nothing; the counts are right after it exactly when an `int` can count the references then. -/
theorem references_of_run (hp : p.Holding l t) (h1 : p.buf.refCnt_ = 1) (h : Run CountableStep (init p) es R) :
    R.shared.base.buf.refCnt_ = R.ledger.own + R.shared.slices.countP (0 < ·.refCnt_) ∧
    R.shared.slices.map (·.refCnt_) = R.ledger.refs ∧
    (0 < R.ledger.own ∨ (∃ x ∈ R.shared.slices, 0 < x.refCnt_) →
      R.shared.base.buf.memory_ = some t.chunk ∧ R.shared.base.arena = p.arena ∧
        R.shared.base.arena.given l t = some ⟨p.buf.offset_, p.buf.maxLength_⟩) ∧
    (R.ledger.own = 0 ∧ (∀ x ∈ R.shared.slices, ¬0 < x.refCnt_) →
      R.shared.base.buf.memory_ = none ∧
        PoolArena.free t.chunk p.buf.handle_ p.arena = .ok () R.shared.base.arena ∧
        R.shared.base.arena.given l =
          if p.buf.maxLength_ = 0 then p.arena.given l else Function.update (p.arena.given l) t none) ∧
    ∀ e, R.ledger.Allows e →
      (∃ q, Shared.call e R.shared = .ok () q ∧
        (q.base.buf.refCnt_ = (R.ledger.after e).total ∧ q.slices.map (·.refCnt_) = (R.ledger.after e).refs ↔
          (R.ledger.after e).Countable)) ∨
      ∃ what, Shared.call e R.shared = .throw what R.shared := by
  have A : Agrees l t p R := h.inv (init_agrees h1) fun _ _ _ A st => A.step hp st
  have hlive : R.ledger.live = R.shared.slices.countP (0 < ·.refCnt_) := by
    rw [Ledger.live, ← A.refs, List.countP_map]
    rfl
  refine ⟨?_, A.refs, fun hr => ?_, fun hz => ?_, fun e ha => ?_⟩
  · rw [A.base.refCnt_, Ledger.total, hlive]
  · have ht : R.ledger.total ≠ 0 := fun hz => by
      obtain ⟨h0, hx⟩ := A.total_eq_zero_iff.mp hz
      rcases hr with hr | ⟨x, hmem, hpos⟩
      · omega
      · exact hx x hmem hpos
    rw [A.base.kept ht]
    exact ⟨hp.holds.memory_, rfl, hp.holds.given⟩
  · have ht := A.total_eq_zero_iff.mpr hz
    exact ⟨A.base.memory_ ht, A.base.free ht, A.base.given ht⟩
  · rcases A.call hp ha with ⟨q, C⟩ | h
    · exact .inl ⟨q, C.ok, C.iff⟩
    · exact .inr h

/-- A buffer of forty bytes, of a new arena. -/
theorem exists_holding : ∃ (p : Pooled) (t : Slot), p.Holding Buffers.twoPages t ∧ p.buf.refCnt_ = 1 ∧
    p.buf.length_ = 40 := by
  obtain ⟨s, hr, hb⟩ := Buffers.exists_run (s := Buffers.init Buffers.twoPages)
    (P := fun s => (s.buf 0).map (·.length_) = some 40) [.allocate 40 100] (by decide +kernel)
  obtain ⟨b, hb, hlen⟩ := Option.map_eq_some_iff.mp hb
  obtain ⟨σ, H⟩ := Buffers.run_held hr
  exact ⟨⟨s.arena, b⟩, σ 0, ⟨H.whole, H.holds 0 b hb, by show 0 ≤ b.length_; rw [hlen]; decide⟩, H.refCnt_ 0 b hb, hlen⟩

/-- The creator of a buffer shares it, a slice is made, and the last reference is one to the slice. -/
theorem references_of_run_slice : ∃ p t R, p.Holding Buffers.twoPages t ∧
    Run CountableStep (init p) [.retain 2, .retainedSlice 4 8, .release 3, .retainSlice 0 1, .releaseSlice 0 2] R ∧
    R.shared.slices.length = 1 ∧ R.shared.base.buf.memory_ = none ∧
    PoolArena.free t.chunk p.buf.handle_ p.arena = .ok () R.shared.base.arena := by
  obtain ⟨p, t, hp, h1, hlen⟩ := exists_holding
  have hc₁ : (⟨3, []⟩ : Ledger).Countable := ⟨by decide, by decide⟩
  have hc₂ : (⟨3, [1]⟩ : Ledger).Countable := ⟨by decide, by decide⟩
  have hc₃ : (⟨0, [1]⟩ : Ledger).Countable := ⟨by decide, by decide⟩
  have hc₄ : (⟨0, [2]⟩ : Ledger).Countable := ⟨by decide, by decide⟩
  have hc₅ : (⟨0, [0]⟩ : Ledger).Countable := ⟨by decide, by decide⟩
  have ht : 0 < (⟨3, []⟩ : Ledger).total := by decide
  have ht' : 0 < (⟨3, [1]⟩ : Ledger).total := by decide
  obtain ⟨q₁, C₁⟩ := (init_agrees h1).retain (l := Buffers.twoPages) (t := t) (n := 2) (show (0 : Int) < 1 by decide)
  have A₁ := C₁.agrees hc₁
  have hl : q₁.base.buf.length_ = 40 := (congrArg (·.buf.length_) (A₁.base_eq ht)).trans hlen
  obtain ⟨q₂, C₂⟩ := A₁.retainedSlice (i := 4) (n := 8) ht (by
    show PooledSlicedCharBuf.isOutOfBounds 4 8 q₁.base.buf.length_ = false
    rw [hl]
    decide)
  have A₂ := C₂.agrees hc₂
  obtain ⟨q₃, C₃⟩ := A₂.release (n := 3) hp ht' (Int.le_refl 3)
  have A₃ := C₃.agrees hc₃
  obtain ⟨q₄, C₄⟩ := A₃.retainSlice (n := 1) (k := 0) (m := 1) rfl (by decide)
  have A₄ := C₄.agrees hc₄
  obtain ⟨q₅, C₅⟩ := A₄.releaseSlice (n := 2) (k := 0) (m := 2) hp rfl (by decide) (by decide)
  have hrun := Run.cons (C₁.step (show (0 : Int) < 1 by decide) hc₁) (.cons (C₂.step ht hc₂)
    (.cons (C₃.step ⟨ht', Int.le_refl 3⟩ hc₃) (.cons (C₄.step ⟨1, rfl, by decide⟩ hc₄)
      (.cons (C₅.step ⟨2, rfl, by decide, by decide⟩ hc₅) .nil))))
  obtain ⟨-, hrefs, -, hend, -⟩ := references_of_run hp h1 hrun
  have hone : q₅.slices.map (·.refCnt_) = [0] := hrefs
  have hnone : ∀ x ∈ q₅.slices, ¬0 < x.refCnt_ := fun x hx => by
    have hx := List.mem_map_of_mem (f := (·.refCnt_)) hx
    rw [hone, List.mem_singleton] at hx
    omega
  obtain ⟨hm, hf, -⟩ := hend ⟨rfl, hnone⟩
  exact ⟨p, t, _, hp, hrun, by simpa using congrArg List.length hone, hm, hf⟩

/-- The count wraps to `1`, and the next `release` gives back the region of a buffer that is
referred to `2 ^ 32` times. -/
theorem references_wrap : ∃ p t R, p.Holding Buffers.twoPages t ∧ p.buf.refCnt_ = 1 ∧
    Run Step (init p) [.retain intMax, .retain intMax, .retain 2, .release 1] R ∧ R.ledger.own = 2 ^ 32 ∧
    R.shared.base.buf.memory_ = none ∧
    PoolArena.free t.chunk p.buf.handle_ p.arena = .ok () R.shared.base.arena := by
  obtain ⟨p, t, hp, h1, -⟩ := exists_holding
  have hcounted : p = p.counted 1 := by rw [Pooled.counted, ← h1]
  have hretain : ∀ {m n k : Int} (g : Ledger), 0 < g.total → i32 m = m → i32 (m + max n 0) = k →
      Step ⟨g, ⟨p.counted m, []⟩⟩ (.retain n) ⟨g.after (.retain n), ⟨p.counted k, []⟩⟩ := by
    intro m n k g hg hm hk
    have e := Pooled.retain_counted p hm n
    rw [hk] at e
    exact .ok hg (Agrees.onBase_ok (R := ⟨g, ⟨p.counted m, []⟩⟩) e)
  obtain ⟨q, e, D⟩ := Pooled.release_counted (m := 1) (n := 1) hp (by decide)
  have h₁ := hretain (m := 1) (n := intMax) (k := -2147483648) ⟨1, []⟩ (by decide) (by decide) (by decide)
  have h₂ := hretain (m := -2147483648) (n := intMax) (k := -1) ⟨2147483648, []⟩ (by decide) (by decide) (by decide)
  have h₃ := hretain (m := -1) (n := 2) (k := 1) ⟨4294967295, []⟩ (by decide) (by decide) (by decide)
  have h₄ : Step ⟨⟨4294967297, []⟩, ⟨p.counted 1, []⟩⟩ (.release 1) ⟨⟨4294967296, []⟩, ⟨q, []⟩⟩ :=
    .ok ⟨show (0 : Int) < 4294967297 + 0 by decide, show (1 : Int) ≤ 4294967297 by decide⟩
      (Agrees.onBase_ok (R := ⟨⟨4294967297, []⟩, ⟨p.counted 1, []⟩⟩) e)
  have hinit : init p = ⟨⟨1, []⟩, ⟨p.counted 1, []⟩⟩ := by rw [init, ← hcounted]
  have hrun : Run Step (init p) [.retain intMax, .retain intMax, .retain 2, .release 1] ⟨⟨4294967296, []⟩, ⟨q, []⟩⟩ := by
    rw [hinit]
    exact .cons h₁ (.cons h₂ (.cons h₃ (.cons h₄ .nil)))
  exact ⟨p, t, _, hp, h1, hrun, rfl, D.memory_ rfl, D.free rfl⟩

end References

end Nio.Pool
