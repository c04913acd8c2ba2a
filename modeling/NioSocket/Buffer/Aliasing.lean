import NioSocket.Lib.Trans
import NioSocket.Buffer.Kinds

/-!
# Slices of a buffer that changes

A buffer and the slices made of it, of slices too, while anything is done to the buffer that
leaves it in use and no smaller (`Views.Step`). A slice keeps only where it begins; in every
state a run reaches it is the range of the buffer that it was asked for (`slices_of_run`).
-/

namespace Nio.Buffer

open CharBuf (Ty)

/-- A slice that was made, by whom, and the range of the buffer that was asked for. -/
structure View where
  slice : Slice
  pooled : Bool
  start : Int
  length : Int

/-- The functions of the slice. -/
def View.charBuf (w : View) (h : Heap) : CharBuf (Sliced h.State) :=
  if w.pooled then Sliced.pooled h.charBuf else Sliced.unpooled h.charBuf

/-- A buffer, and the slices that were made of it. -/
structure Views (h : Heap) where
  base : h.State
  views : List View

namespace Views

variable {h : Heap}

/-- The slice, and the buffer as it is now. -/
def sliced (v : Views h) (w : View) : Sliced h.State := ⟨v.base, w.slice⟩

inductive Call
  | slice (index length : Int)
  | retainedSlice (index length : Int)
  | sliceOf (k : Nat) (index length : Int)
  | retainedSliceOf (k : Nat) (index length : Int)
  | base
  | view (k : Nat)

/-- A slice is made, of the buffer or of an `UnpooledSlicedCharBuf`; a call on the buffer leaves it in
use and no smaller; a call on a slice does the same, and sets its indices. -/
inductive Step (v : Views h) : Call → Views h → Prop
  | slice {i n : Int} {sl : Slice} {s : h.State} : Within i n (h.charBuf.capacity v.base) →
      (Kind.heap h).slice i n v.base = .ok sl s → Step v (.slice i n) ⟨s, v.views ++ [⟨sl, false, i, n⟩]⟩
  | retainedSlice {i n : Int} {sl : Slice} {s : h.State} : Within i n (h.charBuf.capacity v.base) →
      (Kind.heap h).retainedSlice i n v.base = .ok sl s →
      Step v (.retainedSlice i n) ⟨s, v.views ++ [⟨sl, h = .pooled, i, n⟩]⟩
  | sliceOf {k : Nat} {j m : Int} {w : View} {sl : Slice} {x : Sliced h.State} : v.views[k]? = some w →
      w.pooled = false → Within j m w.length → (Kind.unpooledSliced h).slice j m (v.sliced w) = .ok sl x →
      Step v (.sliceOf k j m) ⟨x.base, v.views ++ [⟨sl, false, w.start + j, m⟩]⟩
  | retainedSliceOf {k : Nat} {j m : Int} {w : View} {sl : Slice} {x : Sliced h.State} : v.views[k]? = some w →
      w.pooled = false → Within j m w.length → (Kind.unpooledSliced h).retainedSlice j m (v.sliced w) = .ok sl x →
      Step v (.retainedSliceOf k j m) ⟨x.base, v.views ++ [⟨sl, false, w.start + j, m⟩]⟩
  | base {s : h.State} : h.store.Live s → h.charBuf.capacity v.base ≤ h.charBuf.capacity s →
      Step v .base ⟨s, v.views⟩
  | view {k : Nat} {w : View} {i : Indices} {s : h.State} : v.views[k]? = some w →
      i.maxCapacity_ = w.slice.indices.maxCapacity_ → h.store.Live s →
      h.charBuf.capacity v.base ≤ h.charBuf.capacity s →
      Step v (.view k) ⟨s, v.views.set k { w with slice := { w.slice with indices := i } }⟩

end Views

/-! ## What is made -/

section

variable {σ : Type} {h : Heap} {s s' : h.State} {i n : Int} {sl : Slice}

theorem CharBuf.slice_ok (hn : 0 ≤ n) (s : σ) : CharBuf.slice i n s = .ok (Slice.new i n) s := by
  rw [CharBuf.slice, Method.bind_apply, CharBuf.checkIndexBounds_ok (Int.le_refl 0) hn (Int.le_refl _)]
  rfl

/-- `setChars` of a buffer with bytes of its own checks the range. -/
theorem Heap.setChars_throw {src : List UInt8} (hs : h.store.Live s) (hi : i32 i = i) (hn : i32 n = n)
    (ho : ¬Within i n (h.charBuf.capacity s)) : h.charBuf.setChars i src n s = .throw "checkRangeBounds failed" s := by
  have e := h.store.checkIndex_eq hs hi hn
  rw [if_neg ho] at e
  cases h with
  | unpooled =>
    show (UnpooledHeapCharBuf.charBuf.checkIndex i n s).bind _ = _
    rw [show UnpooledHeapCharBuf.charBuf.checkIndex i n s = _ from e]
    rfl
  | pooled =>
    show (Pool.Pooled.charBuf.checkIndex i n s).bind _ = _
    rw [show Pool.Pooled.charBuf.checkIndex i n s = _ from e]
    rfl

theorem Heap.retain_live (hs : h.store.Live s) : h.store.Live (h.retain s) := by
  cases h with
  | unpooled => exact hs
  | pooled =>
    obtain ⟨l, t, hH⟩ := hs
    exact ⟨l, t, hH.counted _⟩

theorem Heap.capacity_retain (s : h.State) : h.charBuf.capacity (h.retain s) = h.charBuf.capacity s := by
  cases h <;> rfl

theorem Heap.retainedSlice_ok (hn : 0 ≤ n) (e : h.retainedSlice i n s = .ok sl s') :
    sl = Slice.new i n ∧ s' = h.retain s := by
  cases h with
  | unpooled =>
    simp only [Heap.retainedSlice, CharBuf.retainedSlice, Method.bind_apply, CharBuf.slice_ok hn, Outcome.bind_ok] at e
    obtain ⟨rfl, rfl⟩ := Outcome.ok.inj e
    exact ⟨rfl, rfl⟩
  | pooled =>
    simp only [Heap.retainedSlice, Pool.Pooled.retainedSlice, Pool.Pooled.newInstance, Method.bind_apply] at e
    split at e
    · cases e
    · obtain ⟨rfl, rfl⟩ := Outcome.ok.inj e
      exact ⟨rfl, rfl⟩

end

/-! ## Where the slices are -/

namespace Views

variable {h : Heap} {v v' : Views h} {e : Call} {es : List Call} {w : View} {k : Nat}

/-- The slice is the range of the buffer that was asked for. -/
structure Aligned (s : h.State) (w : View) : Prop where
  adjustment_ : w.slice.adjustment_ = w.start
  maxCapacity_ : w.slice.indices.maxCapacity_ = w.length
  within : Within w.start w.length (h.charBuf.capacity s)

/-- The buffer is in use, and every slice is where it should be. -/
structure Ordered (v : Views h) : Prop where
  live : h.store.Live v.base
  views : ∀ w ∈ v.views, Aligned v.base w

namespace Ordered

variable (H : v.Ordered)
include H

theorem get (hk : v.views[k]? = some w) : Aligned v.base w := H.views w (List.mem_of_getElem? hk)

theorem sliced (hk : v.views[k]? = some w) : (v.sliced w).Live h.store := by
  have hA := H.get hk
  obtain ⟨h0, hl, hle⟩ := hA.within
  refine ⟨H.live, ?_, ?_, ?_⟩
  · show 0 ≤ w.slice.adjustment_
    rw [hA.adjustment_]
    exact h0
  · show 0 ≤ w.slice.indices.maxCapacity_
    rw [hA.maxCapacity_]
    exact hl
  · show w.slice.adjustment_ + w.slice.indices.maxCapacity_ ≤ _
    rw [hA.adjustment_, hA.maxCapacity_]
    exact hle

/-- The buffer changes, and slices stay. -/
theorem base {s : h.State} (hs : h.store.Live s) (hc : h.charBuf.capacity v.base ≤ h.charBuf.capacity s) :
    Ordered ⟨s, v.views⟩ where
  live := hs
  views w hw := by
    have hA := H.views w hw
    obtain ⟨h0, hl, hle⟩ := hA.within
    exact ⟨hA.adjustment_, hA.maxCapacity_, h0, hl, by show _ ≤ h.charBuf.capacity s; omega⟩

/-- A slice is made. -/
theorem add {i n : Int} {p : Bool} (hi : Within i n (h.charBuf.capacity v.base)) :
    Ordered ⟨v.base, v.views ++ [⟨Slice.new i n, p, i, n⟩]⟩ where
  live := H.live
  views w hw := by
    rcases List.mem_append.mp hw with hw | hw
    · exact H.views w hw
    · rw [List.mem_singleton.mp hw]
      exact ⟨rfl, rfl, hi⟩

/-- A slice of a slice is one of the buffer. -/
theorem sliceOf {j m : Int} (hk : v.views[k]? = some w) (hj : Within j m w.length) :
    Sliced.slice CharBuf.slice j m (v.sliced w) = .ok (Slice.new (w.start + j) m) (v.sliced w) := by
  have hA := H.get hk
  have hL := H.sliced hk
  have hmax : (v.sliced w).view.indices.maxCapacity_ = w.length := hA.maxCapacity_
  have hoff : ((v.sliced w).offset : Int) = w.start := hL.offset_eq.trans hA.adjustment_
  obtain ⟨hj0, hm0, hjm⟩ := hj
  obtain ⟨i, rfl⟩ : ∃ i : Nat, j = i := ⟨j.toNat, by omega⟩
  obtain ⟨n, rfl⟩ : ∃ n : Nat, m = n := ⟨m.toNat, by omega⟩
  have hin : (i + n : Nat) ≤ (v.sliced w).view.indices.maxCapacity_ := by omega
  rw [Sliced.slice, Method.bind_apply, hL.checkIndex_ok hin, Outcome.bind_ok, hL.idx hin]
  have e := CharBuf.slice_ok (i := ((v.sliced w).offset + i : Nat)) hm0 (v.sliced w).base
  rw [Sliced.onBase_ok e, show (((v.sliced w).offset + i : Nat) : Int) = w.start + i by omega]

end Ordered

theorem Step.ordered (H : v.Ordered) (st : Step v e v') : v'.Ordered := by
  cases st with
  | slice hi e =>
    obtain ⟨rfl, rfl⟩ := Outcome.ok.inj ((CharBuf.slice_ok hi.2.1 _).symm.trans e)
    exact H.add hi
  | retainedSlice hi e =>
    obtain ⟨rfl, rfl⟩ := Heap.retainedSlice_ok hi.2.1 e
    have hc := Heap.capacity_retain v.base
    exact (H.base (Heap.retain_live H.live) (Int.le_of_eq hc.symm)).add (hc.symm ▸ hi)
  | @sliceOf k j m w _ _ hk hw hj e =>
    have he := H.sliceOf hk hj
    obtain ⟨rfl, rfl⟩ := Outcome.ok.inj (he.symm.trans e)
    obtain ⟨h0, hl, hle⟩ := (H.get hk).within
    exact H.add ⟨by have := hj.1; omega, hj.2.1, by have := hj.2.2; omega⟩
  | @retainedSliceOf k j m w _ _ hk hw hj e =>
    have he := H.sliceOf hk hj
    simp only [Kind.retainedSlice, CharBuf.retainedSlice, Method.bind_apply, he, Outcome.bind_ok] at e
    obtain ⟨rfl, rfl⟩ := Outcome.ok.inj e
    obtain ⟨h0, hl, hle⟩ := (H.get hk).within
    have hc := Heap.capacity_retain v.base
    refine (H.base (Heap.retain_live H.live) (Int.le_of_eq hc.symm)).add ⟨?_, hj.2.1, ?_⟩
    · have := hj.1
      omega
    · have := hj.2.2
      show _ ≤ h.charBuf.capacity (h.retain v.base)
      omega
  | base hs hc => exact H.base hs hc
  | @view k w i s hk hi hs hc =>
    have H' := H.base hs hc
    refine ⟨hs, fun w' hw' => ?_⟩
    rcases List.mem_or_eq_of_mem_set hw' with hw' | rfl
    · exact H'.views w' hw'
    · have hA := H'.get hk
      exact ⟨hA.adjustment_, hi.trans hA.maxCapacity_, hA.within⟩

theorem run_ordered {s : h.State} (hs : h.store.Live s) (r : Run Step ⟨s, []⟩ es v) : v.Ordered :=
  r.inv (P := Ordered) ⟨hs, fun _ hw => absurd hw List.not_mem_nil⟩ fun _ _ _ H st => st.ordered H

/-- The functions of a slice are those of one or the other class. -/
theorem exists_charBuf (w : View) : ∃ unsupported, w.charBuf h = Sliced.charBuf h.charBuf unsupported := by
  unfold View.charBuf
  split
  · exact ⟨_, rfl⟩
  · exact ⟨_, rfl⟩

namespace Ordered

variable (H : v.Ordered) (hk : v.views[k]? = some w)
include H hk

/-- Index `j` of the slice is index `start + j` of the buffer. -/
theorem exists_index {j n : Int} (hj : Within j n w.length) : ∃ i m : Nat, j = i ∧ n = m ∧
    w.start + j = ((v.sliced w).offset + i : Nat) ∧ Within (i : Int) m (v.sliced w).view.indices.maxCapacity_ ∧
    Within ((v.sliced w).offset + i : Nat) m (h.charBuf.capacity v.base) := by
  have hA := H.get hk
  have hL := H.sliced hk
  have hmax : (v.sliced w).view.indices.maxCapacity_ = w.length := hA.maxCapacity_
  have hoff : ((v.sliced w).offset : Int) = w.start := hL.offset_eq.trans hA.adjustment_
  obtain ⟨h0, hl, hle⟩ := hA.within
  obtain ⟨hj0, hn0, hjn⟩ := hj
  refine ⟨j.toNat, n.toNat, by omega, by omega, by omega, ⟨by omega, by omega, by omega⟩, by omega, by omega, by omega⟩

/-- What is read of a slice is read of the buffer. -/
theorem getAt_eq {g : Get} {j : Int} (hj : Within j g.size w.length) :
    ∃ a, (w.charBuf h).getAt g j (v.sliced w) = .ok a (v.sliced w) ∧
      h.charBuf.getAt g (w.start + j) v.base = .ok a v.base := by
  obtain ⟨i, m, rfl, hm, hi, hin, hin'⟩ := H.exists_index hk hj
  obtain ⟨msg, hc⟩ := exists_charBuf (h := h) w
  have e := (h.store.sliced msg).getAt_ok (g := g) (i := i) (H.sliced hk) (hm ▸ hin)
  have e' := h.store.getAt_ok (g := g) H.live (hm ▸ hin')
  have hread : ((h.store.sliced msg).byte (v.sliced w)).read i g.size.toNat =
      (h.store.byte v.base).read ((v.sliced w).offset + i) g.size.toNat := Mem.read_shift ..
  rw [hread] at e
  rw [hc, hi]
  exact ⟨_, e, e'⟩

/-- What is written to a slice is written to the buffer, and nothing else is. -/
theorem setAt_eq {p : Put} {bs : List UInt8} {j : Int} (hb : p.Gives bs) (hj : Within j p.size w.length) :
    ∃ s', (w.charBuf h).setAt p j (v.sliced w) = .ok () ⟨s', w.slice⟩ ∧
      h.charBuf.setAt p (w.start + j) v.base = .ok () s' ∧
      h.charBuf.indices s' = h.charBuf.indices v.base ∧ h.charBuf.capacity s' = h.charBuf.capacity v.base ∧
      h.store.byte s' = (h.store.byte v.base).write (w.start + j).toNat bs ∧
      ∀ k : Nat, (k : Int) < w.start ∨ w.start + w.length ≤ k → h.store.byte s' k = h.store.byte v.base k := by
  obtain ⟨i, m, rfl, hm, hi, hin, hin'⟩ := H.exists_index hk hj
  obtain ⟨msg, hc⟩ := exists_charBuf (h := h) w
  have hlen := hb.length
  have h1 := hin.2.2
  have h2 := hin'.2.2
  have e := (h.store.sliced msg).setAt_ok (i := i) (H.sliced hk) hb (by show (_ : Int) ≤ (v.sliced w).view.indices.maxCapacity_; omega)
  have e' := h.store.setAt_ok H.live hb (i := (v.sliced w).offset + i) (by omega)
  have hbyte : h.store.byte (h.store.put ((v.sliced w).offset + i) bs v.base) =
      (h.store.byte v.base).write ((v.sliced w).offset + i) bs := h.store.byte_put H.live (by omega)
  refine ⟨_, hc ▸ e, hi ▸ e', h.store.indices_put .., h.store.capacity_put .., ?_, fun k hout => ?_⟩
  · rw [hi]
    exact hbyte
  · have hjw := hj.2.2
    refine (congrFun hbyte k).trans ?_
    rcases hout with hout | hout
    · exact Mem.write_of_lt (by omega)
    · exact Mem.write_of_ge (by omega)

/-- What a slice has room for. -/
theorem room (msg : String) : i32 ((Sliced.charBuf h.charBuf msg).maxCapacity (v.sliced w) -
    (Sliced.charBuf h.charBuf msg).writerIndex (v.sliced w)) = i32 (w.length - w.slice.indices.writerIndex_) :=
  congrArg (fun m => i32 (m - _)) (H.get hk).maxCapacity_

/-- What does not fit behind the writer index of a slice is refused, with everything as it was,
unless its size is an `int` that there is room for. -/
theorem write_throws_iff {p : Put} (hw : i32 w.slice.indices.writerIndex_ = w.slice.indices.writerIndex_)
    (hn : w.length < w.slice.indices.writerIndex_ + p.size) :
    (∃ e, (w.charBuf h).write p (v.sliced w) = .throw e (v.sliced w)) ↔
      p.intSize < 0 ∨ w.length - w.slice.indices.writerIndex_ < p.intSize ∨
        w.start + w.slice.indices.writerIndex_ < 0 := by
  obtain ⟨msg, hc⟩ := exists_charBuf (h := h) w
  rw [hc]
  have hA := H.get hk
  have hL := H.sliced hk
  obtain ⟨hs0, hl0, hle⟩ := hA.within
  have hcap : h.charBuf.capacity v.base ≤ 2147483647 := h.store.capacity_le H.live
  have hrange := i32_range w.slice.indices.writerIndex_
  rw [hw] at hrange
  by_cases hroom : i32 (w.length - w.slice.indices.writerIndex_) < p.intSize
  · -- `ensureWritable` refuses it
    refine iff_of_true ⟨_, CharBuf.write_throws rfl (by rwa [H.room hk msg])⟩ ?_
    by_cases hneg : w.start + w.slice.indices.writerIndex_ < 0
    · exact .inr (.inr hneg)
    · rw [i32_eq (by omega) (by omega)] at hroom
      exact .inr (.inl hroom)
  · have hsize : i32 (w.length - w.slice.indices.writerIndex_) ≤ w.length - w.slice.indices.writerIndex_ := by
      unfold i32
      omega
    rcases p.intSize_eq with he | ⟨src, rfl⟩
    · exact absurd hn (by omega)
    -- `_setChars` is `setChars` of the buffer, which checks the range
    have hroom : i32 src.length ≤ i32 (w.length - w.slice.indices.writerIndex_) := Int.not_lt.mp hroom
    have key : (Sliced.charBuf h.charBuf msg).write (.string src) (v.sliced w) =
        (Sliced.onBase (h.charBuf.setChars (i32 (w.start + w.slice.indices.writerIndex_)) src (i32 src.length))
          (v.sliced w)).bind fun _ => (Sliced.charBuf h.charBuf msg).advanceWriter (i32 src.length) := by
      have hidx : (v.sliced w).idx w.slice.indices.writerIndex_ = i32 (w.start + w.slice.indices.writerIndex_) := by
        rw [Sliced.idx, Int.add_comm]
        exact congrArg (fun a => i32 (a + _)) hA.adjustment_
      rw [CharBuf.writeString_eq rfl (by rwa [H.room hk msg]), ← hidx]
      rfl
    rw [key]
    have hlen := i32_range src.length
    by_cases hin : 0 ≤ i32 src.length ∧ 0 ≤ w.start + w.slice.indices.writerIndex_
    · have hsrc : i32 src.length ≤ src.length := by
        unfold i32
        omega
      obtain ⟨i, hi⟩ := Int.eq_ofNat_of_zero_le hin.2
      obtain ⟨n, hn'⟩ := Int.eq_ofNat_of_zero_le hin.1
      have hidx : i32 (w.start + w.slice.indices.writerIndex_) = i := by
        rw [i32_eq (by omega) (by omega), hi]
      have hn : n ≤ src.length := by omega
      have e := h.store.setChars_ok H.live (show i + n ≤ h.charBuf.capacity v.base by omega) hn
      rw [hidx, hn', Sliced.onBase_ok e]
      refine iff_of_false ?_ (by show ¬(i32 src.length < 0 ∨ _ < i32 src.length ∨ _); omega)
      rintro ⟨_, he⟩
      cases he
    · have hout : ¬Within (i32 (w.start + w.slice.indices.writerIndex_)) (i32 src.length) (h.charBuf.capacity v.base) := by
        rintro ⟨h0, h1, -⟩
        refine hin ⟨h1, Int.not_lt.mp fun hneg => ?_⟩
        rw [i32_eq (by omega) (by omega)] at h0
        omega
      have hint : ∀ x : Int, i32 (i32 x) = i32 x := fun x => i32_eq (i32_range x).1 (i32_range x).2
      rw [Sliced.onBase_throw (Heap.setChars_throw H.live (hint _) (hint _) hout)]
      exact iff_of_true ⟨_, rfl⟩ (by show i32 src.length < 0 ∨ _ < i32 src.length ∨ _; omega)

end Ordered

/-- In every state that a run reaches, a slice of the buffer, or of a slice of it and so on, is the
range of the buffer that was asked for: what is read of it is read of the buffer, what is written
to it is written to the buffer and nowhere else, and a slice of it is one of the buffer. What would
pass its length is refused, with everything as it was, exactly when it is too long also for the
`int` that is made of its size, or there is no such place in the buffer. -/
theorem slices_of_run {s : h.State} (hs : h.store.Live s) (r : Run Step ⟨s, []⟩ es v) (hk : v.views[k]? = some w) :
    (∀ g j, Within j g.size w.length → ∃ a, (w.charBuf h).getAt g j (v.sliced w) = .ok a (v.sliced w) ∧
      h.charBuf.getAt g (w.start + j) v.base = .ok a v.base) ∧
    (∀ p bs j, p.Gives bs → Within j p.size w.length → ∃ s',
      (w.charBuf h).setAt p j (v.sliced w) = .ok () ⟨s', w.slice⟩ ∧
      h.charBuf.setAt p (w.start + j) v.base = .ok () s' ∧
      h.charBuf.indices s' = h.charBuf.indices v.base ∧ h.charBuf.capacity s' = h.charBuf.capacity v.base ∧
      h.store.byte s' = (h.store.byte v.base).write (w.start + j).toNat bs ∧
      ∀ k : Nat, (k : Int) < w.start ∨ w.start + w.length ≤ k → h.store.byte s' k = h.store.byte v.base k) ∧
    (∀ p : Put, i32 w.slice.indices.writerIndex_ = w.slice.indices.writerIndex_ →
      w.length < w.slice.indices.writerIndex_ + p.size →
      ((∃ e, (w.charBuf h).write p (v.sliced w) = .throw e (v.sliced w)) ↔
        p.intSize < 0 ∨ w.length - w.slice.indices.writerIndex_ < p.intSize ∨
          w.start + w.slice.indices.writerIndex_ < 0)) ∧
    (w.pooled = false → ∀ j m, Within j m w.length →
      (Kind.unpooledSliced h).slice j m (v.sliced w) = .ok (Slice.new (w.start + j) m) (v.sliced w) ∧
      (Kind.heap h).slice (w.start + j) m v.base = .ok (Slice.new (w.start + j) m) v.base) := by
  have H := run_ordered hs r
  exact ⟨fun g j hj => H.getAt_eq hk hj, fun p bs j hb hj => H.setAt_eq hk hb hj,
    fun p hw hn => H.write_throws_iff hk hw hn,
    fun _ j m hj => ⟨H.sliceOf hk hj, CharBuf.slice_ok hj.2.1 v.base⟩⟩

/-- A buffer that grows, to another array or to another region, is in use and no smaller. -/
theorem Step.grow {n : Int} (hs : h.store.Live v.base) (hn : h.charBuf.capacity v.base < n)
    (hm : n ≤ h.charBuf.maxCapacity v.base) (hi : n ≤ intMax) :
    ∃ s', h.charBuf.setCapacity n v.base = .ok () s' ∧ Step v .base ⟨s', v.views⟩ := by
  obtain ⟨s', e, hL, -, hc, -⟩ := h.store.grow_ok hs hn hm hi
  exact ⟨s', e, .base hL (by omega)⟩

/-- So is one that is written to. -/
theorem Step.set {p : Put} {bs : List UInt8} {i : Nat} (hs : h.store.Live v.base) (hb : p.Gives bs)
    (hi : (i + bs.length : Nat) ≤ h.charBuf.capacity v.base) :
    ∃ s', h.charBuf.setAt p i v.base = .ok () s' ∧ Step v .base ⟨s', v.views⟩ :=
  ⟨_, h.store.setAt_ok hs hb hi, .base (h.store.live_put hs hi) (Int.le_of_eq (h.store.capacity_put ..).symm)⟩

/-- Four bytes at `2` of a slice at `4`, after the buffer has grown; there is no room behind them. -/
theorem slices_of_run_four : ∃ (v : Views .unpooled) (w : View),
    Run Step ⟨UnpooledHeapCharBuf.new 16 64, []⟩ [.slice 4 8, .sliceOf 0 2 4, .base] v ∧ v.views[1]? = some w ∧
      w.start = 6 ∧ (∀ g j, Within j g.size w.length → ∃ a, (w.charBuf .unpooled).getAt g j (v.sliced w) =
        .ok a (v.sliced w) ∧ Heap.unpooled.charBuf.getAt g (w.start + j) v.base = .ok a v.base) ∧
      ∃ e, (w.charBuf .unpooled).write (.typed .int 7) (v.sliced w) = .throw e (v.sliced w) := by
  have hs : Heap.unpooled.store.Live (UnpooledHeapCharBuf.new 16 64) := ⟨by decide, by decide⟩
  have h1 : Step (h := .unpooled) ⟨UnpooledHeapCharBuf.new 16 64, []⟩ (.slice 4 8)
      ⟨UnpooledHeapCharBuf.new 16 64, [⟨.new 4 8, false, 4, 8⟩]⟩ := .slice (by decide) (CharBuf.slice_ok (by decide) _)
  have H := run_ordered hs (.one h1)
  have h2 := Step.sliceOf (k := 0) (j := 2) (m := 4) rfl rfl (by decide) (H.sliceOf (k := 0) rfl (by decide))
  obtain ⟨s', -, h3⟩ := Step.grow (h := .unpooled) (n := 32) (v := ⟨UnpooledHeapCharBuf.new 16 64,
    [⟨.new 4 8, false, 4, 8⟩, ⟨.new 6 4, false, 6, 4⟩]⟩) hs (by decide) (by decide) (by decide)
  have r := ((Run.one h1).append (Run.one h2)).append (Run.one h3)
  obtain ⟨hread, -, hwrite, -⟩ := slices_of_run hs r (k := 1) rfl
  exact ⟨_, _, r, rfl, rfl, hread, (hwrite (.typed .int 7) rfl (by decide)).mpr (.inr (.inl (by decide)))⟩

/-- A string of `2 ^ 32` bytes, whose length as an `int` is `0`, is accepted by a slice of eight bytes
that is full. -/
theorem write_huge_string_to_slice : ∃ (v : Views .unpooled) (w : View) (s : List UInt8),
    Run Step ⟨UnpooledHeapCharBuf.new 16 64, []⟩ [.slice 4 8] v ∧ v.views[0]? = some w ∧
      w.slice.indices.writerIndex_ = 8 ∧ w.length < w.slice.indices.writerIndex_ + (Put.string s).size ∧
      ∃ x, (w.charBuf .unpooled).write (.string s) (v.sliced w) = .ok () x := by
  have hs : Heap.unpooled.store.Live (UnpooledHeapCharBuf.new 16 64) := ⟨by decide, by decide⟩
  have h1 : Step (h := .unpooled) ⟨UnpooledHeapCharBuf.new 16 64, []⟩ (.slice 4 8)
      ⟨UnpooledHeapCharBuf.new 16 64, [⟨.new 4 8, false, 4, 8⟩]⟩ := .slice (by decide) (CharBuf.slice_ok (by decide) _)
  have key : ∀ s : List UInt8, i32 s.length = 0 →
      ∃ x, (Sliced.unpooled UnpooledHeapCharBuf.charBuf).write (.string s) ⟨.new 16 64, .new 4 8⟩ = .ok () x := by
    intro s h0
    have hn : ((12 + 0 : Nat) : Int) ≤ UnpooledHeapCharBuf.charBuf.capacity (UnpooledHeapCharBuf.new 16 64) := by decide
    have e := UnpooledHeapCharBuf.store.setChars_ok hs hn (Nat.zero_le s.length)
    have e' : Sliced.onBase (UnpooledHeapCharBuf.charBuf.setChars (12 : Nat) s (0 : Nat))
        ⟨UnpooledHeapCharBuf.new 16 64, Slice.new 4 8⟩ = .ok () _ := Sliced.onBase_ok e
    have ew : (Sliced.unpooled UnpooledHeapCharBuf.charBuf).writerIndex ⟨.new 16 64, .new 4 8⟩ = 8 := rfl
    rw [CharBuf.writeString_eq rfl (by rw [h0]; decide), h0, ew]
    exact ⟨_, congrArg (fun o => o.bind fun _ => (Sliced.unpooled UnpooledHeapCharBuf.charBuf).advanceWriter 0) e'⟩
  have hlen : (List.replicate (2 ^ 32) (0 : UInt8)).length = 2 ^ 32 := List.length_replicate
  refine ⟨_, _, List.replicate (2 ^ 32) 0, .one h1, rfl, rfl, ?_, key _ (by rw [hlen]; decide)⟩
  show (8 : Int) < 8 + ((List.replicate (2 ^ 32) (0 : UInt8)).length : Nat)
  rw [hlen]
  decide

end Views

end Nio.Buffer
