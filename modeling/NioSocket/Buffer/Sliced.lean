import NioSocket.Buffer.Store

/-!
# Slices

A slice holds no bytes. It has indices of its own, and works on the buffer it is a range of:
`AbstractUnpooledSlicedCharBuf` and `PooledSlicedCharBuf`, which differ in who counts the
references. A slice that is within the capacity of its buffer is a `Store` (`Store.sliced`),
and byte `k` of it is byte `adjustment_ + k` of the buffer.
-/

namespace Nio.Buffer

variable {σ α : Type}

/-- The data members of a slice; `maxCapacity_` is its length. -/
structure Slice where
  indices : Indices
  adjustment_ : Int
  deriving DecidableEq, Repr

/-- What the constructor of a slice leaves. -/
def Slice.new (index length : Int) : Slice := ⟨⟨0, length, 0, 0, length⟩, index⟩

/-- A slice, and the buffer it is a slice of. -/
structure Sliced (σ : Type) where
  base : σ
  view : Slice

namespace CharBuf

/-- `AbstractCharBuf::slice(index, length)`: the constructor sets `writerIndex(length)`, and
checks nothing else. -/
def slice (index length : Int) : Method σ Slice := do
  checkIndexBounds 0 length length
  pure (Slice.new index length)

/-- `AbstractCharBuf::retainedSlice(index, length)`, of the virtual `slice` and `retain`. -/
def retainedSlice (slice : Int → Int → Method σ Slice) (retain : σ → σ) (index length : Int) : Method σ Slice := do
  let sliceBuffer ← slice index length
  .modify retain
  pure sliceBuffer

end CharBuf

namespace Sliced

/-- A call on the buffer. -/
def onBase (m : Method σ α) : Method (Sliced σ) α := fun x =>
  match m x.base with
  | .ok a s => .ok a { x with base := s }
  | .throw e s => .throw e { x with base := s }
  | .ub => .ub
  | .hang => .hang

/-- `idx(index)`. -/
def idx (index : Int) (x : Sliced σ) : Int := i32 (index + x.view.adjustment_)

def checkIndex (index length : Int) : Method (Sliced σ) Unit := fun x =>
  CharBuf.checkRangeBounds index length x.view.indices.maxCapacity_ x

/-- The functions `AbstractCharBuf` calls on a slice. Copied to itself, a slice checks both
ranges, and its buffer copies within the one array. -/
def charBuf (c : CharBuf σ) (unsupported : String) : CharBuf (Sliced σ) where
  indices x := x.view.indices
  setIndices i x := { x with view := { x.view with indices := i } }
  capacity x := x.view.indices.maxCapacity_
  setCapacity _ := .throw unsupported
  _set index bs := fun x => onBase (c.setValue (idx index x) bs) x
  _get index n := fun x => onBase (c.getValue (idx index x) n) x
  _setChars index src len := fun x => onBase (c.setChars (idx index x) src len) x
  _getString index len := fun x => onBase (c.getString (idx index x) len) x
  setChars index src length := do
    checkIndex index length
    fun x => onBase (c.setChars (idx index x) src length) x
  setCharsFrom index src srcIndex length := do
    checkIndex index length
    fun x => onBase (c.setCharsFrom (idx index x) src srcIndex length) x
  setCharsSelf index srcIndex length := do
    checkIndex index length
    checkIndex srcIndex length
    fun x => onBase (c.setCharsSelf (idx index x) (idx srcIndex x) length) x
  getChars index length := do
    checkIndex index length
    fun x => onBase (c.getChars (idx index x) length) x

/-- `AbstractUnpooledSlicedCharBuf`. -/
def unpooled (c : CharBuf σ) : CharBuf (Sliced σ) := charBuf c "Unsupported capacity(int newCapacity) in sliced buffer"

/-- `PooledSlicedCharBuf`. -/
def pooled (c : CharBuf σ) : CharBuf (Sliced σ) :=
  charBuf c "Unsupported capacity(int newCapacity) in PooledSlicedCharBuf"

/-- `AbstractUnpooledSlicedCharBuf::slice(index, length)`, of the buffer's own. -/
def slice (base : Int → Int → Method σ Slice) (index length : Int) : Method (Sliced σ) Slice := do
  checkIndex index length
  fun x => onBase (base (idx index x) length) x

end Sliced

/-! ## What a store does within its capacity -/

namespace CharBuf.Store

variable {c : CharBuf σ} (B : Store c) {s : σ} {i n : Nat} {bs : List UInt8}

theorem checkIndex_eq (h : B.Live s) {index length : Int} (hi : i32 index = index) (hl : i32 length = length) :
    c.checkIndex index length s =
      if Within index length (c.capacity s) then .ok () s else .throw "checkRangeBounds failed" s :=
  checkRangeBounds_within hi hl (B.capacity_nonneg h) (B.capacity_le h) s

theorem checkIndex_ok (h : B.Live s) (hn : (i + n : Nat) ≤ c.capacity s) : c.checkIndex i n s = .ok () s := by
  have hc := B.capacity_le h
  unfold intMax at hc
  rw [B.checkIndex_eq h (i32_eq (by omega) (by omega)) (i32_eq (by omega) (by omega)),
    if_pos ⟨by omega, by omega, by omega⟩]

theorem setValue_ok (h : B.Live s) (hn : (i + bs.length : Nat) ≤ c.capacity s) :
    c.setValue i bs s = .ok () (B.put i bs s) := by
  rw [setValue, Method.bind_apply, B.checkIndex_ok h hn, Outcome.bind_ok, B.set_ok h hn]

theorem getValue_ok (h : B.Live s) (hn : (i + n : Nat) ≤ c.capacity s) :
    c.getValue i n s = .ok ((B.byte s).read i n) s := by
  rw [getValue, Method.bind_apply, B.checkIndex_ok h hn, Outcome.bind_ok, B.get_ok h hn]

theorem getString_ok (h : B.Live s) (hn : (i + n : Nat) ≤ c.capacity s) :
    c.getString i n s = .ok ((B.byte s).read i n) s := by
  rw [getString, Method.bind_apply, B.checkIndex_ok h hn, Outcome.bind_ok, B._getString_ok h hn]

end CharBuf.Store

/-! ## A slice as a store -/

namespace Sliced

variable {c : CharBuf σ} {x : Sliced σ} {i n : Nat}

theorem onBase_ok {m : Method σ α} {a : α} {s : σ} (h : m x.base = .ok a s) :
    onBase m x = .ok a { x with base := s } := by
  simp only [onBase, h]

theorem onBase_throw {m : Method σ α} {e : String} {s : σ} (h : m x.base = .throw e s) :
    onBase m x = .throw e { x with base := s } := by
  simp only [onBase, h]

/-- The slice is in use, and within the capacity of its buffer. -/
structure Live (B : CharBuf.Store c) (x : Sliced σ) : Prop where
  base : B.Live x.base
  adjustment_ : 0 ≤ x.view.adjustment_
  length : 0 ≤ x.view.indices.maxCapacity_
  within : x.view.adjustment_ + x.view.indices.maxCapacity_ ≤ c.capacity x.base

/-- The first byte of the slice in its buffer. -/
def offset (x : Sliced σ) : Nat := x.view.adjustment_.toNat

namespace Live

variable {B : CharBuf.Store c} (h : x.Live B)
include h

theorem offset_eq : (x.offset : Int) = x.view.adjustment_ := Int.toNat_of_nonneg h.adjustment_

theorem capacity_le : x.view.indices.maxCapacity_ ≤ intMax := by
  have := B.capacity_le h.base
  have := h.within
  have := h.adjustment_
  omega

theorem idx (hn : (i + n : Nat) ≤ x.view.indices.maxCapacity_) : x.idx i = (x.offset + i : Nat) := by
  have hc : c.capacity x.base ≤ 2147483647 := B.capacity_le h.base
  have := h.within
  have := h.adjustment_
  have := h.offset_eq
  rw [Sliced.idx, i32_eq (by omega) (by omega)]
  omega

theorem checkIndex_ok (hn : (i + n : Nat) ≤ x.view.indices.maxCapacity_) : checkIndex i n x = .ok () x := by
  have hc := h.capacity_le
  have hl := h.length
  unfold intMax at hc
  rw [checkIndex, CharBuf.checkRangeBounds_within (i32_eq (by omega) (by omega)) (i32_eq (by omega) (by omega)) hl hc,
    if_pos ⟨by omega, by omega, by omega⟩]

/-- A range of the slice is one of the buffer. -/
theorem inside (hn : (i + n : Nat) ≤ x.view.indices.maxCapacity_) : (x.offset + i + n : Nat) ≤ c.capacity x.base := by
  have := h.within
  have := h.offset_eq
  omega

end Live

end Sliced

/-- The bytes of a slice are bytes of its buffer. -/
def CharBuf.Store.sliced {c : CharBuf σ} (B : Store c) (unsupported : String) : Store (Sliced.charBuf c unsupported) where
  Live := Sliced.Live B
  byte x := (B.byte x.base).shift x.offset
  put i bs x := { x with base := B.put (x.offset + i) bs x.base }
  capacity_nonneg h := h.length
  capacity_le h := h.capacity_le
  indices_setIndices _ _ := rfl
  capacity_setIndices h := h
  byte_setIndices _ _ := rfl
  live_setIndices {i x} hi h := by
    have hi : i.maxCapacity_ = x.view.indices.maxCapacity_ := hi
    exact ⟨h.base, h.adjustment_, hi ▸ h.length, hi ▸ h.within⟩
  indices_put _ _ _ := rfl
  capacity_put _ _ _ := rfl
  byte_put h hn := by
    rw [B.byte_put h.base (h.inside hn)]
    exact Mem.write_shift ..
  live_put h hn := ⟨B.live_put h.base (h.inside hn), h.adjustment_, h.length, (B.capacity_put ..).symm ▸ h.within⟩
  set_ok {i bs x} h hn := by
    show Sliced.onBase (c.setValue (x.idx i) bs) x = _
    rw [h.idx hn, Sliced.onBase_ok (B.setValue_ok h.base (h.inside hn))]
  get_ok {i n x} h hn := by
    show Sliced.onBase (c.getValue (x.idx i) n) x = _
    rw [h.idx hn, Sliced.onBase_ok (B.getValue_ok h.base (h.inside hn)), Mem.read_shift]
  _setChars_ok {i n src x} h hn hl := by
    show Sliced.onBase (c.setChars (x.idx i) src n) x = _
    rw [h.idx hn, Sliced.onBase_ok (B.setChars_ok h.base (h.inside hn) hl)]
  _getString_ok {i n x} h hn := by
    show Sliced.onBase (c.getString (x.idx i) n) x = _
    rw [h.idx hn, Sliced.onBase_ok (B.getString_ok h.base (h.inside hn)), Mem.read_shift]
  setChars_ok {i n src x} h hn hl := by
    show (Sliced.checkIndex i n x).bind (fun _ x => Sliced.onBase (c.setChars (x.idx i) src n) x) = _
    rw [h.checkIndex_ok hn, Outcome.bind_ok, h.idx hn, Sliced.onBase_ok (B.setChars_ok h.base (h.inside hn) hl)]
  getChars_ok {i n x} h hn := by
    show (Sliced.checkIndex i n x).bind (fun _ x => Sliced.onBase (c.getChars (x.idx i) n) x) = _
    rw [h.checkIndex_ok hn, Outcome.bind_ok, h.idx hn, Sliced.onBase_ok (B.getChars_ok h.base (h.inside hn)),
      Mem.read_shift]
  setCharsFrom_ok {i bs src srcIndex x} h hn e := by
    show (Sliced.checkIndex i bs.length x).bind
      (fun _ x => Sliced.onBase (c.setCharsFrom (x.idx i) src srcIndex bs.length) x) = _
    rw [h.checkIndex_ok hn, Outcome.bind_ok, h.idx hn,
      Sliced.onBase_ok (B.setCharsFrom_ok h.base (h.inside hn) e)]
  setCharsSelf_eq {i j n x} h hi hj := by
    show ((Sliced.checkIndex i n x).bind fun _ x => (Sliced.checkIndex j n x).bind fun _ x =>
      Sliced.onBase (c.setCharsSelf (x.idx i) (x.idx j) n) x) = _
    rw [h.checkIndex_ok hi, Outcome.bind_ok, h.checkIndex_ok hj, Outcome.bind_ok, h.idx hi, h.idx hj]
    have e := B.setCharsSelf_eq h.base (h.inside hi) (h.inside hj)
    by_cases hd : i + n ≤ j ∨ j + n ≤ i
    · rw [if_pos (by omega)] at e
      rw [if_pos hd, Sliced.onBase_ok e, Mem.read_shift]
    · rw [if_neg (by omega)] at e
      rw [if_neg hd, Sliced.onBase, e]
  grow_ok _ h h' _ := absurd (Int.lt_of_lt_of_le h h') (Int.lt_irrefl _)

end Nio.Buffer
