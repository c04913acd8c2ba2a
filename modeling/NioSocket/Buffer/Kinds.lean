import NioSocket.Buffer.Accessors
import NioSocket.Pool.References

/-!
# The kinds of buffers

There are two classes of buffers with bytes of their own (`Heap`), and slices of either
(`Kind`): `AbstractCharBuf::slice` makes an `UnpooledSlicedCharBuf` of any of the two, and
`PooledCharBuf::retainedSlice` a `PooledSlicedCharBuf`. What holds of all of them is proved of a
`Store`; `ensureWritable_returns_iff` is when a buffer can make room.
-/

namespace Nio.Buffer

open Pool (Pooled)

/-- The buffers with memory of their own. -/
inductive Heap
  | unpooled
  | pooled
  deriving DecidableEq, Repr

namespace Heap

/-- The state of such a buffer. -/
abbrev State : Heap → Type
  | unpooled => UnpooledHeapCharBuf
  | pooled => Pooled

/-- Its functions. -/
def charBuf : (h : Heap) → CharBuf h.State
  | unpooled => UnpooledHeapCharBuf.charBuf
  | pooled => Pooled.charBuf

/-- What its functions do with its memory. -/
def store : (h : Heap) → h.charBuf.Store
  | unpooled => UnpooledHeapCharBuf.store
  | pooled => Pooled.store

/-- `retain()`. -/
def retain : (h : Heap) → h.State → h.State
  | unpooled => (·.retain 1)
  | pooled => fun s => { s with buf := s.buf.retain 1 }

/-- `retainedSlice(index, length)`, which `PooledCharBuf` overrides. -/
def retainedSlice : (h : Heap) → Int → Int → Method h.State Slice
  | unpooled => CharBuf.retainedSlice CharBuf.slice unpooled.retain
  | pooled => fun index length => do pure (← Pooled.retainedSlice index length).view

end Heap

/-- All buffers: with memory of their own, or views of others. -/
inductive Kind
  | heap (h : Heap)
  | unpooledSliced (h : Heap)
  | pooledSliced
  deriving DecidableEq, Repr

namespace Kind

/-- The state of a buffer. -/
abbrev State : Kind → Type
  | heap h => h.State
  | unpooledSliced h => Sliced h.State
  | pooledSliced => Sliced Pooled

/-- Its functions. -/
def charBuf : (k : Kind) → CharBuf k.State
  | heap h => h.charBuf
  | unpooledSliced h => Sliced.unpooled h.charBuf
  | pooledSliced => Sliced.pooled Pooled.charBuf

/-- What its functions do with its memory. -/
def store : (k : Kind) → k.charBuf.Store
  | heap h => h.store
  | unpooledSliced h => h.store.sliced _
  | pooledSliced => Pooled.store.sliced _

/-- `slice(index, length)`. -/
def slice : (k : Kind) → Int → Int → Method k.State Slice
  | heap _ => CharBuf.slice
  | unpooledSliced _ => Sliced.slice CharBuf.slice
  | pooledSliced => fun _ _ => .throw "Unsupported slice(int newCapacity, int length) in PooledSlicedCharBuf"

/-- `retainedSlice(index, length)`; a reference to an `UnpooledSlicedCharBuf` is one to its buffer. -/
def retainedSlice : (k : Kind) → Int → Int → Method k.State Slice
  | heap h => h.retainedSlice
  | unpooledSliced h =>
    CharBuf.retainedSlice (Sliced.slice CharBuf.slice) fun x => { x with base := h.retain x.base }
  | pooledSliced => fun _ _ => .throw "Unsupported retainedSlice(int index, int length) in PooledSlicedCharBuf"

/-- The buffer is in use, or the one it is a slice of. -/
def Live : (k : Kind) → k.State → Prop
  | heap h, s => h.store.Live s
  | unpooledSliced h, x => h.store.Live x.base
  | pooledSliced, x => Pooled.store.Live x.base

end Kind

/-! ## Making room -/

namespace CharBuf

variable {σ : Type} {c : CharBuf σ} {s : σ} {m : Int}

/-- The buffer can be given any larger capacity up to its maximum. -/
def Grows (c : CharBuf σ) (s : σ) : Prop :=
  ∀ n, c.capacity s < n → n ≤ c.maxCapacity s → n ≤ intMax → ∃ s', c.setCapacity n s = .ok () s' ∧ c.capacity s' = n

theorem Store.grows (B : Store c) (h : B.Live s) : c.Grows s := fun _ hn hm hi => by
  obtain ⟨s', e, -, -, hc, -⟩ := B.grow_ok h hn hm hi
  exact ⟨s', e, hc⟩

/-- `calculateNewCapacity` reaches what a power of two that is an `int` can hold, from a
capacity that is not `0`. -/
theorem calculateNewCapacity_eq {maxCapacity : Int} (hm0 : c.capacity s < m) (hm : m ≤ maxCapacity) (h0 : 0 ≤ c.capacity s)
    (hmax : maxCapacity ≤ intMax) :
    if 0 < c.capacity s ∧ m ≤ 2 ^ 30 then
      ∃ n, m ≤ n ∧ n ≤ maxCapacity ∧ n ≤ 2 ^ 30 ∧ c.calculateNewCapacity m maxCapacity s = .ok n s
    else c.calculateNewCapacity m maxCapacity s = .hang := by
  unfold intMax at hmax
  simp only [calculateNewCapacity, if_neg (show ¬m > maxCapacity by omega)]
  by_cases hstart : 0 < c.capacity s ∧ c.capacity s ≤ 2 ^ 30
  · obtain ⟨k, hk, hle, e⟩ := roundUpPower2_int hstart.1 hstart.2
    rw [e]
    by_cases hm1 : m ≤ 2 ^ 30
    · obtain ⟨j, -, hj, hmj, hloop⟩ := growLoop_pow (k := k) (d := 30 - k) (by omega) (show 30 - k < 34 by omega) hm1
      have hle : (2 : Int) ^ j ≤ 2 ^ 30 := mod_cast Nat.pow_le_pow_right (by decide) hj
      rw [if_pos ⟨hstart.1, hm1⟩, hloop]
      exact ⟨min (2 ^ j) maxCapacity, by omega, by omega, by omega, rfl⟩
    · rw [if_neg (by omega), growLoop_hang (k := k) (d := 30 - k) (by omega) 34 (by omega)]
  · rw [if_neg (by omega), roundUpPower2_min (by unfold intMax; omega), growLoop_min 34 (by omega)]

/-- Room for `m` bytes is to be made, up to a capacity that the loop of `calculateNewCapacity` does
not reach. -/
def Endless (c : CharBuf σ) (s : σ) (m : Int) : Prop :=
  c.capacity s - c.writerIndex s < m ∧ m ≤ c.maxCapacity s - c.writerIndex s ∧
    ¬(0 < c.capacity s ∧ c.writerIndex s + m ≤ 2 ^ 30)

/-- That loop does not end, and neither does `ensureWritable`. -/
theorem Endless.hang (h : c.Endless s m) (h0 : 0 ≤ c.writerIndex s) (hw : c.writerIndex s ≤ c.capacity s)
    (hc : c.capacity s ≤ c.maxCapacity s) (hmax : c.maxCapacity s ≤ intMax) :
    c.calculateNewCapacity (c.writerIndex s + m) (c.maxCapacity s) s = .hang ∧ c.ensureWritable m s = .hang := by
  obtain ⟨hlt, hle, hroom⟩ := h
  have hmax' := hmax
  unfold intMax at hmax'
  have hcalc := calculateNewCapacity_eq (c := c) (s := s) (m := c.writerIndex s + m) (by omega) (by omega) (by omega) hmax
  rw [if_neg hroom] at hcalc
  refine ⟨hcalc, ?_⟩
  rw [ensureWritable, writableBytes, i32_eq (by omega) (by omega), if_pos hlt, i32_eq (by omega) (by omega),
    if_neg (by omega), i32_eq (by omega) (by omega), hcalc]
  rfl

theorem ensureWritable_of_grows (hg : c.Grows s) (h0 : 0 ≤ c.writerIndex s) (hw : c.writerIndex s ≤ c.capacity s)
    (hc : c.capacity s ≤ c.maxCapacity s) (hmax : c.maxCapacity s ≤ intMax)
    (hm : m ≤ c.maxCapacity s - c.writerIndex s) :
    (∃ s', c.ensureWritable m s = .ok () s' ∧ c.writerIndex s + m ≤ c.capacity s' ∧ c.capacity s' ≤ c.maxCapacity s) ↔
      m ≤ c.capacity s - c.writerIndex s ∨ 0 < c.capacity s ∧ c.writerIndex s + m ≤ 2 ^ 30 := by
  have hmax' := hmax
  unfold intMax at hmax'
  rw [ensureWritable, writableBytes, i32_eq (by omega) (by omega)]
  by_cases hfits : m ≤ c.capacity s - c.writerIndex s
  · rw [if_neg (by omega)]
    exact iff_of_true ⟨s, rfl, by omega, hc⟩ (.inl hfits)
  rw [if_pos (by omega), i32_eq (by omega) (by omega), if_neg (by omega), i32_eq (by omega) (by omega)]
  have hcalc := calculateNewCapacity_eq (c := c) (s := s) (m := c.writerIndex s + m) (by omega) (by omega) (by omega) hmax
  split at hcalc
  · rename_i hroom
    obtain ⟨n, hn, hn', -, e⟩ := hcalc
    obtain ⟨s', e', hs'⟩ := hg n (by omega) hn' (by omega)
    rw [e, Outcome.bind_ok, e']
    exact iff_of_true ⟨s', rfl, by omega, by omega⟩ (.inr hroom)
  · rename_i hroom
    rw [hcalc]
    refine iff_of_false ?_ (by omega)
    rintro ⟨s', e, -⟩
    cases e

end CharBuf

namespace Kind

variable {k : Kind} {s : k.State} {m : Int}

theorem grows (hs : k.Live s) : k.charBuf.Grows s := by
  cases k with
  | heap h => exact h.store.grows hs
  | unpooledSliced | pooledSliced => exact fun n hn hn' _ => absurd (Int.lt_of_lt_of_le hn hn') (Int.lt_irrefl _)

/-- A buffer makes room for `m` bytes unless its capacity is `0`, or would have to be above
`2 ^ 30`: then the loop of `calculateNewCapacity` does not end. -/
theorem ensureWritable_returns_iff (hs : k.Live s) (h0 : 0 ≤ k.charBuf.writerIndex s)
    (hw : k.charBuf.writerIndex s ≤ k.charBuf.capacity s) (hc : k.charBuf.capacity s ≤ k.charBuf.maxCapacity s)
    (hmax : k.charBuf.maxCapacity s ≤ intMax) (hm : m ≤ k.charBuf.maxCapacity s - k.charBuf.writerIndex s) :
    (∃ s', k.charBuf.ensureWritable m s = .ok () s' ∧ k.charBuf.writerIndex s + m ≤ k.charBuf.capacity s' ∧
        k.charBuf.capacity s' ≤ k.charBuf.maxCapacity s) ↔
      m ≤ k.charBuf.capacity s - k.charBuf.writerIndex s ∨
        0 < k.charBuf.capacity s ∧ k.charBuf.writerIndex s + m ≤ 2 ^ 30 :=
  CharBuf.ensureWritable_of_grows (grows hs) h0 hw hc hmax hm

theorem ensureWritable_returns_twenty : let c := (heap .unpooled).charBuf
    let b := UnpooledHeapCharBuf.new 8 100
    (∃ s', c.ensureWritable 20 b = .ok () s' ∧ c.writerIndex b + 20 ≤ c.capacity s' ∧ c.capacity s' ≤ c.maxCapacity b) ↔
      20 ≤ c.capacity b - c.writerIndex b ∨ 0 < c.capacity b ∧ c.writerIndex b + 20 ≤ 2 ^ 30 :=
  ensureWritable_returns_iff (k := .heap .unpooled) ⟨by decide, by decide⟩ (by decide) (by decide) (by decide) (by decide) (by decide)

/-- A buffer of no capacity cannot be written to: the loop goes from the least `int` to `0`, and
stays there. -/
theorem ensureWritable_no_capacity : ∃ b : (heap .unpooled).State, let c := (heap .unpooled).charBuf
    (heap .unpooled).Live b ∧ 0 ≤ c.writerIndex b ∧ c.writerIndex b ≤ c.capacity b ∧ c.capacity b ≤ c.maxCapacity b ∧
      c.maxCapacity b ≤ intMax ∧ (1 : Int) ≤ c.maxCapacity b - c.writerIndex b ∧ c.ensureWritable 1 b = .hang :=
  ⟨UnpooledHeapCharBuf.new 0 10, ⟨by decide, by decide⟩, by decide, by decide, by decide, by decide, by decide, rfl⟩

end Kind

end Nio.Buffer
