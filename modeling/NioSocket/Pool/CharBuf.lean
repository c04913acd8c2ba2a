import NioSocket.Pool.Allocate
import NioSocket.Buffer.AbstractCharBuf

/-!
# Pooled buffers

`PooledCharBuf` and `PooledHeapCharBuf`: a buffer whose bytes are a region of an arena's
chunk, and which changes the region when its capacity is changed. A call on a buffer works
on the buffer and on the arena (`Pooled`). `memory_` is the memory of a chunk; an access
outside it has no meaning, and neither has one through a null pointer.
-/

namespace Nio.Pool

open Buffer (Indices CharBuf Source)

/-- The data members of a `PooledCharBuf`. -/
structure PooledCharBuf where
  indices : Indices
  refCnt_ : Int
  chunk_ : Option Nat
  handle_ : Int
  offset_ : Nat
  length_ : Int
  maxLength_ : Nat
  memory_ : Option Nat
  deriving DecidableEq, Repr

/-- A buffer, and the arena it has its region of. -/
structure Pooled where
  arena : PoolArena
  buf : PooledCharBuf

namespace PoolArena

/-- A `memcpy` of `length` bytes out of the memory of chunk `c`. -/
def peek (c : Nat) (offset length : Int) : Method PoolArena (List UInt8) := do
  let ch ← chunkAt c
  if 0 ≤ offset ∧ 0 ≤ length ∧ offset + length ≤ ch.chunkSize_ then
    pure (ch.memory.read offset.toNat length.toNat)
  else fun _ => .ub

/-- A `memcpy` into the memory of chunk `c`. -/
def poke (c : Nat) (offset : Int) (bs : List UInt8) : Method PoolArena Unit := do
  let ch ← chunkAt c
  if 0 ≤ offset ∧ offset + bs.length ≤ ch.chunkSize_ then
    .modify fun a => a.setChunk c { ch with memory := ch.memory.write offset.toNat bs }
  else fun _ => .ub

/-- `memcpy(dst + dstOffset, src + srcOffset, length)`. -/
def memcpy (dst : Nat) (dstOffset : Int) (src : Nat) (srcOffset length : Int) : Method PoolArena Unit := do
  let bs ← peek src srcOffset length
  if dst ≠ src ∨ dstOffset + length ≤ srcOffset ∨ srcOffset + length ≤ dstOffset then poke dst dstOffset bs
  else fun _ => .ub

end PoolArena

namespace PooledCharBuf

/-- `PooledCharBuf(maxCapacity)`. -/
def new (maxCapacity : Int) : PooledCharBuf where
  indices := .init maxCapacity
  refCnt_ := 1
  chunk_ := none
  handle_ := 0
  offset_ := 0
  length_ := 0
  maxLength_ := 0
  memory_ := none

/-- `init0(chunk, handle, offset, length, maxLength, cache)`. -/
def init0 (r : Region) (b : PooledCharBuf) : PooledCharBuf :=
  { b with chunk_ := r.chunk_, handle_ := r.handle_, offset_ := r.offset_, length_ := r.length_,
           maxLength_ := r.maxLength_, memory_ := r.chunk_ }

/-- `trimIndicesToCapacity(newCapacity)`. -/
def trimIndicesToCapacity (newCapacity : Int) (b : PooledCharBuf) : PooledCharBuf :=
  let i := b.indices
  if i.writerIndex_ > newCapacity then
    { b with indices := { i with readerIndex_ := min i.readerIndex_ newCapacity, writerIndex_ := newCapacity } }
  else b

/-- `length_ = n`. -/
def withLength (n : Int) (b : PooledCharBuf) : PooledCharBuf := { b with length_ := n }

/-- `retain(increment)`; the count is an `AtomicInteger<int>`, which wraps. -/
def retain (increment : Int) (b : PooledCharBuf) : PooledCharBuf :=
  if increment > 0 then { b with refCnt_ := i32 (b.refCnt_ + increment) } else b

end PooledCharBuf

namespace PoolArena

/-- `allocate(reqCapacity, maxCapacity)`. -/
def allocateBuf (reqCapacity maxCapacity : Int) : Method PoolArena PooledCharBuf := do
  let r ← allocate reqCapacity
  pure ((PooledCharBuf.new maxCapacity).init0 r)

/-- `AbstractCharBufAllocator::heapBuffer(initialCapacity, maxCapacity)`, `none` for a null pointer. -/
def heapBuffer (initialCapacity maxCapacity : Int) : Method PoolArena (Option PooledCharBuf) :=
  if 0 = initialCapacity ∨ 0 = maxCapacity ∨ initialCapacity > maxCapacity then pure none
  else do pure (some (← allocateBuf initialCapacity maxCapacity))

end PoolArena

namespace Pooled

variable {α : Type}

/-- A call on the arena. -/
def onArena (m : Method PoolArena α) : Method Pooled α := fun s =>
  match m s.arena with
  | .ok x a => .ok x { s with arena := a }
  | .throw e a => .throw e { s with arena := a }
  | .ub => .ub
  | .hang => .hang

/-- A change of the buffer alone. -/
def onBuf (f : PooledCharBuf → PooledCharBuf) : Method Pooled Unit := .modify fun s => { s with buf := f s.buf }

/-- Dereferencing `chunk_` or `memory_`. -/
def deref (p : Option Nat) : Method Pooled Nat := fun s =>
  match p with
  | some c => .ok c s
  | none => .ub

/-! ## The region -/

/-- `PoolArena::reallocate(buf, newCapacity, freeOldMemory)`. -/
def reallocate (newCapacity : Int) (freeOldMemory : Bool) : Method Pooled Unit := fun s =>
  let old := s.buf
  (do
    assert (newCapacity ≥ 0 ∧ newCapacity ≤ old.indices.maxCapacity_)
    if old.length_ = newCapacity then pure ()
    else do
      let r ← onArena (PoolArena.allocate newCapacity)
      onBuf (.init0 r)
      if ¬newCapacity > old.length_ then onBuf (.trimIndicesToCapacity newCapacity)
      let src ← deref old.memory_
      onArena (PoolArena.memcpy r.chunk_ r.offset_ src old.offset_ (min old.length_ newCapacity))
      if freeOldMemory then do
        let oldChunk ← deref old.chunk_
        onArena (PoolArena.free oldChunk old.handle_)) s

/-- `checkNewCapacity(newCapacity)`. -/
def checkNewCapacity (newCapacity : Int) : Method Pooled Unit := fun s =>
  if newCapacity < 0 ∨ newCapacity > s.buf.indices.maxCapacity_ then
    .throw s!"newCapacity {newCapacity} expected:(0 - {s.buf.indices.maxCapacity_})" s
  else .ok () s

/-- `capacity(newCapacity)`. -/
def setCapacity (newCapacity : Int) : Method Pooled Unit := fun s =>
  let b := s.buf
  if newCapacity = b.length_ then .ok () s
  else
    (do
      checkNewCapacity newCapacity
      let ch ← onArena (PoolArena.chunkAt (← deref b.chunk_))
      if !ch.unpooled ∧ newCapacity > b.length_ ∧ newCapacity ≤ b.maxLength_ then onBuf (.withLength newCapacity)
      else if !ch.unpooled ∧ ¬newCapacity > b.length_ ∧ newCapacity > b.maxLength_ / 2 ∧
          (b.maxLength_ > 512 ∨ newCapacity > b.maxLength_ - 16) then do
        onBuf (.withLength newCapacity)
        onBuf (.trimIndicesToCapacity newCapacity)
      else reallocate newCapacity true) s

/-- `deallocate()`. -/
def deallocate : Method Pooled Unit := fun s =>
  if s.buf.handle_ ≥ 0 then
    (do
      let chunk ← deref s.buf.chunk_
      onArena (PoolArena.free chunk s.buf.handle_)
      onBuf fun b => { b with memory_ := none, handle_ := -1, chunk_ := none }) s
  else .ok () s

/-- `release(decrement)`. -/
def release (decrement : Int) : Method Pooled Unit := do
  onBuf fun b => if decrement > 0 then { b with refCnt_ := i32 (b.refCnt_ - decrement) } else b
  if (← .get fun s => s.buf.refCnt_) = 0 then deallocate

/-! ## The virtual functions -/

/-- `idx(index)`. -/
def idx (index : Int) (b : PooledCharBuf) : Int := i32 (index + b.offset_)

/-- What `memcpy` takes out of the memory, from an index on. -/
def peek (index length : Int) : Method Pooled (List UInt8) := fun s =>
  (deref s.buf.memory_ s).bind fun c => onArena (PoolArena.peek c (idx index s.buf) length)

/-- What `memcpy` puts there. -/
def poke (index : Int) (bs : List UInt8) : Method Pooled Unit := fun s =>
  (deref s.buf.memory_ s).bind fun c => onArena (PoolArena.poke c (idx index s.buf) bs)

/-- A `memcpy` of the first `length` bytes at `src`. -/
def pokeSome (index : Int) (src : List UInt8) (length : Int) : Method Pooled Unit := fun s =>
  if 0 ≤ length ∧ length ≤ src.length then poke index (src.take length.toNat) s else .ub

/-- `src.getChars(srcIndex, memory_, idx(index), length)`. -/
def setCharsFrom (index : Int) (src : Source) (srcIndex length : Int) : Method Pooled Unit := fun s =>
  match src srcIndex length with
  | .ok bs _ => poke index bs s
  | .throw e _ => .throw e s
  | .ub => .ub
  | .hang => .hang

/-- `setChars(index, *this, srcIndex, length)`. -/
def setCharsSelf (index srcIndex length : Int) : Method Pooled Unit := fun s =>
  (deref s.buf.memory_ s).bind fun c =>
    onArena (PoolArena.memcpy c (idx index s.buf) c (idx srcIndex s.buf) length)

/-- The functions `AbstractCharBuf` calls on a `PooledHeapCharBuf`. -/
def charBuf : CharBuf Pooled where
  indices s := s.buf.indices
  setIndices i s := { s with buf := { s.buf with indices := i } }
  capacity s := s.buf.length_
  setCapacity := setCapacity
  _set := poke
  _get index n := peek index n
  _setChars := pokeSome
  _getString index len := fun s =>
    if len < 0 then .throw "basic_string::assign" s else peek index len s
  setChars index src length := do
    fun s => CharBuf.checkRangeBounds index length s.buf.length_ s
    pokeSome index src length
  setCharsFrom := setCharsFrom
  setCharsSelf := setCharsSelf
  getChars := peek

end Pooled

end Nio.Pool
