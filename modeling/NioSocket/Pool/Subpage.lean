import NioSocket.Lib.MachineInt
import NioSocket.Pool.Chunk

/-!
# The objects of an arena, and its subpages

`PoolArena` with the objects it and its chunks have made, and `PoolSubpage`. A
pointer to a subpage is a `SubpageRef`: the head of a size class, or the subpage a
chunk has made for one of its pages. The fields `prev_` and `next_` of all of them are
kept beside each other in the arena, as the pools link subpages of different chunks.
Following a null pointer, or one to an object that was deleted, has no meaning, and
neither has an index outside an array or what follows a failed `BOOST_ASSERT`.
-/

namespace Nio.Pool

/-- A pointer to a `PoolSubpage`. -/
inductive SubpageRef
  | tiny (tableIdx : Nat)
  | small (tableIdx : Nat)
  | page (chunk subpageIdx : Nat)
  deriving DecidableEq, Repr

/-- A subpage of a chunk, but for its links. Of a head nothing but its links is used. -/
structure PoolSubpage where
  chunk_ : Nat
  memoryMapIdx_ : Nat
  pageSize_ : Nat
  bitmap_ : Nat → BitVec 64
  bitmapLength_ : Nat
  doNotDestroy_ : Bool
  elemSize_ : Nat
  maxNumElems_ : Nat
  nextAvail_ : Int
  numAvail_ : Nat

/-- The data members of a `PoolChunkList`. -/
structure PoolChunkList where
  nextList_ : Option ListName
  prevList_ : Option ListName
  minUsage_ : Int
  maxUsage_ : Int
  maxCapacity_ : Int
  head_ : Option Nat
  deriving DecidableEq, Repr

/-- The arena, with the `PoolSubpage`s and the `PoolChunk`s there are. -/
structure PoolArena where
  maxOrder_ : Nat
  pageSize_ : Nat
  pageShifts_ : Nat
  chunkSize_ : Nat
  numSmallSubpagePools_ : Nat
  chunk : Nat → Option PoolChunk
  /-- The chunk that `new` makes next. -/
  nextChunk : Nat
  /-- The array `subpages` of each chunk. -/
  subpages : Nat → Nat → Option PoolSubpage
  prev_ : SubpageRef → Option SubpageRef
  next_ : SubpageRef → Option SubpageRef
  list : ListName → PoolChunkList

variable {σ α : Type}

/-- `BOOST_ASSERT`. -/
def assert (p : Prop) [Decidable p] : Method σ Unit := fun s => if p then .ok () s else .ub

theorem assert_ok {p : Prop} [Decidable p] (h : p) (s : σ) : assert p s = .ok () s := if_pos h

namespace PoolArena

/-- `numTinySubpagePools`: one for each multiple of 16 below 512. -/
def numTinySubpagePools : Nat := 32

/-- There is a subpage at the pointer. -/
def Alive (a : PoolArena) : SubpageRef → Prop
  | .tiny i => i < numTinySubpagePools
  | .small i => i < a.numSmallSubpagePools_
  | .page c i => a.subpages c i ≠ none

instance (a : PoolArena) (r : SubpageRef) : Decidable (a.Alive r) :=
  match r with
  | .tiny _ | .small _ => inferInstanceAs (Decidable (_ < _))
  | .page c i =>
    match h : a.subpages c i with
    | none => isFalse fun hc => hc h
    | some _ => isTrue fun hc => by cases h.symm.trans hc

/-- What `p` points to. -/
def deref (p : Option SubpageRef) : Method PoolArena SubpageRef := fun a =>
  match p with
  | some r => if a.Alive r then .ok r a else .ub
  | none => .ub

/-- `p->next_ = v`. -/
def setNext (p v : Option SubpageRef) : Method PoolArena Unit := do
  let r ← deref p
  .modify fun a => { a with next_ := Function.update a.next_ r v }

/-- `p->prev_ = v`. -/
def setPrev (p v : Option SubpageRef) : Method PoolArena Unit := do
  let r ← deref p
  .modify fun a => { a with prev_ := Function.update a.prev_ r v }

/-- `*subpages[subpageIdx]` of chunk `c`. -/
def subpageAt (c subpageIdx : Nat) : Method PoolArena PoolSubpage := fun a =>
  match a.subpages c subpageIdx with
  | some s => .ok s a
  | none => .ub

/-- A subpage of a chunk is replaced. -/
def setSubpage (a : PoolArena) (c subpageIdx : Nat) (s : PoolSubpage) : PoolArena :=
  { a with subpages := Function.update a.subpages c (Function.update (a.subpages c) subpageIdx (some s)) }

/-- A member function that uses no other object than its subpage. -/
def onSubpage (c subpageIdx : Nat) (m : Method PoolSubpage α) : Method PoolArena α := fun a =>
  match a.subpages c subpageIdx with
  | some s =>
    match m s with
    | .ok x s' => .ok x (a.setSubpage c subpageIdx s')
    | .throw e s' => .throw e (a.setSubpage c subpageIdx s')
    | .ub => .ub
    | .hang => .hang
  | none => .ub

/-- A chunk is used, which must be there. -/
def chunkAt (c : Nat) : Method PoolArena PoolChunk := fun a =>
  match a.chunk c with
  | some ch => .ok ch a
  | none => .ub

/-- A chunk is replaced. -/
def setChunk (a : PoolArena) (c : Nat) (ch : PoolChunk) : PoolArena :=
  { a with chunk := Function.update a.chunk c (some ch) }

/-- A member function that uses no other object than chunk `c`. -/
def onChunk (c : Nat) (m : Method PoolChunk α) : Method PoolArena α := fun a =>
  match a.chunk c with
  | some ch =>
    match m ch with
    | .ok x ch' => .ok x (a.setChunk c ch')
    | .throw e ch' => .throw e (a.setChunk c ch')
    | .ub => .ub
    | .hang => .hang
  | none => .ub

/-! ## Size classes -/

/-- `(normCapacity & 0xFFFFFE00) == 0`. -/
def isTiny (normCapacity : Int) : Prop := BitVec.ofInt 32 normCapacity &&& 0xFFFFFE00#32 = 0

instance (n : Int) : Decidable (isTiny n) := inferInstanceAs (Decidable (_ = _))

/-- `(normCapacity & ~(pageSize_ - 1)) == 0`. -/
def isTinyOrSmall (a : PoolArena) (normCapacity : Int) : Prop :=
  BitVec.ofInt 32 normCapacity &&& ~~~(BitVec.ofNat 32 a.pageSize_ - 1) = 0

instance (a : PoolArena) (n : Int) : Decidable (a.isTinyOrSmall n) := inferInstanceAs (Decidable (_ = _))

/-- `tinyIdx(normCapacity)`. -/
def tinyIdx (normCapacity : Int) : Nat := (normCapacity >>> (4 : Nat)).toNat

/-- `while (i != 0) { i >>= 1; tableIdx++; }`. An `int` that becomes `0` does so in fewer than 32 rounds. -/
def smallIdxLoop : Nat → Int → Nat → Option Nat
  | 0, _, _ => none
  | fuel + 1, i, tableIdx => if i ≠ 0 then smallIdxLoop fuel (i >>> (1 : Nat)) (tableIdx + 1) else some tableIdx

/-- `smallIdx(normCapacity)`, if its loop ends. -/
def smallIdx (normCapacity : Int) : Option Nat := smallIdxLoop 32 (normCapacity >>> (10 : Nat)) 0

/-- `table[tableIdx]`. -/
def tableAt (r : SubpageRef) : Method PoolArena SubpageRef := deref (some r)

/-- `findSubpagePoolHead(elemSize)`: the head of the ring of an element size. -/
def findSubpagePoolHead (elemSize : Int) : Method PoolArena SubpageRef :=
  if isTiny elemSize then tableAt (.tiny (elemSize >>> (4 : Nat)).toNat)
  else
    match smallIdxLoop 32 (elemSize >>> (10 : Nat)) 0 with
    | some tableIdx => tableAt (.small tableIdx)
    | none => fun _ => .hang

/-- `n |= n >> k`, of an `int`. -/
def orShift (n : BitVec 32) (k : Nat) : BitVec 32 := n ||| n.sshiftRight k

/-- `normalizeCapacity(reqCapacity)`: a power of two, or a multiple of 16 if it is tiny. -/
def normalizeCapacity (a : PoolArena) (reqCapacity : Int) : Int :=
  if reqCapacity ≥ a.chunkSize_ then reqCapacity
  else if ¬isTiny reqCapacity then
    let n := BitVec.ofInt 32 reqCapacity - 1
    let normalizedCapacity := (orShift (orShift (orShift (orShift (orShift n 1) 2) 4) 8) 16 + 1).toInt
    if normalizedCapacity < 0 then normalizedCapacity >>> (1 : Nat) else normalizedCapacity
  else
    let n := BitVec.ofInt 32 reqCapacity
    if n &&& 15 = 0 then reqCapacity else ((n &&& ~~~15) + 16).toInt

end PoolArena

/-! ## Subpages -/

namespace PoolSubpage

open PoolArena (deref setNext setPrev subpageAt onSubpage)

/-- `elementSize()`. -/
def elementSize (s : PoolSubpage) : Nat := s.elemSize_

/-- `new PoolSubpage(head, chunk, memoryMapIdx, …)`, before `init`. -/
def new (chunk memoryMapIdx pageSize : Nat) : PoolSubpage where
  chunk_ := chunk
  memoryMapIdx_ := memoryMapIdx
  pageSize_ := pageSize
  bitmap_ := fun _ => 0
  bitmapLength_ := 0
  doNotDestroy_ := true
  elemSize_ := 0
  maxNumElems_ := 0
  nextAvail_ := 0
  numAvail_ := 0

/-- `0x4000000000000000L | (long) bitmapIdx << 32 | memoryMapIdx_`. -/
def toHandle (s : PoolSubpage) (bitmapIdx : Nat) : Int :=
  (0x4000000000000000 ||| bitmapIdx <<< 32 ||| s.memoryMapIdx_ : Nat)

/-- `bitmap_[q]`, of `pageSize >> 10` words. -/
def long (q : Nat) : Method PoolSubpage (BitVec 64) := fun s =>
  if q < s.pageSize_ >>> 10 then .ok (s.bitmap_ q) s else .ub

/-- `removeFromPool()`: the subpage leaves its ring. -/
def removeFromPool (this : SubpageRef) : Method PoolArena Unit := do
  assert ((← .get (·.prev_ this)) ≠ none ∧ (← .get (·.next_ this)) ≠ none)
  setNext (← .get (·.prev_ this)) (← .get (·.next_ this))
  setPrev (← .get (·.next_ this)) (← .get (·.prev_ this))
  setNext this none
  setPrev this none

/-- `addToPool(head)`: it comes behind the head. -/
def addToPool (this head : SubpageRef) : Method PoolArena Unit := do
  assert ((← .get (·.prev_ this)) = none ∧ (← .get (·.next_ this)) = none)
  setPrev this head
  setNext this (← .get (·.next_ head))
  setPrev (← .get (·.next_ this)) this
  setNext (← .get (·.prev_ this)) this

/-- The loop of `findNextAvail0`. -/
def findNextAvail0Loop (maxNumElems baseVal : Nat) : Nat → Nat → BitVec 64 → Int
  | 0, _, _ => -1
  | n + 1, j, bits =>
    if bits &&& 1 = 0 then
      let val := baseVal ||| j
      if val < maxNumElems then val else -1
    else findNextAvail0Loop maxNumElems baseVal n (j + 1) (bits.sshiftRight 1)

/-- `findNextAvail0(i, bits)`: the first bit that is clear, below `maxNumElems_`. -/
def findNextAvail0 (s : PoolSubpage) (i : Nat) (bits : BitVec 64) : Int :=
  findNextAvail0Loop s.maxNumElems_ (i <<< 6) 64 0 bits

/-- `for (int i = 0; i < bitmapLength; i++)`, in `n` rounds from `i` on. -/
def findNextAvailLoop : Nat → Nat → Method PoolSubpage Int
  | 0, _ => pure (-1)
  | n + 1, i => do
    let bits ← long i
    if ~~~bits ≠ 0 then .get fun s => s.findNextAvail0 i bits else findNextAvailLoop n (i + 1)

/-- `findNextAvail()`: of the first word with a bit that is clear. -/
def findNextAvail : Method PoolSubpage Int := fun s => findNextAvailLoop s.bitmapLength_ 0 s

/-- `getNextAvail()`: the element that was freed last, or one that is found. -/
def getNextAvail : Method PoolSubpage Int := do
  let nextAvail ← .get (·.nextAvail_)
  if nextAvail ≥ 0 then do
    .modify fun s => { s with nextAvail_ := -1 }
    pure nextAvail
  else findNextAvail

/-- What `init(head, elemSize)` does before `addToPool(head)`. -/
def initElems (s : PoolSubpage) (elemSize : Nat) : PoolSubpage :=
  let s := { s with doNotDestroy_ := true, elemSize_ := elemSize }
  if elemSize ≠ 0 then
    let maxNumElems := s.pageSize_ / elemSize
    let bitmapLength := maxNumElems >>> 6 + if maxNumElems &&& 63 ≠ 0 then 1 else 0
    { s with
      maxNumElems_ := maxNumElems
      numAvail_ := maxNumElems
      nextAvail_ := 0
      bitmapLength_ := bitmapLength
      bitmap_ := fun i => if i < bitmapLength then 0 else s.bitmap_ i }
  else s

/-- `init(head, elemSize)`. -/
def init (c subpageIdx : Nat) (head : SubpageRef) (elemSize : Nat) : Method PoolArena Unit := do
  onSubpage c subpageIdx (.modify (·.initElems elemSize))
  addToPool (.page c subpageIdx) head

/-- What `allocate()` does to the subpage: the element it gives out. -/
def takeNext : Method PoolSubpage Nat := do
  let next ← getNextAvail
  -- an index below zero is outside `bitmap_`
  assert (0 ≤ next)
  let bitmapIdx := next.toNat
  let q := bitmapIdx >>> 6
  let r := bitmapIdx &&& 63
  let bits ← long q
  assert (bits.sshiftRight r &&& 1 = 0)
  .modify fun s => { s with
    bitmap_ := Function.update s.bitmap_ q (bits ||| 1#64 <<< r)
    numAvail_ := s.numAvail_ - 1 }
  pure bitmapIdx

/-- The handle of the element given out, or `-1`. -/
def allocate (c subpageIdx : Nat) : Method PoolArena Int := do
  let s ← subpageAt c subpageIdx
  if s.elemSize_ = 0 then pure (s.toHandle 0)
  else if s.numAvail_ = 0 ∨ ¬s.doNotDestroy_ then pure (-1)
  else do
    let bitmapIdx ← onSubpage c subpageIdx takeNext
    if (← subpageAt c subpageIdx).numAvail_ = 0 then removeFromPool (.page c subpageIdx)
    pure (s.toHandle bitmapIdx)

/-- What `free(head, bitmapIdx)` does to the subpage. -/
def giveBack (bitmapIdx : Nat) : Method PoolSubpage Unit := do
  let q := bitmapIdx >>> 6
  let r := bitmapIdx &&& 63
  let bits ← long q
  assert (bits.sshiftRight r &&& 1 ≠ 0)
  .modify fun s => { s with
    bitmap_ := Function.update s.bitmap_ q (bits ^^^ 1#64 <<< r)
    nextAvail_ := bitmapIdx
    numAvail_ := s.numAvail_ + 1 }

/-- `false` if the page is to be given back to the chunk. -/
def free (c subpageIdx : Nat) (head : SubpageRef) (bitmapIdx : Nat) : Method PoolArena Bool := do
  let s ← subpageAt c subpageIdx
  if s.elemSize_ = 0 then pure true
  else do
    onSubpage c subpageIdx (giveBack bitmapIdx)
    if s.numAvail_ = 0 then do
      addToPool (.page c subpageIdx) head
      pure true
    else if s.numAvail_ + 1 ≠ s.maxNumElems_ then pure true
    else if (← .get (·.prev_ (.page c subpageIdx))) = (← .get (·.next_ (.page c subpageIdx))) then pure true
    else do
      onSubpage c subpageIdx (.modify fun s => { s with doNotDestroy_ := false })
      removeFromPool (.page c subpageIdx)
      pure false

end PoolSubpage

end Nio.Pool
