import NioSocket.Pool.Subpage

/-!
# Chunks, chunk lists and the arena

The member functions of `PoolChunk` that use the subpages, those of
`PoolChunkList`, and `PoolArena`. Where the source sets the fields of a buffer
(`PooledCharBuf::init0`), a function here returns what it sets: the region the
buffer gets, if it gets one. The arena's lock is recursive and its cache is compiled
out, so neither is here.
-/

namespace Nio.Pool

variable {α : Type}

/-- The part of a chunk that a buffer has, as `init0` sets it. -/
structure Region where
  chunk_ : Nat
  handle_ : Int
  offset_ : Nat
  length_ : Int
  maxLength_ : Nat
  deriving DecidableEq, Repr

/-- `PooledCharBuf::init0(chunk, handle, offset, length, maxLength)`, what it stores. -/
def Region.init0 (chunk : Nat) (handle : Int) (offset : Nat) (length : Int) (maxLength : Nat) :
    Method PoolArena Region := do
  assert (handle ≥ 0)
  pure ⟨chunk, handle, offset, length, maxLength⟩

namespace PoolChunk

open PoolArena (chunkAt onChunk subpageAt findSubpagePoolHead)

/-- `(int) handle`. -/
def memoryMapIdx (handle : Int) : Int := i32 handle

/-- `(int) (handle >> 32)`. -/
def bitmapIdx (handle : Int) : Int := i32 (handle >>> (32 : Nat))

/-- `bitmapIdx & 0x3FFFFFFF`. -/
def elemIdx (bitmapIdx : Int) : Nat := (BitVec.ofInt 32 bitmapIdx &&& 0x3FFFFFFF#32).toNat

/-- `subpageIdx(memoryMapIdx)`: a leaf by its place among the leaves. -/
def subpageIdx (ch : PoolChunk) (memoryMapIdx : Nat) : Nat := memoryMapIdx ^^^ ch.maxSubpageAllocs

/-- `initBufWithSubpage(buf, handle, bitmapIdx, reqCapacity)`. -/
def initBufWithSubpage (c : Nat) (handle reqCapacity : Int) : Method PoolArena Region := do
  let bitmapIdx := bitmapIdx handle
  assert (bitmapIdx ≠ 0)
  let memoryMapIdx := (memoryMapIdx handle).toNat
  let ch ← chunkAt c
  let subpage ← subpageAt c (ch.subpageIdx memoryMapIdx)
  assert (subpage.doNotDestroy_ = true)
  assert (reqCapacity ≤ subpage.elementSize)
  let runOffset ← onChunk c (runOffset memoryMapIdx)
  Region.init0 c handle (runOffset + elemIdx bitmapIdx * subpage.elementSize + ch.offset) reqCapacity
    subpage.elementSize

/-- `initBuf(buf, handle, reqCapacity)`: of a run or of an element. -/
def initBuf (c : Nat) (handle reqCapacity : Int) : Method PoolArena Region := do
  if bitmapIdx handle = 0 then do
    let memoryMapIdx := (memoryMapIdx handle).toNat
    let val ← onChunk c (value memoryMapIdx)
    let ch ← chunkAt c
    assert (val = ch.unusable)
    let runOffset ← onChunk c (runOffset memoryMapIdx)
    let runLength ← onChunk c (runLength memoryMapIdx)
    Region.init0 c handle (runOffset + ch.offset) reqCapacity runLength
  else initBufWithSubpage c handle reqCapacity

/-- The subpage of a page that was just given out, made or used again. -/
def initSubpage (c id : Nat) (head : SubpageRef) (normCapacity : Nat) : Method PoolArena Nat := fun a =>
  (chunkAt c a).bind fun ch => do
    let subpageIdx := ch.subpageIdx id
    assert (subpageIdx < ch.maxSubpageAllocs)
    if a.subpages c subpageIdx = none then
      .modify fun a => a.setSubpage c subpageIdx (.new c id ch.pageSize)
    PoolSubpage.init c subpageIdx head normCapacity
    pure subpageIdx

/-- `allocateSubpage(normCapacity)`: a page is cut into elements, and the first is taken. -/
def allocateSubpage (c : Nat) (normCapacity : Int) : Method PoolArena Int := do
  let head ← findSubpagePoolHead normCapacity
  let ch ← chunkAt c
  let id ← onChunk c (allocateNode ch.maxOrder)
  if id < 0 then pure id
  else do
    onChunk c (.modify fun ch => { ch with freeBytes_ := ch.freeBytes_ - ch.pageSize })
    let subpageIdx ← initSubpage c id.toNat head normCapacity.toNat
    PoolSubpage.allocate c subpageIdx

/-- `PoolChunk::allocate(buf, reqCapacity, normCapacity)`, or `none` where there is no room. -/
def allocate (c : Nat) (reqCapacity normCapacity : Int) : Method PoolArena (Option Region) := do
  let ch ← chunkAt c
  let handle ← if normCapacity ≥ ch.pageSize then onChunk c (allocateRun normCapacity.toNat)
    else allocateSubpage c normCapacity
  if handle < 0 then pure none
  else do pure (some (← initBuf c handle reqCapacity))

/-- `PoolChunk::free(handle)`. -/
def free (c : Nat) (handle : Int) : Method PoolArena Unit := do
  let memoryMapIdx := (memoryMapIdx handle).toNat
  let bitmapIdx := bitmapIdx handle
  if bitmapIdx ≠ 0 then do
    let ch ← chunkAt c
    let subpage ← subpageAt c (ch.subpageIdx memoryMapIdx)
    assert (subpage.doNotDestroy_ = true)
    let head ← findSubpagePoolHead subpage.elementSize
    if ← PoolSubpage.free c (ch.subpageIdx memoryMapIdx) head (elemIdx bitmapIdx) then pure ()
    else onChunk c (freeNode memoryMapIdx)
  else onChunk c (freeNode memoryMapIdx)

end PoolChunk

/-! ## Chunk lists -/

namespace PoolChunkList

open PoolArena (chunkAt)

/-- An assignment to fields of `*p`. -/
def setFields (p : Option Nat) (f : PoolChunk → PoolChunk) : Method PoolArena Unit := fun a =>
  match p with
  | some c =>
    match a.chunk c with
    | some ch => .ok () (a.setChunk c (f ch))
    | none => .ub
  | none => .ub

/-- `head_ = head`, of a list. -/
def setHead (l : ListName) (head : Option Nat) : Method PoolArena Unit :=
  .modify fun a => { a with list := Function.update a.list l { a.list l with head_ := head } }

/-- `PoolChunkList::remove(cur)`: the chunk is unlinked. -/
def remove (l : ListName) (cur : Nat) : Method PoolArena Unit := do
  let ch ← chunkAt cur
  if some cur = (← .get (·.list l)).head_ then do
    setHead l ch.next
    if ch.next ≠ none then setFields ch.next fun c => { c with prev := none }
  else do
    setFields ch.prev fun c => { c with next := ch.next }
    if ch.next ≠ none then setFields ch.next fun c => { c with prev := ch.prev }

/-- `PoolChunkList::add0(chunk)`: the chunk is linked in front. -/
def add0 (l : ListName) (chunk : Nat) : Method PoolArena Unit := do
  setFields chunk fun c => { c with parent := some l }
  match (← .get (·.list l)).head_ with
  | none => do
    setHead l (some chunk)
    setFields chunk fun c => { c with prev := none, next := none }
  | some head => do
    setFields chunk fun c => { c with prev := none, next := some head }
    setFields head fun c => { c with prev := some chunk }
    setHead l (some chunk)

/-- `add(chunk)`, which goes on to the next list at most as often as there are lists. -/
def add : Nat → Option ListName → Nat → Method PoolArena Unit
  | 0, _, _ => fun _ => .hang
  | _ + 1, none, _ => fun _ => .ub
  | fuel + 1, some l, chunk => do
    let this ← .get fun a : PoolArena => a.list l
    let ch ← chunkAt chunk
    if ch.usage ≥ this.maxUsage_ then add fuel this.nextList_ chunk else add0 l chunk

/-- `move0(chunk)`, given the `move` of the list before. -/
def move0 (move : ListName → Nat → Method PoolArena Bool) (l : ListName) (chunk : Nat) :
    Method PoolArena Bool := do
  match (← .get (·.list l)).prevList_ with
  | none => do
    assert ((← chunkAt chunk).usage = 0)
    pure false
  | some prevList => move prevList chunk

/-- `move(chunk)`, in at most `fuel` lists. -/
def move : Nat → ListName → Nat → Method PoolArena Bool
  | 0, _, _ => fun _ => .hang
  | fuel + 1, l, chunk => do
    let this ← .get fun a : PoolArena => a.list l
    let ch ← chunkAt chunk
    assert (ch.usage < this.maxUsage_)
    if ch.usage < this.minUsage_ then move0 (move fuel) l chunk
    else do
      add0 l chunk
      pure true

/-- How many lists there are. -/
def numLists : Nat := 6

/-- `for (PoolChunk* cur = head_; cur; cur = cur->next)`, from `cur` on. -/
def allocateLoop (l : ListName) (reqCapacity normCapacity : Int) : Nat → Option Nat →
    Method PoolArena (Option Region)
  | 0, _ => fun _ => .hang
  | _ + 1, none => pure none
  | fuel + 1, some cur => do
    match ← PoolChunk.allocate cur reqCapacity normCapacity with
    | some region => do
      let this ← .get fun a : PoolArena => a.list l
      if (← chunkAt cur).usage ≥ this.maxUsage_ then do
        remove l cur
        add numLists this.nextList_ cur
      pure (some region)
    | none => do allocateLoop l reqCapacity normCapacity fuel (← chunkAt cur).next

/-- A list has at most as many members as chunks were ever made. -/
def allocate (l : ListName) (reqCapacity normCapacity : Int) : Method PoolArena (Option Region) := fun a =>
  if normCapacity > (a.list l).maxCapacity_ then .ok none a
  else allocateLoop l reqCapacity normCapacity (a.nextChunk + 1) (a.list l).head_ a

/-- `false` if the chunk is to be destroyed. -/
def free (l : ListName) (chunk : Nat) (handle : Int) : Method PoolArena Bool := do
  PoolChunk.free chunk handle
  if (← chunkAt chunk).usage < (← .get (·.list l)).minUsage_ then do
    remove l chunk
    move0 (move numLists) l chunk
  else pure true

/-- `calculateMaxCapacity(minUsage, chunkSize)`. -/
def calculateMaxCapacity (minUsage : Int) (chunkSize : Nat) : Int :=
  let minUsage := max 1 minUsage
  if minUsage = 100 then 0 else (chunkSize * (100 - minUsage)).tdiv 100

/-- `PoolChunkList(nextList, minUsage, maxUsage, chunkSize)`, with the list before it. -/
def new (nextList prevList : Option ListName) (minUsage maxUsage : Int) (chunkSize : Nat) : PoolChunkList where
  nextList_ := nextList
  prevList_ := prevList
  minUsage_ := minUsage
  maxUsage_ := maxUsage
  maxCapacity_ := calculateMaxCapacity minUsage chunkSize
  head_ := none

end PoolChunkList

/-! ## The arena -/

/-- `INT_MIN`. -/
abbrev intMin : Int := -2147483648

namespace PoolArena

/-- The lists as the constructor of the arena links them: `q000` has none before it, and `qInit` has itself. -/
def newList (chunkSize : Nat) : ListName → PoolChunkList
  | .q100 => .new none (some .q075) 100 intMax chunkSize
  | .q075 => .new (some .q100) (some .q050) 75 100 chunkSize
  | .q050 => .new (some .q075) (some .q025) 50 100 chunkSize
  | .q025 => .new (some .q050) (some .q000) 25 75 chunkSize
  | .q000 => .new (some .q025) none 1 50 chunkSize
  | .qInit => .new (some .q000) (some .qInit) intMin 25 chunkSize

/-- The links of the heads when all rings are empty. -/
def newLinks (numSmallSubpagePools : Nat) : SubpageRef → Option SubpageRef
  | .tiny i => if i < numTinySubpagePools then some (.tiny i) else none
  | .small i => if i < numSmallSubpagePools then some (.small i) else none
  | .page _ _ => none

/-- `PoolArena(pageSize, maxOrder, pageShifts, chunkSize)`. -/
def new (pageSize maxOrder pageShifts chunkSize : Nat) : PoolArena where
  maxOrder_ := maxOrder
  pageSize_ := pageSize
  pageShifts_ := pageShifts
  chunkSize_ := chunkSize
  numSmallSubpagePools_ := pageShifts - 9
  chunk := fun _ => none
  nextChunk := 0
  subpages := fun _ _ => none
  prev_ := newLinks (pageShifts - 9)
  next_ := newLinks (pageShifts - 9)
  list := newList chunkSize

/-- `new PoolChunk(…)`. -/
def newChunk (ch : PoolChunk) : Method PoolArena Nat := fun a =>
  .ok a.nextChunk { a.setChunk a.nextChunk ch with nextChunk := a.nextChunk + 1 }

/-- `delete chunk`, and with it its subpages. -/
def destroyChunk (c : Nat) : Method PoolArena Unit := .modify fun a =>
  { a with chunk := Function.update a.chunk c none, subpages := Function.update a.subpages c fun _ => none }

/-- `allocateHuge(buf, reqCapacity)`: a chunk of its own. -/
def allocateHuge (reqCapacity : Int) : Method PoolArena Region := do
  let chunk ← newChunk (.newUnpooled reqCapacity.toNat 0)
  let ch ← chunkAt chunk
  Region.init0 chunk 0 ch.offset reqCapacity reqCapacity.toNat

/-- The lists in the order they are asked for a region. -/
def allocateFrom (reqCapacity normCapacity : Int) : List ListName → Method PoolArena (Option Region)
  | [] => pure none
  | l :: ls => do
    match ← PoolChunkList.allocate l reqCapacity normCapacity with
    | some region => pure (some region)
    | none => allocateFrom reqCapacity normCapacity ls

/-- `allocateNormal(buf, reqCapacity, normCapacity)`: of a list that has room, or of a new chunk. -/
def allocateNormal (reqCapacity normCapacity : Int) : Method PoolArena Region := do
  match ← allocateFrom reqCapacity normCapacity [.q050, .q025, .q000, .qInit, .q075] with
  | some region => pure region
  | none => do
    let this ← .get fun a : PoolArena => a
    let c ← newChunk (.new this.chunkSize_ this.pageSize_ this.pageShifts_ this.maxOrder_ 0)
    match ← PoolChunk.allocate c reqCapacity normCapacity with
    | some region => do
      PoolChunkList.add PoolChunkList.numLists (some .qInit) c
      pure region
    -- `BOOST_ASSERT(success)`
    | none => fun _ => .ub

/-- The head that `allocate` takes from a table. -/
def poolHead (normCapacity : Int) : Method PoolArena SubpageRef :=
  if isTiny normCapacity then tableAt (.tiny (tinyIdx normCapacity))
  else
    match smallIdx normCapacity with
    | some tableIdx => tableAt (.small tableIdx)
    | none => fun _ => .hang

/-- `allocate(buf, reqCapacity)`: the region of the buffer. -/
def allocate (reqCapacity : Int) : Method PoolArena Region := fun a =>
  let normCapacity := a.normalizeCapacity reqCapacity
  if a.isTinyOrSmall normCapacity then
    (poolHead normCapacity a).bind fun head a =>
      match a.next_ head with
      | some s =>
        if s ≠ head then
          match s with
          | .page c subpageIdx =>
            (do
              let subpage ← subpageAt c subpageIdx
              assert (subpage.doNotDestroy_ = true ∧ subpage.elementSize = normCapacity)
              let handle ← PoolSubpage.allocate c subpageIdx
              assert (handle ≥ 0)
              PoolChunk.initBufWithSubpage subpage.chunk_ handle reqCapacity) a
          -- a head is linked to no other head
          | _ => .ub
        else allocateNormal reqCapacity normCapacity a
      | none => .ub
  else if normCapacity ≤ a.chunkSize_ then allocateNormal reqCapacity normCapacity a
  else allocateHuge reqCapacity a

/-- `freeChunk(chunk, handle)`: a chunk that leaves its lists is destroyed. -/
def freeChunk (chunk : Nat) (handle : Int) : Method PoolArena Unit := do
  match (← chunkAt chunk).parent with
  | some parent =>
    if ← PoolChunkList.free parent chunk handle then pure () else destroyChunk chunk
  | none => fun _ => .ub

/-- `free(chunk, handle, normCapacity)`. -/
def free (chunk : Nat) (handle : Int) : Method PoolArena Unit := do
  if (← chunkAt chunk).unpooled then destroyChunk chunk else freeChunk chunk handle

end PoolArena

end Nio.Pool
