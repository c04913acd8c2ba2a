import NioSocket.Lib.Buddy
import NioSocket.Lib.Mem
import NioSocket.Lib.Triple

/-!
# The tree of a chunk

`PoolChunk`: its fields, its constructors, and the functions that work on its
`memoryMap` alone. Sizes, node ids and depths are the nonnegative `int`s of the
source; `freeBytes_`, from which the source subtracts, is an `Int`. An access
outside an array has no meaning, and neither has what follows a failed
`BOOST_ASSERT`.
-/

namespace Nio.Pool

/-- The `PoolChunkList` objects of an arena. -/
inductive ListName
  | qInit | q000 | q025 | q050 | q075 | q100
  deriving DecidableEq, Repr

/-- The data members of a `PoolChunk`. -/
structure PoolChunk where
  unpooled : Bool
  memory : Mem
  chunkSize_ : Nat
  pageSize : Nat
  pageShifts : Nat
  maxOrder : Nat
  offset : Nat
  unusable : Nat
  freeBytes_ : Int
  memoryMap : Nat → Nat
  depthMap : Nat → Nat
  log2ChunkSize : Nat
  maxSubpageAllocs : Nat
  parent : Option ListName
  prev : Option Nat
  next : Option Nat

/-! ## Logarithms -/

/-- One step of `numberOfLeadingZeros`: `if (i >> (32 - k) == 0) { n += k; i <<= k; }`. -/
def nlzStep (k : Nat) : Nat × Nat → Nat × Nat
  | (n, i) => if i >>> (32 - k) = 0 then (n + k, (i <<< k) % 2 ^ 32) else (n, i)

/-- `CommUtil::numberOfLeadingZeros(i)`. -/
def numberOfLeadingZeros (i : Nat) : Nat :=
  if i = 0 then 32
  else
    let (n, i) := nlzStep 2 (nlzStep 4 (nlzStep 8 (nlzStep 16 (1, i))))
    n - i >>> 31

/-- `log2(val)`. -/
def log2 (val : Nat) : Nat := 31 - numberOfLeadingZeros val

theorem log2_mul_two_pow {x : Nat} (h : x ≠ 0) (k : Nat) : (x * 2 ^ k).log2 = x.log2 + k := by
  induction k with
  | zero => simp
  | succ k ih =>
    rw [Nat.pow_succ', Nat.mul_left_comm, Nat.log2_two_mul (Nat.mul_ne_zero h (Nat.two_pow_pos k).ne'), ih]
    rfl

/-- After the steps down to width `k`, the top `k` bits of the word are not all zero. -/
structure Shifted (i k : Nat) (s : Nat × Nat) : Prop where
  lt : s.2 < 2 ^ 32
  ge : 2 ^ (32 - k) ≤ s.2
  sum : s.1 + i.log2 = s.2.log2 + 1

theorem Shifted.step {i k : Nat} {s : Nat × Nat} (h : Shifted i (k + k) s) (hk : k ≤ 16) :
    Shifted i k (nlzStep k s) := by
  obtain ⟨hlt, hge, hsum⟩ := h
  have hpos := Nat.two_pow_pos (32 - (k + k))
  unfold nlzStep
  simp only [Nat.shiftRight_eq_div_pow, Nat.shiftLeft_eq]
  split
  · rename_i h0
    have hsmall : s.2 < 2 ^ (32 - k) := (Nat.div_eq_zero_iff_lt (Nat.two_pow_pos _)).mp h0
    have hmul : s.2 * 2 ^ k < 2 ^ 32 := by
      rw [show 32 = (32 - k) + k by omega, Nat.pow_add]
      exact Nat.mul_lt_mul_of_pos_right hsmall (Nat.two_pow_pos k)
    refine ⟨Nat.mod_lt _ (Nat.two_pow_pos _), ?_, ?_⟩
    · rw [Nat.mod_eq_of_lt hmul, show 32 - k = 32 - (k + k) + k by omega, Nat.pow_add]
      exact Nat.mul_le_mul_right _ hge
    · rw [Nat.mod_eq_of_lt hmul, log2_mul_two_pow (by omega)]
      simp only
      omega
  · rename_i h0
    refine ⟨hlt, ?_, hsum⟩
    by_contra hc
    exact h0 ((Nat.div_eq_zero_iff_lt (Nat.two_pow_pos _)).mpr (by omega))

/-- The zeros before the leading bit. -/
theorem numberOfLeadingZeros_eq {i : Nat} (h0 : i ≠ 0) (hi : i < 2 ^ 32) :
    numberOfLeadingZeros i = 31 - i.log2 := by
  have h32 : Shifted i 32 (1, i) := ⟨hi, by simp only; omega, by simp only; omega⟩
  have h := (((h32.step (k := 16) (by decide)).step (k := 8) (by decide)).step (k := 4) (by decide)).step
    (k := 2) (by decide)
  rw [numberOfLeadingZeros, if_neg h0]
  generalize nlzStep 2 (nlzStep 4 (nlzStep 8 (nlzStep 16 (1, i)))) = s at h
  obtain ⟨n, x⟩ := s
  obtain ⟨hlt, hge, hsum⟩ := h
  simp only [Nat.shiftRight_eq_div_pow] at hlt hge hsum ⊢
  have hle := (Nat.le_log2 (k := 31) (show x ≠ 0 by omega))
  have hlo := (Nat.le_log2 (show x ≠ 0 by omega)).mpr hge
  have hhi := (Nat.log2_lt (show x ≠ 0 by omega)).mpr hlt
  omega

theorem log2_eq {i : Nat} (h0 : i ≠ 0) (hi : i < 2 ^ 32) : log2 i = i.log2 := by
  have := (Nat.log2_lt h0).mpr hi
  rw [log2, numberOfLeadingZeros_eq h0 hi]
  omega

namespace PoolChunk

/-! ## Constructors -/

/-- One level of the loop that fills the maps: `2 ^ d` entries `d`, from the index on. -/
def fillLevel (s : Nat × (Nat → Nat)) (d : Nat) : Nat × (Nat → Nat) :=
  (List.range (1 <<< d)).foldl (fun s _ => (s.1 + 1, Function.update s.2 s.1 d)) s

/-- The maps of a new chunk. -/
def newMap (maxOrder : Nat) : Nat → Nat := ((List.range (maxOrder + 1)).foldl fillLevel (1, fun _ => 0)).2

/-- `PoolChunk(arena, chunkSize, pageSize, pageShifts, maxOrder, offset)`. -/
def new (chunkSize pageSize pageShifts maxOrder offset : Nat) : PoolChunk where
  unpooled := false
  memory := fun _ => 0
  chunkSize_ := chunkSize
  pageSize := pageSize
  pageShifts := pageShifts
  maxOrder := maxOrder
  offset := offset
  unusable := maxOrder + 1
  freeBytes_ := chunkSize
  memoryMap := newMap maxOrder
  depthMap := newMap maxOrder
  log2ChunkSize := log2 chunkSize
  maxSubpageAllocs := 1 <<< maxOrder
  parent := none
  prev := none
  next := none

/-- The chunk of a huge buffer. -/
def newUnpooled (size offset : Nat) : PoolChunk where
  unpooled := true
  memory := fun _ => 0
  chunkSize_ := size
  pageSize := 0
  pageShifts := 0
  maxOrder := 0
  offset := offset
  unusable := 1
  freeBytes_ := 0
  memoryMap := fun _ => 0
  depthMap := fun _ => 0
  log2ChunkSize := log2 size
  maxSubpageAllocs := 0
  parent := none
  prev := none
  next := none

/-! ## The maps -/

/-- The maps have entries for the nodes, `1` to `2 * maxSubpageAllocs - 1`. -/
def HasNode (c : PoolChunk) (id : Nat) : Prop := 1 ≤ id ∧ id < c.maxSubpageAllocs <<< 1

instance (c : PoolChunk) (id : Nat) : Decidable (c.HasNode id) := inferInstanceAs (Decidable (_ ∧ _))

/-- `value(id)`. -/
def value (id : Nat) : Method PoolChunk Nat := fun c =>
  if c.HasNode id then .ok (c.memoryMap id) c else .ub

/-- `setValue(id, val)`. -/
def setValue (id val : Nat) : Method PoolChunk Unit := fun c =>
  if c.HasNode id then .ok () { c with memoryMap := Function.update c.memoryMap id val } else .ub

/-- `depth(id)`. -/
def depth (id : Nat) : Method PoolChunk Nat := fun c =>
  if c.HasNode id then .ok (c.depthMap id) c else .ub

/-- `1 << log2ChunkSize - depth(id)`; a shift by a negative number has no meaning. -/
def runLength (id : Nat) : Method PoolChunk Nat := fun c =>
  (depth id c).bind fun d c => if d ≤ c.log2ChunkSize then .ok (1 <<< (c.log2ChunkSize - d)) c else .ub

/-- `runOffset(id)`: where the run of a node begins. -/
def runOffset (id : Nat) : Method PoolChunk Nat := do
  let shift := id ^^^ 1 <<< (← depth id)
  pure (shift * (← runLength id))

/-- The share of the chunk that is given out, in percent. -/
def usage (c : PoolChunk) : Int :=
  if c.freeBytes_ = 0 then 100
  else
    let freePercentage := (c.freeBytes_ * 100).tdiv c.chunkSize_
    if freePercentage = 0 then 99 else 100 - freePercentage

/-! ## Nodes -/

/-- `updateParentsAlloc(id)`, in `fuel` rounds. -/
def updateParentsAlloc : Nat → Nat → Method PoolChunk Unit
  | 0, _ => fun _ => .hang
  | fuel + 1, id =>
    if id > 1 then do
      let parentId := id >>> 1
      let val1 ← value id
      let val2 ← value (id ^^^ 1)
      setValue parentId (if val1 < val2 then val1 else val2)
      updateParentsAlloc fuel parentId
    else pure ()

/-- The loop of `updateParentsFree`, in `fuel` rounds. -/
def updateParentsFreeLoop : Nat → Nat → Nat → Method PoolChunk Unit
  | 0, _, _ => fun _ => .hang
  | fuel + 1, id, logChild =>
    if id > 1 then do
      let parentId := id >>> 1
      let val1 ← value id
      let val2 ← value (id ^^^ 1)
      let logChild := logChild - 1
      setValue parentId (if val1 = logChild ∧ val2 = logChild then logChild - 1
        else if val1 < val2 then val1 else val2)
      updateParentsFreeLoop fuel parentId logChild
    else pure ()

/-- `updateParentsFree(id)`. -/
def updateParentsFree (id : Nat) : Method PoolChunk Unit := do
  updateParentsFreeLoop 32 id ((← depth id) + 1)

/-- `id & initial`, where `initial` is the `int` `-(1 << d)`. -/
def andInitial (id d : Nat) : Nat := (BitVec.ofNat 32 id &&& -(BitVec.ofNat 32 (1 <<< d))).toNat

/-- `while (val < d || (id & initial) == 0)`, in `fuel` rounds. -/
def descend (d : Nat) : Nat → Nat → Nat → Method PoolChunk Nat
  | 0, _, _ => fun _ => .hang
  | fuel + 1, id, val =>
    if val < d ∨ andInitial id d = 0 then do
      let id := id <<< 1
      let val ← value id
      if val > d then do
        let id := id ^^^ 1
        let val ← value id
        descend d fuel id val
      else descend d fuel id val
    else pure id

/-- The id of the node given out, or `-1`. -/
def allocateNode (d : Nat) : Method PoolChunk Int := do
  let val ← value 1
  if val > d then pure (-1)
  else do
    let id ← descend d 32 1 val
    let val ← value id
    if val ≠ d ∨ andInitial id d ≠ 1 <<< d then .throw "val = %d, id & initial = %d, d = %d"
    else do
      setValue id (← Method.get PoolChunk.unusable)
      updateParentsAlloc 32 id
      pure id

/-- `allocateRun(normCapacity)`: a node at the depth of that size, or `-1`. -/
def allocateRun (normCapacity : Nat) : Method PoolChunk Int := fun c =>
  let d : Int := c.maxOrder - (log2 normCapacity - c.pageShifts)
  if d < 0 then .ub
  else
    (allocateNode d.toNat c).bind fun id =>
      if id < 0 then pure id
      else fun c => (runLength id.toNat c).bind fun n c =>
        .ok id { c with freeBytes_ := c.freeBytes_ - n }

/-- The end of `free(handle)`: the node is free again. -/
def freeNode (memoryMapIdx : Nat) : Method PoolChunk Unit := do
  let n ← runLength memoryMapIdx
  .modify fun c => { c with freeBytes_ := c.freeBytes_ + n }
  setValue memoryMapIdx (← depth memoryMapIdx)
  updateParentsFree memoryMapIdx

end PoolChunk

end Nio.Pool
