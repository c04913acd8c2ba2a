import NioSocket.Pool.Chunk
import NioSocket.Lib.Trans

/-!
# The nodes of a chunk

What the tree functions do to a chunk whose `memoryMap` follows from the nodes that are
given out (`Tree`), and from it what holds after any sequence of `allocateNode` and
`free` (`Step`): the map is a function of these nodes alone, and `allocateNode` gives out
the first free node of the depth it is asked for.
-/

namespace Nio.Pool

open Buddy (Under Covered Free Blocks Kept KeptBut Seeks)

/-- The page size and the height of the tree, as `PooledCharBufAllocator` lets them be. -/
structure Layout where
  pageShifts : Nat
  maxOrder : Nat
  pageShifts_ge : 12 ≤ pageShifts
  maxOrder_le : maxOrder ≤ 14
  sum_le : pageShifts + maxOrder ≤ 30

namespace Layout

variable (l : Layout)

/-- `pageSize_` of the layout. -/
def pageSize : Nat := 2 ^ l.pageShifts

/-- `chunkSize_` of the layout. -/
def chunkSize : Nat := 2 ^ (l.pageShifts + l.maxOrder)

/-- `newChunk(pageSize_, maxOrder_, pageShifts_, chunkSize_)`. -/
def chunk : PoolChunk := .new l.chunkSize l.pageSize l.pageShifts l.maxOrder 0

end Layout

/-! ## What the allocator lets through -/

/-- `MAX_CHUNK_SIZE`. -/
def maxChunkSize : Nat := 2147483647 / 2

/-- `for (int i = maxOrder; i > 0; i--)`. -/
def chunkSizeLoop : Nat → Nat → Except String Nat
  | 0, chunkSize => .ok chunkSize
  | i + 1, chunkSize =>
    if chunkSize > maxChunkSize / 2 then .error "pageSize(%1%) << maxOrder(%2%) must not exceed %3%"
    else chunkSizeLoop i (chunkSize <<< 1)

/-- `validateAndCalculateChunkSize(pageSize, maxOrder)`. -/
def validateAndCalculateChunkSize (pageSize maxOrder : Nat) : Except String Nat :=
  if maxOrder > 14 then .error "maxOrder:%1% expected: 0-14" else chunkSizeLoop maxOrder pageSize

/-- `validateAndCalculatePageShifts(pageSize)`. -/
def validateAndCalculatePageShifts (pageSize : Nat) : Except String Nat :=
  if pageSize < 4096 then .error "pageSize:%1% (expected:%2%)"
  else if pageSize &&& (pageSize - 1) ≠ 0 then .error "pageSize:%1% (expected:power of 2)"
  else .ok (32 - 1 - numberOfLeadingZeros pageSize)

theorem chunkSizeLoop_eq {n k r : Nat} (h : chunkSizeLoop n (2 ^ k) = .ok r) (hk : k ≤ 30) :
    r = 2 ^ (k + n) ∧ k + n ≤ 30 := by
  induction n generalizing k with
  | zero => cases h; exact ⟨rfl, hk⟩
  | succ n ih =>
    rw [chunkSizeLoop] at h
    split at h
    · cases h
    · rename_i hle
      have hk : k < 30 := by
        refine (Nat.pow_lt_pow_iff_right (show 1 < 2 by decide)).mp ?_
        unfold maxChunkSize at hle
        omega
      rw [Nat.shiftLeft_eq, Nat.pow_one, ← Nat.pow_succ] at h
      obtain ⟨hr, hle⟩ := ih h hk
      exact ⟨by rw [hr]; congr 1; omega, by omega⟩

/-- What passes the checks is a layout. -/
theorem layout_of_validated {pageSize maxOrder chunkSize pageShifts : Nat} (hint : pageSize < 2 ^ 31)
    (hc : validateAndCalculateChunkSize pageSize maxOrder = .ok chunkSize)
    (hp : validateAndCalculatePageShifts pageSize = .ok pageShifts) :
    ∃ l : Layout, l.pageShifts = pageShifts ∧ l.maxOrder = maxOrder ∧ l.pageSize = pageSize ∧
      l.chunkSize = chunkSize := by
  unfold validateAndCalculatePageShifts at hp
  split at hp
  · cases hp
  split at hp
  · cases hp
  rename_i h4096 hpow
  obtain ⟨k, rfl⟩ := (Nat.and_sub_one_eq_zero_iff_isPowerOfTwo (show pageSize ≠ 0 by omega)).mp (not_not.mp hpow)
  have hk : k < 31 := (Nat.pow_lt_pow_iff_right (by decide)).mp hint
  have hk' : 12 ≤ k := (Nat.pow_le_pow_iff_right (show 1 < 2 by decide)).mp (by omega)
  rw [numberOfLeadingZeros_eq (Nat.two_pow_pos k).ne' (by omega), Nat.log2_two_pow] at hp
  cases hp
  unfold validateAndCalculateChunkSize at hc
  split at hc
  · cases hc
  obtain ⟨rfl, hsum⟩ := chunkSizeLoop_eq hc (by omega)
  refine ⟨⟨k, maxOrder, hk', by omega, hsum⟩, ?_, rfl, rfl, rfl⟩
  show k = 32 - 1 - (31 - k)
  omega

namespace PoolChunk

variable {l : Layout} {A : Finset Nat} {c c' : PoolChunk} {id d : Nat}

/-- The chunk with another map. -/
def withMap (c : PoolChunk) (m : Nat → Nat) : PoolChunk := { c with memoryMap := m }

/-- The chunk with another count of free bytes. -/
def withFreeBytes (c : PoolChunk) (n : Int) : PoolChunk := { c with freeBytes_ := n }

@[simp] theorem withMap_memoryMap (c : PoolChunk) (m : Nat → Nat) : (c.withMap m).memoryMap = m := rfl
@[simp] theorem withMap_freeBytes_ (c : PoolChunk) (m : Nat → Nat) : (c.withMap m).freeBytes_ = c.freeBytes_ := rfl
@[simp] theorem withMap_withMap (c : PoolChunk) (m m' : Nat → Nat) : (c.withMap m).withMap m' = c.withMap m' := rfl
@[simp] theorem withFreeBytes_memoryMap (c : PoolChunk) (n : Int) : (c.withFreeBytes n).memoryMap = c.memoryMap := rfl
@[simp] theorem withFreeBytes_freeBytes_ (c : PoolChunk) (n : Int) : (c.withFreeBytes n).freeBytes_ = n := rfl

/-! ## What the constructor sets, and nothing changes -/

/-- What of a chunk never changes, by its layout. -/
structure Shaped (l : Layout) (c : PoolChunk) : Prop where
  unpooled : c.unpooled = false
  chunkSize_ : c.chunkSize_ = l.chunkSize
  pageSize : c.pageSize = l.pageSize
  pageShifts : c.pageShifts = l.pageShifts
  maxOrder : c.maxOrder = l.maxOrder
  offset : c.offset = 0
  unusable : c.unusable = l.maxOrder + 1
  log2ChunkSize : c.log2ChunkSize = l.pageShifts + l.maxOrder
  maxSubpageAllocs : c.maxSubpageAllocs = 2 ^ l.maxOrder
  depthMap : ∀ id, 1 ≤ id → id < 2 ^ (l.maxOrder + 1) → c.depthMap id = Buddy.depth id

theorem fillLevel_eq (s : Nat × (Nat → Nat)) (d : Nat) : (fillLevel s d).1 = s.1 + 2 ^ d ∧
    ∀ x, (fillLevel s d).2 x = if s.1 ≤ x ∧ x < s.1 + 2 ^ d then d else s.2 x := by
  rw [fillLevel, Nat.one_shiftLeft]
  induction 2 ^ d with
  | zero => exact ⟨rfl, fun x => by simp [show ¬(s.1 ≤ x ∧ x < s.1) by omega]⟩
  | succ n ih =>
    rw [List.range_succ, List.foldl_append]
    obtain ⟨h1, h2⟩ := ih
    refine ⟨congrArg (· + 1) h1, fun x => ?_⟩
    rw [List.foldl_cons, List.foldl_nil]
    simp only [Function.update_apply, h1, h2]
    split_ifs <;> first | rfl | omega

/-- Each node of a new chunk keeps its depth. -/
theorem newMap_eq {N x : Nat} (h1 : 1 ≤ x) (hx : x < 2 ^ (N + 1)) : newMap N x = Buddy.depth x := by
  have key : ∀ k, ((List.range k).foldl fillLevel (1, fun _ => 0)).1 = 2 ^ k ∧
      ∀ x, 1 ≤ x → x < 2 ^ k → ((List.range k).foldl fillLevel (1, fun _ => 0)).2 x = Buddy.depth x := by
    intro k
    induction k with
    | zero => exact ⟨rfl, fun x h1 hx => by simp at hx; omega⟩
    | succ k ih =>
      rw [List.range_succ, List.foldl_append]
      obtain ⟨e1, e2⟩ := ih
      have h := fillLevel_eq ((List.range k).foldl fillLevel (1, fun _ => 0)) k
      rw [e1] at h
      refine ⟨by rw [List.foldl_cons, List.foldl_nil, h.1]; omega, fun x h1 hx => ?_⟩
      rw [List.foldl_cons, List.foldl_nil, h.2]
      split
      · rename_i hr
        exact ((Buddy.depth_eq_iff h1).mpr ⟨hr.1, hx⟩).symm
      · exact e2 x h1 (by omega)
  exact (key (N + 1)).2 x h1 hx

theorem chunk_shaped (l : Layout) : l.chunk.Shaped l where
  unpooled := rfl
  chunkSize_ := rfl
  pageSize := rfl
  pageShifts := rfl
  maxOrder := rfl
  offset := rfl
  unusable := rfl
  log2ChunkSize := by
    have hs := l.sum_le
    show log2 (2 ^ (l.pageShifts + l.maxOrder)) = _
    rw [log2_eq (Nat.two_pow_pos _).ne' (Nat.pow_lt_pow_right (by decide) (by omega)), Nat.log2_two_pow]
  maxSubpageAllocs := Nat.one_shiftLeft _
  depthMap _ h1 hx := newMap_eq h1 hx

namespace Shaped

variable (h : c.Shaped l)
include h

theorem hasNode : c.HasNode id ↔ 1 ≤ id ∧ id < 2 ^ (l.maxOrder + 1) := by
  rw [HasNode, h.maxSubpageAllocs, Nat.shiftLeft_eq, Nat.pow_one, Nat.pow_succ]

theorem withMap (m : Nat → Nat) : (c.withMap m).Shaped l := { h with }

theorem withFreeBytes (n : Int) : (c.withFreeBytes n).Shaped l := { h with }

theorem value (h1 : 1 ≤ id) (hx : id < 2 ^ (l.maxOrder + 1)) : value id c = .ok (c.memoryMap id) c :=
  if_pos (h.hasNode.mpr ⟨h1, hx⟩)

theorem setValue (h1 : 1 ≤ id) (hx : id < 2 ^ (l.maxOrder + 1)) (v : Nat) :
    setValue id v c = .ok () (c.withMap (Function.update c.memoryMap id v)) :=
  if_pos (h.hasNode.mpr ⟨h1, hx⟩)

theorem depth (h1 : 1 ≤ id) (hx : id < 2 ^ (l.maxOrder + 1)) : depth id c = .ok (Buddy.depth id) c :=
  (if_pos (h.hasNode.mpr ⟨h1, hx⟩)).trans (congrArg (Outcome.ok · c) (h.depthMap id h1 hx))

/-- A run is the chunk halved as often as its node is deep. -/
theorem runLength (h1 : 1 ≤ id) (hx : id < 2 ^ (l.maxOrder + 1)) :
    runLength id c = .ok (2 ^ (l.pageShifts + l.maxOrder - Buddy.depth id)) c := by
  have hd := (Buddy.depth_le_iff h1).mpr hx
  rw [PoolChunk.runLength, h.depth h1 hx, Outcome.bind_ok, h.log2ChunkSize, if_pos (by omega), Nat.one_shiftLeft]

/-- The runs of the nodes of one depth follow each other. -/
theorem runOffset (h1 : 1 ≤ id) (hx : id < 2 ^ (l.maxOrder + 1)) : runOffset id c =
    .ok ((id - 2 ^ Buddy.depth id) * 2 ^ (l.pageShifts + l.maxOrder - Buddy.depth id)) c := by
  have hshift : id ^^^ 2 ^ Buddy.depth id = id - 2 ^ Buddy.depth id := by
    obtain ⟨hlo, hhi⟩ := (Buddy.depth_eq_iff h1).mp rfl
    generalize Buddy.depth id = d at hlo hhi
    rw [Nat.pow_succ] at hhi
    have hpos := Nat.two_pow_pos d
    have e1 : (id ^^^ 2 ^ d) / 2 ^ d = 0 := by
      rw [Nat.xor_div_two_pow, Nat.div_self hpos, Nat.div_eq_of_lt_le (k := 1) (by omega) (by omega)]
      rfl
    have e2 : (id ^^^ 2 ^ d) % 2 ^ d = id - 2 ^ d := by
      rw [Nat.xor_mod_two_pow, Nat.mod_self, Nat.xor_zero, Nat.mod_eq_sub_mod hlo, Nat.mod_eq_of_lt (by omega)]
    rw [← Nat.div_add_mod (id ^^^ 2 ^ d) (2 ^ d), e1, e2]
    omega
  simp only [PoolChunk.runOffset, Method.bind_apply, h.depth h1 hx, h.runLength h1 hx, Outcome.bind_ok,
    Method.pure_apply, Nat.one_shiftLeft, hshift]

end Shaped

/-- `id & initial` clears the low `d` bits of `id`. -/
theorem andInitial_eq (hid : id < 2 ^ 32) (hd : d < 32) : andInitial id d = id / 2 ^ d * 2 ^ d := by
  have hp : 2 ^ d < 2 ^ 32 := Nat.pow_lt_pow_right (by decide) hd
  have hpos := Nat.two_pow_pos d
  have hneg : (-(BitVec.ofNat 32 (1 <<< d))).toNat = (2 ^ (32 - d) - 1) * 2 ^ d := by
    rw [BitVec.toNat_neg, BitVec.toNat_ofNat, Nat.one_shiftLeft, Nat.mod_eq_of_lt hp, Nat.mod_eq_of_lt (by omega),
      Nat.sub_mul, ← Nat.pow_add, Nat.sub_add_cancel (by omega), Nat.one_mul]
  rw [andInitial, BitVec.toNat_and, hneg, BitVec.toNat_ofNat, Nat.mod_eq_of_lt hid]
  refine Nat.eq_of_testBit_eq fun i => ?_
  rw [Nat.testBit_and, Nat.testBit_mul_two_pow, Nat.testBit_mul_two_pow, Nat.testBit_two_pow_sub_one,
    Nat.testBit_div_two_pow]
  by_cases hi : d ≤ i
  · rw [Nat.sub_add_cancel hi]
    by_cases h32 : i < 32
    · simp [hi, show i - d < 32 - d by omega]
    · have : id < 2 ^ i := Nat.lt_of_lt_of_le hid (Nat.pow_le_pow_right (by decide) (by omega))
      simp [Nat.testBit_lt_two_pow this]
  · simp [hi]

/-- The test of the search: a node above depth `d` has no bit there. -/
theorem andInitial_eq_zero (h1 : 1 ≤ id) (hid : id < 2 ^ 32) (hd : d < 32) :
    andInitial id d = 0 ↔ Buddy.depth id < d := by
  have hpos := Nat.two_pow_pos d
  have h := Buddy.depth_eq_iff h1 (N := Buddy.depth id)
  rw [andInitial_eq hid hd, Nat.mul_eq_zero, or_iff_left hpos.ne', Nat.div_eq_zero_iff_lt hpos, Buddy.depth,
    Nat.log2_lt (by omega)]

theorem andInitial_self (h1 : 1 ≤ id) (hid : id < 2 ^ 32) : andInitial id (Buddy.depth id) = 1 <<< Buddy.depth id := by
  have hd : Buddy.depth id < 32 := (Nat.log2_lt (by omega)).mpr hid
  obtain ⟨hlo, hhi⟩ := (Buddy.depth_eq_iff h1).mp rfl
  rw [Nat.pow_succ] at hhi
  rw [andInitial_eq hid hd, Nat.div_eq_of_lt_le (k := 1) (by omega) (by omega), Nat.one_mul, Nat.one_shiftLeft]

/-! ## The map and what is given out -/

/-- The chunk keeps of each node what the nodes of `A` leave of it. -/
structure Tree (l : Layout) (A : Finset Nat) (c : PoolChunk) : Prop extends c.Shaped l where
  kept : Kept l.maxOrder A c.memoryMap
  blocks : Blocks l.maxOrder A

theorem chunk_tree (l : Layout) : l.chunk.Tree l ∅ where
  toShaped := chunk_shaped l
  kept := Buddy.kept_empty fun _ h1 hx => newMap_eq h1 hx
  blocks := .empty _

/-- The walk of `updateParentsAlloc`: a node that keeps more than its depth makes its parent do so. -/
theorem Shaped.updateParentsAlloc (h : c.Shaped l) {fuel : Nat} (hf : Buddy.depth id < fuel) (h1 : 1 ≤ id)
    (hx : id < 2 ^ (l.maxOrder + 1)) (hk : KeptBut id l.maxOrder A c.memoryMap) (hc : ¬Covered A (id / 2) ∨ id = 1)
    (hne : c.memoryMap id ≠ Buddy.depth id) :
    ∃ m, updateParentsAlloc fuel id c = .ok () (c.withMap m) ∧ Kept l.maxOrder A m := by
  induction fuel generalizing id c with
  | zero => exact absurd hf (Nat.not_lt_zero _)
  | succ fuel ih =>
    rw [PoolChunk.updateParentsAlloc]
    split
    case isFalse hid =>
      obtain rfl : id = 1 := by omega
      exact ⟨c.memoryMap, rfl, hk.kept⟩
    case isTrue hid =>
      have hc := hc.resolve_right (by omega)
      have hd := Buddy.depth_half id
      have hd1 : 1 ≤ Buddy.depth id := (Nat.le_log2 (by omega)).mpr (by omega)
      obtain ⟨hs1, hsx⟩ := Buddy.sibling_bounds hid hx
      have hs := Buddy.half_sibling id
      have hds : Buddy.depth (id ^^^ 1) = Buddy.depth id := by
        have := Buddy.depth_half (id ^^^ 1)
        have : 1 ≤ Buddy.depth (id ^^^ 1) := (Nat.le_log2 (by omega)).mpr (by omega)
        rw [hs] at *
        omega
      have hle := hk.depth_le h1 hx fun h => h.2 rfl
      have hle' := hk.depth_le hs1 hsx (Buddy.sibling_not_above hid)
      have hp : id / 2 < 2 ^ (l.maxOrder + 1) := by omega
      -- the minimum is the rule, as `id` keeps more than its depth
      have hv : (if c.memoryMap id < c.memoryMap (id ^^^ 1) then c.memoryMap id else c.memoryMap (id ^^^ 1)) =
          Buddy.join (Buddy.depth (id / 2)) (c.memoryMap (2 * (id / 2))) (c.memoryMap (2 * (id / 2) + 1)) := by
        have e : Buddy.join (Buddy.depth (id / 2)) (c.memoryMap id) (c.memoryMap (id ^^^ 1)) =
            min (c.memoryMap id) (c.memoryMap (id ^^^ 1)) := if_neg (by omega)
        rw [← Buddy.join_sibling h1, e]
        split <;> omega
      have hvne : (if c.memoryMap id < c.memoryMap (id ^^^ 1) then c.memoryMap id else c.memoryMap (id ^^^ 1)) ≠
          Buddy.depth (id / 2) := by
        split <;> omega
      simp only [Method.bind_apply, h.value h1 hx, h.value hs1 hsx, Outcome.bind_ok, Nat.shiftRight_one,
        h.setValue (show 1 ≤ id / 2 by omega) hp]
      generalize (if c.memoryMap id < c.memoryMap (id ^^^ 1) then c.memoryMap id else c.memoryMap (id ^^^ 1)) = v
        at hv hvne
      obtain ⟨m, e, hm⟩ := ih (h.withMap (Function.update c.memoryMap (id / 2) v))
        (by omega) (by omega) hp (hk.half hid hx hc hv) (.inl (Buddy.not_covered_half hc))
        (by rwa [withMap_memoryMap, Function.update_self])
      exact ⟨m, e, hm⟩

/-- The walk of `updateParentsFree` follows the rule. -/
theorem Shaped.updateParentsFreeLoop (h : c.Shaped l) {fuel : Nat} (hf : Buddy.depth id < fuel) (h1 : 1 ≤ id)
    (hx : id < 2 ^ (l.maxOrder + 1)) (hk : KeptBut id l.maxOrder A c.memoryMap) (hc : ¬Covered A (id / 2) ∨ id = 1) :
    ∃ m, updateParentsFreeLoop fuel id (Buddy.depth id + 1) c = .ok () (c.withMap m) ∧
      Kept l.maxOrder A m := by
  induction fuel generalizing id c with
  | zero => exact absurd hf (Nat.not_lt_zero _)
  | succ fuel ih =>
    rw [PoolChunk.updateParentsFreeLoop]
    split
    case isFalse hid =>
      obtain rfl : id = 1 := by omega
      exact ⟨c.memoryMap, rfl, hk.kept⟩
    case isTrue hid =>
      have hc := hc.resolve_right (by omega)
      have hd := Buddy.depth_half id
      have hd1 : 1 ≤ Buddy.depth id := (Nat.le_log2 (by omega)).mpr (by omega)
      obtain ⟨hs1, hsx⟩ := Buddy.sibling_bounds hid hx
      have hp : id / 2 < 2 ^ (l.maxOrder + 1) := by omega
      have hv := Buddy.join_sibling (m := c.memoryMap) (d := Buddy.depth (id / 2)) h1
      have hlog : Buddy.depth (id / 2) + 1 = Buddy.depth id := by omega
      have hval : (if c.memoryMap id = Buddy.depth id ∧ c.memoryMap (id ^^^ 1) = Buddy.depth id then Buddy.depth id - 1
          else if c.memoryMap id < c.memoryMap (id ^^^ 1) then c.memoryMap id else c.memoryMap (id ^^^ 1)) =
          Buddy.join (Buddy.depth (id / 2)) (c.memoryMap id) (c.memoryMap (id ^^^ 1)) := by
        rw [Buddy.join, hlog]
        split
        · omega
        · split <;> omega
      simp only [Method.bind_apply, h.value h1 hx, h.value hs1 hsx, Outcome.bind_ok, Nat.shiftRight_one,
        Nat.add_sub_cancel, hval, h.setValue (show 1 ≤ id / 2 by omega) hp]
      generalize Buddy.join (Buddy.depth (id / 2)) (c.memoryMap id) (c.memoryMap (id ^^^ 1)) = v at hv
      obtain ⟨m, e, hm⟩ := ih (h.withMap (Function.update c.memoryMap (id / 2) v))
        (by omega) (by omega) hp (hk.half hid hx hc hv) (.inl (Buddy.not_covered_half hc))
      rw [hlog] at e
      exact ⟨m, e, hm⟩

/-- The search ends at the first free node of depth `d`. -/
theorem Tree.descend (h : c.Tree l A) (hd : d ≤ l.maxOrder) {fuel : Nat} (hf : d < fuel + Buddy.depth id)
    (s : Seeks l.maxOrder A c.memoryMap d id) :
    ∃ i, descend d fuel id (c.memoryMap id) c = .ok i c ∧ Seeks l.maxOrder A c.memoryMap d i ∧ Buddy.depth i = d := by
  have ho := l.maxOrder_le
  induction fuel generalizing id with
  | zero =>
    have := s.depth_le
    omega
  | succ fuel ih =>
    have hx := s.lt hd
    have h32 : id < 2 ^ 32 := Nat.lt_of_lt_of_le hx (Nat.pow_le_pow_right (by decide) (by omega))
    have hle := (h.kept.bounds h.blocks s.pos hx).1
    have hzero := andInitial_eq_zero s.pos h32 (show d < 32 by omega)
    rw [PoolChunk.descend]
    split
    case isFalse hn =>
      rw [hzero] at hn
      have := s.depth_le
      exact ⟨id, rfl, s, by omega⟩
    case isTrue hc =>
      rw [hzero] at hc
      have hi : Buddy.depth id < d := by omega
      have hpos := s.pos
      have hdl := Buddy.depth_two_mul hpos
      have hdr := Buddy.depth_two_mul_add_one hpos
      have hxl : 2 * id < 2 ^ (l.maxOrder + 1) := (Buddy.depth_le_iff (by omega)).mp (by omega)
      have hxr : 2 * id + 1 < 2 ^ (l.maxOrder + 1) := (Buddy.depth_le_iff (by omega)).mp (by omega)
      have e : id <<< 1 = 2 * id := by rw [Nat.shiftLeft_eq]; omega
      have e' : (2 * id) ^^^ 1 = 2 * id + 1 := Nat.xor_one_of_even (even_two_mul id)
      simp only [Method.bind_apply, e, e', h.value (show 1 ≤ 2 * id by omega) hxl, Outcome.bind_ok, Method.ite_apply,
        h.value (show 1 ≤ 2 * id + 1 by omega) hxr]
      split
      · exact ih (by omega) (s.right h.kept h.blocks hd hi ‹_›)
      · exact ih (by omega) (s.left h.kept h.blocks hd hi (by omega))

/-- `id` is the first of the nodes at depth `d` that are free. -/
structure First (A : Finset Nat) (d id : Nat) : Prop where
  pos : 1 ≤ id
  depth : Buddy.depth id = d
  free : Free A id
  le : ∀ y, 1 ≤ y → Buddy.depth y = d → Free A y → id ≤ y

theorem First.lt (h : First A d id) (hd : d ≤ l.maxOrder) : id < 2 ^ (l.maxOrder + 1) :=
  (Buddy.depth_le_iff h.pos).mp (h.depth.trans_le hd)

/-- `allocateNode` gives out the first free node, or there is none. -/
theorem Tree.allocateNode (h : c.Tree l A) (hd : d ≤ l.maxOrder) :
    (allocateNode d c = .ok (-1) c ∧ ∀ y, 1 ≤ y → Buddy.depth y = d → ¬Free A y) ∨
      ∃ id m, First A d id ∧ allocateNode d c = .ok id (c.withMap m) ∧ (c.withMap m).Tree l (insert id A) := by
  have ho := l.maxOrder_le
  have hroot := h.value (Nat.le_refl 1) (Nat.one_lt_two_pow (by omega))
  have hiff := h.kept.le_iff h.blocks hd (Nat.le_refl 1) (Nat.zero_le d) (.inr rfl)
  simp only [PoolChunk.allocateNode, Method.bind_apply, hroot, Outcome.bind_ok, Method.ite_apply]
  split
  case isTrue hv =>
    refine .inl ⟨rfl, fun y hp hy hf => ?_⟩
    have := hiff.mpr ⟨y, .root hp, hy, hf⟩
    omega
  case isFalse hv =>
    right
    obtain ⟨id, hdesc, s, hid⟩ := h.descend hd (show d < 32 + Buddy.depth 1 by omega) (Seeks.root h.kept h.blocks hd (by omega))
    obtain ⟨hm, hf, hfirst⟩ := s.found h.kept h.blocks hd hid
    have hx := s.lt hd
    have h32 : id < 2 ^ 32 := Nat.lt_of_lt_of_le hx (Nat.pow_le_pow_right (by decide) (by omega))
    have hand : andInitial id d = 1 <<< d := hid ▸ andInitial_self s.pos h32
    have hnot : ¬(c.memoryMap id ≠ d ∨ andInitial id d ≠ 1 <<< d) := by
      rw [hm, hand]
      simp
    have hb := h.blocks.insert s.pos hx hf
    have hnc : ¬Covered (insert id A) (id / 2) ∨ id = 1 := by
      by_cases h1 : id = 1
      · exact .inr h1
      · refine .inl fun hc => ?_
        rcases Buddy.covered_insert.mp hc with hu | hc
        · have := hu.le
          have := s.pos
          omega
        · exact Buddy.not_covered_half hf.not_covered hc
    have hne : Function.update c.memoryMap id (l.maxOrder + 1) id ≠ Buddy.depth id := by
      rw [Function.update_self]
      omega
    obtain ⟨m, e, hk⟩ := Shaped.updateParentsAlloc (h.withMap (Function.update c.memoryMap id (l.maxOrder + 1)))
      (show Buddy.depth id < 32 by omega) s.pos hx (h.kept.insert h.blocks hf) hnc hne
    refine ⟨id, m, ⟨s.pos, hid, hf, fun y hp hy hfy => hfirst y hp hfy hy⟩, ?_, ⟨h.withMap m, hk, hb⟩⟩
    rw [hdesc, Outcome.bind_ok, Method.bind_apply, h.value s.pos hx, Outcome.bind_ok, if_neg hnot]
    simp only [Method.bind_apply, Method.get_apply, Outcome.bind_ok, h.unusable, h.setValue s.pos hx, e,
      Method.pure_apply, withMap_withMap]

/-- `freeNode` takes back a node that was given out. -/
theorem Tree.freeNode (h : c.Tree l A) (hid : id ∈ A) :
    ∃ m, freeNode id c = .ok () ((c.withFreeBytes
        (c.freeBytes_ + (2 ^ (l.pageShifts + l.maxOrder - Buddy.depth id) : Nat))).withMap m) ∧
      (c.withMap m).Tree l (A.erase id) := by
  have h1 := h.blocks.pos id hid
  have hx := h.blocks.lt id hid
  have ho := l.maxOrder_le
  have hd := (Buddy.depth_le_iff h1).mpr hx
  have hb := h.blocks.erase id
  have hnc : ¬Covered (A.erase id) (id / 2) ∨ id = 1 := by
    by_cases e : id = 1
    · exact .inr e
    · refine .inl fun hc => ?_
      obtain ⟨⟨a, ha, hu⟩, -⟩ := (Buddy.covered_erase h.blocks hid).mp hc
      obtain rfl := h.blocks.apart a ha id hid (hu.trans (.half id))
      have := hu.le
      omega
  have hs := h.withFreeBytes (c.freeBytes_ + (2 ^ (l.pageShifts + l.maxOrder - Buddy.depth id) : Nat))
  have hs' := hs.withMap (Function.update c.memoryMap id (Buddy.depth id))
  obtain ⟨m, e, hk⟩ := hs'.updateParentsFreeLoop (show Buddy.depth id < 32 by omega) h1 hx
    (h.kept.erase h.blocks hid) hnc
  refine ⟨m, ?_, ⟨h.withMap m, hk, hb⟩⟩
  rw [PoolChunk.freeNode, Method.bind_apply, h.runLength h1 hx, Outcome.bind_ok, Method.bind_apply,
    Method.modify_apply, Outcome.bind_ok]
  show ((PoolChunk.depth id >>= fun d => _) (c.withFreeBytes _)) = _
  simp only [Method.bind_apply, hs.depth h1 hx, Outcome.bind_ok, hs.setValue h1 hx, updateParentsFree,
    withFreeBytes_memoryMap, hs'.depth h1 hx, e, withMap_withMap]

/-- `allocateRun` for a size that is a power of two. -/
theorem Tree.allocateRun (h : c.Tree l A) {k : Nat} (hk : l.pageShifts ≤ k) (hk' : k ≤ l.pageShifts + l.maxOrder) :
    (allocateRun (2 ^ k) c = .ok (-1) c ∧ ∀ y, 1 ≤ y → Buddy.depth y = l.pageShifts + l.maxOrder - k → ¬Free A y) ∨
      ∃ id m, First A (l.pageShifts + l.maxOrder - k) id ∧
        allocateRun (2 ^ k) c = .ok id ((c.withMap m).withFreeBytes (c.freeBytes_ - (2 ^ k : Nat))) ∧
        (c.withMap m).Tree l (insert id A) := by
  have hs := l.sum_le
  have hlog : log2 (2 ^ k) = k := by
    rw [log2_eq (Nat.two_pow_pos _).ne' (Nat.pow_lt_pow_right (by decide) (by omega)), Nat.log2_two_pow]
  have hd : (c.maxOrder : Int) - (log2 (2 ^ k) - c.pageShifts) = (l.pageShifts + l.maxOrder - k : Nat) := by
    rw [hlog, h.maxOrder, h.pageShifts]
    omega
  rw [PoolChunk.allocateRun, hd, if_neg (by omega), Int.toNat_natCast]
  rcases h.allocateNode (d := l.pageShifts + l.maxOrder - k) (by omega) with ⟨e, hn⟩ | ⟨id, m, hf, e, ht⟩
  · exact .inl ⟨by rw [e]; rfl, hn⟩
  · refine .inr ⟨id, m, hf, ?_, ht⟩
    rw [e, Outcome.bind_ok, if_neg (by omega), Int.toNat_natCast, ht.runLength hf.pos (hf.lt (by omega)), hf.depth,
      Outcome.bind_ok, show l.pageShifts + l.maxOrder - (l.pageShifts + l.maxOrder - k) = k by omega]
    rfl

end PoolChunk

/-! ## Any sequence of operations -/

/-- A call on a chunk that is about whole nodes. -/
inductive NodeEvent
  | allocateNode (d : Nat)
  | free (memoryMapIdx : Nat)
  deriving DecidableEq, Repr

/-- A chunk, and the nodes it has given out and not taken back. -/
structure Nodes where
  chunk : PoolChunk
  allocated : Finset Nat

namespace Nodes

/-- A chunk of which nothing is given out. -/
def init (l : Layout) : Nodes := ⟨l.chunk, ∅⟩

/-- Nodes are given out at any depth there is, and freed while they are given out. -/
inductive Step (s : Nodes) : NodeEvent → Nodes → Prop
  | full {d : Nat} {c' : PoolChunk} : d ≤ s.chunk.maxOrder → s.chunk.allocateNode d = .ok (-1) c' →
      Step s (.allocateNode d) ⟨c', s.allocated⟩
  | given {d id : Nat} {c' : PoolChunk} : d ≤ s.chunk.maxOrder → s.chunk.allocateNode d = .ok id c' →
      Step s (.allocateNode d) ⟨c', insert id s.allocated⟩
  | free {id : Nat} {c' : PoolChunk} : id ∈ s.allocated → s.chunk.freeNode id = .ok () c' →
      Step s (.free id) ⟨c', s.allocated.erase id⟩

variable {l : Layout} {s s' : Nodes} {e : NodeEvent} {es es' : List NodeEvent}

/-- The step, computed. -/
def next (s : Nodes) : NodeEvent → Option Nodes
  | .allocateNode d =>
    if d ≤ s.chunk.maxOrder then
      match s.chunk.allocateNode d with
      | .ok (Int.ofNat id) c' => some ⟨c', insert id s.allocated⟩
      | .ok (Int.negSucc 0) c' => some ⟨c', s.allocated⟩
      | _ => none
    else none
  | .free id =>
    if id ∈ s.allocated then
      match s.chunk.freeNode id with
      | .ok () c' => some ⟨c', s.allocated.erase id⟩
      | _ => none
    else none

theorem Step.of_next (h : s.next e = some s') : Step s e s' := by
  unfold next at h
  split at h
  · split at h
    · split at h
      · cases h; exact .given ‹_› ‹_›
      · cases h; exact .full ‹_› ‹_›
      · cases h
    · cases h
  · split at h
    · split at h
      · cases h; exact .free ‹_› ‹_›
      · cases h
    · cases h

theorem exists_run {P : Nodes → Prop} [DecidablePred P] (es : List NodeEvent)
    (h : ((es.foldlM next s).any fun s => P s) = true) : ∃ s', Run Step s es s' ∧ P s' :=
  Run.exists_of_next (fun _ _ _ => .of_next) es h

/-- Each operation keeps the map a function of what is given out. -/
theorem Step.tree (h : s.chunk.Tree l s.allocated) (st : Step s e s') : s'.chunk.Tree l s'.allocated := by
  cases st with
  | @full d c' hd he =>
    rcases h.allocateNode (hd.trans_eq h.maxOrder) with ⟨e, -⟩ | ⟨id, m, -, e, -⟩
    · cases e.symm.trans he
      exact h
    · simp only [e, Outcome.ok.injEq] at he
      omega
  | @given d id c' hd he =>
    rcases h.allocateNode (hd.trans_eq h.maxOrder) with ⟨e, -⟩ | ⟨i, m, -, e, ht⟩
    · simp only [e, Outcome.ok.injEq] at he
      omega
    · simp only [e, Outcome.ok.injEq] at he
      obtain ⟨hid, rfl⟩ := he
      obtain rfl := Int.ofNat_inj.mp hid
      exact ht
  | @free id c' hid he =>
    obtain ⟨m, e, ht⟩ := h.freeNode hid
    cases e.symm.trans he
    exact ⟨(ht.withFreeBytes _), ht.kept, ht.blocks⟩

theorem run_tree (h : Run Step (init l) es s) : s.chunk.Tree l s.allocated :=
  h.inv (P := fun s => s.chunk.Tree l s.allocated) (PoolChunk.chunk_tree l) fun _ _ _ => Step.tree

/-- The map is a function of the nodes that are given out: two sequences of operations that
leave the same nodes given out leave the same map, and the map of a new chunk comes back when
all are free. -/
theorem memoryMap_eq_value (h : Run Step (init l) es s) :
    (∀ id, 1 ≤ id → id < 2 ^ (l.maxOrder + 1) →
      s.chunk.memoryMap id = Buddy.value l.maxOrder s.allocated id) ∧
    (∀ es' s', Run Step (init l) es' s' → s'.allocated = s.allocated →
      ∀ id, 1 ≤ id → id < 2 ^ (l.maxOrder + 1) → s'.chunk.memoryMap id = s.chunk.memoryMap id) ∧
    (s.allocated = ∅ →
      ∀ id, 1 ≤ id → id < 2 ^ (l.maxOrder + 1) → s.chunk.memoryMap id = l.chunk.memoryMap id) := by
  have value : ∀ {es s}, Run Step (init l) es s → ∀ id, 1 ≤ id → id < 2 ^ (l.maxOrder + 1) →
      s.chunk.memoryMap id = Buddy.value l.maxOrder s.allocated id := fun h id h1 hx =>
    (run_tree h).kept.eq_value (run_tree h).blocks h1 hx
  refine ⟨value h, fun es' s' h' hA id h1 hx => ?_, fun hA id h1 hx => ?_⟩
  · rw [value h id h1 hx, value h' id h1 hx, hA]
  · rw [value h id h1 hx, hA]
    exact (value .nil id h1 hx).symm

/-- Both halves of a chunk of two pages are given out, and the first is free again. -/
theorem memoryMap_eq_value_two_pages : ∃ s, s.allocated = {3} ∧ s.chunk.memoryMap 1 = Buddy.value 1 {3} 1 ∧
    Run Step (init ⟨12, 1, by decide, by decide, by decide⟩)
      [.allocateNode 1, .allocateNode 1, .allocateNode 0, .free 2] s := by
  obtain ⟨s, hr, hA⟩ := exists_run (s := init ⟨12, 1, by decide, by decide, by decide⟩)
    (P := fun s => s.allocated = {3}) [.allocateNode 1, .allocateNode 1, .allocateNode 0, .free 2] (by decide +kernel)
  exact ⟨s, hA, hA ▸ (memoryMap_eq_value hr).1 1 (by decide) (by decide), hr⟩

/-- What `allocateNode` and `allocateRun` do in any state of the tree: they return, give out the
first free node of their depth if there is one, and change nothing if there is none. A run has
exactly the bytes that were asked for, and the free bytes are fewer by these. -/
theorem allocateNode_first (h : Run Step (init l) es s) :
    (∀ d ≤ l.maxOrder, ∃ r c', s.chunk.allocateNode d = .ok r c' ∧
      (r = -1 ↔ ¬∃ y, 1 ≤ y ∧ Buddy.depth y = d ∧ Free s.allocated y) ∧ (r = -1 → c' = s.chunk) ∧
      (r ≠ -1 → ∃ (id : Nat) (o : Nat), r = id ∧ 1 ≤ id ∧ Buddy.depth id = d ∧ Free s.allocated id ∧
        PoolChunk.runOffset id c' = .ok o c' ∧
        (∀ y, 1 ≤ y → Buddy.depth y = d → Free s.allocated y →
          ∃ o', PoolChunk.runOffset y c' = .ok o' c' ∧ o ≤ o') ∧
        ∀ x, 1 ≤ x → x < 2 ^ (l.maxOrder + 1) →
          c'.memoryMap x = Buddy.value l.maxOrder (insert id s.allocated) x)) ∧
    (∀ k, l.pageSize ≤ 2 ^ k → 2 ^ k ≤ l.chunkSize → ∃ d r c', l.pageShifts + l.maxOrder = k + d ∧
      s.chunk.allocateRun (2 ^ k) = .ok r c' ∧
      (r = -1 ↔ ¬∃ y, 1 ≤ y ∧ Buddy.depth y = d ∧ Free s.allocated y) ∧ (r = -1 → c' = s.chunk) ∧
      (r ≠ -1 → ∃ id : Nat, r = id ∧ PoolChunk.First s.allocated d id ∧
        PoolChunk.runLength id c' = .ok (2 ^ k) c' ∧ c'.freeBytes_ = s.chunk.freeBytes_ - 2 ^ k ∧
        ∀ x, 1 ≤ x → x < 2 ^ (l.maxOrder + 1) →
          c'.memoryMap x = Buddy.value l.maxOrder (insert id s.allocated) x)) := by
  have ht := run_tree h
  refine ⟨fun d hd => ?_, fun k hk hk' => ?_⟩
  · rcases ht.allocateNode hd with ⟨e, hn⟩ | ⟨id, m, hf, e, ht'⟩
    · refine ⟨-1, s.chunk, e, ⟨fun _ ⟨y, hp, hy, hf⟩ => hn y hp hy hf, fun _ => rfl⟩, fun _ => rfl, fun h => absurd rfl h⟩
    · have hne : (id : Int) ≠ -1 := by omega
      refine ⟨id, _, e, ⟨fun h => absurd h hne, fun hn => absurd ⟨id, hf.pos, hf.depth, hf.free⟩ hn⟩,
        fun h => absurd h hne, fun _ => ⟨id, _, rfl, hf.pos, hf.depth, hf.free, ht'.runOffset hf.pos (hf.lt hd), ?_,
          fun x h1 hx => ht'.kept.eq_value ht'.blocks h1 hx⟩⟩
      intro y hp hy hfy
      refine ⟨_, ht'.runOffset hp ((Buddy.depth_le_iff hp).mp (by omega)), ?_⟩
      rw [hy, hf.depth]
      exact Nat.mul_le_mul_right _ (Nat.sub_le_sub_right (hf.le y hp hy hfy) _)
  · have hk := (Nat.pow_le_pow_iff_right (by decide)).mp hk
    have hk' := (Nat.pow_le_pow_iff_right (by decide)).mp hk'
    refine ⟨l.pageShifts + l.maxOrder - k, ?_⟩
    rcases ht.allocateRun hk hk' with ⟨e, hn⟩ | ⟨id, m, hf, e, ht'⟩
    · exact ⟨-1, s.chunk, by omega, e, ⟨fun _ ⟨y, hp, hy, hf⟩ => hn y hp hy hf, fun _ => rfl⟩, fun _ => rfl,
        fun h => absurd rfl h⟩
    · have hne : (id : Int) ≠ -1 := by omega
      refine ⟨id, _, by omega, e, ⟨fun h => absurd h hne, fun hn => absurd ⟨id, hf.pos, hf.depth, hf.free⟩ hn⟩,
        fun h => absurd h hne, fun _ => ⟨id, rfl, hf, ?_, ?_, fun x h1 hx => ht'.kept.eq_value ht'.blocks h1 hx⟩⟩
      · rw [(ht'.withFreeBytes _).runLength hf.pos (hf.lt (by omega)), hf.depth]
        congr 2
        omega
      · show s.chunk.freeBytes_ - ((2 ^ k : Nat) : Int) = _
        rw [Int.natCast_pow]
        rfl

/-- With the second half given out, the first page is the first that is free: a run of a page is
that page, and has the page's bytes. A run of both pages there is not. -/
theorem allocateNode_first_two_pages : ∃ s r c', Run Step (init ⟨12, 1, by decide, by decide, by decide⟩)
      [.allocateNode 1, .allocateNode 1, .free 2] s ∧ s.allocated = {3} ∧ s.chunk.allocateNode 1 = .ok r c' ∧
    (r = -1 ↔ ¬∃ y, 1 ≤ y ∧ Buddy.depth y = 1 ∧ Free {3} y) ∧
    (∃ c'', s.chunk.allocateRun 4096 = .ok 2 c'' ∧ PoolChunk.runLength 2 c'' = .ok 4096 c'' ∧
      c''.freeBytes_ = s.chunk.freeBytes_ - 4096) ∧
    ∃ c'', s.chunk.allocateRun 8192 = .ok (-1) c'' ∧ c'' = s.chunk := by
  obtain ⟨s, hr, hA⟩ := exists_run (s := init ⟨12, 1, by decide, by decide, by decide⟩)
    (P := fun s => s.allocated = {3}) [.allocateNode 1, .allocateNode 1, .free 2] (by decide +kernel)
  have hf2 : Free {3} 2 := fun a ha => by
    obtain rfl := Finset.mem_singleton.mp ha
    exact ⟨fun hu => absurd hu.le (by decide), fun hu => absurd (hu.eq_of_depth (by decide) (by decide)) (by decide)⟩
  obtain ⟨hnode, hrun⟩ := allocateNode_first hr
  obtain ⟨r, c', e, hn, -⟩ := hnode 1 (by decide)
  obtain ⟨d, r₁, c₁, hd, e₁, hn₁, -, h₁⟩ := hrun 12 (by decide) (by decide)
  obtain ⟨d', r₂, c₂, hd', e₂, hn₂, h₂, -⟩ := hrun 13 (by decide) (by decide)
  rw [hA] at hn hn₁ hn₂ h₁
  obtain rfl : d = 1 := Nat.add_left_cancel hd.symm
  obtain rfl : d' = 0 := Nat.add_left_cancel hd'.symm
  have hr₂ : r₂ = -1 := hn₂.mpr fun ⟨y, h1, hy, hf⟩ => by
    obtain rfl : y = 1 := by
      have := (Buddy.depth_eq_iff h1).mp hy
      omega
    exact (hf 3 (Finset.mem_singleton_self 3)).2 (.root (by decide))
  obtain ⟨id, rfl, hfirst, hlen, hfree, -⟩ := h₁ fun hm => hn₁.mp hm ⟨2, by decide, by decide, hf2⟩
  obtain rfl : id = 2 := by
    have := (Buddy.depth_eq_iff hfirst.pos).mp hfirst.depth
    have := hfirst.le 2 (by decide) (by decide) hf2
    omega
  subst hr₂
  exact ⟨s, r, c', hr, hA, e, hn, ⟨c₁, e₁, hlen, hfree⟩, c₂, e₂, h₂ rfl⟩

end Nodes

end Nio.Pool
