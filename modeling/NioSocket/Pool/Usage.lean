import NioSocket.Pool.Nodes
import Mathlib.Algebra.BigOperators.Ring.Finset

/-!
# The bytes of a chunk

What a node stands for (`runLen`, `runOff`): runs of nodes that are given out do not
overlap, and `freeBytes_` is what they leave of the chunk (`Counted`). So `usage` is a
percentage, and it is `0` only of a chunk of which nothing is given out.
-/

namespace Nio.Pool

open Buddy (Under Blocks Free)

namespace Layout

variable (l : Layout) {id id' : Nat}

/-- The bytes of a node. -/
def runLen (id : Nat) : Nat := 2 ^ (l.pageShifts + l.maxOrder - Buddy.depth id)

/-- Where they start in the chunk. -/
def runOff (id : Nat) : Nat := (id - 2 ^ Buddy.depth id) * l.runLen id

variable {l}

theorem runLen_pos (id : Nat) : 0 < l.runLen id := Nat.two_pow_pos _

theorem runLen_eq (hd : Buddy.depth id ≤ l.maxOrder) :
    l.runLen id = 2 ^ (l.maxOrder - Buddy.depth id) * l.pageSize := by
  rw [runLen, pageSize, ← Nat.pow_add]
  congr 1
  omega

/-- In pages, a run is its leaves. -/
theorem runOff_eq (h : 1 ≤ id) (hd : Buddy.depth id ≤ l.maxOrder) :
    l.runOff id + l.chunkSize = Buddy.lo l.maxOrder id * l.pageSize ∧
      l.runOff id + l.runLen id + l.chunkSize = Buddy.hi l.maxOrder id * l.pageSize := by
  obtain ⟨hlo, -⟩ := (Buddy.depth_eq_iff h).mp rfl
  have hc : l.chunkSize = 2 ^ Buddy.depth id * l.runLen id := by
    rw [chunkSize, runLen, ← Nat.pow_add]
    congr 1
    omega
  have e : l.runOff id + l.chunkSize = Buddy.lo l.maxOrder id * l.pageSize := by
    rw [runOff, hc, ← Nat.add_mul, Nat.sub_add_cancel hlo, runLen_eq hd, Buddy.lo, Nat.mul_assoc]
  refine ⟨e, ?_⟩
  rw [Buddy.hi_eq, Nat.add_mul, ← e, ← runLen_eq hd]
  omega

/-- The run of a node lies in the chunk. -/
theorem runOff_add_le (h : 1 ≤ id) (hx : id < 2 ^ (l.maxOrder + 1)) : l.runOff id + l.runLen id ≤ l.chunkSize := by
  have hd := (Buddy.depth_le_iff h).mpr hx
  obtain ⟨-, e⟩ := runOff_eq h hd
  obtain ⟨-, h2⟩ := Buddy.two_pow_le_lo h hd
  have hc : 2 ^ (l.maxOrder + 1) * l.pageSize = l.chunkSize + l.chunkSize := by
    rw [chunkSize, pageSize, ← Nat.pow_add, show l.maxOrder + 1 + l.pageShifts = l.pageShifts + l.maxOrder + 1 by omega,
      Nat.pow_succ]
    omega
  have := Nat.mul_le_mul_right l.pageSize h2
  omega

/-- Runs of nodes that do not lie under each other are apart. -/
theorem runOff_apart (h : 1 ≤ id) (h' : 1 ≤ id') (hx : id < 2 ^ (l.maxOrder + 1)) (hx' : id' < 2 ^ (l.maxOrder + 1))
    (hu : ¬Under id id') (hu' : ¬Under id' id) :
    l.runOff id + l.runLen id ≤ l.runOff id' ∨ l.runOff id' + l.runLen id' ≤ l.runOff id := by
  have hd := (Buddy.depth_le_iff h).mpr hx
  have hd' := (Buddy.depth_le_iff h').mpr hx'
  obtain ⟨e1, e2⟩ := runOff_eq h hd
  obtain ⟨e3, e4⟩ := runOff_eq h' hd'
  rcases Buddy.hi_le_lo hu hu' hd hd' with hle | hle
  · have := Nat.mul_le_mul_right l.pageSize hle
    omega
  · have := Nat.mul_le_mul_right l.pageSize hle
    omega

/-- The id of a page. -/
theorem depth_page {i : Nat} (hi : i < 2 ^ l.maxOrder) : Buddy.depth (2 ^ l.maxOrder + i) = l.maxOrder := by
  rw [Buddy.depth_eq_iff (by have := Nat.two_pow_pos l.maxOrder; omega), Nat.pow_succ]
  omega

theorem run_page {i : Nat} (hi : i < 2 ^ l.maxOrder) :
    l.runLen (2 ^ l.maxOrder + i) = l.pageSize ∧ l.runOff (2 ^ l.maxOrder + i) = i * l.pageSize := by
  have e : l.runLen (2 ^ l.maxOrder + i) = l.pageSize := by
    rw [runLen, depth_page hi, Nat.add_sub_cancel, pageSize]
  rw [runOff, e, depth_page hi, Nat.add_sub_cancel_left]
  exact ⟨rfl, rfl⟩

end Layout

namespace PoolChunk

variable {l : Layout} {A : Finset Nat} {c c' : PoolChunk} {id : Nat}

/-- `freeBytes_` is what the nodes of `A` leave. -/
structure Counted (l : Layout) (A : Finset Nat) (c : PoolChunk) : Prop extends c.Tree l A where
  freeBytes_ : c.freeBytes_ + (∑ id ∈ A, l.runLen id : Nat) = l.chunkSize

theorem chunk_counted (l : Layout) : l.chunk.Counted l ∅ where
  toTree := chunk_tree l
  freeBytes_ := by
    rw [Finset.sum_empty]
    exact Int.add_zero _

namespace Counted

variable (h : c.Counted l A)
include h

theorem sum_le : ∑ id ∈ A, l.runLen id ≤ l.chunkSize := by
  have e : ∑ id ∈ A, l.runLen id = (∑ id ∈ A, 2 ^ (l.maxOrder - Buddy.depth id)) * l.pageSize := by
    rw [Finset.sum_mul]
    exact Finset.sum_congr rfl fun id hid =>
      Layout.runLen_eq ((Buddy.depth_le_iff (h.blocks.pos id hid)).mpr (h.blocks.lt id hid))
  have e' : l.chunkSize = 2 ^ l.maxOrder * l.pageSize := by
    rw [Layout.chunkSize, Layout.pageSize, ← Nat.pow_add, Nat.add_comm]
  rw [e, e']
  exact Nat.mul_le_mul_right _ h.blocks.sum_le

theorem freeBytes_nonneg : 0 ≤ c.freeBytes_ := by
  have h1 := h.freeBytes_
  have h2 := h.sum_le
  omega

theorem freeBytes_le : c.freeBytes_ ≤ l.chunkSize := by
  have h1 := h.freeBytes_
  omega

/-- `usage`, without the special cases of the division. -/
theorem usage_eq : c.usage =
    if c.freeBytes_ = 0 then 100
    else if c.freeBytes_ * 100 / l.chunkSize = 0 then 99 else 100 - c.freeBytes_ * 100 / l.chunkSize := by
  have h0 := h.freeBytes_nonneg
  rw [usage, h.chunkSize_, Int.tdiv_eq_ediv_of_nonneg (by omega)]

theorem usage_bounds : 0 ≤ c.usage ∧ c.usage ≤ 100 := by
  have h0 := h.freeBytes_nonneg
  have h1 := h.freeBytes_le
  have hpos : (0 : Int) < l.chunkSize := by exact_mod_cast Nat.two_pow_pos _
  have h2 : 0 ≤ c.freeBytes_ * 100 / l.chunkSize := Int.ediv_nonneg (by omega) (by omega)
  have h3 : c.freeBytes_ * 100 / l.chunkSize ≤ 100 := by
    refine Int.ediv_le_of_le_mul hpos ?_
    omega
  rw [h.usage_eq]
  split
  · omega
  · split <;> omega

/-- Nothing is given out of a chunk with no usage. -/
theorem usage_eq_zero_iff : c.usage = 0 ↔ A = ∅ := by
  have h0 := h.freeBytes_nonneg
  have hc := h.freeBytes_
  have hpos : (0 : Int) < l.chunkSize := by exact_mod_cast Nat.two_pow_pos _
  constructor
  · intro hu
    have hge : 100 ≤ c.freeBytes_ * 100 / l.chunkSize := by
      rw [h.usage_eq] at hu
      split at hu
      · omega
      · split at hu <;> omega
    have := (Int.le_ediv_iff_mul_le hpos).mp hge
    have hz : ∑ id ∈ A, l.runLen id = 0 := by omega
    rw [Finset.sum_eq_zero_iff] at hz
    refine Finset.eq_empty_of_forall_notMem fun id hid => ?_
    have := hz id hid
    have := Layout.runLen_pos (l := l) id
    omega
  · rintro rfl
    rw [Finset.sum_empty] at hc
    have e : c.freeBytes_ * 100 / l.chunkSize = 100 := by
      rw [show c.freeBytes_ = l.chunkSize by omega, Int.mul_ediv_cancel_left _ hpos.ne']
    rw [h.usage_eq, if_neg (by omega), e]
    rfl

/-- The more is free, the less is used. -/
theorem usage_le {A' : Finset Nat} (h' : c'.Counted l A') (hle : c.freeBytes_ ≤ c'.freeBytes_) : c'.usage ≤ c.usage := by
  have h0 := h.freeBytes_nonneg
  have h1 := h'.freeBytes_le
  have hb := h'.usage_bounds
  have hpos : (0 : Int) < l.chunkSize := by exact_mod_cast Nat.two_pow_pos _
  have h2 : c.freeBytes_ * 100 / l.chunkSize ≤ c'.freeBytes_ * 100 / l.chunkSize :=
    Int.ediv_le_ediv hpos (by omega)
  have h3 : 0 ≤ c.freeBytes_ * 100 / l.chunkSize := Int.ediv_nonneg (by omega) (by omega)
  rw [h'.usage_eq] at hb ⊢
  rw [h.usage_eq]
  split_ifs <;> omega

/-! ## Giving out and taking back -/

omit h in
/-- Of a chunk of which nothing is given out, a node of every size is free. -/
theorem ne_empty {d : Nat} (hno : ∀ y, 1 ≤ y → Buddy.depth y = d → ¬Free A y) : A ≠ ∅ := by
  rintro rfl
  have hpos := Nat.two_pow_pos d
  refine hno (2 ^ d) hpos ?_ fun a ha => absurd ha (Finset.notMem_empty a)
  rw [Buddy.depth_eq_iff hpos]
  exact ⟨Nat.le_refl _, Nat.pow_lt_pow_succ (by decide)⟩

/-- A page is given out, or there is none. -/
theorem allocatePage : (allocateNode c.maxOrder c = .ok (-1) c ∧ A ≠ ∅) ∨
    ∃ i m, i < 2 ^ l.maxOrder ∧ Free A (2 ^ l.maxOrder + i) ∧
      allocateNode c.maxOrder c = .ok (2 ^ l.maxOrder + i : Nat) (c.withMap m) ∧
      ((c.withMap m).withFreeBytes (c.freeBytes_ - l.pageSize)).Counted l (insert (2 ^ l.maxOrder + i) A) := by
  rw [h.maxOrder]
  rcases h.allocateNode (Nat.le_refl _) with ⟨e, hno⟩ | ⟨id, m, hf, e, ht⟩
  · exact .inl ⟨e, ne_empty hno⟩
  · obtain ⟨hlo, hhi⟩ := (Buddy.depth_eq_iff hf.pos).mp hf.depth
    rw [Nat.pow_succ] at hhi
    obtain ⟨i, rfl⟩ : ∃ i, id = 2 ^ l.maxOrder + i := ⟨id - 2 ^ l.maxOrder, by omega⟩
    have hi : i < 2 ^ l.maxOrder := by omega
    have hn : 2 ^ l.maxOrder + i ∉ A := fun hm => hf.free.not_covered ⟨_, hm, .refl _⟩
    refine .inr ⟨i, m, hi, hf.free, e, { ht with freeBytes_ := ?_ }⟩
    have hc := h.freeBytes_
    rw [Finset.sum_insert hn, (Layout.run_page hi).1]
    show c.freeBytes_ - l.pageSize + _ = _
    omega

/-- A run is given out, or there is none. -/
theorem allocateRun {k : Nat} (hk : l.pageShifts ≤ k) (hk' : k ≤ l.pageShifts + l.maxOrder) :
    (allocateRun (2 ^ k) c = .ok (-1) c ∧ A ≠ ∅) ∨
    ∃ id m n, 1 ≤ id ∧ id < 2 ^ (l.maxOrder + 1) ∧ l.runLen id = 2 ^ k ∧ Free A id ∧
      n + (2 ^ k : Nat) = c.freeBytes_ ∧
      allocateRun (2 ^ k) c = .ok (id : Nat) ((c.withMap m).withFreeBytes n) ∧
      ((c.withMap m).withFreeBytes n).Counted l (insert id A) := by
  rcases h.toTree.allocateRun hk hk' with ⟨e, hno⟩ | ⟨id, m, hf, e, ht⟩
  · exact .inl ⟨e, ne_empty hno⟩
  · have hn : id ∉ A := fun hm => hf.free.not_covered ⟨_, hm, .refl _⟩
    have hlen : l.runLen id = 2 ^ k := by
      rw [Layout.runLen, hf.depth]
      congr 1
      omega
    have hpos := Nat.two_pow_pos k
    refine .inr ⟨id, m, _, hf.pos, hf.lt (by omega), hlen, hf.free, by omega, e, { ht with freeBytes_ := ?_ }⟩
    have hc := h.freeBytes_
    rw [Finset.sum_insert hn, hlen]
    show c.freeBytes_ - (2 ^ k : Nat) + _ = _
    omega

/-- A node is taken back. -/
theorem freeNode (hid : id ∈ A) : ∃ m n, c.freeBytes_ ≤ n ∧
    freeNode id c = .ok () ((c.withMap m).withFreeBytes n) ∧
      ((c.withMap m).withFreeBytes n).Counted l (A.erase id) := by
  obtain ⟨m, e, ht⟩ := h.toTree.freeNode hid
  refine ⟨m, c.freeBytes_ + (2 ^ (l.pageShifts + l.maxOrder - Buddy.depth id) : Nat), ?_, e,
    { ht with freeBytes_ := ?_ }⟩
  · exact Int.le_add_of_nonneg_right (Int.natCast_nonneg _)
  · have hc := h.freeBytes_
    rw [← Finset.add_sum_erase A _ hid] at hc
    show c.freeBytes_ + (l.runLen id : Nat) + _ = _
    omega

end Counted

end PoolChunk

end Nio.Pool
