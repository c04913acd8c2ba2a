import NioSocket.Pool.Reachable

/-!
# The sizes of regions

A request gets a region of the least size class that holds it, and the four ways in which the
source works out a size or the pool of one agree. A request of negative size is not refused:
it gets a buffer of negative length, and the least `int` never comes back.
-/

namespace Nio.Pool

open PoolArena

variable {l : Layout} {a a' : PoolArena} {req : Int} {m n : Nat}

/-- The sizes a region of a pooled chunk can have. -/
def Layout.Sized (l : Layout) (m : Nat) : Prop :=
  (0 < m ∧ m < 512 ∧ m % 16 = 0) ∨ ∃ k, 9 ≤ k ∧ k ≤ l.pageShifts + l.maxOrder ∧ m = 2 ^ k

theorem Layout.Sized.le (h : l.Sized m) : m ≤ l.chunkSize := by
  have := l.pageSize_le
  have := l.pageSize_le_chunkSize
  rcases h with ⟨-, h, -⟩ | ⟨k, -, hk, rfl⟩
  · omega
  · exact Nat.pow_le_pow_right (by decide) hk

theorem Layout.Sized.pos (h : l.Sized m) : 0 < m := by
  rcases h with ⟨h, -⟩ | ⟨k, -, -, rfl⟩
  · exact h
  · exact Nat.two_pow_pos k

/-- Less than a page, it is the size of elements. -/
theorem Layout.Sized.sizeClass (h : l.Sized m) (hp : m < l.pageSize) : SizeClass l m := by
  rcases h with ⟨-, h, h16⟩ | ⟨k, hk, -, rfl⟩
  · exact .inl ⟨h, h16⟩
  · exact .inr ⟨k, hk, (Nat.pow_lt_pow_iff_right (by decide)).mp hp, rfl⟩

namespace PoolArena.Laid

variable (H : a.Laid l)
include H

/-- What a chunk of the arena can hold is rounded up to the next size. -/
theorem normalizeCapacity_least (h1 : 1 ≤ req) (hle : req ≤ l.chunkSize) :
    ∃ m : Nat, a.normalizeCapacity req = m ∧ l.Sized m ∧ req ≤ m ∧ ∀ m' : Nat, l.Sized m' → req ≤ m' → m ≤ m' := by
  have hc := l.chunkSize_le
  have hp := l.pageSize_le
  have hpc := l.pageSize_le_chunkSize
  have hr : i32 req = req := i32_eq (by omega) (by omega)
  unfold PoolArena.normalizeCapacity
  rw [H.chunkSize_]
  split
  case isTrue hge =>
    obtain rfl : req = l.chunkSize := by omega
    refine ⟨l.chunkSize, rfl, .inr ⟨_, ?_, Nat.le_refl _, rfl⟩, Int.le_refl _, fun m' _ h => by omega⟩
    have := l.pageShifts_ge
    omega
  split
  case isTrue ht =>
    rw [isTiny_iff hr] at ht
    obtain ⟨q, rfl⟩ : ∃ q : Nat, req = q := ⟨req.toNat, by omega⟩
    have hge := le_roundUp q
    have h9 : 9 ≤ (q - 1).size := Nat.lt_size.mpr (by omega)
    have hle : roundUp q ≤ 2 ^ (l.pageShifts + l.maxOrder) := roundUp_le (show q ≤ l.chunkSize by omega)
    have hk : (q - 1).size ≤ l.pageShifts + l.maxOrder := (Nat.pow_le_pow_iff_right (show 1 < 2 by decide)).mp hle
    simp only [smear_int h1 (by omega), Int.toNat_natCast]
    rw [if_neg (by omega)]
    refine ⟨roundUp q, rfl, .inr ⟨_, h9, hk, rfl⟩, by omega, fun m' hm' h => ?_⟩
    rcases hm' with ⟨-, h512, -⟩ | ⟨k, -, -, rfl⟩
    · omega
    · exact roundUp_le (by omega)
  case isFalse ht =>
    obtain ⟨-, h512⟩ := (isTiny_iff hr).mp (not_not.mp ht)
    obtain ⟨q, rfl⟩ : ∃ q : Nat, req = q := ⟨req.toNat, by omega⟩
    simp only [quantum_eq q (by omega)]
    refine ⟨_, rfl, ?_, by omega, fun m' hm' h => ?_⟩
    · by_cases hq : (q + 15) / 16 * 16 < 512
      · exact .inl ⟨by omega, hq, by omega⟩
      · exact .inr ⟨9, Nat.le_refl _, by have := l.pageShifts_ge; omega, by omega⟩
    · rcases hm' with ⟨-, -, h16⟩ | ⟨k, hk, -, rfl⟩
      · omega
      · have : 2 ^ 9 ≤ 2 ^ k := Nat.pow_le_pow_right (by decide) hk
        omega

omit H in
theorem normalizeCapacity_of_ge (h : (a.chunkSize_ : Int) ≤ req) : a.normalizeCapacity req = req := if_pos h

theorem normalizeCapacity_mono {req' : Int} (h1 : 1 ≤ req) (hle : req ≤ req') :
    a.normalizeCapacity req ≤ a.normalizeCapacity req' := by
  have hC := H.chunkSize_
  by_cases hb : req ≤ l.chunkSize
  · obtain ⟨m, e, hs, -, hleast⟩ := H.normalizeCapacity_least h1 hb
    rw [e]
    by_cases hb' : req' ≤ l.chunkSize
    · obtain ⟨m', e', hs', hm', -⟩ := H.normalizeCapacity_least (by omega) hb'
      rw [e']
      exact_mod_cast hleast m' hs' (by omega)
    · have := hs.le
      rw [normalizeCapacity_of_ge (show (a.chunkSize_ : Int) ≤ req' by omega)]
      omega
  · rw [normalizeCapacity_of_ge (show (a.chunkSize_ : Int) ≤ req by omega),
      normalizeCapacity_of_ge (show (a.chunkSize_ : Int) ≤ req' by omega)]
    exact hle

theorem normalizeCapacity_idem (h1 : 1 ≤ req) :
    a.normalizeCapacity (a.normalizeCapacity req) = a.normalizeCapacity req := by
  have hC := H.chunkSize_
  by_cases hb : req ≤ l.chunkSize
  · obtain ⟨m, e, hs, -, -⟩ := H.normalizeCapacity_least h1 hb
    have hpos := hs.pos
    have hle := hs.le
    obtain ⟨m', e', -, hm', hleast⟩ := H.normalizeCapacity_least (show 1 ≤ (m : Int) by omega) (show (m : Int) ≤ l.chunkSize by omega)
    rw [e, e']
    have := hleast m hs (Int.le_refl _)
    omega
  · have e := normalizeCapacity_of_ge (show (a.chunkSize_ : Int) ≤ req by omega)
    rw [e, e]

/-- The index of a pool is in its table. -/
theorem tableIdx_lt (hm : SizeClass l m) :
    if isTiny m then tinyIdx m < numTinySubpagePools else ∃ k, smallIdx m = some k ∧ k < a.numSmallSubpagePools_ := by
  have e := H.poolHead hm
  unfold PoolArena.poolHead at e
  split
  · rename_i ht
    rw [if_pos ht] at e
    by_contra hlt
    have hub : PoolArena.tableAt (.tiny (tinyIdx m)) a = .ub := if_neg hlt
    cases hub.symm.trans e
  · rename_i ht
    rw [if_neg ht] at e
    cases hk : smallIdx m with
    | none =>
      rw [hk] at e
      cases e
    | some k =>
      refine ⟨k, rfl, ?_⟩
      by_contra hlt
      rw [hk] at e
      have hub : PoolArena.tableAt (.small k) a = .ub := if_neg hlt
      cases hub.symm.trans e

end PoolArena.Laid

namespace Buffers

variable {s : Buffers} {es : List Call}

/-- What a request gets in any state of the arena, and where the pools of sizes are. -/
theorem allocate_size (h : Run Step (init l) es s) :
    (∀ req, i32 req = req → 1 ≤ req → ∃ r a', allocate req s.arena = .ok r a' ∧
      (req ≤ l.chunkSize → l.Sized r.maxLength_ ∧ req ≤ r.maxLength_ ∧
        ∀ m' : Nat, l.Sized m' → req ≤ m' → r.maxLength_ ≤ m') ∧
      (l.chunkSize < req → r.maxLength_ = req ∧ ∃ ch, a'.chunk r.chunk_ = some ch ∧ ch.unpooled = true)) ∧
    (∀ req req', 1 ≤ req → req ≤ req' → s.arena.normalizeCapacity req ≤ s.arena.normalizeCapacity req') ∧
    (∀ req, 1 ≤ req →
      s.arena.normalizeCapacity (s.arena.normalizeCapacity req) = s.arena.normalizeCapacity req) ∧
    (∀ req n, 1 ≤ req → s.arena.normalizeCapacity req = n → n < l.pageSize →
      (if isTiny n then tinyIdx n < numTinySubpagePools
        else ∃ k, smallIdx n = some k ∧ k < s.arena.numSmallSubpagePools_) ∧
      ∃ head, poolHead n s.arena = .ok head s.arena ∧ findSubpagePoolHead n s.arena = .ok head s.arena ∧
        ∀ req' n', 1 ≤ req' → s.arena.normalizeCapacity req' = n' → n' < l.pageSize →
          poolHead n' s.arena = .ok head s.arena → n' = n) ∧
    (∀ c i sp, s.arena.subpages c i = some sp → ∃ head, poolHead sp.elementSize s.arena = .ok head s.arena ∧
      findSubpagePoolHead sp.elementSize s.arena = .ok head s.arena) := by
  obtain ⟨σ, H⟩ := run_held h
  have W := H.whole
  have hC := W.laid.chunkSize_
  have sized : ∀ req n, 1 ≤ req → s.arena.normalizeCapacity req = n → n < l.pageSize → ∃ m : Nat, n = m ∧ SizeClass l m :=
    fun req n h1 he hp => by
      have hpc := l.pageSize_le_chunkSize
      have hb : req ≤ l.chunkSize := by
        by_contra hb
        rw [Laid.normalizeCapacity_of_ge (show (s.arena.chunkSize_ : Int) ≤ req by omega)] at he
        omega
      obtain ⟨m, e, hs, -, -⟩ := W.laid.normalizeCapacity_least h1 hb
      exact ⟨m, he.symm.trans e, hs.sizeClass (by omega)⟩
  refine ⟨fun req hi h1 => ?_, fun req req' => W.laid.normalizeCapacity_mono, fun req => W.laid.normalizeCapacity_idem,
    fun req n h1 he hp => ?_, fun c i sp hs => ?_⟩
  · obtain ⟨r, t, a', e, hS, -, -⟩ := PoolArena.allocate_ok W hi (by simp only [intMin]; omega)
    have hsize := hS.size
    refine ⟨r, a', e, fun hb => ?_, fun hb => ?_⟩
    · obtain ⟨m, e', hs, hm, hleast⟩ := W.laid.normalizeCapacity_least h1 hb
      obtain rfl : r.maxLength_ = m := by omega
      exact ⟨hs, hm, hleast⟩
    · rw [Laid.normalizeCapacity_of_ge (by omega)] at hsize
      have hg : a'.given l t = some ⟨r.offset_, r.maxLength_⟩ := by rw [hS.given, Function.update_self]
      obtain ⟨ch, hch, hin⟩ := hS.sound.chunks.in_chunk hS.sound.pools hg
      refine ⟨hsize, ch, hS.chunk_ ▸ hch, ?_⟩
      by_contra hu
      have := (hS.sound.chunks.pooled _ ch hch (by simpa using hu)).chunkSize_
      dsimp only at hin
      omega
  · obtain ⟨m, rfl, hm⟩ := sized req n h1 he hp
    refine ⟨W.laid.tableIdx_lt hm, headOf m, W.laid.poolHead hm, W.laid.findSubpagePoolHead hm,
      fun req' n' h1' he' hp' e' => ?_⟩
    obtain ⟨m', rfl, hm'⟩ := sized req' n' h1' he' hp'
    rw [W.laid.poolHead hm'] at e'
    rw [headOf_inj hm' hm (Outcome.ok.inj e').1]
  · have hm := (W.pools.page c i sp hs).elemSize_
    exact ⟨headOf sp.elementSize, W.laid.poolHead hm, W.laid.findSubpagePoolHead hm⟩

/-- The sizes on both sides of 512. -/
theorem allocate_size_500 : ∃ s, Run Step (init twoPages) [.allocate 40 100] s ∧
    ∃ r a', allocate 500 s.arena = .ok r a' ∧ (500 ≤ (twoPages.chunkSize : Int) → twoPages.Sized r.maxLength_ ∧
      500 ≤ (r.maxLength_ : Int) ∧ ∀ m' : Nat, twoPages.Sized m' → 500 ≤ (m' : Int) → r.maxLength_ ≤ m') := by
  obtain ⟨s, hr, -⟩ := exists_run (s := init twoPages) (P := fun s => s.nextBuf = 1) [.allocate 40 100] (by decide +kernel)
  obtain ⟨r, a', e, h, -⟩ := (allocate_size hr).1 500 (by decide) (by decide)
  exact ⟨s, hr, r, a', e, h⟩

/-! ## Requests of any size -/

/-- The call returns a null pointer, or throws, and nothing has changed, or it returns a buffer as
long as it was asked to be. -/
def Answered (a : PoolArena) (initialCapacity maxCapacity : Int) : Outcome PoolArena (Option PooledCharBuf) → Prop
  | .ok (some b) _ => 0 < b.length_ ∧ b.length_ = initialCapacity ∧ initialCapacity ≤ maxCapacity ∧
      b.indices.maxCapacity_ = maxCapacity ∧ b.length_ ≤ b.maxLength_
  | .ok none a' | .throw _ a' => a' = a
  | .ub | .hang => False

/-- `heapBuffer` answers a request unless its size is negative and nothing else is wrong with it. -/
theorem heapBuffer_answered_iff (h : Run Step (init l) es s) {initial max : Int} (hi : i32 initial = initial)
    (_ : i32 max = max) : Answered s.arena initial max (heapBuffer initial max s.arena) ↔
      0 ≤ initial ∨ max = 0 ∨ initial > max := by
  obtain ⟨σ, H⟩ := run_held h
  have W := H.whole
  rw [heapBuffer, Method.ite_apply]
  split
  case isTrue hnull => exact ⟨fun _ => by omega, fun _ => rfl⟩
  case isFalse hnull =>
    rw [Method.bind_apply, allocateBuf, Method.bind_apply]
    by_cases hm : initial = intMin
    · have h0 : initial < 0 := by rw [hm]; decide
      rw [hm, allocate_intMin W]
      exact ⟨fun h => h.elim, fun h => by omega⟩
    · obtain ⟨r, t, a', e, hS, -, -⟩ := PoolArena.allocate_ok W hi hm
      have hle := hS.le
      have hlen := hS.length_
      rw [e]
      show (0 < r.length_ ∧ r.length_ = initial ∧ initial ≤ max ∧ max = max ∧ r.length_ ≤ r.maxLength_) ↔ _
      omega

/-- A buffer of `8`, of an arena that has given out two and got one back. -/
theorem heapBuffer_answered_eight : ∃ s, Run Step (init twoPages) [.allocate 40 100, .allocate 500 600, .release 0] s ∧
    Answered s.arena 8 16 (heapBuffer 8 16 s.arena) := by
  obtain ⟨s, hr, -⟩ := exists_run (s := init twoPages) (P := fun s => s.nextBuf = 2)
    [.allocate 40 100, .allocate 500 600, .release 0] (by decide +kernel)
  exact ⟨s, hr, (heapBuffer_answered_iff hr (by decide) (by decide)).mpr (.inl (by decide))⟩

/-- A buffer of `-5`, of a new arena, has a capacity of `-5`. -/
theorem heapBuffer_negative : ∃ s, Run Step (init twoPages) [] s ∧
    ¬Answered s.arena (-5) 16 (heapBuffer (-5) 16 s.arena) := by
  obtain ⟨s, hr, hneg⟩ := exists_run (s := init twoPages)
    (P := fun s => ((heapBuffer (-5) 16 s.arena).any fun o _ => o.any fun b => b.length_ = -5) = true) []
    (by decide +kernel)
  refine ⟨s, hr, fun h => ?_⟩
  obtain ⟨o, a', e, ho⟩ := Outcome.any_eq_true.mp hneg
  obtain ⟨b, rfl, hlen⟩ := (Option.any_eq_true _ _).mp ho
  have hlen : b.length_ = -5 := of_decide_eq_true hlen
  rw [e] at h
  have := h.1
  omega

end Buffers

end Nio.Pool
