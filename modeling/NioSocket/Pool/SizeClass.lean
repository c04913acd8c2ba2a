import NioSocket.Pool.Arena
import NioSocket.Pool.Nodes

/-!
# Size classes

What `normalizeCapacity` makes of a request (`Normalized`), the sizes of elements
(`SizeClass`), and the head each of them has to itself (`headOf`).
-/

namespace Nio.Pool

variable {l : Layout} {a : PoolArena} {n : Nat}

/-! ## Masks -/

theorem toNat_ofInt32 {n : Int} (hn : i32 n = n) :
    ((BitVec.ofInt 32 n).toNat : Int) = if 0 ≤ n then n else n + 4294967296 := by
  rw [BitVec.toNat_ofInt]
  unfold i32 at hn
  split <;> omega

/-- `b & ~(2 ^ k - 1)` is zero if `b` is less than `2 ^ k`. -/
theorem and_not_mask {b : BitVec 32} {k : Nat} (hk : k < 32) :
    b &&& ~~~(BitVec.ofNat 32 (2 ^ k) - 1) = 0 ↔ b.toNat < 2 ^ k := by
  have hp : 2 ^ k < 2 ^ 32 := Nat.pow_lt_pow_right (by decide) hk
  have hpos := Nat.two_pow_pos k
  have hm : (BitVec.ofNat 32 (2 ^ k) - 1).toNat = 2 ^ k - 1 := by
    rw [BitVec.toNat_sub_of_le, BitVec.toNat_ofNat, Nat.mod_eq_of_lt hp]
    · rfl
    · rw [BitVec.le_def, BitVec.toNat_ofNat, Nat.mod_eq_of_lt hp]
      exact hpos
  have hbit : ∀ i, (b &&& ~~~(BitVec.ofNat 32 (2 ^ k) - 1)).getLsbD i = (b.toNat.testBit i && decide (k ≤ i)) := by
    intro i
    rw [BitVec.getLsbD_and, BitVec.getLsbD_not, BitVec.getLsbD, BitVec.getLsbD, hm, Nat.testBit_two_pow_sub_one]
    by_cases hi : i < 32
    · by_cases hki : k ≤ i
      · simp [hi, hki, Nat.not_lt.mpr hki]
      · simp [hi, hki, Nat.not_le.mp hki]
    · have : b.toNat.testBit i = false :=
        Nat.testBit_lt_two_pow (Nat.lt_of_lt_of_le b.isLt (Nat.pow_le_pow_right (by decide) (by omega)))
      simp [this]
  constructor
  · intro h
    refine Nat.lt_pow_two_of_testBit _ fun i hi => ?_
    have := hbit i
    rw [h] at this
    simpa [hi] using this.symm
  · intro h
    refine BitVec.eq_of_getLsbD_eq fun i hi => ?_
    rw [hbit]
    by_cases hki : k ≤ i
    · have : b.toNat.testBit i = false :=
        Nat.testBit_lt_two_pow (Nat.lt_of_lt_of_le h (Nat.pow_le_pow_right (by decide) hki))
      simp [this]
    · simp [hki]

theorem ofInt32_lt {n : Int} (hn : i32 n = n) {k : Nat} (hk : k ≤ 31) :
    (BitVec.ofInt 32 n).toNat < 2 ^ k ↔ 0 ≤ n ∧ n < 2 ^ k := by
  have h := toNat_ofInt32 hn
  have hp : 2 ^ k ≤ 2 ^ 31 := Nat.pow_le_pow_right (by decide) hk
  have hc : ((2 ^ k : Nat) : Int) = 2 ^ k := by push_cast; rfl
  unfold i32 at hn
  split at h <;> omega

theorem isTiny_iff {n : Int} (hn : i32 n = n) : PoolArena.isTiny n ↔ 0 ≤ n ∧ n < 512 :=
  (and_not_mask (k := 9) (by decide)).trans (ofInt32_lt hn (by decide))

/-! ## The arena of a layout -/

/-- What the constructor of the arena sets, and nothing changes. -/
structure PoolArena.Laid (l : Layout) (a : PoolArena) : Prop where
  maxOrder_ : a.maxOrder_ = l.maxOrder
  pageSize_ : a.pageSize_ = l.pageSize
  pageShifts_ : a.pageShifts_ = l.pageShifts
  chunkSize_ : a.chunkSize_ = l.chunkSize
  numSmallSubpagePools_ : a.numSmallSubpagePools_ = l.pageShifts - 9
  list : ∀ n, a.list n = { PoolArena.newList l.chunkSize n with head_ := (a.list n).head_ }

/-- `new PoolArena(…)`. -/
def Layout.arena (l : Layout) : PoolArena := .new l.pageSize l.maxOrder l.pageShifts l.chunkSize

theorem Layout.arena_laid (l : Layout) : l.arena.Laid l where
  maxOrder_ := rfl
  pageSize_ := rfl
  pageShifts_ := rfl
  chunkSize_ := rfl
  numSmallSubpagePools_ := rfl
  list n := by cases n <;> rfl

theorem Layout.pageSize_le (l : Layout) : 4096 ≤ l.pageSize :=
  Nat.pow_le_pow_right (show 2 > 0 by decide) l.pageShifts_ge

theorem Layout.chunkSize_le (l : Layout) : l.chunkSize ≤ 2 ^ 30 :=
  Nat.pow_le_pow_right (by decide) l.sum_le

theorem Layout.pageSize_le_chunkSize (l : Layout) : l.pageSize ≤ l.chunkSize :=
  Nat.pow_le_pow_right (by decide) (Nat.le_add_right _ _)

theorem PoolArena.Laid.isTinyOrSmall_iff (h : a.Laid l) {n : Int} (hn : i32 n = n) :
    a.isTinyOrSmall n ↔ 0 ≤ n ∧ n < l.pageSize := by
  have hs := l.sum_le
  rw [isTinyOrSmall, h.pageSize_, Layout.pageSize, and_not_mask (by omega), ofInt32_lt hn (by omega)]
  push_cast
  rfl

/-! ## Rounding up -/

open PoolArena (orShift)

/-- Bits of a number whose sign bit is clear. -/
theorem orShift_of_nonneg {b : BitVec 32} (h : b.toNat < 2 ^ 31) (k : Nat) :
    (orShift b k).toNat = smearStep b.toNat k ∧ (orShift b k).toNat < 2 ^ 31 := by
  have hm : b.msb = false := by
    rw [BitVec.msb_eq_decide]
    simpa using h
  have he : (orShift b k).toNat = smearStep b.toNat k := by
    rw [orShift, BitVec.toNat_or, BitVec.sshiftRight_eq_of_msb_false hm, BitVec.toNat_ushiftRight]
    rfl
  refine ⟨he, ?_⟩
  rw [he]
  exact Nat.or_lt_two_pow h (Nat.lt_of_le_of_lt (Nat.shiftRight_le _ _) h)

/-- The top `w` bits are set. -/
def Ones (w : Nat) (b : BitVec 32) : Prop := ∀ i, 32 ≤ i + w → i < 32 → b.getLsbD i = true

theorem Ones.step {w : Nat} {b : BitVec 32} (h : Ones w b) (hw : 0 < w) : Ones (w + w) (orShift b w) := by
  intro i hi hlt
  have hm : b.msb = true := by
    rw [BitVec.msb_eq_getLsbD_last]
    exact h 31 (by omega) (by decide)
  rw [orShift, BitVec.getLsbD_or, BitVec.getLsbD_sshiftRight, Bool.or_eq_true]
  right
  by_cases h32 : w + i < 32
  · simp only [show ¬32 ≤ i by omega, decide_false, Bool.not_false, Bool.true_and, h32, if_true]
    exact h _ (by omega) h32
  · simp [show ¬32 ≤ i by omega, h32, hm]

/-- Smearing the sign bit sets all bits. -/
theorem orShift_of_neg {b : BitVec 32} (h : b.msb = true) :
    orShift (orShift (orShift (orShift (orShift b 1) 2) 4) 8) 16 = BitVec.allOnes 32 := by
  have h1 : Ones 1 b := fun i hi hlt => by
    obtain rfl : i = 31 := by omega
    rwa [← BitVec.msb_eq_getLsbD_last]
  have h32 := ((((h1.step (by decide)).step (by decide)).step (by decide)).step (by decide)).step (by decide)
  refine BitVec.eq_of_getLsbD_eq fun i hi => ?_
  rw [h32 i (by omega) hi, BitVec.getLsbD_allOnes]
  simpa using hi

theorem orShift_eq_smear {b : BitVec 32} (h : b.toNat < 2 ^ 31) :
    (orShift (orShift (orShift (orShift (orShift b 1) 2) 4) 8) 16).toNat = smear b.toNat := by
  have h1 := orShift_of_nonneg h 1
  have h2 := orShift_of_nonneg h1.2 2
  have h4 := orShift_of_nonneg h2.2 4
  have h8 := orShift_of_nonneg h4.2 8
  rw [(orShift_of_nonneg h8.2 16).1, h8.1, h4.1, h2.1, h1.1, smear]

/-! ## The sizes of elements -/

/-- The sizes of elements: the multiples of 16 below 512, and the powers of two from there
on that are less than a page. -/
def SizeClass (l : Layout) (n : Nat) : Prop :=
  (n < 512 ∧ n % 16 = 0) ∨ ∃ k, 9 ≤ k ∧ k < l.pageShifts ∧ n = 2 ^ k

theorem SizeClass.two_mul_le (h : SizeClass l n) : 2 * n ≤ l.pageSize := by
  have := l.pageSize_le
  rcases h with ⟨h, -⟩ | ⟨k, -, hk, rfl⟩
  · omega
  · rw [← Nat.pow_succ']
    exact Nat.pow_le_pow_right (by decide) hk

theorem SizeClass.ge (h : SizeClass l n) (h0 : n ≠ 0) : 16 ≤ n := by
  rcases h with ⟨-, h⟩ | ⟨k, hk, -, rfl⟩
  · omega
  · exact Nat.le_trans (by decide) (Nat.pow_le_pow_right (show 2 > 0 by decide) hk)

/-- The head that a size of elements has to itself. -/
def headOf (n : Nat) : SubpageRef := if n < 512 then .tiny (n / 16) else .small (n.log2 - 9)

theorem headOf_inj {m : Nat} (hn : SizeClass l n) (hm : SizeClass l m) (h : headOf n = headOf m) : n = m := by
  have big : ∀ {k}, 9 ≤ k → ¬2 ^ k < 512 := fun hk =>
    Nat.not_lt.mpr (Nat.pow_le_pow_right (show 2 > 0 by decide) hk)
  unfold headOf at h
  rcases hn with ⟨h1, h2⟩ | ⟨k, hk, -, rfl⟩ <;> rcases hm with ⟨h3, h4⟩ | ⟨j, hj, -, rfl⟩
  · rw [if_pos h1, if_pos h3, SubpageRef.tiny.injEq] at h
    omega
  · rw [if_pos h1, if_neg (big hj)] at h
    cases h
  · rw [if_neg (big hk), if_pos h3] at h
    cases h
  · rw [if_neg (big hk), if_neg (big hj), SubpageRef.small.injEq, Nat.log2_two_pow, Nat.log2_two_pow] at h
    congr 1
    omega

/-- What `r` is if it is a head. -/
def IsHead (l : Layout) : SubpageRef → Prop
  | .tiny i => i < PoolArena.numTinySubpagePools
  | .small i => i < l.pageShifts - 9
  | .page _ _ => False

theorem headOf_isHead (h : SizeClass l n) : IsHead l (headOf n) := by
  unfold headOf
  rcases h with ⟨h1, h2⟩ | ⟨k, hk, hl, rfl⟩
  · rw [if_pos h1]
    show n / 16 < 32
    omega
  · rw [if_neg (Nat.not_lt.mpr (Nat.pow_le_pow_right (show 2 > 0 by decide) hk)), Nat.log2_two_pow]
    show k - 9 < l.pageShifts - 9
    omega

/-- The loop of `smallIdx` counts the bits. -/
theorem smallIdxLoop_pow (k fuel t : Nat) (hf : k + 1 < fuel) :
    PoolArena.smallIdxLoop fuel (2 ^ k : Nat) t = some (t + k + 1) := by
  induction k generalizing fuel t with
  | zero =>
    obtain ⟨f, rfl⟩ : ∃ f, fuel = f + 2 := ⟨fuel - 2, by omega⟩
    rfl
  | succ k ih =>
    obtain ⟨f, rfl⟩ : ∃ f, fuel = f + 1 := ⟨fuel - 1, by omega⟩
    have hpos := Nat.two_pow_pos k
    have e : ((2 ^ (k + 1) : Nat) : Int) >>> (1 : Nat) = (2 ^ k : Nat) := by
      rw [Int.shiftRight_eq_div_pow, Nat.pow_succ]
      omega
    rw [PoolArena.smallIdxLoop, if_pos (by rw [Nat.pow_succ]; omega), e, ih _ _ (by omega)]
    congr 1
    omega

/-- Shifted to the right, a negative number stays negative. -/
theorem smallIdxLoop_neg (fuel : Nat) {i : Int} (hi : i < 0) (t : Nat) : PoolArena.smallIdxLoop fuel i t = none := by
  induction fuel generalizing i t with
  | zero => rfl
  | succ fuel ih =>
    have e : i >>> (1 : Nat) < 0 := by
      rw [Int.shiftRight_eq_div_pow]
      omega
    rw [PoolArena.smallIdxLoop, if_pos (by omega), ih e]

theorem smallIdx_pow {k : Nat} (h9 : 9 ≤ k) (hk : k ≤ 31) : PoolArena.smallIdx (2 ^ k : Nat) = some (k - 9) := by
  rcases Nat.eq_or_lt_of_le h9 with rfl | h
  · rfl
  · obtain ⟨j, rfl⟩ : ∃ j, k = j + 10 := ⟨k - 10, by omega⟩
    have e : ((2 ^ (j + 10) : Nat) : Int) >>> (10 : Nat) = (2 ^ j : Nat) := by
      rw [Int.shiftRight_eq_div_pow, Nat.pow_add]
      omega
    rw [PoolArena.smallIdx, e, smallIdxLoop_pow j 32 0 (by omega)]
    congr 1
    omega

namespace PoolArena.Laid

variable (h : a.Laid l)
include h

theorem alive_head {r : SubpageRef} (hr : IsHead l r) : a.Alive r := by
  cases r with
  | tiny i => exact hr
  | small i =>
    show i < a.numSmallSubpagePools_
    rw [h.numSmallSubpagePools_]
    exact hr
  | page => exact hr.elim

theorem tableAt {r : SubpageRef} (hr : IsHead l r) : tableAt r a = .ok r a := if_pos (h.alive_head hr)

/-- The head of an element size, wherever it is looked up. -/
theorem poolHead (hn : SizeClass l n) : poolHead n a = .ok (headOf n) a := by
  have hl := l.sum_le
  have hhead := headOf_isHead hn
  have hint : i32 n = n := by
    have h1 := hn.two_mul_le
    have h2 := l.pageSize_le_chunkSize
    have h3 := l.chunkSize_le
    exact i32_eq (by omega) (by omega)
  unfold PoolArena.poolHead
  rcases hn with ⟨h1, h2⟩ | ⟨k, hk, hkl, rfl⟩
  · have e : tinyIdx n = n / 16 := by
      rw [tinyIdx, Int.shiftRight_eq_div_pow]
      omega
    rw [headOf, if_pos h1] at hhead ⊢
    rw [if_pos ((isTiny_iff hint).mpr (by omega)), e, h.tableAt hhead]
  · have h512 : ¬2 ^ k < 512 := Nat.not_lt.mpr (Nat.pow_le_pow_right (show 2 > 0 by decide) hk)
    rw [headOf, if_neg h512, Nat.log2_two_pow] at hhead ⊢
    rw [if_neg (by rw [isTiny_iff hint]; omega), smallIdx_pow hk (by omega)]
    exact h.tableAt hhead

theorem findSubpagePoolHead (hn : SizeClass l n) : findSubpagePoolHead n a = .ok (headOf n) a := h.poolHead hn

end PoolArena.Laid

/-! ## Requests -/

/-- What a request becomes: the size of an element, a run of pages, or itself if no chunk of
the arena can hold it. -/
inductive Normalized (l : Layout) (reqCapacity : Int) : Int → Prop
  | elem {m : Nat} : SizeClass l m → reqCapacity ≤ m → Normalized l reqCapacity m
  | run {k : Nat} : l.pageShifts ≤ k → k ≤ l.pageShifts + l.maxOrder → reqCapacity ≤ (2 ^ k : Nat) →
      Normalized l reqCapacity (2 ^ k : Nat)
  | huge : (l.chunkSize : Int) < reqCapacity → Normalized l reqCapacity reqCapacity

theorem Normalized.of_pow {req : Int} {k : Nat} (h9 : 9 ≤ k) (hk : k ≤ l.pageShifts + l.maxOrder)
    (hr : req ≤ (2 ^ k : Nat)) : Normalized l req (2 ^ k : Nat) := by
  by_cases hp : l.pageShifts ≤ k
  · exact .run hp hk hr
  · exact .elem (.inr ⟨k, h9, by omega, rfl⟩) hr

/-- From 512 on, the next power of two. -/
theorem smear_int {req : Int} (h0 : 1 ≤ req) (h : req ≤ 2 ^ 30) :
    (orShift (orShift (orShift (orShift (orShift (BitVec.ofInt 32 req - 1) 1) 2) 4) 8) 16 + 1).toInt =
      roundUp req.toNat := by
  have hb := toNat_ofInt32 (i32_eq (show -2147483648 ≤ req by omega) (by omega))
  rw [if_pos (by omega)] at hb
  have e1 : (BitVec.ofInt 32 req - 1).toNat = req.toNat - 1 := by
    rw [BitVec.toNat_sub]
    show (4294967296 - 1 + (BitVec.ofInt 32 req).toNat) % 4294967296 = _
    omega
  have hs := orShift_eq_smear (b := BitVec.ofInt 32 req - 1) (by omega)
  have hle : roundUp req.toNat ≤ 2 ^ 30 := roundUp_le (by omega)
  rw [e1] at hs
  have hr := smear_succ (n := req.toNat) (by omega) (by omega)
  have e2 : (orShift (orShift (orShift (orShift (orShift (BitVec.ofInt 32 req - 1) 1) 2) 4) 8) 16 + 1).toNat =
      roundUp req.toNat := by
    rw [BitVec.toNat_add, hs]
    show (smear (req.toNat - 1) + 1) % 4294967296 = _
    rw [hr]
    omega
  rw [BitVec.toInt_eq_toNat_of_lt (by omega), e2]

/-- Negative numbers become zero. -/
theorem smear_negative {req : Int} (h0 : intMin < req) (h : req < 0) :
    (orShift (orShift (orShift (orShift (orShift (BitVec.ofInt 32 req - 1) 1) 2) 4) 8) 16 + 1).toInt = 0 := by
  simp only [intMin] at h0
  have hb := toNat_ofInt32 (i32_eq (show -2147483648 ≤ req by omega) (by omega))
  rw [if_neg (by omega)] at hb
  have hm : (BitVec.ofInt 32 req - 1).msb = true := by
    rw [BitVec.msb_eq_decide, decide_eq_true_eq, BitVec.toNat_sub]
    show 2147483648 ≤ (4294967296 - 1 + (BitVec.ofInt 32 req).toNat) % 4294967296
    omega
  rw [orShift_of_neg hm]
  decide

/-- Below 512, the next multiple of 16. -/
theorem quantum_eq : ∀ m < 512, (if BitVec.ofInt 32 (m : Nat) &&& 15 = 0 then (m : Int)
    else ((BitVec.ofInt 32 (m : Nat) &&& ~~~15) + 16).toInt) = ((m + 15) / 16 * 16 : Nat) := by
  decide +kernel

/-- Every `int` but the least becomes one of these. -/
theorem PoolArena.Laid.normalizeCapacity (h : a.Laid l) {req : Int} (hr : i32 req = req) (hm : req ≠ intMin) :
    Normalized l req (a.normalizeCapacity req) := by
  have hc := l.chunkSize_le
  have hp := l.pageSize_le
  have hpc := l.pageSize_le_chunkSize
  unfold PoolArena.normalizeCapacity
  rw [h.chunkSize_]
  split
  case isTrue hge =>
    rcases Int.lt_or_eq_of_le hge with hlt | he
    · exact .huge hlt
    · rw [← he]
      exact .run (Nat.le_add_right _ _) (Nat.le_refl _) (Int.le_refl _)
  case isFalse hlt =>
    split
    case isTrue ht =>
      rw [isTiny_iff hr] at ht
      by_cases h0 : 0 ≤ req
      · have hle : roundUp req.toNat ≤ 2 ^ (l.pageShifts + l.maxOrder) := roundUp_le (by
          show req.toNat ≤ l.chunkSize
          omega)
        have hge := le_roundUp req.toNat
        have h9 : 9 ≤ (req.toNat - 1).size := Nat.lt_size.mpr (by omega)
        have hk : (req.toNat - 1).size ≤ l.pageShifts + l.maxOrder :=
          (Nat.pow_le_pow_iff_right (show 1 < 2 by decide)).mp hle
        simp only [smear_int (show 1 ≤ req by omega) (by omega)]
        rw [if_neg (by omega)]
        exact .of_pow h9 hk (by rw [roundUp] at hge; omega)
      · have h0 : intMin < req := by
          simp only [intMin] at hm ⊢
          unfold i32 at hr
          omega
        simp only [smear_negative h0 (by omega)]
        exact .elem (m := 0) (.inl ⟨by decide, rfl⟩) (by omega)
    case isFalse ht =>
      obtain ⟨h0, h512⟩ := (isTiny_iff hr).mp (not_not.mp ht)
      obtain ⟨m, rfl⟩ : ∃ m : Nat, req = m := ⟨req.toNat, by omega⟩
      have hm : m < 512 := by omega
      simp only [quantum_eq m hm]
      by_cases hq : (m + 15) / 16 * 16 < 512
      · exact .elem (.inl ⟨hq, by omega⟩) (by omega)
      · have e : (m + 15) / 16 * 16 = 2 ^ 9 := by omega
        rw [e]
        exact .of_pow (Nat.le_refl 9) (by have := l.pageShifts_ge; omega) (by omega)

/-- Of the least `int` nothing comes: its head is looked for without end. -/
theorem PoolArena.Laid.normalizeCapacity_intMin (h : a.Laid l) : a.normalizeCapacity intMin = -2 ^ 30 := by
  have e : ¬intMin ≥ (l.chunkSize : Int) := by simp only [intMin]; omega
  unfold PoolArena.normalizeCapacity
  rw [h.chunkSize_, if_neg e]
  decide

theorem Normalized.int {req n : Int} (h : Normalized l req n) (hr : i32 req = req) : i32 n = n := by
  have hc := l.chunkSize_le
  have hpc := l.pageSize_le_chunkSize
  cases h with
  | elem hm _ =>
    have := hm.two_mul_le
    exact i32_eq (by omega) (by omega)
  | @run k _ hk _ =>
    have : 2 ^ k ≤ 2 ^ (l.pageShifts + l.maxOrder) := Nat.pow_le_pow_right (by decide) hk
    have := Nat.two_pow_pos k
    rw [Layout.chunkSize] at hc
    generalize 2 ^ k = x at *
    exact i32_eq (by omega) (by omega)
  | huge => exact hr

end Nio.Pool
