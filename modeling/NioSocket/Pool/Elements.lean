import NioSocket.Pool.SizeClass
import Mathlib.Data.Finset.Card

/-!
# The elements of a page

The bitmap of a subpage, its counter and its hint say the same about the elements
(`Elems`), and `allocate`, `free` and `init` keep them in step: `takeNext` gives out an
element that is there, `giveBack` takes back one that was given out.
-/

namespace Nio.Pool.PoolSubpage

variable {l : Layout} {s s' : PoolSubpage} {i j n : Nat}

/-- Element `j` is given out. -/
def bit (s : PoolSubpage) (j : Nat) : Bool := (s.bitmap_ (j / 64)).getLsbD (j % 64)

/-- The elements that are not given out. -/
def clear (s : PoolSubpage) : Finset Nat := {j ∈ Finset.range s.maxNumElems_ | s.bit j = false}

theorem mem_clear : j ∈ s.clear ↔ j < s.maxNumElems_ ∧ s.bit j = false := by
  rw [clear, Finset.mem_filter, Finset.mem_range]

/-- The bitmap, the counter and the hint. -/
structure Elems (s : PoolSubpage) : Prop where
  elemSize_pos : 0 < s.elemSize_
  maxNumElems_ : s.maxNumElems_ = s.pageSize_ / s.elemSize_
  le_bitmapLength_ : s.maxNumElems_ ≤ 64 * s.bitmapLength_
  bitmapLength_le : s.bitmapLength_ ≤ s.pageSize_ >>> 10
  numAvail_ : s.numAvail_ = s.clear.card
  nextAvail_ : s.nextAvail_ = -1 ∨ ∃ j ∈ s.clear, s.nextAvail_ = j

/-! ## Looking for an element -/

theorem and_one_eq_zero_iff (b : BitVec 64) : b &&& 1 = 0 ↔ b.getLsbD 0 = false := by
  constructor
  · intro h
    have := congrArg (·.getLsbD 0) h
    simpa using this
  · intro h
    refine BitVec.eq_of_getLsbD_eq fun i hi => ?_
    rcases Nat.eq_zero_or_pos i with rfl | hp
    · rw [BitVec.getLsbD_and, h]
      rfl
    · simp [BitVec.getLsbD_and, Nat.ne_of_gt hp]

/-- The first clear bit of a word, from bit `j` on. -/
theorem findNextAvail0Loop_eq (max base : Nat) (w : BitVec 64) {bits : BitVec 64} (hn : n + j = 64)
    (hb : ∀ x, j + x < 64 → bits.getLsbD x = w.getLsbD (j + x)) (hc : ∃ k, j ≤ k ∧ k < 64 ∧ w.getLsbD k = false) :
    ∃ k, j ≤ k ∧ k < 64 ∧ w.getLsbD k = false ∧ (∀ i, j ≤ i → i < k → w.getLsbD i = true) ∧
      findNextAvail0Loop max base n j bits = if base ||| k < max then ((base ||| k : Nat) : Int) else -1 := by
  induction n generalizing j bits with
  | zero =>
    obtain ⟨k, h1, h2, -⟩ := hc
    omega
  | succ n ih =>
    have h0 := hb 0 (by omega)
    rw [Nat.add_zero] at h0
    have hz := and_one_eq_zero_iff bits
    rw [h0] at hz
    rw [findNextAvail0Loop]
    by_cases hw : w.getLsbD j = false
    · refine ⟨j, Nat.le_refl j, by omega, hw, fun i h1 h2 => by omega, ?_⟩
      rw [if_pos (hz.mpr hw)]
    · rw [if_neg fun h => hw (hz.mp h)]
      have hb' : ∀ x, j + 1 + x < 64 → (bits.sshiftRight 1).getLsbD x = w.getLsbD (j + 1 + x) := by
        intro x hx
        rw [BitVec.getLsbD_sshiftRight, if_pos (by omega), hb (1 + x) (by omega), ← Nat.add_assoc]
        simp [show ¬64 ≤ x by omega]
      obtain ⟨k, h1, h2, h3⟩ := hc
      have hjk : j ≠ k := by rintro rfl; exact hw h3
      obtain ⟨k, h4, h5, h6, h7, e⟩ := ih (by omega) hb' ⟨k, by omega, h2, h3⟩
      refine ⟨k, by omega, h5, h6, fun i hi hik => ?_, e⟩
      rcases Nat.eq_or_lt_of_le hi with rfl | hi
      · simpa using hw
      · exact h7 i hi hik

theorem long_eq (h : i < s.pageSize_ >>> 10) : long i s = .ok (s.bitmap_ i) s := if_pos h

/-- The word of element `j`, and its bit in it. -/
theorem word_eq (j : Nat) : j >>> 6 = j / 64 ∧ j &&& 63 = j % 64 :=
  ⟨Nat.shiftRight_eq_div_pow j 6, Nat.and_two_pow_sub_one_eq_mod j 6⟩

/-- `findNextAvail` gives the first clear bit from word `i` on, if there is one below `maxNumElems_`. -/
theorem findNextAvailLoop_eq (hl : s.bitmapLength_ ≤ s.pageSize_ >>> 10) (hn : n + i = s.bitmapLength_)
    (hc : ∃ j, 64 * i ≤ j ∧ j < s.maxNumElems_ ∧ j < 64 * s.bitmapLength_ ∧ s.bit j = false) :
    ∃ j : Nat, findNextAvailLoop n i s = .ok (j : Int) s ∧ j < s.maxNumElems_ ∧ s.bit j = false := by
  induction n generalizing i with
  | zero =>
    obtain ⟨j, h1, -, h2, -⟩ := hc
    omega
  | succ n ih =>
    obtain ⟨j, h1, h2, h3, h4⟩ := hc
    rw [findNextAvailLoop, Method.bind_apply, long_eq (by omega), Outcome.bind_ok, Method.ite_apply]
    split
    case isTrue hw =>
      -- this word has a clear bit
      have hex : ∃ k, 0 ≤ k ∧ k < 64 ∧ (s.bitmap_ i).getLsbD k = false := by
        by_contra hno
        refine hw (BitVec.eq_of_getLsbD_eq fun k hk => ?_)
        have : (s.bitmap_ i).getLsbD k = true := by
          by_contra hf
          exact hno ⟨k, Nat.zero_le k, hk, by simpa using hf⟩
        simp [this]
      obtain ⟨k, -, hk, hb, hfirst, e⟩ := findNextAvail0Loop_eq s.maxNumElems_ (i <<< 6)
        (s.bitmap_ i) (n := 64) rfl (fun x _ => congrArg (s.bitmap_ i).getLsbD (Nat.zero_add x).symm) hex
      have hor : i <<< 6 ||| k = 64 * i + k := by
        rw [← Nat.shiftLeft_add_eq_or_of_lt hk, Nat.shiftLeft_eq]
        omega
      -- no clear bit comes before it, so it is below `maxNumElems_`
      have hlt : 64 * i + k < s.maxNumElems_ := by
        by_contra hge
        have hj : j / 64 = i := by omega
        have := hfirst (j % 64) (Nat.zero_le _) (by omega)
        rw [bit, hj] at h4
        rw [h4] at this
        cases this
      refine ⟨64 * i + k, ?_, hlt, ?_⟩
      · rw [Method.get_apply, findNextAvail0, e, hor, if_pos hlt]
      · rw [bit, show (64 * i + k) / 64 = i by omega, show (64 * i + k) % 64 = k by omega, hb]
    case isFalse hw =>
      refine ih (by omega) ⟨j, ?_, h2, h3, h4⟩
      by_contra hlt
      have hj : j / 64 = i := by omega
      have hones : s.bitmap_ i = BitVec.allOnes 64 := by
        have := congrArg (~~~ ·) (not_not.mp hw)
        simpa using this
      rw [bit, hj, hones, BitVec.getLsbD_allOnes] at h4
      simp [Nat.mod_lt] at h4

/-! ## Giving out and taking back -/

/-- The subpage when element `j` is given out. -/
def take (s : PoolSubpage) (j : Nat) : PoolSubpage :=
  { s with
    bitmap_ := Function.update s.bitmap_ (j / 64) (s.bitmap_ (j / 64) ||| 1#64 <<< (j % 64))
    numAvail_ := s.numAvail_ - 1
    nextAvail_ := -1 }

/-- The subpage when element `j` is taken back. -/
def give (s : PoolSubpage) (j : Nat) : PoolSubpage :=
  { s with
    bitmap_ := Function.update s.bitmap_ (j / 64) (s.bitmap_ (j / 64) ^^^ 1#64 <<< (j % 64))
    numAvail_ := s.numAvail_ + 1
    nextAvail_ := j }

theorem getLsbD_one_shiftLeft {r k : Nat} (hr : r < 64) : (1#64 <<< k).getLsbD r = decide (r = k) := by
  rw [BitVec.getLsbD_shiftLeft]
  by_cases h : r = k
  · subst h
    simp [hr]
  · simp only [hr, decide_true, Bool.true_and, BitVec.getLsbD_one, h, decide_false, Bool.and_eq_false_imp,
      Bool.not_eq_true', decide_eq_false_iff_not]
    omega

theorem bit_take : (s.take j).bit i = (s.bit i || decide (i = j)) := by
  unfold bit take
  by_cases hq : i / 64 = j / 64
  · simp only [hq, Function.update_self, BitVec.getLsbD_or,
      getLsbD_one_shiftLeft (Nat.mod_lt i (by decide : 0 < 64))]
    congr 1
    rw [decide_eq_decide]
    omega
  · have : i ≠ j := by rintro rfl; exact hq rfl
    simp [Function.update_of_ne hq, this]

theorem bit_give : (s.give j).bit i = (s.bit i ^^ decide (i = j)) := by
  unfold bit give
  by_cases hq : i / 64 = j / 64
  · simp only [hq, Function.update_self, BitVec.getLsbD_xor,
      getLsbD_one_shiftLeft (Nat.mod_lt i (by decide : 0 < 64))]
    congr 1
    rw [decide_eq_decide]
    omega
  · have : i ≠ j := by rintro rfl; exact hq rfl
    simp [Function.update_of_ne hq, this]

theorem clear_take : (s.take j).clear = s.clear.erase j := by
  ext i
  rw [Finset.mem_erase, mem_clear, mem_clear, bit_take]
  show i < s.maxNumElems_ ∧ _ ↔ _
  simp
  tauto

theorem clear_give (hb : s.bit j = true) (hj : j < s.maxNumElems_) : (s.give j).clear = insert j s.clear := by
  ext i
  rw [Finset.mem_insert, mem_clear, mem_clear, bit_give]
  show i < s.maxNumElems_ ∧ _ ↔ _
  by_cases hi : i = j
  · subst hi
    simp [hb, hj]
  · simp [hi]

/-- The test of one bit of the bitmap. -/
theorem sshiftRight_and_one (b : BitVec 64) {r : Nat} (hr : r < 64) :
    b.sshiftRight r &&& 1 = 0 ↔ b.getLsbD r = false := by
  rw [and_one_eq_zero_iff, BitVec.getLsbD_sshiftRight]
  simp [hr]

namespace Elems

variable (E : s.Elems)
include E

theorem word_lt (hj : j < s.maxNumElems_) : j / 64 < s.pageSize_ >>> 10 := by
  have h1 := E.le_bitmapLength_
  have h2 := E.bitmapLength_le
  omega

theorem getNextAvail (h : 0 < s.numAvail_) :
    ∃ j ∈ s.clear, getNextAvail s = .ok (j : Int) { s with nextAvail_ := -1 } := by
  rcases E.nextAvail_ with hn | ⟨j, hj, hn⟩
  · obtain ⟨j, hj⟩ := Finset.card_pos.mp (E.numAvail_ ▸ h)
    rw [mem_clear] at hj
    have hlen := E.le_bitmapLength_
    obtain ⟨i, e, hi, hb⟩ := findNextAvailLoop_eq (s := s) (n := s.bitmapLength_) (i := 0) E.bitmapLength_le rfl
      ⟨j, Nat.zero_le _, hj.1, by omega, hj.2⟩
    refine ⟨i, mem_clear.mpr ⟨hi, hb⟩, ?_⟩
    simp only [PoolSubpage.getNextAvail, Method.bind_apply, Method.get_apply, Outcome.bind_ok, hn]
    rw [if_neg (by decide), findNextAvail, e, ← hn]
  · refine ⟨j, hj, ?_⟩
    simp only [PoolSubpage.getNextAvail, Method.bind_apply, Method.get_apply, Outcome.bind_ok, hn]
    rw [if_pos (by omega)]
    rfl

/-- `allocate()` finds an element that is not given out. -/
theorem takeNext (h : 0 < s.numAvail_) : ∃ j ∈ s.clear, takeNext s = .ok j (s.take j) := by
  obtain ⟨j, hj, e⟩ := E.getNextAvail h
  obtain ⟨hlt, hb⟩ := mem_clear.mp hj
  refine ⟨j, hj, ?_⟩
  have hw : long (j / 64) { s with nextAvail_ := -1 } = .ok (s.bitmap_ (j / 64)) { s with nextAvail_ := -1 } :=
    long_eq (s := { s with nextAvail_ := -1 }) (E.word_lt hlt)
  have hz := (sshiftRight_and_one (s.bitmap_ (j / 64)) (Nat.mod_lt j (by decide))).mpr hb
  simp only [PoolSubpage.takeNext, Method.bind_apply, e, Outcome.bind_ok, assert_ok (Int.natCast_nonneg j),
    Int.toNat_natCast, (word_eq j).1, (word_eq j).2, hw, assert_ok hz, Method.modify_apply, Method.pure_apply]
  rfl

/-- `free(head, j)` finds that `j` is given out. -/
theorem giveBack (hj : j < s.maxNumElems_) (hb : s.bit j = true) : giveBack j s = .ok () (s.give j) := by
  have hz : (s.bitmap_ (j / 64)).sshiftRight (j % 64) &&& 1 ≠ 0 := by
    rw [Ne, sshiftRight_and_one _ (Nat.mod_lt j (by decide))]
    rw [bit] at hb
    simp [hb]
  simp only [PoolSubpage.giveBack, Method.bind_apply, (word_eq j).1, (word_eq j).2, long_eq (E.word_lt hj),
    Outcome.bind_ok, assert_ok hz, Method.modify_apply]
  rfl

theorem take (hj : j ∈ s.clear) : (s.take j).Elems where
  elemSize_pos := E.elemSize_pos
  maxNumElems_ := E.maxNumElems_
  le_bitmapLength_ := E.le_bitmapLength_
  bitmapLength_le := E.bitmapLength_le
  numAvail_ := by
    rw [clear_take, Finset.card_erase_of_mem hj, ← E.numAvail_]
    rfl
  nextAvail_ := .inl rfl

theorem give (hj : j < s.maxNumElems_) (hb : s.bit j = true) : (s.give j).Elems where
  elemSize_pos := E.elemSize_pos
  maxNumElems_ := E.maxNumElems_
  le_bitmapLength_ := E.le_bitmapLength_
  bitmapLength_le := E.bitmapLength_le
  numAvail_ := by
    have hn : j ∉ s.clear := fun hc => by simp [(mem_clear.mp hc).2] at hb
    rw [clear_give hb hj, Finset.card_insert_of_notMem hn, ← E.numAvail_]
    rfl
  nextAvail_ := .inr ⟨j, by rw [clear_give hb hj]; exact Finset.mem_insert_self _ _, rfl⟩

theorem numAvail_le : s.numAvail_ ≤ s.maxNumElems_ := by
  rw [E.numAvail_]
  exact (Finset.card_filter_le _ _).trans_eq (Finset.card_range _)

/-- All elements are there exactly if none is given out. -/
theorem numAvail_eq_iff : s.numAvail_ = s.maxNumElems_ ↔ ∀ j < s.maxNumElems_, s.bit j = false := by
  rw [E.numAvail_, clear]
  constructor
  · intro h j hj
    have := Finset.filter_eq_self.mp (Finset.eq_of_subset_of_card_le (Finset.filter_subset _ _)
      (by rw [Finset.card_range, h]))
    exact this j (Finset.mem_range.mpr hj)
  · intro h
    rw [Finset.filter_true_of_mem fun j hj => h j (Finset.mem_range.mp hj), Finset.card_range]

end Elems

theorem initElems_of_ne (h0 : n ≠ 0) : s.initElems n =
    { s with
      doNotDestroy_ := true
      elemSize_ := n
      maxNumElems_ := s.pageSize_ / n
      numAvail_ := s.pageSize_ / n
      nextAvail_ := 0
      bitmapLength_ := s.pageSize_ / n / 64 + if s.pageSize_ / n % 64 ≠ 0 then 1 else 0
      bitmap_ := fun i =>
        if i < s.pageSize_ / n / 64 + if s.pageSize_ / n % 64 ≠ 0 then 1 else 0 then 0 else s.bitmap_ i } := by
  simp only [initElems, h0, ne_eq, not_false_eq_true, if_true, word_eq]

/-- A page that is divided into elements of size `n`. -/
theorem initElems_elems (hs : SizeClass l n) (h0 : n ≠ 0) (hp : s.pageSize_ = l.pageSize) :
    (s.initElems n).Elems ∧ (s.initElems n).numAvail_ = (s.initElems n).maxNumElems_ ∧
      ∀ j < (s.initElems n).maxNumElems_, (s.initElems n).bit j = false := by
  have hmax : s.pageSize_ / n ≤ s.pageSize_ / 16 := Nat.div_le_div_left (hs.ge h0) (by decide)
  have h1024 : s.pageSize_ % 1024 = 0 := by
    rw [hp, Layout.pageSize]
    exact Nat.mod_eq_zero_of_dvd (Nat.pow_dvd_pow 2 (Nat.le_trans (show 10 ≤ 12 by decide) l.pageShifts_ge))
  have h2 : 0 < s.pageSize_ / n := by
    have := hs.two_mul_le
    rw [hp]
    exact Nat.div_pos (by omega) (by omega)
  have hle : s.pageSize_ / n ≤ 64 * (s.pageSize_ / n / 64 + if s.pageSize_ / n % 64 ≠ 0 then 1 else 0) := by
    split <;> omega
  have hz : ∀ j < s.pageSize_ / n, (s.initElems n).bit j = false := by
    intro j hj
    rw [bit, initElems_of_ne h0]
    dsimp only
    rw [if_pos (by omega)]
    exact BitVec.getLsbD_zero
  have hc : (s.initElems n).clear = Finset.range (s.pageSize_ / n) := by
    rw [clear, Finset.filter_true_of_mem] <;> rw [initElems_of_ne h0]
    intro j hj
    rw [← initElems_of_ne h0]
    exact hz j (Finset.mem_range.mp hj)
  rw [initElems_of_ne h0] at hz hc ⊢
  refine ⟨⟨Nat.pos_of_ne_zero h0, rfl, hle, ?_, ?_, .inr ⟨0, ?_, rfl⟩⟩, rfl, hz⟩
  · show _ ≤ s.pageSize_ >>> 10
    rw [Nat.shiftRight_eq_div_pow]
    dsimp only
    split <;> omega
  · rw [hc, Finset.card_range]
  · rw [hc, Finset.mem_range]
    exact h2

end Nio.Pool.PoolSubpage
