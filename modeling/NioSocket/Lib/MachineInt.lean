import Mathlib.Data.Nat.Bitwise
import Mathlib.Data.Nat.Size

/-!
# Machine integers

Two's complement wrap-around of 32-bit and 64-bit integers (`i32`, `i64`), and
rounding up to a power of two by smearing the leading bit (`smear`), which the
source does in several places.
-/

namespace Nio

/-- The value of `x` as a 32-bit `int`. -/
def i32 (x : Int) : Int := (x + 2147483648) % 4294967296 - 2147483648

/-- The value of `x` as a 64-bit `long`. -/
def i64 (x : Int) : Int :=
  (x + 9223372036854775808) % 18446744073709551616 - 9223372036854775808

/-- `INT_MAX`. -/
abbrev intMax : Int := 2147483647

/-- The value of a `w`-bit two's complement number with the bits of `v`. -/
def signed (w v : Nat) : Int := if 2 * v < 2 ^ w then v else (v : Int) - 2 ^ w

theorem i32_eq {x : Int} (h₁ : -2147483648 ≤ x) (h₂ : x ≤ 2147483647) : i32 x = x := by
  unfold i32; omega

theorem i32_range (x : Int) : -2147483648 ≤ i32 x ∧ i32 x ≤ 2147483647 := by
  unfold i32; omega

theorem i32_i32_add (x y : Int) : i32 (i32 x + y) = i32 (x + y) := by
  unfold i32; omega

theorem i64_eq {x : Int} (h₁ : -9223372036854775808 ≤ x) (h₂ : x ≤ 9223372036854775807) :
    i64 x = x := by
  unfold i64; omega

/-! ## Smearing the leading bit -/

/-- One step of the smear: `n | n >> k`. -/
def smearStep (n k : Nat) : Nat := n ||| n >>> k

/-- `n |= n >> 1; n |= n >> 2; …; n |= n >> 16`. -/
def smear (n : Nat) : Nat := smearStep (smearStep (smearStep (smearStep (smearStep n 1) 2) 4) 8) 16

/-- The bits of `m` are those of `n` and of its shifts by less than `w`. -/
def SmearOf (w n m : Nat) : Prop := ∀ i, m.testBit i = true ↔ ∃ j < w, n.testBit (i + j) = true

theorem SmearOf.step {w n m : Nat} (h : SmearOf w n m) : SmearOf (w + w) n (smearStep m w) := by
  intro i
  simp only [smearStep, Nat.testBit_or, Bool.or_eq_true, Nat.testBit_shiftRight, h i, h (w + i)]
  constructor
  · rintro (⟨j, hj, hb⟩ | ⟨j, hj, hb⟩)
    · exact ⟨j, by omega, hb⟩
    · exact ⟨w + j, by omega, by rwa [show i + (w + j) = w + i + j by omega]⟩
  · rintro ⟨j, hj, hb⟩
    by_cases hw : j < w
    · exact .inl ⟨j, hw, hb⟩
    · exact .inr ⟨j - w, by omega, by rwa [show w + i + (j - w) = i + j by omega]⟩

theorem smear_of (n : Nat) : SmearOf 32 n (smear n) := by
  have h1 : SmearOf 1 n n := fun i => by simp
  exact h1.step.step.step.step.step

/-- Smearing a 32-bit number sets every bit below its leading one. -/
theorem smear_eq {n : Nat} (h : n < 2 ^ 32) : smear n = 2 ^ n.size - 1 := by
  refine Nat.eq_of_testBit_eq fun i => Bool.eq_iff_iff.mpr ?_
  rw [smear_of n i, Nat.testBit_two_pow_sub_one, decide_eq_true_eq]
  constructor
  · rintro ⟨j, -, hb⟩
    by_contra hlt
    have : n < 2 ^ (i + j) :=
      Nat.lt_of_lt_of_le (Nat.lt_size_self n) (Nat.pow_le_pow_right (by decide) (by omega))
    rw [Nat.testBit_lt_two_pow this] at hb
    cases hb
  · intro hi
    have hsize : n.size ≤ 32 := Nat.size_le.mpr h
    have hn : n ≠ 0 := by rintro rfl; simp at hi
    refine ⟨n.size - 1 - i, by omega, ?_⟩
    rw [show i + (n.size - 1 - i) = n.size - 1 by omega]
    have hlo : 2 ^ (n.size - 1) ≤ n := Nat.lt_size.mp (by omega)
    have hhi : n < 2 ^ n.size := Nat.lt_size_self n
    rw [Nat.testBit_eq_decide_div_mod_eq]
    have hd : n / 2 ^ (n.size - 1) = 1 := by
      refine Nat.div_eq_of_lt_le (by omega) ?_
      rw [show 1 + 1 = 2 from rfl, ← Nat.pow_succ', show (n.size - 1).succ = n.size by omega]
      exact hhi
    simp [hd]

/-- The power of two that a number from `1` to `2 ^ 32` is rounded up to. -/
def roundUp (n : Nat) : Nat := 2 ^ (n - 1).size

theorem smear_succ {n : Nat} (h1 : 1 ≤ n) (h : n ≤ 2 ^ 32) : smear (n - 1) + 1 = roundUp n := by
  rw [smear_eq (by omega), roundUp]
  have := Nat.two_pow_pos (n - 1).size
  omega

theorem le_roundUp (n : Nat) : n ≤ roundUp n := by
  have := Nat.lt_size_self (n - 1)
  unfold roundUp
  omega

theorem roundUp_le {n k : Nat} (h : n ≤ 2 ^ k) : roundUp n ≤ 2 ^ k := by
  refine Nat.pow_le_pow_right (by decide) (Nat.size_le.mpr ?_)
  have := Nat.two_pow_pos k
  omega

theorem roundUp_eq_of_le {n k : Nat} (h : n ≤ 2 ^ k) (h' : 2 ^ k ≤ roundUp n) : roundUp n = 2 ^ k :=
  Nat.le_antisymm (roundUp_le h) h'

end Nio
