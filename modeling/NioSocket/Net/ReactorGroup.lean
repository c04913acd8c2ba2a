import Mathlib.Data.Nat.Prime.Basic
import Mathlib.Algebra.Order.Group.Unbundled.Int
import Mathlib.Data.List.Nodup
import Mathlib.Tactic.Positivity
import NioSocket.Lib.MachineInt
import NioSocket.Lib.Outcome

/-!
# The reactors of a group

`NioEventReactorGroup` hands out its reactors in turn. The turn is an `int` that wraps; where
the number of reactors is a power of two its low bits are the index, and else the remainder
is, which has the sign of the turn. So a group of another size is right until the turn
becomes negative (`serves_iff`).
-/

namespace Nio.Net

/-- The two subclasses of `NioEventReactorChooser`. -/
inductive NioEventReactorChooser
  | powerOfTwo
  | generic
  deriving DecidableEq, Repr

/-- A group, the reactors numbered as they were made, with the data members of its chooser. -/
structure NioEventReactorGroup where
  eventReactors_ : List Nat
  chooser_ : NioEventReactorChooser
  size_ : Int
  childIndex_ : Int
  deriving DecidableEq, Repr

namespace NioEventReactorGroup

/-- `isPowerOfTwo(val)`. -/
def isPowerOfTwo (val : Int) : Bool := BitVec.ofInt 32 val &&& BitVec.ofInt 32 (-val) == BitVec.ofInt 32 val

/-- `init(nThreads)`, on a machine of so many processors. -/
def init (hardware_concurrency : Nat) (nThreads : Int) : NioEventReactorGroup :=
  let nThreads := if nThreads = 0 then i32 (hardware_concurrency * 2 % 2 ^ 32) else nThreads
  let eventReactors := List.range nThreads.toNat
  { eventReactors_ := eventReactors
    chooser_ := if isPowerOfTwo nThreads then .powerOfTwo else .generic
    size_ := i32 eventReactors.length
    childIndex_ := 0 }

/-- The index of the reactor that is next. -/
def index (g : NioEventReactorGroup) : Int :=
  match g.chooser_ with
  | .powerOfTwo => (BitVec.ofInt 32 g.childIndex_ &&& BitVec.ofInt 32 (g.size_ - 1)).toInt
  | .generic => g.childIndex_.tmod g.size_

/-- What `childIndex_.getAndIncrement()` leaves. -/
def increment (g : NioEventReactorGroup) : NioEventReactorGroup := { g with childIndex_ := i32 (g.childIndex_ + 1) }

/-- `next()`, up to the start of the reactor. The vector does not check its index. -/
def next : Method NioEventReactorGroup Nat := fun g =>
  if 0 ≤ g.index ∧ g.index < g.eventReactors_.length then
    .ok (g.eventReactors_.getD g.index.toNat 0) g.increment
  else .ub

/-- So many calls of `next()`. -/
def nexts : Nat → Method NioEventReactorGroup (List Nat)
  | 0 => pure []
  | k + 1 => do
    let reactor ← next
    let reactors ← nexts k
    pure (reactor :: reactors)

/-- A group of `n` reactors whose turn was taken `k` times. -/
def after (n : Int) (k : Nat) : NioEventReactorGroup := increment^[k] (init 0 n)

/-- What the first `calls` calls on a group of `n` reactors should do: use an index of the group, and
pick another reactor with each of `n` calls that do not wrap the turn. -/
structure Serves (n : Int) (calls : Nat) : Prop where
  inRange : ∀ k < calls, 0 ≤ (after n k).index ∧ (after n k).index < n
  distinct : ∀ k : Nat, k + n ≤ calls → (after n k).childIndex_ + (n - 1) ≤ intMax →
    ∃ reactors g, nexts n.toNat (after n k) = .ok reactors g ∧ reactors.Nodup

/-! ## Powers of two -/

/-- `x & -x` is the lowest bit of `x`. -/
theorem and_neg_eq_iff (x : BitVec 32) : x &&& -x = x ↔ x &&& (x - 1#32) = 0#32 := by
  have e : -x = ~~~(x - 1#32) := by rw [BitVec.not_sub_one_eq_not_add_one, ← BitVec.neg_eq_not_add]
  rw [e]
  generalize x - 1#32 = y
  constructor
  · intro h
    rw [← h]
    ext i hi
    simp
  · intro h
    ext i hi
    have hb := congrArg (fun z : BitVec 32 => z[i]) h
    simp only [BitVec.getElem_and, BitVec.getElem_zero] at hb
    simp only [BitVec.getElem_and, BitVec.getElem_not]
    revert hb
    cases x[i] <;> simp

variable {n : Int}

theorem isPowerOfTwo_iff (h1 : 1 ≤ n) (hn : n ≤ intMax) : isPowerOfTwo n = true ↔ ∃ j : Nat, n = 2 ^ j := by
  unfold intMax at hn
  obtain ⟨m, rfl⟩ : ∃ m : Nat, n = m := ⟨n.toNat, by omega⟩
  have hm : BitVec.ofNat 32 m - 1#32 = BitVec.ofNat 32 (m - 1) := by
    apply BitVec.eq_of_toNat_eq
    simp only [BitVec.toNat_sub, BitVec.toNat_ofNat]
    omega
  have hp := Nat.and_sub_one_eq_zero_iff_isPowerOfTwo (show m ≠ 0 by omega)
  have hlt : m &&& (m - 1) < 2 ^ 32 := Nat.lt_of_le_of_lt Nat.and_le_left (by omega)
  rw [isPowerOfTwo, beq_iff_eq, BitVec.ofInt_neg, BitVec.ofInt_natCast, and_neg_eq_iff, hm, ← BitVec.ofNat_and,
    ← BitVec.toNat_inj, BitVec.toNat_ofNat, BitVec.toNat_ofNat, Nat.mod_eq_of_lt hlt, Nat.zero_mod, hp]
  exact exists_congr fun j => by norm_cast

/-- Only a power of two divides the least `int`. -/
theorem isPowerOfTwo_of_dvd (h1 : 1 ≤ n) (hn : n ≤ intMax) (hd : n ∣ 2 ^ 31) : isPowerOfTwo n = true := by
  obtain ⟨m, rfl⟩ : ∃ m : Nat, n = m := ⟨n.toNat, by omega⟩
  have hd : m ∣ 2 ^ 31 := by exact_mod_cast hd
  obtain ⟨j, -, rfl⟩ := (Nat.dvd_prime_pow Nat.prime_two).mp hd
  exact (isPowerOfTwo_iff h1 hn).mpr ⟨j, by norm_cast⟩

/-- The low bits of an `int` are its remainder, whatever its sign. -/
theorem and_mask {c : Int} {j : Nat} (hj : j ≤ 30) :
    (BitVec.ofInt 32 c &&& BitVec.ofInt 32 (2 ^ j - 1)).toInt = c % 2 ^ j := by
  have hpos := Nat.two_pow_pos j
  have hle : (2 : Nat) ^ j ≤ 2 ^ 30 := Nat.pow_le_pow_right (by decide) hj
  have hmask : (BitVec.ofInt 32 (2 ^ j - 1)).toNat = 2 ^ j - 1 := by
    rw [BitVec.toNat_ofInt, show (2 : Int) ^ j - 1 = ((2 ^ j - 1 : Nat) : Int) by push_cast [hpos]; rfl]
    omega
  have hand : (BitVec.ofInt 32 c &&& BitVec.ofInt 32 (2 ^ j - 1)).toNat = (c % 2 ^ j).toNat := by
    rw [BitVec.toNat_and, hmask, Nat.and_two_pow_sub_one_eq_mod, BitVec.toNat_ofInt]
    have hdvd : (2 : Int) ^ j ∣ 2 ^ 32 := pow_dvd_pow 2 (by omega)
    have h32 : 0 ≤ c % 2 ^ 32 := Int.emod_nonneg c (by decide)
    have hj0 : 0 ≤ c % 2 ^ j := Int.emod_nonneg c (by positivity)
    have e : ((c % 2 ^ 32).toNat : Int) % 2 ^ j = c % 2 ^ j := by
      rw [Int.toNat_of_nonneg h32]
      exact Int.emod_emod_of_dvd c hdvd
    apply Int.ofNat.inj
    show (((c % 2 ^ 32).toNat % 2 ^ j : Nat) : Int) = ((c % 2 ^ j).toNat : Int)
    rw [Int.toNat_of_nonneg hj0, ← e]
    push_cast
    rfl
  have hmod : c % 2 ^ j < 2 ^ j := Int.emod_lt_of_pos c (by positivity)
  have hcast : (2 : Int) ^ j ≤ 2 ^ 30 := by exact_mod_cast hle
  have hnonneg : 0 ≤ c % 2 ^ j := Int.emod_nonneg c (by positivity)
  rw [BitVec.toInt_eq_toNat_of_lt (by omega), hand, Int.toNat_of_nonneg hnonneg]

/-! ## The turn -/

/-- A group of `n` reactors, whatever its turn. -/
structure Sized (n : Int) (g : NioEventReactorGroup) : Prop where
  pos : 1 ≤ n
  le : n ≤ intMax
  eventReactors_ : g.eventReactors_ = List.range n.toNat
  chooser_ : g.chooser_ = if isPowerOfTwo n then .powerOfTwo else .generic
  size_ : g.size_ = n

variable {g : NioEventReactorGroup} {k : Nat}

theorem Sized.increment (h : Sized n g) : Sized n g.increment := { h with }

theorem init_sized (h1 : 1 ≤ n) (hn : n ≤ intMax) : Sized n (init 0 n) where
  pos := h1
  le := hn
  eventReactors_ := by simp only [init, if_neg (show n ≠ 0 by omega)]
  chooser_ := by simp only [init, if_neg (show n ≠ 0 by omega)]
  size_ := by
    unfold intMax at hn
    simp only [init, if_neg (show n ≠ 0 by omega), List.length_range]
    rw [i32_eq (by omega) (by omega)]
    omega

theorem after_succ (n : Int) (k : Nat) : after n (k + 1) = (after n k).increment := Function.iterate_succ_apply' ..

theorem after_sized (h1 : 1 ≤ n) (hn : n ≤ intMax) (k : Nat) : Sized n (after n k) := by
  induction k with
  | zero => exact init_sized h1 hn
  | succ k ih =>
    rw [after_succ]
    exact ih.increment

/-- The turn counts the calls, and wraps. -/
theorem childIndex_after (n : Int) (k : Nat) : (after n k).childIndex_ = i32 k := by
  induction k with
  | zero => rfl
  | succ k ih =>
    rw [after_succ]
    show i32 ((after n k).childIndex_ + 1) = _
    rw [ih]
    unfold i32
    omega

namespace Sized

variable (h : Sized n g)
include h

/-- The index is the remainder of the turn, unless the remainder is one of a negative turn. -/
theorem index_eq (hc : isPowerOfTwo n = true ∨ 0 ≤ g.childIndex_) : g.index = g.childIndex_ % n := by
  obtain ⟨h1, hn, -, hchooser, hsize⟩ := h
  unfold index
  by_cases hp : isPowerOfTwo n = true
  · obtain ⟨j, rfl⟩ := (isPowerOfTwo_iff h1 hn).mp hp
    rw [hchooser, if_pos hp]
    show (BitVec.ofInt 32 g.childIndex_ &&& BitVec.ofInt 32 (g.size_ - 1)).toInt = _
    rw [hsize]
    apply and_mask
    by_contra hj
    have hle : (2 : Int) ^ 31 ≤ 2 ^ j := by
      exact_mod_cast Nat.pow_le_pow_right (show 0 < 2 by decide) (show 31 ≤ j by omega)
    unfold intMax at hn
    omega
  · rw [hchooser, if_neg hp]
    show g.childIndex_.tmod g.size_ = _
    rw [hsize, Int.tmod_eq_emod_of_nonneg (hc.resolve_left hp)]

theorem index_range (hc : isPowerOfTwo n = true ∨ 0 ≤ g.childIndex_) : 0 ≤ g.index ∧ g.index < n := by
  have hpos := h.pos
  rw [h.index_eq hc]
  exact ⟨Int.emod_nonneg _ (by omega), Int.emod_lt_of_pos _ (by omega)⟩

theorem next_ok (hc : isPowerOfTwo n = true ∨ 0 ≤ g.childIndex_) :
    next g = .ok (g.childIndex_ % n).toNat g.increment := by
  have hr := h.index_range hc
  have hidx := h.index_eq hc
  have hlen : (g.eventReactors_.length : Int) = n := by
    have hpos := h.pos
    rw [h.eventReactors_, List.length_range]
    omega
  rw [next, if_pos (by omega), h.eventReactors_, List.getD_eq_getElem?_getD, List.getElem?_range (by omega), hidx]
  rfl

/-- Calls that do not wrap the turn pick the reactors of the turns, one after another. -/
theorem nexts_ok {m : Nat} (hc : isPowerOfTwo n = true ∨ 0 ≤ g.childIndex_) (hmin : -2 ^ 31 ≤ g.childIndex_)
    (hw : g.childIndex_ + m - 1 ≤ intMax) : ∃ g', nexts m g =
      .ok ((List.range m).map fun i : Nat => ((g.childIndex_ + i) % n).toNat) g' := by
  induction m generalizing g with
  | zero => exact ⟨g, rfl⟩
  | succ m ih =>
    by_cases hm : m = 0
    · subst hm
      refine ⟨g.increment, ?_⟩
      simp only [nexts, Method.bind_apply, h.next_ok hc, Outcome.bind_ok, Method.pure_apply]
      simp
    have hstep : g.increment.childIndex_ = g.childIndex_ + 1 := by
      unfold intMax at hw
      exact i32_eq (by omega) (by omega)
    obtain ⟨g', e⟩ := ih h.increment (hc.imp id fun h0 => by omega) (by omega) (by omega)
    refine ⟨g', ?_⟩
    simp only [nexts, Method.bind_apply, h.next_ok hc, Outcome.bind_ok, e, Method.pure_apply, hstep]
    rw [List.range_succ_eq_map, List.map_cons, List.map_map]
    have hcongr : ∀ i : Nat, g.childIndex_ + 1 + i = g.childIndex_ + (i + 1 : Nat) := fun i => by push_cast; omega
    simp [hcongr, Function.comp_def]

end Sized

/-- The reactors of `n` turns in a row differ. -/
theorem nodup_turns (hn : 0 < n) (c : Int) :
    ((List.range n.toNat).map fun i : Nat => ((c + i) % n).toNat).Nodup := by
  refine List.Nodup.map_on (fun i hi j hj e => ?_) List.nodup_range
  rw [List.mem_range] at hi hj
  have h1 := Int.emod_nonneg (c + i) (show n ≠ 0 by omega)
  have h2 := Int.emod_nonneg (c + j) (show n ≠ 0 by omega)
  have e : (c + i) % n = (c + j) % n := by omega
  obtain ⟨q, hq⟩ : n ∣ c + i - (c + j) := Int.dvd_of_emod_eq_zero (by rw [Int.sub_emod, e, Int.sub_self]; rfl)
  have hlt : -1 < q ∧ q < 1 := by
    constructor <;> by_contra hc
    · have : n * q ≤ n * (-1) := Int.mul_le_mul_of_nonneg_left (by omega) (by omega)
      omega
    · have : n * 1 ≤ n * q := Int.mul_le_mul_of_nonneg_left (by omega) (by omega)
      omega
  obtain rfl : q = 0 := by omega
  omega

/-! ## How long a group is right -/

/-- The turn is not negative in the first `2 ^ 31` calls. -/
theorem childIndex_nonneg (hk : k < 2 ^ 31) : 0 ≤ (after n k).childIndex_ := by
  rw [childIndex_after, i32_eq (by omega) (by omega)]
  omega

/-- The call that reads the least `int`. -/
theorem childIndex_wrapped (n : Int) : (after n (2 ^ 31)).childIndex_ = -2 ^ 31 := by
  rw [childIndex_after]
  rfl

/-- Of the least `int`, only a power of two has no negative remainder. -/
theorem index_wrapped (h1 : 1 ≤ n) (hn : n ≤ intMax) (h0 : 0 ≤ (after n (2 ^ 31)).index) : isPowerOfTwo n = true := by
  by_contra hp
  obtain ⟨-, -, -, hchooser, hsize⟩ := after_sized h1 hn (2 ^ 31)
  rw [index, hchooser, if_neg hp] at h0
  have h0 : 0 ≤ (after n (2 ^ 31)).childIndex_.tmod (after n (2 ^ 31)).size_ := h0
  rw [hsize, childIndex_wrapped, Int.neg_tmod, Int.tmod_eq_emod_of_nonneg (by decide)] at h0
  have hr := Int.emod_nonneg (2 ^ 31) (show n ≠ 0 by omega)
  exact hp (isPowerOfTwo_of_dvd h1 hn (Int.dvd_of_emod_eq_zero (by omega)))

/-- A group whose size is no power of two uses a negative index where its turn becomes negative; before
that it is right, and one whose size is a power of two always is. -/
theorem serves_iff (h1 : 1 ≤ n) (hn : n ≤ intMax) (calls : Nat) :
    Serves n calls ↔ isPowerOfTwo n = true ∨ calls ≤ 2 ^ 31 := by
  constructor
  · intro h
    by_cases hc : calls ≤ 2 ^ 31
    · exact .inr hc
    · exact .inl (index_wrapped h1 hn (h.inRange _ (by omega)).1)
  · intro hc
    refine ⟨fun k hk => ?_, fun k hk hw => ?_⟩
    · exact (after_sized h1 hn k).index_range (hc.imp id fun hc => childIndex_nonneg (by omega))
    · have hS := after_sized h1 hn k
      have hmin : -2 ^ 31 ≤ (after n k).childIndex_ := by
        rw [childIndex_after]
        exact (i32_range k).1
      obtain ⟨g, e⟩ := hS.nexts_ok (m := n.toNat) (hc.imp id fun hc => childIndex_nonneg (by omega)) hmin (by omega)
      exact ⟨_, g, e, nodup_turns h1 _⟩

/-- Three reactors, in the first four calls. -/
theorem serves_iff_three : Serves 3 4 ↔ isPowerOfTwo 3 = true ∨ 4 ≤ 2 ^ 31 :=
  serves_iff (by decide) (by decide) 4

/-- Call `2 ^ 31` on three reactors uses index `-2`. -/
theorem serves_not_three : (after 3 (2 ^ 31)).index = -2 ∧ ¬Serves 3 (2 ^ 31 + 1) := by
  have hS := after_sized (n := 3) (by decide) (by decide) (2 ^ 31)
  have e : (after 3 (2 ^ 31)).index = -2 := by
    rw [index, hS.chooser_]
    show (after 3 (2 ^ 31)).childIndex_.tmod (after 3 (2 ^ 31)).size_ = -2
    rw [hS.size_, childIndex_wrapped]
    rfl
  refine ⟨e, fun h => ?_⟩
  have h0 := (h.inRange (2 ^ 31) (by decide)).1
  rw [e] at h0
  exact absurd h0 (by decide)

/-! ## The reactor of a turn -/

/-- A group of `n` reactors has given `k` turns, and each was right. -/
def Taken (n : Int) (k : Nat) : Prop := isPowerOfTwo n = true ∨ k ≤ 2 ^ 31

theorem i32_emod_of_isPowerOfTwo (h1 : 1 ≤ n) (hn : n ≤ intMax) (hp : isPowerOfTwo n = true) (x : Int) :
    i32 x % n = x % n := by
  obtain ⟨j, rfl⟩ := (isPowerOfTwo_iff h1 hn).mp hp
  have hj : j ≤ 32 := by
    by_contra hc
    have hle : (2 : Int) ^ 33 ≤ 2 ^ j := by
      exact_mod_cast Nat.pow_le_pow_right (show 0 < 2 by decide) (show 33 ≤ j by omega)
    unfold intMax at hn
    omega
  have hd : (2 : Int) ^ j ∣ 4294967296 := by
    have hp : (2 : Int) ^ j ∣ 2 ^ 32 := pow_dvd_pow 2 hj
    exact hp
  have he : i32 x % 4294967296 = x % 4294967296 := by
    unfold i32
    omega
  rw [← Int.emod_emod_of_dvd (i32 x) hd, he, Int.emod_emod_of_dvd x hd]

/-- Turn `k` gives reactor `k % n`. -/
theorem next_after {r : Nat} (h1 : 1 ≤ n) (hn : n ≤ intMax) (hk : Taken n k) (h : next (after n k) = .ok r g) :
    r = k % n.toNat ∧ g = after n (k + 1) ∧ Taken n (k + 1) := by
  have hS := after_sized h1 hn k
  have h0 : 0 ≤ (after n k).index := by
    rw [next] at h
    split at h
    · next hi => exact hi.1
    · cases h
  have hlt : isPowerOfTwo n = true ∨ k < 2 ^ 31 := by
    by_cases hp : isPowerOfTwo n = true
    · exact .inl hp
    · rcases Nat.lt_or_eq_of_le (hk.resolve_left hp) with hlt | rfl
      · exact .inr hlt
      · exact absurd (index_wrapped h1 hn h0) hp
  have hc : (after n k).childIndex_ % n = k % n := by
    rw [childIndex_after]
    rcases hlt with hp | hlt
    · exact i32_emod_of_isPowerOfTwo h1 hn hp k
    · rw [i32_eq (by omega) (by omega)]
  rw [hS.next_ok (hlt.imp id fun hlt => childIndex_nonneg hlt), hc] at h
  obtain ⟨rfl, rfl⟩ := Outcome.ok.inj h
  refine ⟨?_, (after_succ n k).symm, hlt.imp_right fun hlt => hlt⟩
  obtain ⟨m, rfl⟩ : ∃ m : Nat, n = m := ⟨n.toNat, by omega⟩
  rw [← Int.natCast_mod, Int.toNat_natCast, Int.toNat_natCast]

end NioEventReactorGroup

end Nio.Net
