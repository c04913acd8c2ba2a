import Mathlib.Data.Finset.Insert
import Mathlib.Data.Finset.Erase
import Mathlib.Data.Nat.Bitwise
import Mathlib.Data.Nat.Log
import Mathlib.Algebra.BigOperators.Group.Finset.Basic
import Mathlib.Algebra.Order.BigOperators.Group.Finset
import Mathlib.Order.Interval.Finset.Nat
import Mathlib.Order.Lattice.Nat

/-!
# Buddy trees

The nodes of a complete binary tree of height `N` are numbered level by level from
`1`, so the subtree of `a` (`Under a`) is what leads to `a` by halving. A set of
nodes no two of which lie under each other (`Blocks`) is what a buddy allocator has
given out, and it keeps for every node the depth of the shallowest node under it
that it can still give out (`value`). `Kept` is the rule between a node and its
children that determines these depths, and that a walk from a node to the root
restores (`KeptBut`).
-/

namespace Nio.Buddy

/-- How far a node is from the root. -/
def depth (x : Nat) : Nat := x.log2

/-- `x` is in the subtree of `a`. -/
def Under (a x : Nat) : Prop := ∃ k, x / 2 ^ k = a

variable {N a b x y : Nat}

/-! ## Subtrees -/

theorem depth_eq_log (x : Nat) : depth x = Nat.log 2 x := Nat.log2_eq_log_two

theorem depth_half (x : Nat) : depth (x / 2) = depth x - 1 := by
  rw [depth_eq_log, depth_eq_log, Nat.log_div_base]

theorem depth_two_mul (h : 1 ≤ x) : depth (2 * x) = depth x + 1 := Nat.log2_two_mul (by omega)

theorem depth_two_mul_add_one (h : 1 ≤ x) : depth (2 * x + 1) = depth x + 1 := by
  have h1 := depth_half (2 * x + 1)
  have h2 : 1 ≤ depth (2 * x + 1) := by
    rw [depth, Nat.le_log2 (by omega)]
    omega
  rw [show (2 * x + 1) / 2 = x by omega] at h1
  omega

theorem depth_le_iff (h : 1 ≤ x) : depth x ≤ N ↔ x < 2 ^ (N + 1) := by
  rw [← Nat.log2_lt (by omega), depth]
  omega

theorem depth_eq_iff (h : 1 ≤ x) : depth x = N ↔ 2 ^ N ≤ x ∧ x < 2 ^ (N + 1) := by
  rw [← Nat.log2_lt (by omega), ← Nat.le_log2 (by omega), depth]
  omega

namespace Under

theorem refl (x : Nat) : Under x x := ⟨0, by simp⟩

theorem trans (h : Under a b) (h' : Under b x) : Under a x := by
  obtain ⟨j, rfl⟩ := h
  obtain ⟨k, rfl⟩ := h'
  exact ⟨k + j, by rw [Nat.pow_add, Nat.div_div_eq_div_mul]⟩

theorem le (h : Under a x) : a ≤ x := by
  obtain ⟨k, rfl⟩ := h
  exact Nat.div_le_self _ _

theorem half (x : Nat) : Under (x / 2) x := ⟨1, by simp⟩

/-- A node under another is the node itself, or its parent is under the other. -/
theorem iff_half : Under a x ↔ x = a ∨ Under a (x / 2) := by
  constructor
  · rintro ⟨k | k, h⟩
    · exact .inl (by simpa using h)
    · exact .inr ⟨k, by rw [Nat.div_div_eq_div_mul, ← Nat.pow_succ', h]⟩
  · rintro (rfl | h)
    · exact refl x
    · exact h.trans (half x)

theorem depth_add (h1 : 1 ≤ a) {k : Nat} (h : x / 2 ^ k = a) : depth x = depth a + k := by
  have hk : 2 ^ k ≤ x := (Nat.one_le_div_iff (Nat.two_pow_pos k)).mp (by omega)
  have hx : k ≤ Nat.log 2 x := by
    have := Nat.log_mono_right (b := 2) hk
    rwa [Nat.log_pow Nat.one_lt_two] at this
  rw [depth_eq_log, depth_eq_log, ← h, Nat.log_div_base_pow]
  omega

theorem depth_le (h1 : 1 ≤ a) (h : Under a x) : depth a ≤ depth x := by
  obtain ⟨k, h⟩ := h
  rw [depth_add h1 h]
  exact Nat.le_add_right _ _

theorem eq_of_depth (h1 : 1 ≤ a) (h : Under a x) (hd : depth x ≤ depth a) : x = a := by
  obtain ⟨k, h⟩ := h
  have := depth_add h1 h
  obtain rfl : k = 0 := by omega
  simpa using h

/-- The nodes above a node lie under each other. -/
theorem total (h : Under a x) (h' : Under b x) : Under a b ∨ Under b a := by
  obtain ⟨j, rfl⟩ := h
  obtain ⟨k, rfl⟩ := h'
  have key : ∀ i j, i ≤ j → Under (x / 2 ^ j) (x / 2 ^ i) := fun i j hij =>
    ⟨j - i, by rw [Nat.div_div_eq_div_mul, ← Nat.pow_add, Nat.add_sub_cancel' hij]⟩
  rcases Nat.le_total j k with hjk | hjk
  · exact .inr (key j k hjk)
  · exact .inl (key k j hjk)

/-- What is under a node is the node, or under one of its children. -/
theorem cases_child (h : Under a x) : x = a ∨ Under (2 * a) x ∨ Under (2 * a + 1) x := by
  obtain ⟨k | k, h⟩ := h
  · exact .inl (by simpa using h)
  · rw [Nat.pow_succ, ← Nat.div_div_eq_div_mul] at h
    rcases (by omega : x / 2 ^ k = 2 * a ∨ x / 2 ^ k = 2 * a + 1) with h | h
    · exact .inr (.inl ⟨k, h⟩)
    · exact .inr (.inr ⟨k, h⟩)

theorem left (a : Nat) : Under a (2 * a) := ⟨1, by omega⟩
theorem right (a : Nat) : Under a (2 * a + 1) := ⟨1, by omega⟩

theorem root (h : 1 ≤ x) : Under 1 x := by
  refine ⟨depth x, ?_⟩
  have := (depth_eq_iff h).mp rfl
  rw [Nat.pow_succ] at this
  exact Nat.div_eq_of_lt_le (by omega) (by omega)

/-- A node above another and not it is above the other's parent. -/
theorem half_of_ne (h : Under a x) (hne : a ≠ x) : Under a (x / 2) :=
  (iff_half.mp h).resolve_left (Ne.symm hne)

end Under

/-! ## What is given out -/

/-- The nodes of a tree of height `N` that are given out. -/
structure Blocks (N : Nat) (A : Finset Nat) : Prop where
  pos : ∀ a ∈ A, 1 ≤ a
  lt : ∀ a ∈ A, a < 2 ^ (N + 1)
  apart : ∀ a ∈ A, ∀ b ∈ A, Under a b → a = b

variable {A : Finset Nat}

/-- `x` is given out, or a part of what is. -/
def Covered (A : Finset Nat) (x : Nat) : Prop := ∃ a ∈ A, Under a x

/-- `x` neither contains, equals nor lies below a node that is given out. -/
def Free (A : Finset Nat) (x : Nat) : Prop := ∀ a ∈ A, ¬Under a x ∧ ¬Under x a

theorem Free.not_covered (h : Free A x) : ¬Covered A x := fun ⟨a, ha, hu⟩ => (h a ha).1 hu

theorem Free.under (h : Free A x) (hu : Under x y) : Free A y := by
  refine fun a ha => ⟨fun h1 => ?_, fun h1 => (h a ha).2 (hu.trans h1)⟩
  rcases h1.total hu with h2 | h2
  · exact (h a ha).1 h2
  · exact (h a ha).2 h2

theorem Free.of_children (h : ¬Covered A x) (hl : Free A (2 * x)) (hr : Free A (2 * x + 1)) : Free A x := by
  refine fun a ha => ⟨fun h1 => h ⟨a, ha, h1⟩, fun h1 => ?_⟩
  rcases h1.cases_child with rfl | h2 | h2
  · exact h ⟨a, ha, .refl a⟩
  · exact (hl a ha).2 h2
  · exact (hr a ha).2 h2

theorem not_covered_half (h : ¬Covered A x) : ¬Covered A (x / 2) :=
  fun ⟨a, ha, hu⟩ => h ⟨a, ha, hu.trans (.half x)⟩

/-- The child of a node that is not covered is given out, or not covered either. -/
theorem covered_child (h : ¬Covered A (x / 2)) : Covered A x ↔ x ∈ A := by
  refine ⟨fun ⟨a, ha, hu⟩ => ?_, fun hx => ⟨x, hx, .refl x⟩⟩
  rcases Under.iff_half.mp hu with rfl | h1
  · exact ha
  · exact absurd ⟨a, ha, h1⟩ h

theorem Blocks.empty (N : Nat) : Blocks N ∅ := ⟨by simp, by simp, by simp⟩

theorem Blocks.insert (h : Blocks N A) (h1 : 1 ≤ x) (hx : x < 2 ^ (N + 1)) (hf : Free A x) :
    Blocks N (insert x A) where
  pos a ha := by
    rcases Finset.mem_insert.mp ha with rfl | ha
    · exact h1
    · exact h.pos a ha
  lt a ha := by
    rcases Finset.mem_insert.mp ha with rfl | ha
    · exact hx
    · exact h.lt a ha
  apart a ha b hb hu := by
    rw [Finset.mem_insert] at ha hb
    rcases ha with rfl | ha
    · rcases hb with rfl | hb
      · rfl
      · exact absurd hu (hf b hb).2
    · rcases hb with rfl | hb
      · exact absurd hu (hf a ha).1
      · exact h.apart a ha b hb hu

theorem Blocks.erase (h : Blocks N A) (x : Nat) : Blocks N (A.erase x) where
  pos a ha := h.pos a (Finset.mem_of_mem_erase ha)
  lt a ha := h.lt a (Finset.mem_of_mem_erase ha)
  apart a ha b hb := h.apart a (Finset.mem_of_mem_erase ha) b (Finset.mem_of_mem_erase hb)

/-! ## The leaves under a node -/

/-- The leaves of a tree of height `N` under `x`, and what lies above them, have numbers that
start with `x`: from `lo` on, before `hi`. -/
def lo (N x : Nat) : Nat := x * 2 ^ (N - depth x)

/-- Where the leaves under a node end. -/
def hi (N x : Nat) : Nat := (x + 1) * 2 ^ (N - depth x)

theorem hi_eq (N x : Nat) : hi N x = lo N x + 2 ^ (N - depth x) := Nat.succ_mul _ _

/-- Of two nodes neither of which lies under the other, the leaves of one come before those of the other. -/
theorem hi_le_lo (ha : ¬Under a b) (hb : ¬Under b a) (hda : depth a ≤ N) (hdb : depth b ≤ N) :
    hi N a ≤ lo N b ∨ hi N b ≤ lo N a := by
  -- the deeper one is compared with the other at the depth of the other
  have key : ∀ a b, ¬Under a b → depth a ≤ depth b → depth b ≤ N → hi N a ≤ lo N b ∨ hi N b ≤ lo N a := by
    intro a b h hd hN
    have hpos := Nat.two_pow_pos (depth b - depth a)
    have e : 2 ^ (N - depth a) = 2 ^ (depth b - depth a) * 2 ^ (N - depth b) := by
      rw [← Nat.pow_add]
      congr 1
      omega
    unfold hi lo
    rw [e, ← Nat.mul_assoc, ← Nat.mul_assoc]
    rcases Nat.lt_or_gt_of_ne fun he => h ⟨depth b - depth a, he⟩ with hlt | hgt
    · exact .inr (Nat.mul_le_mul_right _ ((Nat.div_lt_iff_lt_mul hpos).mp hlt))
    · exact .inl (Nat.mul_le_mul_right _ ((Nat.le_div_iff_mul_le hpos).mp hgt))
  rcases Nat.le_total (depth a) (depth b) with hd | hd
  · exact key a b ha hd hdb
  · exact (key b a hb hd hda).symm

theorem two_pow_le_lo (h : 1 ≤ x) (hd : depth x ≤ N) : 2 ^ N ≤ lo N x ∧ hi N x ≤ 2 ^ (N + 1) := by
  obtain ⟨h1, h2⟩ := (depth_eq_iff h).mp rfl
  have e : 2 ^ N = 2 ^ depth x * 2 ^ (N - depth x) := by
    rw [← Nat.pow_add, Nat.add_sub_cancel' hd]
  have e' : 2 ^ (N + 1) = 2 ^ (depth x + 1) * 2 ^ (N - depth x) := by
    rw [Nat.pow_succ, Nat.pow_succ, e]
    exact Nat.mul_right_comm _ _ _
  rw [e, e']
  exact ⟨Nat.mul_le_mul_right _ h1, Nat.mul_le_mul_right _ h2⟩

/-- What is given out has no more leaves than there are. -/
theorem Blocks.sum_le (h : Blocks N A) : ∑ x ∈ A, 2 ^ (N - depth x) ≤ 2 ^ N := by
  have hd : ∀ x ∈ A, depth x ≤ N := fun x hx => (depth_le_iff (h.pos x hx)).mpr (h.lt x hx)
  have hdisj : Set.PairwiseDisjoint (A : Set Nat) fun x => Finset.Ico (lo N x) (hi N x) := by
    intro x hx y hy hne
    rw [Function.onFun, Finset.disjoint_left]
    intro z hz hz'
    rw [Finset.mem_Ico] at hz hz'
    have := hi_le_lo (fun hu => hne (h.apart x hx y hy hu)) (fun hu => hne (h.apart y hy x hx hu).symm)
      (hd x hx) (hd y hy)
    omega
  calc ∑ x ∈ A, 2 ^ (N - depth x)
      = ∑ x ∈ A, (Finset.Ico (lo N x) (hi N x)).card := by
        refine Finset.sum_congr rfl fun x _ => ?_
        rw [Nat.card_Ico, hi_eq, Nat.add_sub_cancel_left]
    _ = (A.biUnion fun x => Finset.Ico (lo N x) (hi N x)).card := (Finset.card_biUnion hdisj).symm
    _ ≤ (Finset.Ico (2 ^ N) (2 ^ (N + 1))).card := by
        refine Finset.card_le_card fun z hz => ?_
        obtain ⟨x, hx, hz⟩ := Finset.mem_biUnion.mp hz
        obtain ⟨h1, h2⟩ := two_pow_le_lo (h.pos x hx) (hd x hx)
        rw [Finset.mem_Ico] at hz ⊢
        omega
    _ = 2 ^ N := by
        rw [Nat.card_Ico, Nat.pow_succ]
        omega

/-! ## What is kept for each node -/

/-- The depths at which something under `x` can still be given out. -/
def freeDepths (N : Nat) (A : Finset Nat) (x : Nat) : Set Nat :=
  {d | ∃ y, Under x y ∧ y < 2 ^ (N + 1) ∧ Free A y ∧ depth y = d}

open Classical in
/-- What is kept for `x` when the nodes of `A` are given out. -/
noncomputable def value (N : Nat) (A : Finset Nat) (x : Nat) : Nat :=
  if x ∈ A then N + 1
  else if Covered A x then depth x
  else if (freeDepths N A x).Nonempty then sInf (freeDepths N A x)
  else N + 1

/-- What a parent at depth `d` keeps of what its children keep. -/
def join (d l r : Nat) : Nat := if l = d + 1 ∧ r = d + 1 then d else min l r

/-- The rule at node `x`, between what it keeps and what its children keep. -/
structure KeptAt (N : Nat) (A : Finset Nat) (m : Nat → Nat) (x : Nat) : Prop where
  allocated : x ∈ A → m x = N + 1
  below : x ∉ A → Covered A x → m x = depth x
  leaf : ¬Covered A x → depth x = N → m x = N
  inner : ¬Covered A x → depth x < N → m x = join (depth x) (m (2 * x)) (m (2 * x + 1))

/-- The rule at every node. -/
def Kept (N : Nat) (A : Finset Nat) (m : Nat → Nat) : Prop :=
  ∀ x, 1 ≤ x → x < 2 ^ (N + 1) → KeptAt N A m x

/-- The rule everywhere but at the nodes above `i`. -/
def KeptBut (i N : Nat) (A : Finset Nat) (m : Nat → Nat) : Prop :=
  ∀ x, 1 ≤ x → x < 2 ^ (N + 1) → ¬(Under x i ∧ x ≠ i) → KeptAt N A m x

variable {m m' : Nat → Nat} {i v : Nat}

theorem KeptAt.congr (h : KeptAt N A m x) (hx : m' x = m x) (hl : m' (2 * x) = m (2 * x))
    (hr : m' (2 * x + 1) = m (2 * x + 1)) : KeptAt N A m' x where
  allocated := by rw [hx]; exact h.allocated
  below := by rw [hx]; exact h.below
  leaf := by rw [hx]; exact h.leaf
  inner := by rw [hx, hl, hr]; exact h.inner

theorem Kept.but (h : Kept N A m) (i : Nat) : KeptBut i N A m := fun x h1 hx _ => h x h1 hx

theorem KeptBut.kept (h : KeptBut 1 N A m) : Kept N A m := fun x h1 hx =>
  h x h1 hx fun ⟨hu, hne⟩ => hne (Nat.le_antisymm hu.le h1)

theorem depth_half_lt (hi : 1 < i) (hlt : i < 2 ^ (N + 1)) : depth (i / 2) < N := by
  have h1 := (depth_le_iff (show 1 ≤ i by omega)).mpr hlt
  have h2 : 1 ≤ depth i := (Nat.le_log2 (by omega)).mpr (by omega)
  rw [depth_half]
  omega

/-- A walk upwards: from node `i`, the rule is made to hold at its parent. -/
theorem KeptBut.half (h : KeptBut i N A m) (hi : 1 < i) (hlt : i < 2 ^ (N + 1)) (hc : ¬Covered A (i / 2))
    (hv : v = join (depth (i / 2)) (m (2 * (i / 2))) (m (2 * (i / 2) + 1))) :
    KeptBut (i / 2) N A (Function.update m (i / 2) v) := by
  have hd := depth_half_lt hi hlt
  intro x h1 hx hn
  by_cases hxi : x = i / 2
  · subst hxi
    refine ⟨fun ha => absurd ⟨_, ha, .refl _⟩ hc, fun _ h => absurd h hc, fun _ h => by omega, fun _ _ => ?_⟩
    rw [Function.update_self, Function.update_of_ne (by omega), Function.update_of_ne (by omega), hv]
  · have hne : ∀ y, y / 2 = x → y ≠ i / 2 := by
      rintro y rfl rfl
      exact hn ⟨.half _, hxi⟩
    refine (h x h1 hx fun ⟨hu, hne⟩ => hn ⟨hu.half_of_ne hne, hxi⟩).congr (Function.update_of_ne hxi _ _) ?_ ?_
    · exact Function.update_of_ne (hne _ (by omega)) _ _
    · exact Function.update_of_ne (hne _ (by omega)) _ _

/-! ## Giving out and taking back -/

theorem covered_insert : Covered (insert i A) x ↔ Under i x ∨ Covered A x := by
  simp only [Covered, Finset.mem_insert, or_and_right, exists_or, exists_eq_left]

theorem covered_erase (h : Blocks N A) (hi : i ∈ A) : Covered (A.erase i) x ↔ Covered A x ∧ ¬Under i x := by
  constructor
  · rintro ⟨a, ha, hu⟩
    obtain ⟨hne, ha⟩ := Finset.mem_erase.mp ha
    refine ⟨⟨a, ha, hu⟩, fun hu' => hne ?_⟩
    rcases hu.total hu' with h1 | h1
    · exact h.apart a ha i hi h1
    · exact (h.apart i hi a ha h1).symm
  · rintro ⟨⟨a, ha, hu⟩, hn⟩
    exact ⟨a, Finset.mem_erase.mpr ⟨fun e => hn (e ▸ hu), ha⟩, hu⟩

/-- Induction from the leaves to the root. -/
theorem induct {P : Nat → Prop} (leaf : ∀ x, 1 ≤ x → depth x = N → P x)
    (inner : ∀ x, 1 ≤ x → depth x < N → P (2 * x) → P (2 * x + 1) → P x) (h1 : 1 ≤ x)
    (hx : x < 2 ^ (N + 1)) : P x := by
  have key : ∀ k x, 1 ≤ x → depth x + k = N → P x := fun k => by
    induction k with
    | zero => exact fun x h1 hd => leaf x h1 hd
    | succ k ih =>
      intro x h1 hd
      refine inner x h1 (by omega) (ih _ (by omega) ?_) (ih _ (by omega) ?_)
      · rw [depth_two_mul h1]; omega
      · rw [depth_two_mul_add_one h1]; omega
  have := (depth_le_iff h1).mpr hx
  exact key (N - depth x) x h1 (by omega)

theorem freeDepths_bounds {d : Nat} (h1 : 1 ≤ x) (h : d ∈ freeDepths N A x) : depth x ≤ d ∧ d ≤ N := by
  obtain ⟨y, hu, hy, -, rfl⟩ := h
  exact ⟨hu.depth_le h1, (depth_le_iff (Nat.le_trans h1 hu.le)).mpr hy⟩

theorem freeDepths_of_covered (h : Covered A x) : freeDepths N A x = ∅ := by
  obtain ⟨a, ha, hu⟩ := h
  refine Set.eq_empty_of_forall_notMem ?_
  rintro d ⟨y, hy, -, hf, -⟩
  exact (hf a ha).1 (hu.trans hy)

theorem mem_freeDepths_self (hx : x < 2 ^ (N + 1)) (h : Free A x) : depth x ∈ freeDepths N A x :=
  ⟨x, .refl x, hx, h, rfl⟩

theorem free_of_mem_freeDepths (h1 : 1 ≤ x) (h : depth x ∈ freeDepths N A x) : Free A x := by
  obtain ⟨y, hu, -, hf, hd⟩ := h
  obtain rfl := hu.eq_of_depth h1 hd.le
  exact hf

/-- Below a node that is not free itself, what is free is below one of its children. -/
theorem freeDepths_children (h : ¬Free A x) :
    freeDepths N A x = freeDepths N A (2 * x) ∪ freeDepths N A (2 * x + 1) := by
  ext d
  constructor
  · rintro ⟨y, hu, hy, hf, hd⟩
    rcases hu.cases_child with rfl | hu | hu
    · exact absurd hf h
    · exact .inl ⟨y, hu, hy, hf, hd⟩
    · exact .inr ⟨y, hu, hy, hf, hd⟩
  · rintro (⟨y, hu, hy, hf, hd⟩ | ⟨y, hu, hy, hf, hd⟩)
    · exact ⟨y, (Under.left x).trans hu, hy, hf, hd⟩
    · exact ⟨y, (Under.right x).trans hu, hy, hf, hd⟩

/-- `v` is the least depth at which something under `x` is free, or `N + 1`. -/
def Shallowest (N : Nat) (A : Finset Nat) (x v : Nat) : Prop :=
  IsLeast (insert (N + 1) (freeDepths N A x)) v

theorem Shallowest.eq_depth_iff (h1 : 1 ≤ x) (hx : x < 2 ^ (N + 1)) (h : Shallowest N A x v) :
    v = depth x ↔ Free A x := by
  have hd := (depth_le_iff h1).mpr hx
  constructor
  · rintro rfl
    refine free_of_mem_freeDepths h1 (h.1.resolve_left (by omega))
  · intro hf
    refine Nat.le_antisymm (h.2 (.inr (mem_freeDepths_self hx hf))) ?_
    rcases h.1 with rfl | hm
    · omega
    · exact (freeDepths_bounds h1 hm).1

theorem Shallowest.of_free (h1 : 1 ≤ x) (hx : x < 2 ^ (N + 1)) (h : Free A x) : Shallowest N A x (depth x) := by
  have hd := (depth_le_iff h1).mpr hx
  refine ⟨.inr (mem_freeDepths_self hx h), ?_⟩
  rintro d (rfl | hm)
  · omega
  · exact (freeDepths_bounds h1 hm).1

theorem Shallowest.of_covered (h : Covered A x) : Shallowest N A x (N + 1) := by
  rw [Shallowest, freeDepths_of_covered h]
  refine ⟨.inl rfl, ?_⟩
  rintro d (rfl | hd)
  · exact Nat.le_refl _
  · exact absurd hd (Set.notMem_empty d)

theorem Shallowest.of_children {l r : Nat} (h : ¬Free A x) (hl : Shallowest N A (2 * x) l)
    (hr : Shallowest N A (2 * x + 1) r) : Shallowest N A x (min l r) := by
  rw [Shallowest, freeDepths_children h, Set.insert_union_distrib]
  exact hl.union hr

theorem Blocks.free_leaf (h : Blocks N A) (h1 : 1 ≤ x) (hd : depth x = N) (hc : ¬Covered A x) : Free A x := by
  refine fun a ha => ⟨fun hu => hc ⟨a, ha, hu⟩, fun hu => hc ?_⟩
  obtain rfl := hu.eq_of_depth h1 (hd ▸ (depth_le_iff (h.pos a ha)).mpr (h.lt a ha))
  exact ⟨a, ha, .refl a⟩

/-- What is kept of a node that is not covered. -/
theorem Kept.shallowest (h : Kept N A m) (hb : Blocks N A) (h1 : 1 ≤ x) (hx : x < 2 ^ (N + 1))
    (hc : ¬Covered A x) : Shallowest N A x (m x) := by
  revert hc
  refine induct (P := fun x => ¬Covered A x → Shallowest N A x (m x)) ?_ ?_ h1 hx
  · intro x h1 hd hc
    have hx := (depth_le_iff h1).mp hd.le
    rw [(h x h1 hx).leaf hc hd]
    have := Shallowest.of_free h1 hx (hb.free_leaf h1 hd hc)
    rwa [hd] at this
  · intro x h1 hd ihl ihr hc
    have hx := (depth_le_iff h1).mp hd.le
    have hxl : 2 * x < 2 ^ (N + 1) := by rw [← depth_le_iff (by omega), depth_two_mul h1]; omega
    have hxr : 2 * x + 1 < 2 ^ (N + 1) := by rw [← depth_le_iff (by omega), depth_two_mul_add_one h1]; omega
    -- a child is given out, and keeps `N + 1`, or is not covered
    have child : ∀ c, 1 ≤ c → c < 2 ^ (N + 1) → c / 2 = x → (¬Covered A c → Shallowest N A c (m c)) →
        Shallowest N A c (m c) := by
      rintro c hc1 hcx rfl ih
      by_cases hcov : Covered A c
      · rw [(h c hc1 hcx).allocated ((covered_child hc).mp hcov)]
        exact .of_covered hcov
      · exact ih hcov
    have hl := child (2 * x) (by omega) hxl (by omega) ihl
    have hr := child (2 * x + 1) (by omega) hxr (by omega) ihr
    have el := hl.eq_depth_iff (by omega) hxl
    have er := hr.eq_depth_iff (by omega) hxr
    rw [depth_two_mul h1] at el
    rw [depth_two_mul_add_one h1] at er
    rw [(h x h1 hx).inner hc hd, join]
    split
    case isTrue hf => exact .of_free h1 hx (.of_children hc (el.mp hf.1) (er.mp hf.2))
    case isFalse hf =>
      exact .of_children (fun hx => hf ⟨el.mpr (hx.under (.left x)), er.mpr (hx.under (.right x))⟩) hl hr

/-- What is kept is a function of what is given out. -/
theorem Kept.eq_value (h : Kept N A m) (hb : Blocks N A) (h1 : 1 ≤ x) (hx : x < 2 ^ (N + 1)) :
    m x = value N A x := by
  unfold value
  split_ifs with ha hc hne
  · exact (h x h1 hx).allocated ha
  · exact (h x h1 hx).below ha hc
  · obtain ⟨hm, hle⟩ := h.shallowest hb h1 hx hc
    refine (IsLeast.csInf_eq ⟨hm.resolve_left ?_, fun d hd => hle (.inr hd)⟩).symm
    intro e
    obtain ⟨d, hd⟩ := hne
    have h2 := (freeDepths_bounds h1 hd).2
    have h3 := hle (.inr hd)
    omega
  · obtain ⟨hm, -⟩ := h.shallowest hb h1 hx hc
    exact hm.resolve_right fun hd => hne ⟨_, hd⟩

theorem Kept.of_free (h : Kept N A m) (hb : Blocks N A) (h1 : 1 ≤ x) (hx : x < 2 ^ (N + 1)) (hf : Free A x) :
    m x = depth x :=
  ((h.shallowest hb h1 hx hf.not_covered).eq_depth_iff h1 hx).mpr hf

theorem Kept.bounds (h : Kept N A m) (hb : Blocks N A) (h1 : 1 ≤ x) (hx : x < 2 ^ (N + 1)) :
    depth x ≤ m x ∧ m x ≤ N + 1 := by
  have hd := (depth_le_iff h1).mpr hx
  by_cases ha : x ∈ A
  · rw [(h x h1 hx).allocated ha]; omega
  by_cases hc : Covered A x
  · rw [(h x h1 hx).below ha hc]; omega
  rcases (h.shallowest hb h1 hx hc).1 with e | hm
  · omega
  · have := freeDepths_bounds h1 hm; omega

/-- What is given out can be read off what is kept. -/
theorem Kept.mem_iff (h : Kept N A m) (hb : Blocks N A) (h1 : 1 ≤ x) (hx : x < 2 ^ (N + 1)) :
    x ∈ A ↔ m x = N + 1 ∧ (x < 2 ^ N → m (2 * x) ≠ N + 1) := by
  have hd := (depth_le_iff h1).mpr hx
  have h2 : x < 2 ^ N → 2 * x < 2 ^ (N + 1) := fun hlt => by
    rw [Nat.pow_succ]
    omega
  constructor
  · intro ha
    refine ⟨(h x h1 hx).allocated ha, fun hlt => ?_⟩
    have hn : 2 * x ∉ A := fun hm => by
      have := hb.apart x ha _ hm (.left x)
      omega
    have hd' := (depth_le_iff (show 1 ≤ 2 * x by omega)).mpr (h2 hlt)
    rw [(h (2 * x) (by omega) (h2 hlt)).below hn ⟨x, ha, .left x⟩]
    omega
  · rintro ⟨hm, hne⟩
    by_contra ha
    by_cases hc : Covered A x
    · rw [(h x h1 hx).below ha hc] at hm
      omega
    rcases Nat.lt_or_eq_of_le hd with hd | hd
    · -- its children would both keep `N + 1`, so no such node keeps it but one that is given out
      have hlt : x < 2 ^ N := by
        have := (depth_le_iff (N := N - 1) h1).mp (by omega)
        rwa [Nat.sub_add_cancel (by omega)] at this
      have hj := (h x h1 hx).inner hc hd
      have hl := (h.bounds hb (show 1 ≤ 2 * x by omega) (h2 hlt)).2
      refine hne hlt ?_
      rw [join, hm] at hj
      split at hj <;> omega
    · rw [(h x h1 hx).leaf hc hd] at hm
      omega

/-- The rule at a node that neither lies under `i` nor has `i` as a child. -/
theorem KeptAt.of_apart {A' : Finset Nat} (h : KeptAt N A m x) (hA : x ∈ A' ↔ x ∈ A)
    (hC : Covered A' x ↔ Covered A x) (hm : ∀ y, ¬Under i y → m' y = m y) (hi : ¬Under i x)
    (hi' : ¬Under x i) : KeptAt N A' m' x := by
  have hl : ∀ c, c / 2 = x → ¬Under i c := fun c hc hu => by
    rcases Under.iff_half.mp hu with rfl | hu
    · exact hi' (hc ▸ .half _)
    · exact hi (hc ▸ hu)
  have h' : KeptAt N A m' x := h.congr (hm _ hi) (hm _ (hl _ (by omega))) (hm _ (hl _ (by omega)))
  exact ⟨fun ha => h'.allocated (hA.mp ha), fun ha hc => h'.below (fun h => ha (hA.mpr h)) (hC.mp hc),
    fun hc => h'.leaf fun h => hc (hC.mpr h), fun hc => h'.inner fun h => hc (hC.mpr h)⟩

theorem update_of_not_under (hy : ¬Under i y) : Function.update m i v y = m y :=
  Function.update_of_ne (by rintro rfl; exact hy (.refl _)) _ _

/-- Giving out a free node breaks the rule only above it. -/
theorem Kept.insert (h : Kept N A m) (hb : Blocks N A) (hf : Free A i) :
    KeptBut i N (insert i A) (Function.update m i (N + 1)) := by
  intro x h1 hx hn
  by_cases hxi : x = i
  · subst hxi
    have hc : Covered (Insert.insert x A) x := ⟨x, Finset.mem_insert_self _ _, .refl x⟩
    exact ⟨fun _ => Function.update_self _ _ _, fun ha => absurd (Finset.mem_insert_self _ _) ha,
      fun h => absurd hc h, fun h => absurd hc h⟩
  by_cases hu : Under i x
  · have hfx := hf.under hu
    have hc : Covered (Insert.insert i A) x := ⟨i, Finset.mem_insert_self _ _, hu⟩
    refine ⟨fun ha => ?_, fun _ _ => ?_, fun h => absurd hc h, fun h => absurd hc h⟩
    · rcases Finset.mem_insert.mp ha with rfl | ha
      · exact absurd rfl hxi
      · exact absurd ⟨x, ha, .refl x⟩ hfx.not_covered
    · rw [Function.update_of_ne hxi, h.of_free hb h1 hx hfx]
  · refine (h x h1 hx).of_apart ?_ ?_ (fun y => update_of_not_under) hu fun hu' => hn ⟨hu', hxi⟩
    · rw [Finset.mem_insert, or_iff_right hxi]
    · rw [covered_insert, or_iff_right hu]

/-- Taking back a node breaks the rule only above it. -/
theorem Kept.erase (h : Kept N A m) (hb : Blocks N A) (hi : i ∈ A) :
    KeptBut i N (A.erase i) (Function.update m i (depth i)) := by
  intro x h1 hx hn
  by_cases hu : Under i x
  · have hc : ¬Covered (A.erase i) x := fun hc => ((covered_erase hb hi).mp hc).2 hu
    -- all nodes under `i` keep their own depth
    have hm : ∀ y, Under i y → y < 2 ^ (N + 1) → Function.update m i (depth i) y = depth y := by
      intro y hy hlt
      by_cases e : y = i
      · rw [e, Function.update_self]
      · rw [Function.update_of_ne e]
        exact (h y (Nat.le_trans (hb.pos i hi) hy.le) hlt).below
          (fun ha => e (hb.apart i hi y ha hy).symm) ⟨i, hi, hy⟩
    refine ⟨fun ha => absurd ⟨x, ha, .refl x⟩ hc, fun _ h => absurd h hc, fun _ hd => (hm x hu hx).trans hd,
      fun _ hd => ?_⟩
    have hl : 2 * x < 2 ^ (N + 1) := by rw [← depth_le_iff (by omega), depth_two_mul h1]; omega
    have hr : 2 * x + 1 < 2 ^ (N + 1) := by rw [← depth_le_iff (by omega), depth_two_mul_add_one h1]; omega
    rw [hm x hu hx, hm _ (hu.trans (.left x)) hl, hm _ (hu.trans (.right x)) hr, depth_two_mul h1,
      depth_two_mul_add_one h1, join, if_pos ⟨rfl, rfl⟩]
  · have hne : x ≠ i := by rintro rfl; exact hu (.refl _)
    refine (h x h1 hx).of_apart ?_ ?_ (fun y => update_of_not_under) hu fun hu' => hn ⟨hu', hne⟩
    · rw [Finset.mem_erase, and_iff_right hne]
    · rw [covered_erase hb hi, and_iff_left hu]

theorem join_comm (d l r : Nat) : join d l r = join d r l := by
  unfold join
  simp only [Nat.min_comm, and_comm]

/-- The children of the parent of `i` are `i` and its sibling. -/
theorem join_sibling {d : Nat} (hi : 1 ≤ i) :
    join d (m i) (m (i ^^^ 1)) = join d (m (2 * (i / 2))) (m (2 * (i / 2) + 1)) := by
  rcases Nat.even_or_odd i with h | h
  · have := Nat.even_iff.mp h
    rw [Nat.xor_one_of_even h, show 2 * (i / 2) = i by omega]
  · have := Nat.odd_iff.mp h
    rw [Nat.xor_one_of_odd h, join_comm, show 2 * (i / 2) + 1 = i by omega, show 2 * (i / 2) = i - 1 by omega]

theorem half_sibling (i : Nat) : (i ^^^ 1) / 2 = i / 2 := by
  rw [Nat.xor_div_two]
  simp

theorem sibling_bounds (hi : 1 < i) (hx : i < 2 ^ (N + 1)) : 1 ≤ i ^^^ 1 ∧ i ^^^ 1 < 2 ^ (N + 1) := by
  have := half_sibling i
  rw [Nat.pow_succ] at hx ⊢
  omega

theorem sibling_not_above (hi : 1 < i) : ¬(Under (i ^^^ 1) i ∧ i ^^^ 1 ≠ i) := by
  rintro ⟨hu, hne⟩
  have h1 := (hu.half_of_ne hne).le
  have h2 := half_sibling i
  omega

/-- Where the rule holds at every node under `x`, no less than its depth is kept of `x`. -/
theorem KeptBut.depth_le (h : KeptBut i N A m) (h1 : 1 ≤ x) (hx : x < 2 ^ (N + 1)) (hn : ¬(Under x i ∧ x ≠ i)) :
    depth x ≤ m x := by
  revert hn
  refine induct (P := fun x => ¬(Under x i ∧ x ≠ i) → depth x ≤ m x) ?_ ?_ h1 hx
  · intro x h1 hd hn
    have hk := h x h1 ((depth_le_iff h1).mp hd.le) hn
    by_cases ha : x ∈ A
    · rw [hk.allocated ha]; omega
    by_cases hc : Covered A x
    · exact (hk.below ha hc).ge
    · rw [hk.leaf hc hd]; omega
  · intro x h1 hd ihl ihr hn
    have hk := h x h1 ((depth_le_iff h1).mp hd.le) hn
    by_cases ha : x ∈ A
    · rw [hk.allocated ha]; omega
    by_cases hc : Covered A x
    · exact (hk.below ha hc).ge
    have hbut : ∀ c, c / 2 = x → ¬(Under c i ∧ c ≠ i) := fun c hc ⟨hu, _⟩ => by
      have hux := hc ▸ (Under.half c).trans hu
      by_cases e : x = i
      · have := hu.le; omega
      · exact hn ⟨hux, e⟩
    have hl := ihl (hbut _ (by omega))
    have hr := ihr (hbut _ (by omega))
    rw [depth_two_mul h1] at hl
    rw [depth_two_mul_add_one h1] at hr
    rw [hk.inner hc hd, join]
    split <;> omega

/-- Nothing is given out, and every node keeps its own depth. -/
theorem kept_empty (hm : ∀ x, 1 ≤ x → x < 2 ^ (N + 1) → m x = depth x) : Kept N ∅ m := by
  intro x h1 hx
  have hc : ¬Covered ∅ x := fun ⟨a, ha, _⟩ => Finset.notMem_empty a ha
  refine ⟨fun ha => absurd ha (Finset.notMem_empty x), fun _ h => absurd h hc, fun _ hd => (hm x h1 hx).trans hd,
    fun _ hd => ?_⟩
  have hl : 2 * x < 2 ^ (N + 1) := by rw [← depth_le_iff (by omega), depth_two_mul h1]; omega
  have hr : 2 * x + 1 < 2 ^ (N + 1) := by rw [← depth_le_iff (by omega), depth_two_mul_add_one h1]; omega
  rw [hm x h1 hx, hm _ (by omega) hl, hm _ (by omega) hr, depth_two_mul h1, depth_two_mul_add_one h1, join,
    if_pos ⟨rfl, rfl⟩]

/-! ## Looking for a free node -/

/-- `m` says of `x` whether there is a free node at depth `d` under it. -/
theorem Kept.le_iff (h : Kept N A m) (hb : Blocks N A) {d : Nat} (hd : d ≤ N) (h1 : 1 ≤ x) (hx : depth x ≤ d)
    (hc : ¬Covered A (x / 2) ∨ x = 1) : m x ≤ d ↔ ∃ y, Under x y ∧ depth y = d ∧ Free A y := by
  have hlt : x < 2 ^ (N + 1) := (depth_le_iff h1).mp (Nat.le_trans hx hd)
  have hcov : Covered A x → x ∈ A := by
    rcases hc with hc | rfl
    · exact (covered_child hc).mp
    · rintro ⟨a, ha, hu⟩
      rwa [← Nat.le_antisymm hu.le (hb.pos a ha)]
  constructor
  · intro hm
    have hnc : ¬Covered A x := fun h' => by
      have := (h x h1 hlt).allocated (hcov h')
      omega
    obtain ⟨y, hu, -, hf, hy⟩ := (h.shallowest hb h1 hlt hnc).1.resolve_left (by omega)
    have hy1 : 1 ≤ y := Nat.le_trans h1 hu.le
    -- the leftmost node at depth `d` under `y`
    have e : y * 2 ^ (d - m x) / 2 ^ (d - m x) = y := Nat.mul_div_cancel _ (Nat.two_pow_pos _)
    have hyu : Under y (y * 2 ^ (d - m x)) := ⟨_, e⟩
    exact ⟨_, hu.trans hyu, by rw [Under.depth_add hy1 e]; omega, hf.under hyu⟩
  · rintro ⟨y, hu, rfl, hf⟩
    have hnc : ¬Covered A x := fun ⟨a, ha, hua⟩ => (hf a ha).1 (hua.trans hu)
    refine (h.shallowest hb h1 hlt hnc).2 (.inr ⟨y, hu, ?_, hf, rfl⟩)
    exact (depth_le_iff (Nat.le_trans h1 hu.le)).mp hd

/-- The search for a free node at depth `d` has come to node `i`. -/
structure Seeks (N : Nat) (A : Finset Nat) (m : Nat → Nat) (d i : Nat) : Prop where
  pos : 1 ≤ i
  not_covered : ¬Covered A i
  depth_le : depth i ≤ d
  has : m i ≤ d
  first : ∀ y, 1 ≤ y → Free A y → depth y = d → i * 2 ^ (d - depth i) ≤ y

namespace Seeks

variable {d : Nat}

theorem root (h : Kept N A m) (hb : Blocks N A) (hd : d ≤ N) (hm : m 1 ≤ d) : Seeks N A m d 1 where
  pos := Nat.le_refl _
  not_covered := by
    obtain ⟨y, hu, -, hf⟩ := (h.le_iff hb hd (Nat.le_refl _) (Nat.zero_le _) (.inr rfl)).mp hm
    exact fun ⟨a, ha, hua⟩ => (hf a ha).1 (hua.trans hu)
  depth_le := Nat.zero_le _
  has := hm
  first y hp _ hy := by
    rw [Nat.one_mul, ← hy]
    exact ((depth_eq_iff hp).mp rfl).1

theorem lt (s : Seeks N A m d i) (hd : d ≤ N) : i < 2 ^ (N + 1) :=
  (depth_le_iff s.pos).mp (Nat.le_trans s.depth_le hd)

section Step

variable (s : Seeks N A m d i) (h : Kept N A m) (hb : Blocks N A) (hd : d ≤ N)
include s h hb hd

/-- At depth `d` the node is free, and the first that is. -/
theorem found (hi : depth i = d) : m i = d ∧ Free A i ∧ ∀ y, 1 ≤ y → Free A y → depth y = d → i ≤ y := by
  have hm : m i = d := Nat.le_antisymm s.has (hi ▸ (h.bounds hb s.pos (s.lt hd)).1)
  refine ⟨hm, ?_, fun y hp hf hy => ?_⟩
  · exact ((h.shallowest hb s.pos (s.lt hd) s.not_covered).eq_depth_iff s.pos (s.lt hd)).mp (hm.trans hi.symm)
  · have := s.first y hp hf hy
    rwa [hi, Nat.sub_self, Nat.pow_zero, Nat.mul_one] at this

/-- A child is searched if something is free under it, and what is free comes no earlier. -/
theorem child {c : Nat} (hc : c / 2 = i) (hi : depth i < d) (hm : m c ≤ d)
    (hf : ∀ y, 1 ≤ y → Free A y → depth y = d → c * 2 ^ (d - depth c) ≤ y) : Seeks N A m d c := by
  subst hc
  have hp := s.pos
  have hdc : depth c ≤ d := by rw [depth_half] at hi; omega
  obtain ⟨y, hu, -, hy⟩ := (h.le_iff hb hd (by omega) hdc (.inl s.not_covered)).mp hm
  exact ⟨by omega, fun ⟨a, ha, hua⟩ => (hy a ha).1 (hua.trans hu), hdc, hm, hf⟩

theorem left (hi : depth i < d) (hm : m (2 * i) ≤ d) : Seeks N A m d (2 * i) := by
  refine s.child h hb hd (by omega) hi hm fun y hp hf hy => ?_
  have := s.first y hp hf hy
  rwa [show d - depth i = d - depth (2 * i) + 1 by rw [depth_two_mul s.pos]; omega, Nat.pow_succ', ← Nat.mul_assoc,
    Nat.mul_comm i 2] at this

theorem right (hi : depth i < d) (hm : d < m (2 * i)) : Seeks N A m d (2 * i + 1) := by
  have hp := s.pos
  have hnc := s.not_covered
  have hhalf : ∀ c, c / 2 = i → ¬Covered A (c / 2) := fun c hc => hc ▸ hnc
  have hdl : depth (2 * i) = depth i + 1 := depth_two_mul hp
  have hdr : depth (2 * i + 1) = depth i + 1 := depth_two_mul_add_one hp
  have hl : ∀ y, Under (2 * i) y → depth y = d → ¬Free A y := fun y hu hy hf => by
    have := (h.le_iff hb hd (by omega) (by omega) (.inl (hhalf (2 * i) (by omega)))).mpr ⟨y, hu, hy, hf⟩
    omega
  refine s.child h hb hd (by omega) hi ?_ fun y hp hf hy => ?_
  · have hi' : ¬Covered A (i / 2) := not_covered_half hnc
    obtain ⟨y, hu, hy, hf⟩ := (h.le_iff hb hd hp (by omega) (.inl hi')).mp s.has
    refine (h.le_iff hb hd (by omega) (by omega) (.inl (hhalf _ (by omega)))).mpr ?_
    rcases hu.cases_child with rfl | hu | hu
    · omega
    · exact absurd hf (hl y hu hy)
    · exact ⟨y, hu, hy, hf⟩
  · have hk : d - depth i = d - depth (2 * i + 1) + 1 := by omega
    have hfirst := s.first y hp hf hy
    rw [hk, Nat.pow_succ', ← Nat.mul_assoc, Nat.mul_comm i 2, ← Nat.le_div_iff_mul_le (Nat.two_pow_pos _)] at hfirst
    rw [← Nat.le_div_iff_mul_le (Nat.two_pow_pos _)]
    have hne : y / 2 ^ (d - depth (2 * i + 1)) ≠ 2 * i := fun e => hl y ⟨_, e⟩ hy hf
    omega

end Step

end Seeks

end Nio.Buddy
