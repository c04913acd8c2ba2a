import NioSocket.Pool.Reachable

/-!
# The early exit of a chunk list

`PoolChunkList::allocate` does not look at its chunks when the size asked for is more than
`maxCapacity_`. Compared with the search that looks at every chunk (`allocateAlways`), it
misses one thing: a chunk of which nothing is given out, when a whole chunk is asked for.
-/

namespace Nio.Pool

open PoolArena

variable {l : Layout} {a a' : PoolArena} {ch : PoolChunk} {c : Nat} {x : ListName} {req n : Int}

namespace PoolChunkList

/-- `allocate` without its early exit. -/
def allocateAlways (l : ListName) (reqCapacity normCapacity : Int) : Method PoolArena (Option Region) := fun a =>
  allocateLoop l reqCapacity normCapacity (a.nextChunk + 1) (a.list l).head_ a

end PoolChunkList

namespace PoolArena

/-- `allocateFrom`, with lists that have no early exit. -/
def allocateFromAlways (reqCapacity normCapacity : Int) : List ListName → Method PoolArena (Option Region)
  | [] => pure none
  | l :: ls => do
    match ← PoolChunkList.allocateAlways l reqCapacity normCapacity with
    | some region => pure (some region)
    | none => allocateFromAlways reqCapacity normCapacity ls

/-- `allocateNormal`, with lists that have no early exit. -/
def allocateNormalAlways (reqCapacity normCapacity : Int) : Method PoolArena Region := do
  match ← allocateFromAlways reqCapacity normCapacity [.q050, .q025, .q000, .qInit, .q075] with
  | some region => pure region
  | none => do
    let this ← .get fun a : PoolArena => a
    let c ← newChunk (.new this.chunkSize_ this.pageSize_ this.pageShifts_ this.maxOrder_ 0)
    match ← PoolChunk.allocate c reqCapacity normCapacity with
    | some region => do
      PoolChunkList.add PoolChunkList.numLists (some .qInit) c
      pure region
    | none => fun _ => .ub

end PoolArena

/-! ## What the bound says of a chunk -/

/-- A usage of at least `m` percent says what is free at most. -/
theorem PoolChunk.Counted.free_lt {A : Finset Nat} (h : ch.Counted l A) {m : Int} (hm : m ≤ ch.usage)
    (h0 : 0 < ch.freeBytes_) : ch.freeBytes_ * 100 < (101 - m) * l.chunkSize := by
  have hpos : (0 : Int) < l.chunkSize := by exact_mod_cast Nat.two_pow_pos _
  have hlt : ch.freeBytes_ * 100 / l.chunkSize < 101 - m := by
    rw [h.usage_eq, if_neg h0.ne'] at hm
    split at hm <;> omega
  exact (Int.ediv_lt_iff_lt_mul hpos).mp hlt

/-- The size of the node that serves a request: the power of two it is, or a page. -/
theorem Normalized.node_le (hn : Normalized l req n) (hle : n ≤ l.chunkSize) :
    (l.chunkSize : Int) = max n l.pageSize ∨ (l.chunkSize : Int) = 2 * max n l.pageSize ∨
      4 * max n l.pageSize ≤ l.chunkSize := by
  obtain ⟨j, hj, e⟩ : ∃ j : Nat, j ≤ l.pageShifts + l.maxOrder ∧ max n l.pageSize = (2 ^ j : Nat) := by
    cases hn with
    | @elem m hm _ =>
      have := hm.two_mul_le
      exact ⟨l.pageShifts, by omega, by rw [max_eq_right (by omega)]; rfl⟩
    | @run k hk hk' _ =>
      have : l.pageSize ≤ 2 ^ k := Nat.pow_le_pow_right (by decide) hk
      exact ⟨k, hk', by rw [max_eq_left (by omega)]⟩
    | huge h => omega
  obtain ⟨d, hd⟩ := Nat.exists_eq_add_of_le hj
  have hc : l.chunkSize = 2 ^ j * 2 ^ d := by rw [Layout.chunkSize, hd, Nat.pow_add]
  rw [e, hc]
  rcases d with _ | _ | d
  · exact .inl (by simp)
  · exact .inr (.inl (by push_cast; omega))
  · have := Nat.two_pow_pos d
    have h4 : 4 * 2 ^ j ≤ 2 ^ j * 2 ^ (d + 2) := by
      rw [Nat.mul_comm]
      exact Nat.mul_le_mul_left _ (by rw [Nat.pow_add]; omega)
    exact .inr (.inr (by exact_mod_cast h4))

theorem Normalized.two_mul_le (hn : Normalized l req n) (h : n < l.pageSize) : 2 * n ≤ l.pageSize := by
  cases hn with
  | @elem m hm _ =>
    have := hm.two_mul_le
    omega
  | @run k hk _ _ =>
    have : l.pageSize ≤ 2 ^ k := Nat.pow_le_pow_right (by decide) hk
    omega
  | huge hlt =>
    have := l.pageSize_le_chunkSize
    omega

theorem calculateMaxCapacity_eq {m : Int} (k : Nat) (hm : m ≤ 100) :
    PoolChunkList.calculateMaxCapacity m k = k * (100 - max 1 m) / 100 := by
  unfold PoolChunkList.calculateMaxCapacity
  dsimp only
  split
  · rename_i h
    rw [h]
    simp
  · exact Int.tdiv_eq_ediv_of_nonneg (Int.mul_nonneg (by omega) (by omega))

/-- How many percent of a chunk a list is ready to look for. -/
def ListName.share : ListName → Int
  | .qInit | .q000 => 99
  | .q025 => 75
  | .q050 => 50
  | .q075 => 25
  | .q100 => 0

theorem ListName.share_bounds (x : ListName) : 0 ≤ x.share ∧ x.share ≤ 99 := by
  cases x <;> decide

theorem PoolArena.Laid.maxCapacity_eq (H : a.Laid l) (x : ListName) :
    (a.list x).maxCapacity_ = l.chunkSize * x.share / 100 := by
  have h : ∀ m : Int, m ≤ 100 → PoolChunkList.calculateMaxCapacity m l.chunkSize = l.chunkSize * (100 - max 1 m) / 100 :=
    fun m => calculateMaxCapacity_eq l.chunkSize
  rw [H.list]
  cases x with
  | qInit => exact h intMin (by decide)
  | q000 => exact h 1 (by decide)
  | q025 => exact h 25 (by decide)
  | q050 => exact h 50 (by decide)
  | q075 => exact h 75 (by decide)
  | q100 => exact h 100 (by decide)

theorem PoolArena.Laid.maxCapacity_nonneg (H : a.Laid l) (x : ListName) : 0 ≤ (a.list x).maxCapacity_ := by
  rw [H.maxCapacity_eq]
  exact Int.ediv_nonneg (Int.mul_nonneg (by omega) x.share_bounds.1) (by decide)

/-- No list is ready to look for a whole chunk. -/
theorem PoolArena.Laid.maxCapacity_lt (H : a.Laid l) (x : ListName) : (a.list x).maxCapacity_ < l.chunkSize := by
  have hpos : (0 : Int) < l.chunkSize := by exact_mod_cast Nat.two_pow_pos _
  have := Int.mul_le_mul_of_nonneg_left x.share_bounds.2 hpos.le
  rw [H.maxCapacity_eq]
  omega

section

variable (W : a.Whole l) (hn : Normalized l req n) (hle : n ≤ l.chunkSize) (hring : PoolChunkList.NoneLinked l a n)
include W hn hle hring

/-- A chunk that is used up has nothing to give. -/
theorem PoolChunk.allocate_full (hch : a.chunk c = some ch) (hu : ch.unpooled = false) (h100 : 100 ≤ ch.usage) :
    allocate c req n a = .ok none a := by
  rcases PoolChunk.allocate_ok W.toSound hch hu hn hle hring with ⟨e, -⟩ | ⟨r, t, a', k, -, hS, hw, hk⟩
  · exact e
  exfalso
  have hC := W.chunks.pooled c ch hch hu
  obtain ⟨m, hch'⟩ := hw.exists_chunk
  have hk0 : 0 ≤ k := (hS.sound.chunks.pooled c _ hch' hu).freeBytes_nonneg
  have hpage := l.pageSize_le
  have hq : 0 ≤ ch.freeBytes_ * 100 / l.chunkSize := Int.ediv_nonneg (by omega) (by omega)
  rw [hC.usage_eq, if_neg (by omega)] at h100
  split at h100 <;> omega

/-- A chunk of a list that does not look at its chunks has no room, or nothing else than room. -/
theorem PoolChunk.allocate_rejected (hch : a.chunk c = some ch) (hu : ch.unpooled = false) (hx : ch.parent = some x)
    (hmax : (a.list x).maxCapacity_ < n) (h0 : ¬(n = l.chunkSize ∧ ch.usage = 0)) :
    allocate c req n a = .ok none a := by
  by_cases h100 : 100 ≤ ch.usage
  · exact allocate_full W hn hle hring hch hu h100
  rcases PoolChunk.allocate_ok W.toSound hch hu hn hle hring with ⟨e, -⟩ | ⟨r, t, a', k, -, hS, hw, hk⟩
  · exact e
  exfalso
  have hC := W.chunks.pooled c ch hch hu
  obtain ⟨m, hch'⟩ := hw.exists_chunk
  have hk0 : 0 ≤ k := (hS.sound.chunks.pooled c _ hch' hu).freeBytes_nonneg
  obtain ⟨y, hy, hmin, -⟩ := W.listed.fit c ch hch hu
  obtain rfl : y = x := Option.some_inj.mp (hy.symm.trans hx)
  have hpage := l.pageSize_le
  have hnode := hn.node_le hle
  rw [W.laid.maxCapacity_eq] at hmax
  rw [W.laid.list] at hmin
  have hlt : ∀ m : Int, m ≤ ch.usage → ch.freeBytes_ * 100 < (101 - m) * l.chunkSize := fun m hm =>
    hC.free_lt hm (by omega)
  cases y with
  | qInit =>
    -- a whole chunk is the only size that is more than 99 percent of one
    have hmax : (l.chunkSize : Int) * 99 / 100 < n := hmax
    have hsmall := hn.two_mul_le
    have hpc := l.pageSize_le_chunkSize
    have hfull : ch.freeBytes_ = l.chunkSize := by
      have := hC.freeBytes_le
      omega
    refine h0 ⟨by omega, ?_⟩
    rw [hC.usage_eq, if_neg (by omega), hfull, Int.mul_ediv_cancel_left _ (by omega)]
    rfl
  | q000 =>
    have hmax : (l.chunkSize : Int) * 99 / 100 < n := hmax
    have := hlt 1 hmin
    omega
  | q025 =>
    have hmax : (l.chunkSize : Int) * 75 / 100 < n := hmax
    have := hlt 25 hmin
    omega
  | q050 =>
    have hmax : (l.chunkSize : Int) * 50 / 100 < n := hmax
    have := hlt 50 hmin
    omega
  | q075 =>
    have hmax : (l.chunkSize : Int) * 25 / 100 < n := hmax
    have := hlt 75 hmin
    omega
  | q100 => exact h100 hmin

/-! ## What the search finds -/

namespace PoolChunkList

/-- The walk finds nothing exactly if no chunk it comes to has anything to give. -/
theorem allocateLoop_eq_none_iff {fuel : Nat} {p first : Option Nat} {xs : List Nat}
    (e : Ended a.nextChunkOf a.prevChunkOf p first xs) (hm : ∀ c ∈ xs, a.listOf c = some x) (hf : xs.length < fuel) :
    allocateLoop x req n fuel first a = .ok none a ↔ ∀ c ∈ xs, PoolChunk.allocate c req n a = .ok none a := by
  induction xs generalizing p first fuel with
  | nil =>
    obtain ⟨fuel, rfl⟩ : ∃ f, fuel = f + 1 := ⟨fuel - 1, by omega⟩
    obtain rfl : first = none := e
    exact ⟨fun _ _ => nofun, fun _ => rfl⟩
  | cons c xs ih =>
    obtain ⟨fuel, rfl⟩ : ∃ f, fuel = f + 1 := ⟨fuel - 1, by omega⟩
    obtain ⟨rfl, -, e⟩ := e
    have hx := hm c (by simp)
    obtain ⟨ch, hch, hx⟩ := Option.bind_eq_some_iff.mp hx
    have hu : ch.unpooled = false := by
      by_contra hu
      rw [if_pos (by simpa using hu)] at hx
      cases hx
    have hnext : a.nextChunkOf c = ch.next := by rw [nextChunkOf, hch]; rfl
    rw [hnext] at e
    have ih := ih e (fun y hy => hm y (by simp [hy])) (show xs.length < fuel by simp at hf; omega)
    rw [allocateLoop, Method.bind_apply]
    rcases PoolChunk.allocate_ok W.toSound hch hu hn hle hring with ⟨ea, -⟩ | ⟨r, t, a', k, ea, -⟩
    · simp only [ea, Outcome.bind_ok, Method.bind_apply, chunkAt_ok hch]
      rw [ih]
      simp [ea]
    · refine ⟨fun h => ?_, fun h => ?_⟩
      · -- a region that was given out is returned
        simp only [ea, Outcome.bind_ok, Method.bind_apply, Method.get_apply] at h
        obtain ⟨_, a₁, -, h⟩ := Outcome.bind_eq_ok h
        split at h
        · obtain ⟨_, a₂, -, h⟩ := Outcome.bind_eq_ok h
          obtain ⟨_, a₃, -, h⟩ := Outcome.bind_eq_ok h
          cases h
        · cases h
      · have := h c (by simp)
        rw [ea] at this
        cases this

/-- With a list that has no early exit, what is in the list and could serve is found. -/
theorem allocateAlways_eq_none_iff (x : ListName) : allocateAlways x req n a = .ok none a ↔
    ∀ c ch, a.chunk c = some ch → ch.unpooled = false → ch.parent = some x → PoolChunk.allocate c req n a = .ok none a := by
  obtain ⟨xs, e, hd, hm⟩ := W.listed.lists x
  have hlen : xs.length < a.nextChunk + 1 := by
    have hsub : xs ⊆ List.range a.nextChunk := fun c hc => by
      rw [List.mem_range]
      by_contra hge
      exact listOf_ne_none (by rw [(hm c).mp hc]; simp) (W.chunks.fresh c (by omega))
    have := (List.subperm_of_subset hd hsub).length_le
    rw [List.length_range] at this
    omega
  rw [allocateAlways]
  refine (allocateLoop_eq_none_iff W hn hle hring e (fun c hc => (hm c).mp hc) hlen).trans ⟨fun h c ch hch hu hx => ?_,
    fun h c hc => ?_⟩
  · exact h c ((hm c).mpr ((listOf_eq hch hu).trans hx))
  · obtain ⟨ch, hch, hx⟩ := Option.bind_eq_some_iff.mp ((hm c).mp hc)
    cases hu : ch.unpooled with
    | true =>
      rw [hu, if_pos rfl] at hx
      cases hx
    | false =>
      rw [hu] at hx
      exact h c ch hch hu hx

/-- The early exit changes nothing, unless it is a whole chunk that is asked for and there is one. -/
theorem allocate_eq_always (x : ListName)
    (h0 : ¬(n = l.chunkSize ∧ ∃ c ch, a.chunk c = some ch ∧ ch.unpooled = false ∧ ch.usage = 0)) :
    allocate x req n a = allocateAlways x req n a := by
  rw [allocate]
  split
  · rename_i hmax
    refine ((allocateAlways_eq_none_iff W hn hle hring x).mpr fun c ch hch hu hx => ?_).symm
    exact PoolChunk.allocate_rejected W hn hle hring hch hu hx hmax fun h => h0 ⟨h.1, c, ch, hch, hu, h.2⟩
  · rfl

end PoolChunkList

end

namespace PoolArena

/-- The early exit makes no difference: what is in a list and could serve is found, and a new chunk
is made only if no chunk could serve. -/
structure Searched (a : PoolArena) (req n : Int) : Prop where
  agrees : allocateNormal req n a = allocateNormalAlways req n a
  lists : ∀ x, PoolChunkList.allocate x req n a = PoolChunkList.allocateAlways x req n a
  made : ∀ r a', allocateNormal req n a = .ok r a' → a'.nextChunk ≠ a.nextChunk →
    ∀ c ch, a.chunk c = some ch → ch.unpooled = false → PoolChunk.allocate c req n a = .ok none a

section

variable (hx : ∀ x, PoolChunkList.allocate x req n a = PoolChunkList.allocateAlways x req n a)
  (hk : ∀ x a', PoolChunkList.allocate x req n a = .ok none a' → a' = a)
include hk

include hx in
theorem allocateFrom_eq_always (xs : List ListName) : allocateFrom req n xs a = allocateFromAlways req n xs a := by
  induction xs with
  | nil => rfl
  | cons x xs ih =>
    have hk := hk x
    rw [allocateFrom, allocateFromAlways, Method.bind_apply, Method.bind_apply, ← hx x]
    cases e : PoolChunkList.allocate x req n a with
    | ok o a' =>
      cases o with
      | some r => rfl
      | none =>
        rw [hk a' e]
        exact ih
    | throw | ub | hang => rfl

include hx in
theorem allocateNormal_eq_always : allocateNormal req n a = allocateNormalAlways req n a := by
  rw [allocateNormal, allocateNormalAlways, Method.bind_apply, Method.bind_apply]
  exact congrArg (Outcome.bind · _) (allocateFrom_eq_always hx hk _)

theorem allocateFrom_eq_none_iff (xs : List ListName) : allocateFrom req n xs a = .ok none a ↔
    ∀ x ∈ xs, PoolChunkList.allocate x req n a = .ok none a := by
  induction xs with
  | nil => exact ⟨fun _ _ hx => absurd hx List.not_mem_nil, fun _ => rfl⟩
  | cons x xs ih =>
    have hk := hk x
    rw [allocateFrom, Method.bind_apply, List.forall_mem_cons]
    cases e : PoolChunkList.allocate x req n a with
    | ok o a' =>
      cases o with
      | some r => exact ⟨fun h => (by cases h), fun h => by cases h.1⟩
      | none =>
        rw [hk a' e]
        exact ih.trans (by simp)
    | throw | ub | hang => exact ⟨fun h => (by cases h), fun h => by cases h.1⟩

end

/-- A list that finds nothing changes nothing. -/
theorem Whole.list_keeps (W : a.Whole l) (hn : Normalized l req n) (hle : n ≤ l.chunkSize)
    (hring : PoolChunkList.NoneLinked l a n) (x : ListName) (a' : PoolArena)
    (e : PoolChunkList.allocate x req n a = .ok none a') : a' = a := by
  rcases PoolChunkList.allocate_ok W hn hle hring x with e' | ⟨r, t, a₁, e', -⟩
  · obtain ⟨-, rfl⟩ := Outcome.ok.inj (e'.symm.trans e)
    rfl
  · cases e'.symm.trans e

theorem Whole.searched_of (W : a.Whole l) (hn : Normalized l req n) (hle : n ≤ l.chunkSize)
    (hring : PoolChunkList.NoneLinked l a n) : a.Searched req n ↔
      ¬(n = l.chunkSize ∧ ∃ c ch, a.chunk c = some ch ∧ ch.unpooled = false ∧ ch.usage = 0) := by
  have hk := W.list_keeps hn hle hring
  refine ⟨fun h ⟨he, c, ch, hch, hu, h0⟩ => ?_, fun h0 => ?_⟩
  · -- no list looks for a whole chunk
    have hfrom : allocateFrom req n [.q050, .q025, .q000, .qInit, .q075] a = .ok none a := by
      refine (allocateFrom_eq_none_iff hk _).mpr fun x _ => ?_
      rw [PoolChunkList.allocate, if_pos]
      rw [he]
      exact W.laid.maxCapacity_lt x
    obtain ⟨r, t, a', e, -, hnext⟩ := allocateNormal_new W hn hle hring hfrom
    have hnone := h.made r a' e (by omega) c ch hch hu
    rcases PoolChunk.allocate_ok W.toSound hch hu hn hle hring with ⟨-, hne⟩ | ⟨r, t, a', k, e, -⟩
    · exact hne ((W.chunks.pooled c ch hch hu).usage_eq_zero_iff.mp h0)
    · cases hnone.symm.trans e
  · have hx := fun x => PoolChunkList.allocate_eq_always W hn hle hring x h0
    refine ⟨allocateNormal_eq_always hx hk, hx, fun r a' e hne c ch hch hu => ?_⟩
    rcases allocateFrom_ok W hn hle hring [.q050, .q025, .q000, .qInit, .q075] with hf | ⟨r', t, a₁, e₁, -, hnext⟩
    · obtain ⟨x, hpar, hfit⟩ := W.listed.fit c ch hch hu
      by_cases h100 : x = .q100
      · subst h100
        rw [W.laid.list] at hfit
        exact PoolChunk.allocate_full W hn hle hring hch hu hfit.1
      · have hnone := (allocateFrom_eq_none_iff hk _).mp hf x (by cases x <;> simp_all)
        rw [hx] at hnone
        exact (PoolChunkList.allocateAlways_eq_none_iff W hn hle hring x).mp hnone c ch hch hu hpar
    · rw [allocateNormal, Method.bind_apply, e₁] at e
      obtain ⟨-, rfl⟩ := Outcome.ok.inj e
      exact absurd hnext hne

/-- A request of negative size is looked for in every list. -/
theorem Whole.searched_of_neg (W : a.Whole l) (h0 : n < 0) (hi : i32 n = n) : a.Searched req n := by
  have hx : ∀ x, PoolChunkList.allocate x req n a = PoolChunkList.allocateAlways x req n a := fun x => by
    have := W.laid.maxCapacity_nonneg x
    rw [PoolChunkList.allocate, if_neg (by omega)]
    rfl
  refine ⟨allocateNormal_eq_always hx fun x a' e => ?_, hx, fun r a' e => ?_⟩
  · rcases @list_allocate_negative _ _ req _ W h0 hi x with e' | e'
    · obtain ⟨-, rfl⟩ := Outcome.ok.inj (e'.symm.trans e)
      rfl
    · cases e'.symm.trans e
  · cases (allocateNormal_negative W h0 hi).symm.trans e

end PoolArena

/-! ## In every state -/

namespace Buffers

variable {s : Buffers} {es : List Call}

/-- Which requests that come to `allocateNormal` the early exit makes no difference to. -/
theorem searched_iff (h : Run Step (init l) es s) (hi : i32 req = req) (he : s.arena.normalizeCapacity req = n)
    (hle : n ≤ s.arena.chunkSize_)
    (hhead : s.arena.isTinyOrSmall n → ∃ head, poolHead n s.arena = .ok head s.arena ∧ s.arena.next_ head = some head) :
    s.arena.Searched req n ↔ ¬(n = s.arena.chunkSize_ ∧
      ∃ c ch, s.arena.chunk c = some ch ∧ ch.unpooled = false ∧ ch.usage = 0) := by
  obtain ⟨σ, H⟩ := run_held h
  have W := H.whole
  rw [W.laid.chunkSize_] at hle ⊢
  by_cases hm : req = intMin
  · subst hm
    rw [W.laid.normalizeCapacity_intMin] at he
    subst he
    exact ⟨fun _ h => by have := h.1; omega, fun _ => W.searched_of_neg (by decide) (by decide)⟩
  · have hN := W.laid.normalizeCapacity hi hm
    rw [he] at hN
    refine W.searched_of hN hle fun m hm hnm r hr => ?_
    have hT : s.arena.isTinyOrSmall n := by
      have := hm.two_mul_le
      have := l.pageSize_le
      rw [W.laid.isTinyOrSmall_iff (hN.int hi)]
      omega
    obtain ⟨head, hp, hnext⟩ := hhead hT
    rw [hnm, W.laid.poolHead hm] at hp
    obtain ⟨rfl, -⟩ := Outcome.ok.inj hp
    obtain ⟨y, hy, -, hempty⟩ := W.pools.rings.next_head (headOf_isHead hm)
    rw [hnext, Option.some_inj] at hy
    exact hempty hy.symm r hr

/-- A page of a chunk of two is found. -/
theorem searched_iff_page : ∃ s, Run Step (init twoPages) [.allocate 4096 4096] s ∧ (s.arena.Searched 4096 4096 ↔
    ¬(4096 = (s.arena.chunkSize_ : Int) ∧
      ∃ c ch, s.arena.chunk c = some ch ∧ ch.unpooled = false ∧ ch.usage = 0)) := by
  obtain ⟨s, hr, he, hle, hT⟩ := exists_run (s := init twoPages)
    (P := fun s => s.arena.normalizeCapacity 4096 = 4096 ∧ (4096 : Int) ≤ s.arena.chunkSize_ ∧
      ¬s.arena.isTinyOrSmall 4096) [.allocate 4096 4096] (by decide +kernel)
  exact ⟨s, hr, searched_iff hr (by decide) he hle fun h => absurd h hT⟩

/-- A chunk of eight pages that was used and is free again is not found when a whole chunk is asked for. -/
theorem searched_whole_chunk : ∃ s, Run Step (init ⟨12, 3, by decide, by decide, by decide⟩)
      [.allocate 4096 4096, .release 0] s ∧
    s.arena.normalizeCapacity 32768 = 32768 ∧ 32768 = (s.arena.chunkSize_ : Int) ∧ ¬s.arena.isTinyOrSmall 32768 ∧
    ¬s.arena.Searched 32768 32768 := by
  obtain ⟨s, hr, he, hle, hT, hmade, hserve, hch⟩ := exists_run (s := init ⟨12, 3, by decide, by decide, by decide⟩)
    (P := fun s => s.arena.normalizeCapacity 32768 = 32768 ∧ 32768 = (s.arena.chunkSize_ : Int) ∧
      ¬s.arena.isTinyOrSmall 32768 ∧
      ((allocateNormal 32768 32768 s.arena).ok?.map fun a => decide (a.nextChunk = s.arena.nextChunk)) = some false ∧
      ((PoolChunk.allocate 0 32768 32768 s.arena).ok?.bind fun a => (a.chunk 0).map (·.freeBytes_)) = some 0 ∧
      ((s.arena.chunk 0).map fun ch => (ch.freeBytes_, ch.unpooled)) = some (32768, false))
    [.allocate 4096 4096, .release 0] (by decide +kernel)
  refine ⟨s, hr, he, hle, hT, fun h => ?_⟩
  obtain ⟨ch, hch, hf⟩ := Option.map_eq_some_iff.mp hch
  cases e : allocateNormal 32768 32768 s.arena with
  | ok r a' =>
    rw [e] at hmade
    have hne : ¬a'.nextChunk = s.arena.nextChunk := by simpa [Outcome.ok?] using hmade
    rw [h.made r a' e hne 0 ch hch (congrArg Prod.snd hf)] at hserve
    have hzero : ch.freeBytes_ = 0 := by simpa [Outcome.ok?, hch] using hserve
    have hwhole : ch.freeBytes_ = 32768 := congrArg Prod.fst hf
    omega
  | throw | ub | hang =>
    rw [e] at hmade
    cases hmade

end Buffers

end Nio.Pool
