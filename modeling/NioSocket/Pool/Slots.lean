import NioSocket.Pool.ChunkLists
import NioSocket.Pool.Pools

/-!
# What an arena has given out

A slot is what a buffer can have of an arena: a run of pages, an element of a page, or a
chunk of its own. `PoolArena.given` says which slots are given out, and where they are;
`allocate` and `free` are steps on it. Slots of one chunk that are given out do not
overlap (`Chunks.apart`), whatever the order of the calls that gave them out.
-/

namespace Nio.Pool

open Buddy (Under Free)

variable {l : Layout} {a a' a'' : PoolArena} {ch ch' : PoolChunk} {A : Finset Nat} {s s' : PoolSubpage}
  {c c' i i' j id n : Nat}

namespace PoolChunk

/-- The nodes that are given out. -/
def nodes (ch : PoolChunk) : Finset Nat :=
  {id ∈ Finset.range (ch.maxSubpageAllocs <<< 1) | 1 ≤ id ∧ ch.memoryMap id = ch.unusable ∧
    (id < ch.maxSubpageAllocs → ch.memoryMap (2 * id) ≠ ch.unusable)}

theorem Tree.nodes_eq (h : ch.Tree l A) : ch.nodes = A := by
  ext id
  rw [nodes, Finset.mem_filter, Finset.mem_range, Nat.shiftLeft_eq, Nat.pow_one, h.maxSubpageAllocs, h.unusable,
    ← Nat.pow_succ]
  constructor
  · rintro ⟨hx, h1, hm⟩
    exact (h.kept.mem_iff h.blocks h1 hx).mpr hm
  · intro hid
    have h1 := h.blocks.pos id hid
    have hx := h.blocks.lt id hid
    exact ⟨hx, h1, (h.kept.mem_iff h.blocks h1 hx).mp hid⟩

theorem Counted.nodes (h : ch.Counted l A) : ch.Counted l ch.nodes := by
  rwa [h.toTree.nodes_eq]

/-- The chunk of a huge buffer. -/
structure Huge (l : Layout) (ch : PoolChunk) : Prop where
  maxSubpageAllocs : ch.maxSubpageAllocs = 0
  offset : ch.offset = 0
  chunkSize_ : l.chunkSize < ch.chunkSize_

theorem Huge.nodes (h : ch.Huge l) : ch.nodes = ∅ := by
  rw [PoolChunk.nodes, h.maxSubpageAllocs]
  rfl

end PoolChunk

/-! ## Slots -/

/-- What a buffer holds of a chunk: a run, an element of a subpage, or all of it. -/
inductive Slot
  | run (chunk id : Nat)
  | elem (chunk subpageIdx bitmapIdx : Nat)
  | huge (chunk : Nat)
  deriving DecidableEq, Repr

/-- A range of the bytes of a chunk. -/
structure Extent where
  offset : Nat
  length : Nat
  deriving DecidableEq, Repr

/-- The ranges have no byte in common. -/
def Extent.Apart (e e' : Extent) : Prop := e.offset + e.length ≤ e'.offset ∨ e'.offset + e'.length ≤ e.offset

namespace Slot

/-- The chunk of a slot. -/
def chunk : Slot → Nat
  | run c _ | elem c _ _ | huge c => c

/-- The handle a buffer gets. -/
def handle (l : Layout) : Slot → Int
  | run _ id => id
  | elem _ i j => (0x4000000000000000 ||| j <<< 32 ||| (2 ^ l.maxOrder + i) : Nat)
  | huge _ => 0

end Slot

/-- Element `j` of the subpage is given out. Of one that is not divided, there is element `0`. -/
def PoolSubpage.Taken (s : PoolSubpage) (j : Nat) : Prop :=
  s.doNotDestroy_ = true ∧ (s.elemSize_ = 0 ∧ j = 0 ∨ s.elemSize_ ≠ 0 ∧ j < s.maxNumElems_ ∧ s.bit j = true)

instance (s : PoolSubpage) (j : Nat) : Decidable (s.Taken j) := inferInstanceAs (Decidable (_ ∧ _))

namespace PoolArena

/-- The nodes that a chunk has given out. -/
def nodesOf (a : PoolArena) (c : Nat) : Finset Nat :=
  match a.chunk c with
  | some ch => ch.nodes
  | none => ∅

/-- The node is that of a page that a subpage has. -/
def Paged (l : Layout) (a : PoolArena) (c id : Nat) : Prop :=
  2 ^ l.maxOrder ≤ id ∧ (a.subpages c (id - 2 ^ l.maxOrder)).any (·.doNotDestroy_) = true

instance (l : Layout) (a : PoolArena) (c id : Nat) : Decidable (a.Paged l c id) :=
  inferInstanceAs (Decidable (_ ∧ _))

/-- The slots that are given out, and where they are. -/
def given (l : Layout) (a : PoolArena) : Slot → Option Extent
  | .run c id => if id ∈ a.nodesOf c ∧ ¬a.Paged l c id then some ⟨l.runOff id, l.runLen id⟩ else none
  | .elem c i j =>
    match a.subpages c i with
    | some s => if s.Taken j then some ⟨i * l.pageSize + j * s.elemSize_, s.elemSize_⟩ else none
    | none => none
  | .huge c =>
    match a.chunk c with
    | some ch => if ch.unpooled then some ⟨ch.offset, ch.chunkSize_⟩ else none
    | none => none

/-- The chunks, and the subpages they have made. -/
structure Chunks (l : Layout) (a : PoolArena) : Prop where
  fresh : ∀ c, a.nextChunk ≤ c → a.chunk c = none
  pooled : ∀ c ch, a.chunk c = some ch → ch.unpooled = false → ch.Counted l ch.nodes
  huge : ∀ c ch, a.chunk c = some ch → ch.unpooled = true → ch.Huge l
  page : ∀ c i s, a.subpages c i = some s → i < 2 ^ l.maxOrder ∧ ∃ ch, a.chunk c = some ch ∧ ch.unpooled = false
  kept : ∀ c i s, a.subpages c i = some s → s.doNotDestroy_ = true → 2 ^ l.maxOrder + i ∈ a.nodesOf c

/-! ## Looking up what is given out -/

theorem nodesOf_eq (h : a.chunk c = some ch) : a.nodesOf c = ch.nodes := by
  rw [nodesOf, h]

theorem paged_page : a.Paged l c (2 ^ l.maxOrder + i) ↔ ∃ s, a.subpages c i = some s ∧ s.doNotDestroy_ = true := by
  rw [Paged, Nat.add_sub_cancel_left, Option.any_eq_true]
  simp

variable {e e' : Extent} {t t' : Slot}

theorem ite_some_eq_some {p : Prop} [Decidable p] {x y : Extent} :
    (if p then some x else none) = some y ↔ p ∧ y = x := by
  split <;> simp_all [eq_comm]

theorem given_run : a.given l (.run c id) = some e ↔
    (id ∈ a.nodesOf c ∧ ¬a.Paged l c id) ∧ e = ⟨l.runOff id, l.runLen id⟩ := ite_some_eq_some

theorem given_elem : a.given l (.elem c i j) = some e ↔
    ∃ s, a.subpages c i = some s ∧ s.Taken j ∧ e = ⟨i * l.pageSize + j * s.elemSize_, s.elemSize_⟩ := by
  rw [given]
  cases a.subpages c i with
  | none => simp
  | some s =>
    show (if s.Taken j then _ else none) = _ ↔ _
    rw [ite_some_eq_some]
    simp

theorem given_huge : a.given l (.huge c) = some e ↔
    ∃ ch, a.chunk c = some ch ∧ ch.unpooled = true ∧ e = ⟨ch.offset, ch.chunkSize_⟩ := by
  rw [given]
  cases a.chunk c with
  | none => simp
  | some ch =>
    show (if ch.unpooled = true then _ else none) = _ ↔ _
    rw [ite_some_eq_some]
    simp

namespace Chunks

variable (C : a.Chunks l) (P : a.Pools l)
include C P

/-- What is given out of a pooled chunk lies in the run of a node that is given out. -/
theorem node_of (ht : a.given l t = some e) (hh : ∀ c, t ≠ .huge c) : ∃ ch, ∃ id ∈ ch.nodes, a.chunk t.chunk = some ch ∧
    ch.Counted l ch.nodes ∧ l.runOff id ≤ e.offset ∧ e.offset + e.length ≤ l.runOff id + l.runLen id ∧
    (t = .run t.chunk id ∨ ∃ i j, t = .elem t.chunk i j ∧ id = 2 ^ l.maxOrder + i) := by
  cases t with
  | huge c => exact absurd rfl (hh c)
  | run c id =>
    obtain ⟨⟨hid, -⟩, rfl⟩ := given_run.mp ht
    cases hc : a.chunk c with
    | none =>
      rw [nodesOf, hc] at hid
      exact absurd hid (Finset.notMem_empty _)
    | some ch =>
      rw [nodesOf_eq hc] at hid
      have hu : ch.unpooled = false := by
        by_contra hu
        rw [(C.huge c ch hc (by simpa using hu)).nodes] at hid
        exact absurd hid (Finset.notMem_empty _)
      exact ⟨ch, id, hid, hc, C.pooled c ch hc hu, Nat.le_refl _, Nat.le_refl _, .inl rfl⟩
  | elem c i j =>
    obtain ⟨s, hs, ⟨hd, hj⟩, rfl⟩ := given_elem.mp ht
    obtain ⟨hi, ch, hc, hu⟩ := C.page c i s hs
    have hid := C.kept c i s hs hd
    rw [nodesOf_eq hc] at hid
    obtain ⟨hlen, hoff⟩ := Layout.run_page (l := l) hi
    refine ⟨ch, _, hid, hc, C.pooled c ch hc hu, ?_, ?_, .inr ⟨i, j, rfl, rfl⟩⟩
    · rw [hoff]
      exact Nat.le_add_right _ _
    · rw [hoff, hlen]
      dsimp only
      rcases hj with ⟨h0, -⟩ | ⟨h0, hj, -⟩
      · rw [h0]
        omega
      · have hp := P.page c i s hs
        have hE := hp.elems h0
        have : (j + 1) * s.elemSize_ ≤ l.pageSize := by
          rw [← hp.pageSize_]
          refine Nat.le_trans (Nat.mul_le_mul_right _ hj) ?_
          rw [hE.maxNumElems_]
          exact Nat.div_mul_le_self _ _
        rw [Nat.succ_mul] at this
        omega

/-- What is given out lies in its chunk. -/
theorem in_chunk (ht : a.given l t = some e) :
    ∃ ch, a.chunk t.chunk = some ch ∧ e.offset + e.length ≤ ch.chunkSize_ := by
  by_cases hh : ∀ c, t ≠ .huge c
  · obtain ⟨ch, id, hid, hc, hC, h1, h2, -⟩ := C.node_of P ht hh
    refine ⟨ch, hc, ?_⟩
    rw [hC.chunkSize_]
    exact Nat.le_trans h2 (Layout.runOff_add_le (hC.blocks.pos id hid) (hC.blocks.lt id hid))
  · obtain ⟨c, rfl⟩ : ∃ c, t = .huge c := by simpa using hh
    obtain ⟨ch, hc, hu, rfl⟩ := given_huge.mp ht
    refine ⟨ch, hc, ?_⟩
    rw [(C.huge c ch hc hu).offset]
    exact (Nat.zero_add _).le

theorem not_huge_of (ht : a.given l t = some e) (hh : t = .huge c) (ht' : a.given l t' = some e')
    (hc : t'.chunk = c) : t' = .huge c := by
  subst hh
  by_contra hne
  obtain ⟨ch, hch, hu, -⟩ := given_huge.mp ht
  obtain ⟨ch', id, -, hch', hC, -⟩ := C.node_of P ht' fun c' h => hne (by rw [h] at hc ⊢; exact congrArg Slot.huge hc)
  rw [hc, hch] at hch'
  obtain rfl := Option.some_inj.mp hch'
  rw [hC.unpooled] at hu
  cases hu

/-- Two slots that are given out of one chunk are apart. -/
theorem apart (ht : a.given l t = some e) (ht' : a.given l t' = some e') (hne : t ≠ t') (hc : t.chunk = t'.chunk) :
    e.Apart e' := by
  by_cases hh : ∃ c, t = .huge c
  · obtain ⟨c, rfl⟩ := hh
    exact absurd (C.not_huge_of P ht rfl ht' hc.symm).symm hne
  by_cases hh' : ∃ c, t' = .huge c
  · obtain ⟨c, rfl⟩ := hh'
    exact absurd (C.not_huge_of P ht' rfl ht hc) hne
  obtain ⟨ch, id, hid, hch, hC, h1, h2, hk⟩ := C.node_of P ht (not_exists.mp hh)
  obtain ⟨ch', id', hid', hch', -, h1', h2', hk'⟩ := C.node_of P ht' (not_exists.mp hh')
  rw [hc, hch'] at hch
  obtain rfl := Option.some_inj.mp hch
  by_cases he : id = id'
  · -- of one page: both are elements of it
    subst he
    rcases hk with hk | ⟨i, j, hk, rfl⟩ <;> rcases hk' with hk' | ⟨i', j', hk', he⟩
    · exact absurd (hk.trans (hc ▸ hk'.symm)) hne
    · rw [hk] at ht
      rw [hk'] at ht'
      obtain ⟨s, hs, ⟨hd, -⟩, -⟩ := given_elem.mp ht'
      exact absurd (paged_page.mpr ⟨s, hc ▸ hs, hd⟩) (he ▸ (given_run.mp ht).1.2)
    · rw [hk] at ht
      rw [hk'] at ht'
      obtain ⟨s, hs, ⟨hd, -⟩, -⟩ := given_elem.mp ht
      exact absurd (paged_page.mpr ⟨s, hc ▸ hs, hd⟩) (given_run.mp ht').1.2
    · obtain rfl : i = i' := by omega
      rw [hk] at ht
      rw [hk', ← hc] at ht'
      obtain ⟨s, hs, ⟨-, hj⟩, rfl⟩ := given_elem.mp ht
      obtain ⟨s', hs', ⟨-, hj'⟩, rfl⟩ := given_elem.mp ht'
      obtain rfl := Option.some_inj.mp (hs.symm.trans hs')
      have hjj : j ≠ j' := by
        rintro rfl
        exact hne (hk.trans (hk'.trans (by rw [hc])).symm)
      rcases hj with ⟨h0, rfl⟩ | ⟨h0, -⟩
      · rcases hj' with ⟨-, rfl⟩ | ⟨h0', -⟩
        · exact absurd rfl hjj
        · exact absurd h0 h0'
      · rcases Nat.lt_or_gt_of_ne hjj with hlt | hlt
        · have := Nat.mul_le_mul_right s.elemSize_ hlt
          rw [Nat.succ_mul] at this
          exact .inl (by dsimp only; omega)
        · have := Nat.mul_le_mul_right s.elemSize_ hlt
          rw [Nat.succ_mul] at this
          exact .inr (by dsimp only; omega)
  · have hu : ¬Under id id' := fun hu => he (hC.blocks.apart id hid id' hid' hu)
    have hu' : ¬Under id' id := fun hu => he (hC.blocks.apart id' hid' id hid hu).symm
    rcases Layout.runOff_apart (l := l) (hC.blocks.pos id hid) (hC.blocks.pos id' hid') (hC.blocks.lt id hid)
      (hC.blocks.lt id' hid') hu hu' with h | h
    · exact .inl (by omega)
    · exact .inr (by omega)

end Chunks

/-! ## Edits -/

section

variable (hch : a.chunk c = some ch) (hu : ch.unpooled = false) (hu' : ch'.unpooled = false)
include hch hu hu'

/-- A chunk changes what is given out as runs of its own. -/
theorem given_setChunk_of_ne (ht : ∀ id, t ≠ .run c id) : (a.setChunk c ch').given l t = a.given l t := by
  cases t with
  | run c' id =>
    have hc : c' ≠ c := fun h => ht id (congrArg (Slot.run · id) h)
    have hn : (a.setChunk c ch').nodesOf c' = a.nodesOf c' := by
      rw [nodesOf, nodesOf, chunk_setChunk_of_ne hc]
    show (if id ∈ (a.setChunk c ch').nodesOf c' ∧ ¬a.Paged l c' id then _ else _) = _
    rw [hn]
    rfl
  | elem => rfl
  | huge c' =>
    by_cases hc : c' = c
    · subst hc
      simp [given, hch, hu, hu']
    · simp [given, chunk_setChunk_of_ne hc]

theorem given_setChunk_insert (hid : id ∉ ch.nodes) (hn : ch'.nodes = insert id ch.nodes) (hp : ¬a.Paged l c id) :
    (a.setChunk c ch').given l = Function.update (a.given l) (.run c id) (some ⟨l.runOff id, l.runLen id⟩) := by
  funext t
  by_cases ht : ∃ id', t = .run c id'
  · obtain ⟨id', rfl⟩ := ht
    show (if id' ∈ (a.setChunk c ch').nodesOf c ∧ ¬a.Paged l c id' then _ else _) = _
    rw [nodesOf_eq chunk_setChunk, hn]
    by_cases he : id' = id
    · subst he
      simp [hp]
    · rw [Function.update_of_ne (by simpa using he), given, nodesOf_eq hch]
      simp [he]
  · rw [given_setChunk_of_ne hch hu hu' (not_exists.mp ht), Function.update_of_ne (fun h => ht ⟨id, h⟩)]

theorem given_setChunk_erase (hn : ch'.nodes = ch.nodes.erase id) :
    (a.setChunk c ch').given l = Function.update (a.given l) (.run c id) none := by
  funext t
  by_cases ht : ∃ id', t = .run c id'
  · obtain ⟨id', rfl⟩ := ht
    show (if id' ∈ (a.setChunk c ch').nodesOf c ∧ ¬a.Paged l c id' then _ else _) = _
    rw [nodesOf_eq chunk_setChunk, hn]
    by_cases he : id' = id
    · subst he
      simp
    · rw [Function.update_of_ne (by simpa using he), given, nodesOf_eq hch]
      simp [he]
  · rw [given_setChunk_of_ne hch hu hu' (not_exists.mp ht), Function.update_of_ne (fun h => ht ⟨id, h⟩)]

end

theorem nodesOf_setSubpage : (a.setSubpage c i s).nodesOf = a.nodesOf := rfl

/-- A subpage changes what is given out as elements of it, and whether its page is. -/
theorem given_setSubpage_of_ne (h1 : ∀ j, t ≠ .elem c i j) (h2 : t ≠ .run c (2 ^ l.maxOrder + i)) :
    (a.setSubpage c i s).given l t = a.given l t := by
  cases t with
  | run c' id =>
    have hp : (a.setSubpage c i s).Paged l c' id ↔ a.Paged l c' id := by
      rw [Paged, Paged]
      refine and_congr_right fun hle => ?_
      rw [subpages_setSubpage_of_ne]
      rintro ⟨rfl, rfl⟩
      exact h2 (by rw [Nat.add_sub_cancel' hle])
    simp only [given, nodesOf_setSubpage, hp]
  | elem c' i' j =>
    have hne : ¬(c' = c ∧ i' = i) := by
      rintro ⟨rfl, rfl⟩
      exact h1 j rfl
    rw [given, given, subpages_setSubpage_of_ne hne]
  | huge => rfl

theorem given_setSubpage_elem : (a.setSubpage c i s).given l (.elem c i j) =
    if s.Taken j then some ⟨i * l.pageSize + j * s.elemSize_, s.elemSize_⟩ else none := by
  rw [given, subpages_setSubpage]

theorem given_setSubpage_run : (a.setSubpage c i s).given l (.run c (2 ^ l.maxOrder + i)) =
    if 2 ^ l.maxOrder + i ∈ a.nodesOf c ∧ ¬s.doNotDestroy_ = true then
      some ⟨l.runOff (2 ^ l.maxOrder + i), l.runLen (2 ^ l.maxOrder + i)⟩ else none := by
  have hp : (a.setSubpage c i s).Paged l c (2 ^ l.maxOrder + i) ↔ s.doNotDestroy_ = true := by
    rw [paged_page, subpages_setSubpage]
    simp
  simp only [given, nodesOf_setSubpage, hp]

@[simp] theorem given_relink {next prev : SubpageRef → Option SubpageRef} : (a.relink next prev).given l = a.given l := by
  funext t
  cases t <;> rfl

/-- An element is given out, or taken back. -/
theorem given_setSubpage_update (hs : a.subpages c i = some s) (hd : s'.doNotDestroy_ = s.doNotDestroy_)
    (he : s'.elemSize_ = s.elemSize_) (hj : ∀ j', j' ≠ j → (s'.Taken j' ↔ s.Taken j')) :
    (a.setSubpage c i s').given l = Function.update (a.given l) (.elem c i j)
      (if s'.Taken j then some ⟨i * l.pageSize + j * s.elemSize_, s.elemSize_⟩ else none) := by
  have hself : a.given l = (a.setSubpage c i s).given l := by rw [setSubpage_self hs]
  funext t
  by_cases h1 : ∃ j', t = .elem c i j'
  · obtain ⟨j', rfl⟩ := h1
    by_cases hjj : j' = j
    · subst hjj
      rw [given_setSubpage_elem, Function.update_self, he]
    · rw [Function.update_of_ne (by simpa using hjj), hself, given_setSubpage_elem, given_setSubpage_elem, he]
      simp only [hj j' hjj]
  · rw [Function.update_of_ne (fun h => h1 ⟨j, h⟩)]
    by_cases h2 : t = .run c (2 ^ l.maxOrder + i)
    · rw [h2, hself, given_setSubpage_run, given_setSubpage_run, hd]
    · exact given_setSubpage_of_ne (not_exists.mp h1) h2

namespace Chunks

variable (C : a.Chunks l)
include C

omit C in
theorem of_relink {next prev : SubpageRef → Option SubpageRef} (C : a.Chunks l) : (a.relink next prev).Chunks l :=
  { C with }

theorem setChunk (hch : a.chunk c = some ch) (hC : ch'.Counted l ch'.nodes)
    (hk : ∀ i s, a.subpages c i = some s → s.doNotDestroy_ = true → 2 ^ l.maxOrder + i ∈ ch'.nodes) :
    (a.setChunk c ch').Chunks l where
  fresh n hn := by
    rw [chunk_setChunk_of_ne]
    · exact C.fresh n hn
    · rintro rfl
      rw [C.fresh n hn] at hch
      cases hch
  pooled n chn h hu := by
    by_cases hn : n = c
    · subst hn
      rw [chunk_setChunk] at h
      exact Option.some_inj.mp h ▸ hC
    · rw [chunk_setChunk_of_ne hn] at h
      exact C.pooled n chn h hu
  huge n chn h hu := by
    by_cases hn : n = c
    · subst hn
      rw [chunk_setChunk] at h
      rw [← Option.some_inj.mp h, hC.unpooled] at hu
      cases hu
    · rw [chunk_setChunk_of_ne hn] at h
      exact C.huge n chn h hu
  page n i s h := by
    obtain ⟨hi, chn, hc, hu⟩ := C.page n i s h
    refine ⟨hi, ?_⟩
    by_cases hn : n = c
    · subst hn
      exact ⟨ch', chunk_setChunk, hC.unpooled⟩
    · exact ⟨chn, (chunk_setChunk_of_ne hn).trans hc, hu⟩
  kept n i s h hd := by
    by_cases hn : n = c
    · subst hn
      rw [nodesOf_eq chunk_setChunk]
      exact hk i s h hd
    · rw [nodesOf, chunk_setChunk_of_ne hn]
      exact C.kept n i s h hd

theorem setSubpage (hch : a.chunk c = some ch) (hu : ch.unpooled = false) (hi : i < 2 ^ l.maxOrder)
    (hk : s.doNotDestroy_ = true → 2 ^ l.maxOrder + i ∈ ch.nodes) : (a.setSubpage c i s).Chunks l :=
  { C with
    page := fun n i' s' h => by
      by_cases hne : n = c ∧ i' = i
      · obtain ⟨rfl, rfl⟩ := hne
        exact ⟨hi, ch, hch, hu⟩
      · rw [subpages_setSubpage_of_ne hne] at h
        exact C.page n i' s' h
    kept := fun n i' s' h hd => by
      rw [nodesOf_setSubpage]
      by_cases hne : n = c ∧ i' = i
      · obtain ⟨rfl, rfl⟩ := hne
        rw [subpages_setSubpage] at h
        rw [nodesOf_eq hch]
        exact hk (Option.some_inj.mp h ▸ hd)
      · rw [subpages_setSubpage_of_ne hne] at h
        exact C.kept n i' s' h hd }

end Chunks

/-! ## The whole of an arena -/

/-- The arena but for its chunk lists. -/
structure Sound (l : Layout) (a : PoolArena) : Prop where
  laid : a.Laid l
  pools : a.Pools l
  chunks : a.Chunks l

/-- The chunks of `a` are chunks of `a'`, with the same memory. -/
def Extends (a a' : PoolArena) : Prop :=
  ∀ c ch, a.chunk c = some ch → ∃ ch', a'.chunk c = some ch' ∧ ch'.memory = ch.memory ∧ ch'.unpooled = ch.unpooled

theorem Extends.refl (a : PoolArena) : a.Extends a := fun _ ch h => ⟨ch, h, rfl, rfl⟩

theorem Extends.trans (h : a.Extends a') (h' : a'.Extends a'') : a.Extends a'' := fun c ch hc => by
  obtain ⟨ch', hc', h1, h2⟩ := h c ch hc
  obtain ⟨ch'', hc'', h3, h4⟩ := h' c ch' hc'
  exact ⟨ch'', hc'', h3.trans h1, h4.trans h2⟩

@[simp] theorem poolOf_setChunk : (a.setChunk c ch).poolOf = a.poolOf := by
  funext r
  cases r <;> rfl

theorem Pools.setChunk (P : a.Pools l) : (a.setChunk c ch).Pools l :=
  ⟨P.page, by rw [poolOf_setChunk]; exact P.rings, P.idle⟩

theorem Laid.setChunk (H : a.Laid l) : (a.setChunk c ch).Laid l := { H with }

theorem counted_unlinked (h : ch.Counted l A) : ch.unlinked.Counted l A := { h with }

theorem counted_of_unlinked (h : ch.unlinked.Counted l A) : ch.Counted l A := { h with }

namespace Relinked

variable (R : a.Relinked a')
include R

theorem nodesOf : a'.nodesOf = a.nodesOf := by
  funext c
  unfold PoolArena.nodesOf
  cases hc : a'.chunk c with
  | none =>
    have := R.chunk c
    rw [hc, Option.map_none, eq_comm, Option.map_eq_none_iff] at this
    rw [this]
  | some ch =>
    obtain ⟨ch', hc', he⟩ := R.exists_chunk' hc
    have := congrArg PoolChunk.nodes he
    rw [hc']
    exact this

theorem chunk_eq_none : a'.chunk c = none ↔ a.chunk c = none := by
  rw [← Option.map_eq_none_iff (f := PoolChunk.unlinked), R.chunk c, Option.map_eq_none_iff]

theorem subpages : a'.subpages = a.subpages := by
  rw [R.rest]

theorem nextChunk : a'.nextChunk = a.nextChunk := by
  rw [R.rest]

theorem given : a'.given l = a.given l := by
  funext t
  cases t with
  | run c id =>
    have hp : a'.Paged l c id ↔ a.Paged l c id := by rw [Paged, Paged, R.subpages]
    simp only [PoolArena.given, R.nodesOf, hp]
  | elem c i j => rw [PoolArena.given, PoolArena.given, R.subpages]
  | huge c =>
    rw [PoolArena.given, PoolArena.given]
    cases hc : a'.chunk c with
    | none => rw [R.chunk_eq_none.mp hc]
    | some ch =>
      obtain ⟨ch', hc', he⟩ := R.exists_chunk' hc
      rw [hc']
      have h1 := congrArg PoolChunk.unpooled he
      have h2 := congrArg PoolChunk.offset he
      have h3 := congrArg PoolChunk.chunkSize_ he
      change ch.unpooled = ch'.unpooled at h1
      change ch.offset = ch'.offset at h2
      change ch.chunkSize_ = ch'.chunkSize_ at h3
      dsimp only
      rw [h1, h2, h3]

theorem poolOf : a'.poolOf = a.poolOf := by
  funext r
  cases r with
  | tiny | small => rfl
  | page c i => rw [PoolArena.poolOf, PoolArena.poolOf, R.subpages]

theorem carried : a.Extends a' := fun c ch hc => by
  obtain ⟨ch', hc', he⟩ := R.exists_chunk hc
  exact ⟨ch', hc', (congrArg PoolChunk.memory he :), (congrArg PoolChunk.unpooled he :)⟩

theorem carried' : a'.Extends a := fun c ch hc => by
  obtain ⟨ch', hc', he⟩ := R.exists_chunk' hc
  exact ⟨ch', hc', (congrArg PoolChunk.memory he.symm :), (congrArg PoolChunk.unpooled he.symm :)⟩

theorem sound (S : a.Sound l) : a'.Sound l where
  laid := R.laid S.laid
  pools := by
    have hr := R.rest
    refine ⟨fun c i s h => S.pools.page c i s (R.subpages ▸ h), ?_, fun c i s c' i' s' h h' =>
      S.pools.idle c i s c' i' s' (R.subpages ▸ h) (R.subpages ▸ h')⟩
    have hn : a'.next_ = a.next_ := by rw [hr]
    have hp : a'.prev_ = a.prev_ := by rw [hr]
    rw [R.poolOf, hn, hp]
    exact S.pools.rings
  chunks := by
    refine ⟨fun c hc => R.chunk_eq_none.mpr (S.chunks.fresh c (R.nextChunk ▸ hc)), fun c ch hc hu => ?_,
      fun c ch hc hu => ?_, fun c i s h => ?_, fun c i s h hd => ?_⟩
    · obtain ⟨ch', hc', he⟩ := R.exists_chunk' hc
      have hC := S.chunks.pooled c ch' hc' ((congrArg PoolChunk.unpooled he).symm.trans hu)
      exact (counted_of_unlinked (he ▸ counted_unlinked hC)).nodes
    · obtain ⟨ch', hc', he⟩ := R.exists_chunk' hc
      have hH := S.chunks.huge c ch' hc' ((congrArg PoolChunk.unpooled he).symm.trans hu)
      have h1 := congrArg PoolChunk.maxSubpageAllocs he
      have h2 := congrArg PoolChunk.offset he
      have h3 := congrArg PoolChunk.chunkSize_ he
      exact ⟨h1.trans hH.maxSubpageAllocs, h2.trans hH.offset, hH.chunkSize_.trans_eq h3.symm⟩
    · obtain ⟨hi, ch, hc, hu⟩ := S.chunks.page c i s (R.subpages ▸ h)
      obtain ⟨ch', hc', he⟩ := R.exists_chunk hc
      exact ⟨hi, ch', hc', (congrArg PoolChunk.unpooled he).trans hu⟩
    · rw [R.nodesOf]
      exact S.chunks.kept c i s (R.subpages ▸ h) hd

end Relinked

end PoolArena

/-! ## Elements -/

namespace PoolSubpage

theorem taken_take (h0 : s.elemSize_ ≠ 0) (hd : s.doNotDestroy_ = true) (hj : j ∈ s.clear) :
    ¬s.Taken j ∧ (s.take j).Taken j ∧ ∀ j', j' ≠ j → ((s.take j).Taken j' ↔ s.Taken j') := by
  obtain ⟨hlt, hb⟩ := mem_clear.mp hj
  refine ⟨?_, ⟨hd, .inr ⟨h0, hlt, by simp [bit_take]⟩⟩, fun j' hj' => ?_⟩
  · rintro ⟨-, ⟨h, -⟩ | ⟨-, -, h⟩⟩
    · exact h0 h
    · rw [hb] at h
      cases h
  · show (_ ∧ (_ ∨ _ ∧ _ ∧ (s.take j).bit j' = true)) ↔ _
    rw [bit_take]
    simp only [hj', decide_false, Bool.or_false]
    exact Iff.rfl

theorem taken_give (h : s.Taken j) (h0 : s.elemSize_ ≠ 0) :
    ¬(s.give j).Taken j ∧ ∀ j', j' ≠ j → ((s.give j).Taken j' ↔ s.Taken j') := by
  obtain ⟨hd, ⟨h1, -⟩ | ⟨-, hlt, hb⟩⟩ := h
  · exact absurd h1 h0
  refine ⟨?_, fun j' hj' => ?_⟩
  · rintro ⟨-, ⟨h, -⟩ | ⟨-, -, h⟩⟩
    · exact h0 h
    · rw [bit_give, hb] at h
      simp at h
  · show (_ ∧ (_ ∨ _ ∧ _ ∧ (s.give j).bit j' = true)) ↔ _
    rw [bit_give]
    simp only [hj', decide_false, Bool.xor_false]
    exact Iff.rfl

/-- Of a subpage that is idle, nothing is given out. -/
theorem Page.not_taken (hp : s.Page l c i) (h0 : s.elemSize_ ≠ 0) (hi : s.Idle) : ¬s.Taken j := by
  rintro ⟨-, ⟨h, -⟩ | ⟨-, hlt, hb⟩⟩
  · exact h0 h
  · have := (hp.elems h0).numAvail_eq_iff.mp (hi.resolve_left h0) j hlt
    rw [hb] at this
    cases this

/-- The first element of a page that is given out is the only one. -/
theorem Based.taken_first (hb : s.Based l c i) (hm : SizeClass l n)
    (hs' : (s.initElems n).elemSize_ = 0 ∧ j = 0 ∧ s' = s.initElems n ∨
      (s.initElems n).elemSize_ ≠ 0 ∧ j ∈ (s.initElems n).clear ∧ s' = (s.initElems n).take j) :
    s'.doNotDestroy_ = true ∧ s'.elemSize_ = n ∧ ∀ j', s'.Taken j' ↔ j' = j := by
  obtain ⟨hpage, hin, hsz⟩ := hb.initElems hm
  rcases hs' with ⟨h0, rfl, rfl⟩ | ⟨h0, hj, rfl⟩
  · refine ⟨hin.1, hsz, fun j' => ⟨fun h => ?_, fun h => ⟨hin.1, .inl ⟨h0, h⟩⟩⟩⟩
    rcases h.2 with ⟨-, h⟩ | ⟨h1, -⟩
    · exact h
    · exact absurd h0 h1
  · have hidle : (s.initElems n).Idle := .inr (initElems_elems hm (hsz ▸ h0) hb.pageSize_).2.1
    obtain ⟨-, ht, hother⟩ := taken_take h0 hin.1 hj
    refine ⟨hin.1, hsz, fun j' => ⟨fun h => ?_, fun h => h ▸ ht⟩⟩
    by_contra hne
    exact hpage.not_taken h0 hidle ((hother j' hne).mp h)

end PoolSubpage

end Nio.Pool
