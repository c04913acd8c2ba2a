import NioSocket.Pool.Slots

/-!
# What a chunk does

`PoolChunk::allocate` gives out a slot of the chunk (`Served`), or leaves everything as
it was; `PoolChunk::free` takes one back. The handle of a slot says where it is.
-/

namespace Nio.Pool

open PoolArena

variable {l : Layout} {a a' : PoolArena} {ch ch' : PoolChunk} {s : PoolSubpage} {c i j id : Nat} {req n : Int}

/-! ## Handles -/

/-- The parts of a handle do not overlap. -/
theorem handle_elem (hi : i < 2 ^ l.maxOrder) (hj : j < 2 ^ 30) :
    (Slot.elem c i j).handle l = 2 ^ 62 + j * 2 ^ 32 + (2 ^ l.maxOrder + i : Nat) := by
  have ho : 2 ^ l.maxOrder ≤ 2 ^ 14 := Nat.pow_le_pow_right (by decide) l.maxOrder_le
  have hm : 2 ^ l.maxOrder + i < 2 ^ 32 := by omega
  have e1 : j <<< 32 ||| (2 ^ l.maxOrder + i) = j * 2 ^ 32 + (2 ^ l.maxOrder + i) := by
    rw [← Nat.shiftLeft_add_eq_or_of_lt hm, Nat.shiftLeft_eq]
  have e2 : (0x4000000000000000 : Nat) ||| (j * 2 ^ 32 + (2 ^ l.maxOrder + i)) =
      2 ^ 62 + (j * 2 ^ 32 + (2 ^ l.maxOrder + i)) := by
    have := Nat.shiftLeft_add_eq_or_of_lt (i := 62) (b := j * 2 ^ 32 + (2 ^ l.maxOrder + i)) (by omega) 1
    rw [Nat.shiftLeft_eq, Nat.one_mul] at this
    exact this.symm
  rw [Slot.handle, Nat.or_assoc, e1, e2]
  push_cast
  omega

theorem handle_elem_parts (hi : i < 2 ^ l.maxOrder) (hj : j < 2 ^ 30) :
    PoolChunk.memoryMapIdx ((Slot.elem c i j).handle l) = (2 ^ l.maxOrder + i : Nat) ∧
      PoolChunk.bitmapIdx ((Slot.elem c i j).handle l) = (2 ^ 30 + j : Nat) := by
  have ho : 2 ^ l.maxOrder ≤ 2 ^ 14 := Nat.pow_le_pow_right (by decide) l.maxOrder_le
  have hm : 2 ^ l.maxOrder + i < 2 ^ 15 := by omega
  rw [PoolChunk.memoryMapIdx, PoolChunk.bitmapIdx, handle_elem hi hj, Int.shiftRight_eq_div_pow]
  generalize 2 ^ l.maxOrder + i = m at *
  unfold i32
  omega

theorem elemIdx_eq (hj : j < 2 ^ 30) : PoolChunk.elemIdx (2 ^ 30 + j : Nat) = j := by
  have e : (BitVec.ofInt 32 ((2 ^ 30 + j : Nat) : Int)).toNat = 2 ^ 30 + j := by
    rw [BitVec.toNat_ofInt]
    omega
  rw [PoolChunk.elemIdx, BitVec.toNat_and, e]
  exact (Nat.and_two_pow_sub_one_eq_mod _ 30).trans (by omega)

theorem handle_run_parts (hid : id < 2 ^ (l.maxOrder + 1)) :
    PoolChunk.memoryMapIdx ((Slot.run c id).handle l) = id ∧ PoolChunk.bitmapIdx ((Slot.run c id).handle l) = 0 := by
  have ho : 2 ^ (l.maxOrder + 1) ≤ 2 ^ 15 := Nat.pow_le_pow_right (by decide) (by have := l.maxOrder_le; omega)
  rw [PoolChunk.memoryMapIdx, PoolChunk.bitmapIdx, Slot.handle, Int.shiftRight_eq_div_pow]
  unfold i32
  omega

/-- The index of a page in the array of subpages. -/
theorem subpageIdx_eq (h : ch.Shaped l) (hi : i < 2 ^ l.maxOrder) : ch.subpageIdx (2 ^ l.maxOrder + i) = i := by
  have hpos := Nat.two_pow_pos l.maxOrder
  have e1 : ((2 ^ l.maxOrder + i) ^^^ 2 ^ l.maxOrder) / 2 ^ l.maxOrder = 0 := by
    rw [Nat.xor_div_two_pow, Nat.div_self hpos, Nat.add_div_left _ hpos, Nat.div_eq_of_lt hi]
    rfl
  have e2 : ((2 ^ l.maxOrder + i) ^^^ 2 ^ l.maxOrder) % 2 ^ l.maxOrder = i := by
    rw [Nat.xor_mod_two_pow, Nat.mod_self, Nat.xor_zero, Nat.add_mod_left, Nat.mod_eq_of_lt hi]
  rw [PoolChunk.subpageIdx, h.maxSubpageAllocs, ← Nat.div_add_mod ((2 ^ l.maxOrder + i) ^^^ 2 ^ l.maxOrder), e1, e2]
  omega

/-- A subpage has fewer elements than an index has bits for. -/
theorem PoolSubpage.Page.taken_lt (hp : s.Page l c i) (ht : s.Taken j) : j < 2 ^ 30 := by
  rcases ht.2 with ⟨-, rfl⟩ | ⟨h0, hj, -⟩
  · decide
  · have hE := hp.elems h0
    have h16 := hp.elemSize_.ge h0
    have hc := l.chunkSize_le
    have hpc := l.pageSize_le_chunkSize
    rw [hE.maxNumElems_, hp.pageSize_] at hj
    have : l.pageSize / s.elemSize_ ≤ l.pageSize / 16 := Nat.div_le_div_left h16 (by decide)
    omega

namespace PoolArena

theorem onChunk_ok {α : Type} {m : Method PoolChunk α} {x : α} (h : a.chunk c = some ch) (hm : m ch = .ok x ch') :
    onChunk c m a = .ok x (a.setChunk c ch') := by
  rw [onChunk, h]
  simp only [hm]

/-- A member function that only reads. -/
theorem onChunk_self {α : Type} {m : Method PoolChunk α} {x : α} (h : a.chunk c = some ch) (hm : m ch = .ok x ch) :
    onChunk c m a = .ok x a := by
  rw [onChunk_ok h hm, setChunk_self h]

end PoolArena

namespace PoolChunk

/-! ## What a buffer is given -/

/-- The region of a run. -/
theorem initBuf_run (hch : a.chunk c = some ch) (hC : ch.Counted l ch.nodes) (hid : id ∈ ch.nodes) :
    initBuf c ((Slot.run c id).handle l) req a =
      .ok ⟨c, (Slot.run c id).handle l, l.runOff id, req, l.runLen id⟩ a := by
  have h1 := hC.blocks.pos id hid
  have hx := hC.blocks.lt id hid
  obtain ⟨hm, hb⟩ := handle_run_parts (c := c) hx
  have hv : ch.memoryMap id = ch.unusable := (hC.kept id h1 hx).allocated hid |>.trans hC.unusable.symm
  have hnn : (Slot.run c id).handle l ≥ 0 := Int.natCast_nonneg id
  rw [initBuf, if_pos hb]
  simp only [hm, Int.toNat_natCast, Method.bind_apply, onChunk_self hch (hC.value h1 hx), chunkAt_ok hch, Outcome.bind_ok,
    assert_ok hv, onChunk_self hch (hC.runOffset h1 hx), onChunk_self hch (hC.runLength h1 hx), Region.init0,
    assert_ok hnn, hC.offset]
  rfl

/-- The region of an element. -/
theorem initBufWithSubpage_ok (hch : a.chunk c = some ch) (hC : ch.Shaped l) (hs : a.subpages c i = some s)
    (hp : s.Page l c i) (hi : i < 2 ^ l.maxOrder) (hj : s.Taken j) (hreq : req ≤ s.elemSize_) :
    initBufWithSubpage c ((Slot.elem c i j).handle l) req a =
      .ok ⟨c, (Slot.elem c i j).handle l, i * l.pageSize + j * s.elemSize_, req, s.elemSize_⟩ a := by
  have hjl := hp.taken_lt hj
  obtain ⟨hm, hb⟩ := handle_elem_parts (c := c) hi hjl
  have hpos := Nat.two_pow_pos l.maxOrder
  have h1 : 1 ≤ 2 ^ l.maxOrder + i := by omega
  have hx : 2 ^ l.maxOrder + i < 2 ^ (l.maxOrder + 1) := by
    rw [Nat.pow_succ]
    omega
  have hne : ((2 ^ 30 + j : Nat) : Int) ≠ 0 := by omega
  have hreq' : req ≤ s.elementSize := hreq
  have hnn : (Slot.elem c i j).handle l ≥ 0 := Int.natCast_nonneg _
  have hoff : runOffset (2 ^ l.maxOrder + i) ch = .ok (l.runOff (2 ^ l.maxOrder + i)) ch := hC.runOffset h1 hx
  rw [(Layout.run_page hi).2] at hoff
  simp only [initBufWithSubpage, hm, hb, Int.toNat_natCast, Method.bind_apply, assert_ok hne, Outcome.bind_ok,
    chunkAt_ok hch, subpageIdx_eq hC hi, subpageAt_ok hs, assert_ok hj.1, assert_ok hreq', onChunk_self hch hoff,
    elemIdx_eq hjl, Region.init0, assert_ok hnn, hC.offset]
  rfl

end PoolChunk

/-! ## Giving out -/

/-- From `a` to `a'`, a buffer gets slot `t`. -/
structure Served (l : Layout) (a a' : PoolArena) (req n : Int) (t : Slot) (r : Region) : Prop where
  sound : a'.Sound l
  given : a'.given l = Function.update (a.given l) t (some ⟨r.offset_, r.maxLength_⟩)
  fresh : a.given l t = none ∨ r.maxLength_ = 0 ∧ a.given l t = some ⟨r.offset_, r.maxLength_⟩
  chunk_ : r.chunk_ = t.chunk
  handle_ : r.handle_ = t.handle l
  length_ : r.length_ = req
  le : req ≤ r.maxLength_
  size : (r.maxLength_ : Int) = n

/-- From `a` to `a'`, of the chunks only `c` changes, and of `c` only the map and the count of free bytes. -/
structure Worked (a a' : PoolArena) (c : Nat) (ch : PoolChunk) (k : Int) : Prop where
  chunk : ∃ m, a'.chunk = (a.setChunk c ((ch.withMap m).withFreeBytes k)).chunk
  list : a'.list = a.list
  nextChunk : a'.nextChunk = a.nextChunk

namespace PoolChunk

variable (S : a.Sound l) (hch : a.chunk c = some ch) (hu : ch.unpooled = false)
include S hch hu

omit hu in
/-- A page that is not given out has no subpage in use. -/
theorem not_kept (hid : 2 ^ l.maxOrder + i ∉ ch.nodes) (hs : a.subpages c i = some s) : s.doNotDestroy_ = false := by
  by_contra hd
  have := S.chunks.kept c i s hs (by simpa using hd)
  rw [nodesOf_eq hch] at this
  exact hid this

omit hu in
theorem not_given (hid : 2 ^ l.maxOrder + i ∉ ch.nodes) (j : Nat) : a.given l (.elem c i j) = none := by
  by_contra hne
  obtain ⟨e, he⟩ := Option.ne_none_iff_exists'.mp hne
  obtain ⟨s, hs, ⟨hd, -⟩, -⟩ := given_elem.mp he
  rw [not_kept S hch hid hs] at hd
  cases hd

omit hu in
theorem not_paged (hid : id ∉ ch.nodes) : ¬a.Paged l c id := by
  rintro ⟨hle, hany⟩
  obtain ⟨s, hs, hd⟩ := (Option.any_eq_true _ _).mp hany
  obtain ⟨i, rfl⟩ := Nat.exists_eq_add_of_le hle
  rw [Nat.add_sub_cancel_left] at hs
  rw [not_kept S hch hid hs] at hd
  cases hd

omit hu in
/-- What remains true when a node is given out. -/
theorem setChunk_insert {m : Nat → Nat} {k : Int} {A : Finset Nat} (hA : A = insert id ch.nodes)
    (hC : ((ch.withMap m).withFreeBytes k).Counted l A) :
    (a.setChunk c ((ch.withMap m).withFreeBytes k)).Sound l := by
  have hn := hC.toTree.nodes_eq
  refine ⟨S.laid.setChunk, S.pools.setChunk, S.chunks.setChunk hch hC.nodes fun i s h hd => ?_⟩
  have := S.chunks.kept c i s h hd
  rw [nodesOf_eq hch] at this
  rw [hn, hA]
  exact Finset.mem_insert_of_mem this

/-- A run of pages. -/
theorem allocate_run {k : Nat} (hk : l.pageShifts ≤ k) (hk' : k ≤ l.pageShifts + l.maxOrder) (hreq : req ≤ (2 ^ k : Nat)) :
    (allocate c req (2 ^ k : Nat) a = .ok none a ∧ ch.nodes ≠ ∅) ∨
      ∃ r t a' n, allocate c req (2 ^ k : Nat) a = .ok (some r) a' ∧ Served l a a' req (2 ^ k : Nat) t r ∧
        Worked a a' c ch n ∧
        n + (2 ^ k : Nat) = ch.freeBytes_ := by
  have hC := S.chunks.pooled c ch hch hu
  have hge : ((2 ^ k : Nat) : Int) ≥ ch.pageSize := by
    rw [hC.pageSize, Layout.pageSize]
    exact_mod_cast Nat.pow_le_pow_right (show 0 < 2 by decide) hk
  simp only [allocate, Method.bind_apply, chunkAt_ok hch, Outcome.bind_ok, if_pos hge, Int.toNat_natCast]
  rcases hC.allocateRun hk hk' with ⟨e, hne⟩ | ⟨id, m, n, h1, hx, hlen, hf, hn, e, hC'⟩
  · left
    rw [onChunk_self hch e]
    exact ⟨rfl, hne⟩
  · right
    have hid : id ∉ ch.nodes := fun hm => hf.not_covered ⟨_, hm, .refl _⟩
    have hnodes := hC'.toTree.nodes_eq
    have hpaged := not_paged S hch hid
    have hS := setChunk_insert S hch rfl hC'
    have hb : initBuf c (id : Nat) req (a.setChunk c ((ch.withMap m).withFreeBytes n)) = _ :=
      initBuf_run chunk_setChunk (hC'.nodes) (hnodes ▸ Finset.mem_insert_self id _)
    refine ⟨⟨c, id, l.runOff id, req, l.runLen id⟩, .run c id, _, n, ?_, ⟨hS, ?_, .inl ?_, rfl, rfl, rfl, ?_,
      congrArg Nat.cast hlen⟩, ⟨⟨m, rfl⟩, rfl, rfl⟩, hn⟩
    · rw [onChunk_ok hch e, Outcome.bind_ok, if_neg (by omega), Method.bind_apply, hb]
      rfl
    · exact given_setChunk_insert hch hu hC'.unpooled hid hnodes hpaged
    · rw [given, nodesOf_eq hch, if_neg fun h => hid h.1]
    · rw [hlen]
      exact hreq

omit S hch hu in
/-- The subpage of a page, made or used again. -/
theorem initSubpage_ok {m : Nat} (P : a.Pools l) (H : a.Laid l) (hch : a.chunk c = some ch) (hC : ch.Shaped l)
    (hi : i < 2 ^ l.maxOrder) (hm : SizeClass l m)
    (hd : ∀ s, a.subpages c i = some s → s.doNotDestroy_ = false) (hring : ∀ r, a.poolOf r ≠ some (headOf m)) :
    ∃ s : PoolSubpage, ∃ next prev, s.Based l c i ∧
      initSubpage c (2 ^ l.maxOrder + i) (headOf m) m a =
        .ok i ((a.setSubpage c i (s.initElems m)).relink next prev) ∧
      ((a.setSubpage c i (s.initElems m)).relink next prev).Pools l := by
  have hlt : i < ch.maxSubpageAllocs := hC.maxSubpageAllocs ▸ hi
  simp only [initSubpage, chunkAt_ok hch, Outcome.bind_ok, subpageIdx_eq hC hi, Method.bind_apply, assert_ok hlt]
  cases hs : a.subpages c i with
  | none =>
    have hb : (PoolSubpage.new c (2 ^ l.maxOrder + i) ch.pageSize).Based l c i := ⟨rfl, rfl, hC.pageSize⟩
    obtain ⟨next, prev, e, hP⟩ := P.init H hb (by rw [poolOf, hs]) hm hring
    refine ⟨_, next, prev, hb, ?_, hP⟩
    simp only [if_true, Method.modify_apply, Method.bind_apply, Outcome.bind_ok, e]
    rfl
  | some s =>
    have hb := (P.page c i s hs).toBased
    have hpool : a.poolOf (.page c i) = none := by
      rw [poolOf_page hs, if_neg]
      rintro ⟨h, -⟩
      rw [hd s hs] at h
      cases h
    obtain ⟨next, prev, e, hP⟩ := P.init H hb hpool hm hring
    rw [setSubpage_self hs] at e
    refine ⟨s, next, prev, hb, ?_, hP⟩
    simp only [reduceCtorEq, if_false, Method.pure_apply, Method.bind_apply, Outcome.bind_ok, e]

/-- The page of which the first element is given out. -/
theorem allocateSubpage_ok {m : Nat} (hm : SizeClass l m) (hring : ∀ r, a.poolOf r ≠ some (headOf m)) :
    (allocateSubpage c m a = .ok (-1) a ∧ ch.nodes ≠ ∅) ∨
      ∃ i j s a' n, allocateSubpage c m a = .ok ((Slot.elem c i j).handle l) a' ∧ i < 2 ^ l.maxOrder ∧ a'.Sound l ∧
        a'.subpages c i = some s ∧ s.Taken j ∧ s.elemSize_ = m ∧ a.given l (.elem c i j) = none ∧
        a'.given l = Function.update (a.given l) (.elem c i j) (some ⟨i * l.pageSize + j * m, m⟩) ∧
        Worked a a' c ch n ∧ n + l.pageSize = ch.freeBytes_ := by
  have hC := S.chunks.pooled c ch hch hu
  simp only [allocateSubpage, Method.bind_apply, S.laid.findSubpagePoolHead hm, chunkAt_ok hch, Outcome.bind_ok]
  rcases hC.allocatePage with ⟨e, hne⟩ | ⟨i, mm, hi, hf, e, hC'⟩
  · left
    rw [onChunk_self hch e]
    exact ⟨rfl, hne⟩
  right
  have hid : 2 ^ l.maxOrder + i ∉ ch.nodes := fun hm => hf.not_covered ⟨_, hm, .refl _⟩
  have hnodes := hC'.toTree.nodes_eq
  have hmem : 2 ^ l.maxOrder + i ∈ ((ch.withMap mm).withFreeBytes (ch.freeBytes_ - l.pageSize)).nodes :=
    hnodes ▸ Finset.mem_insert_self _ _
  have hS := setChunk_insert S hch rfl hC'
  have e1 : onChunk c (.modify fun ch : PoolChunk => { ch with freeBytes_ := ch.freeBytes_ - ch.pageSize })
      (a.setChunk c (ch.withMap mm)) =
        .ok () (a.setChunk c ((ch.withMap mm).withFreeBytes (ch.freeBytes_ - l.pageSize))) := by
    rw [onChunk_ok chunk_setChunk (by rfl), setChunk_setChunk, ← hC.pageSize]
    rfl
  have hnn : ¬((2 ^ l.maxOrder + i : Nat) : Int) < 0 := by omega
  rw [onChunk_ok hch e, Outcome.bind_ok, if_neg hnn]
  simp only [Method.bind_apply, e1, Outcome.bind_ok, Int.toNat_natCast]
  -- from here on, the chunk is as it stays
  generalize hch' : (ch.withMap mm).withFreeBytes (ch.freeBytes_ - l.pageSize) = ch' at *
  have hw : Worked a (a.setChunk c ch') c ch (ch.freeBytes_ - l.pageSize) := ⟨⟨mm, by rw [hch']⟩, rfl, rfl⟩
  obtain ⟨s, next, prev, hb, es, hP⟩ := initSubpage_ok hS.pools hS.laid chunk_setChunk hC'.toShaped hi hm
    (fun s hs => not_kept S hch hid hs) (fun r => by rw [poolOf_setChunk]; exact hring r)
  rw [es, Outcome.bind_ok]
  obtain ⟨hpage, hin, hsz⟩ := hb.initElems hm
  have hL : ((a.setChunk c ch').setSubpage c i (s.initElems m) |>.relink next prev).Laid l := hS.laid.setSubpage.relink
  obtain ⟨j, s', next', prev', ea, hP', hs'⟩ := hP.allocate hL subpages_setSubpage hin
  obtain ⟨hd', hsz', hT⟩ := hb.taken_first hm hs'
  have eA : (((a.setChunk c ch').setSubpage c i (s.initElems m) |>.relink next prev).setSubpage c i s').relink
      next' prev' = ((a.setChunk c ch').setSubpage c i s').relink next' prev' := by
    show (((a.setChunk c ch').setSubpage c i (s.initElems m)).setSubpage c i s').relink next' prev' = _
    rw [setSubpage_setSubpage]
  rw [eA] at ea hP'
  refine ⟨i, j, s', _, _, ?_, hi, ⟨hS.laid.setSubpage.relink, hP', ?_⟩, subpages_setSubpage, (hT j).mpr rfl, hsz',
    not_given S hch hid j, ?_, ⟨hw.chunk, rfl, rfl⟩, by omega⟩
  · rw [ea, PoolSubpage.toHandle, hpage.memoryMapIdx_]
    rfl
  · exact (hS.chunks.setSubpage chunk_setChunk hC'.unpooled hi fun _ => hmem).of_relink
  · rw [given_relink]
    funext t
    by_cases h1 : ∃ j', t = .elem c i j'
    · obtain ⟨j', rfl⟩ := h1
      rw [given_setSubpage_elem, hsz']
      by_cases hj : j' = j
      · rw [if_pos ((hT j').mpr hj), hj, Function.update_self]
      · rw [if_neg fun h => hj ((hT j').mp h), Function.update_of_ne (by simpa using hj), not_given S hch hid]
    · rw [Function.update_of_ne fun h => h1 ⟨j, h⟩]
      by_cases h2 : t = .run c (2 ^ l.maxOrder + i)
      · rw [h2, given_setSubpage_run, if_neg fun h => h.2 hd', given, nodesOf_eq hch, if_neg fun h => hid h.1]
      · rw [given_setSubpage_of_ne (not_exists.mp h1) h2,
          given_setChunk_insert hch hu hC'.unpooled hid hnodes (not_paged S hch hid), Function.update_of_ne h2]

/-- `allocate` gives out a slot of the chunk, or there is none of the size. -/
theorem allocate_ok (hn : Normalized l req n) (hle : n ≤ l.chunkSize)
    (hring : ∀ m : Nat, SizeClass l m → n = m → ∀ r, a.poolOf r ≠ some (headOf m)) :
    (allocate c req n a = .ok none a ∧ ch.nodes ≠ ∅) ∨
      ∃ r t a' k, allocate c req n a = .ok (some r) a' ∧ Served l a a' req n t r ∧ Worked a a' c ch k ∧
        k + max n l.pageSize = ch.freeBytes_ := by
  cases hn with
  | huge hlt => omega
  | @run j hk hk' hreq =>
    rcases allocate_run S hch hu hk hk' hreq with h | ⟨r, t, a', k, e, hS, hw, hf⟩
    · exact .inl h
    · have : l.pageSize ≤ 2 ^ j := Nat.pow_le_pow_right (by decide) hk
      exact .inr ⟨r, t, a', k, e, hS, hw, by omega⟩
  | @elem m hm hreq =>
    have hC := S.chunks.pooled c ch hch hu
    have hlt : ¬(m : Int) ≥ ch.pageSize := by
      have := hm.two_mul_le
      have := l.pageSize_le
      rw [hC.pageSize]
      omega
    simp only [allocate, Method.bind_apply, chunkAt_ok hch, Outcome.bind_ok, if_neg hlt]
    rcases allocateSubpage_ok S hch hu hm (hring m hm rfl) with ⟨e, hne⟩ |
      ⟨i, j, s, a', k, e, hi, hS, hs, ht, hsz, hf, hg, hw, hk⟩
    · left
      rw [e]
      exact ⟨rfl, hne⟩
    · right
      obtain ⟨mm, hc⟩ := hw.chunk
      have hch' : a'.chunk c = some ((ch.withMap mm).withFreeBytes k) := by rw [hc, chunk_setChunk]
      have hp := hS.pools.page c i s hs
      have hb : PoolChunk.bitmapIdx ((Slot.elem c i j).handle l) ≠ 0 := by
        rw [(handle_elem_parts hi (hp.taken_lt ht)).2]
        omega
      have hnn : ¬(Slot.elem c i j).handle l < 0 := Int.not_lt.mpr (Int.natCast_nonneg _)
      have hinit := initBufWithSubpage_ok hch' ((hC.toShaped.withMap mm).withFreeBytes k) hs hp hi ht
        (show req ≤ s.elemSize_ by rw [hsz]; exact hreq)
      rw [hsz] at hinit
      refine ⟨⟨c, (Slot.elem c i j).handle l, i * l.pageSize + j * m, req, m⟩, .elem c i j, a', k, ?_,
        ⟨hS, hg, .inl hf, rfl, rfl, rfl, hreq, rfl⟩, hw, by have := hm.two_mul_le; omega⟩
      rw [e, Outcome.bind_ok, if_neg hnn, Method.bind_apply, initBuf, if_neg hb, hinit]
      rfl

end PoolChunk

/-! ## Taking back -/

theorem Worked.refl (hch : a.chunk c = some ch) : Worked a a c ch ch.freeBytes_ :=
  ⟨⟨ch.memoryMap, by
    show a.chunk = (a.setChunk c ch).chunk
    rw [setChunk_self hch]⟩, rfl, rfl⟩

namespace PoolChunk

variable (S : a.Sound l) (hch : a.chunk c = some ch) (hu : ch.unpooled = false)
include S hch hu

theorem free_run {e : Extent} (ht : a.given l (.run c id) = some e) :
    ∃ a' k, free c ((Slot.run c id).handle l) a = .ok () a' ∧ a'.Sound l ∧
      a'.given l = Function.update (a.given l) (.run c id) none ∧ Worked a a' c ch k ∧ ch.freeBytes_ ≤ k := by
  have hC := S.chunks.pooled c ch hch hu
  obtain ⟨⟨hid, hpaged⟩, -⟩ := given_run.mp ht
  rw [nodesOf_eq hch] at hid
  obtain ⟨hm, hb⟩ := handle_run_parts (c := c) (hC.blocks.lt id hid)
  obtain ⟨m, k, hk, e, hC'⟩ := hC.freeNode hid
  have hnodes := hC'.toTree.nodes_eq
  refine ⟨_, k, ?_, ⟨S.laid.setChunk, S.pools.setChunk, S.chunks.setChunk hch hC'.nodes fun i s hs hd => ?_⟩,
    given_setChunk_erase hch hu hC'.unpooled hnodes, ⟨⟨m, rfl⟩, rfl, rfl⟩, hk⟩
  · simp only [free, hb, hm, Int.toNat_natCast]
    exact onChunk_ok hch e
  · have hki := S.chunks.kept c i s hs hd
    rw [nodesOf_eq hch] at hki
    rw [hnodes]
    refine Finset.mem_erase.mpr ⟨?_, hki⟩
    rintro rfl
    exact hpaged (paged_page.mpr ⟨s, hs, hd⟩)

theorem free_elem {e : Extent} (ht : a.given l (.elem c i j) = some e) :
    ∃ a' k, free c ((Slot.elem c i j).handle l) a = .ok () a' ∧ a'.Sound l ∧
      a'.given l = (if e.length = 0 then a.given l else Function.update (a.given l) (.elem c i j) none) ∧
      Worked a a' c ch k ∧ ch.freeBytes_ ≤ k := by
  have hC := S.chunks.pooled c ch hch hu
  obtain ⟨s, hs, hT, rfl⟩ := given_elem.mp ht
  have hp := S.pools.page c i s hs
  obtain ⟨hi, -⟩ := S.chunks.page c i s hs
  have hkept := S.chunks.kept c i s hs hT.1
  rw [nodesOf_eq hch] at hkept
  have hjl := hp.taken_lt hT
  obtain ⟨hm, hb⟩ := handle_elem_parts (c := c) hi hjl
  have hne : ((2 ^ 30 + j : Nat) : Int) ≠ 0 := by omega
  have hj : s.elemSize_ = 0 ∨ j < s.maxNumElems_ ∧ s.bit j = true := by
    rcases hT.2 with ⟨h, -⟩ | ⟨-, h⟩
    · exact .inl h
    · exact .inr h
  obtain ⟨b, s', next, prev, ef, hP, hcase⟩ := S.pools.free S.laid hs hT.1 hj
  have hL : ((a.setSubpage c i s').relink next prev).Laid l := S.laid.setSubpage.relink
  have hch' : ((a.setSubpage c i s').relink next prev).chunk c = some ch := hch
  simp only [free, hb, hm, Int.toNat_natCast, if_pos hne, Method.bind_apply, chunkAt_ok hch, Outcome.bind_ok,
    subpageIdx_eq hC.toShaped hi, subpageAt_ok hs, assert_ok hT.1, PoolSubpage.elementSize,
    S.laid.findSubpagePoolHead hp.elemSize_, elemIdx_eq hjl, ef]
  rcases hcase with ⟨rfl, h0, rfl⟩ | ⟨rfl, h0, rfl⟩ | ⟨rfl, h0, rfl, hidle⟩
  · refine ⟨_, _, rfl, ⟨hL, hP, (S.chunks.setSubpage hch hu hi fun _ => hkept).of_relink⟩, ?_, ⟨(Worked.refl hch).chunk, rfl, rfl⟩,
      Int.le_refl _⟩
    rw [given_relink, setSubpage_self hs, if_pos h0]
  · obtain ⟨hout, hother⟩ := PoolSubpage.taken_give hT h0
    refine ⟨_, _, rfl, ⟨hL, hP, (S.chunks.setSubpage hch hu hi fun _ => hkept).of_relink⟩, ?_, ⟨(Worked.refl hch).chunk, rfl, rfl⟩,
      Int.le_refl _⟩
    have hg : (a.setSubpage c i (s.give j)).given l = _ := given_setSubpage_update hs rfl rfl hother
    rw [given_relink, hg, if_neg hout, if_neg h0]
  · -- the page goes back to the chunk
    obtain ⟨-, hother⟩ := PoolSubpage.taken_give hT h0
    obtain ⟨m, k, hk, e, hC'⟩ := hC.freeNode hkept
    have hnodes := hC'.toTree.nodes_eq
    have hC₁ : ((a.setSubpage c i { s.give j with doNotDestroy_ := false }).relink next prev).Chunks l :=
      (S.chunks.setSubpage hch hu hi fun h => by cases h).of_relink
    refine ⟨_, k, onChunk_ok hch' e, ⟨hL.setChunk, hP.setChunk, hC₁.setChunk hch' hC'.nodes fun i' s' hs' hd' => ?_⟩,
      ?_, ⟨⟨m, rfl⟩, rfl, rfl⟩, hk⟩
    · have hki := hC₁.kept c i' s' hs' hd'
      rw [nodesOf_eq hch'] at hki
      rw [hnodes]
      refine Finset.mem_erase.mpr ⟨fun he => ?_, hki⟩
      obtain rfl : i' = i := by omega
      have hs' : (a.setSubpage c i' { s.give j with doNotDestroy_ := false }).subpages c i' = some s' := hs'
      rw [subpages_setSubpage] at hs'
      rw [← Option.some_inj.mp hs'] at hd'
      cases hd'
    · rw [given_setChunk_erase hch' hu hC'.unpooled hnodes, given_relink, if_neg h0]
      have hgive := (hp.give h0 (hj.resolve_left h0).1 (hj.resolve_left h0).2)
      funext t
      by_cases h2 : t = .run c (2 ^ l.maxOrder + i)
      · subst h2
        rw [Function.update_self, Function.update_of_ne (by simp), given, if_neg]
        exact fun h => h.2 (paged_page.mpr ⟨s, hs, hT.1⟩)
      rw [Function.update_of_ne h2]
      by_cases h1 : ∃ j', t = .elem c i j'
      · obtain ⟨j', rfl⟩ := h1
        rw [given_setSubpage_elem, if_neg fun h => by cases h.1]
        by_cases hjj : j' = j
        · rw [hjj, Function.update_self]
        · rw [Function.update_of_ne (by simpa using hjj), given, hs]
          dsimp only
          rw [if_neg fun h => hgive.not_taken h0 hidle ((hother j' hjj).mpr h)]
      · rw [given_setSubpage_of_ne (not_exists.mp h1) h2, Function.update_of_ne fun h => h1 ⟨j, h⟩]

/-- `free` takes back a slot of the chunk. -/
theorem free_ok {t : Slot} {e : Extent} (ht : a.given l t = some e) (hc : t.chunk = c) :
    ∃ a' k, free c (t.handle l) a = .ok () a' ∧ a'.Sound l ∧
      a'.given l = (if e.length = 0 then a.given l else Function.update (a.given l) t none) ∧
      Worked a a' c ch k ∧ ch.freeBytes_ ≤ k := by
  cases t with
  | run c' id =>
    obtain rfl : c' = c := hc
    have hpos : ¬e.length = 0 := by
      obtain ⟨-, rfl⟩ := given_run.mp ht
      exact (Layout.runLen_pos id).ne'
    rw [if_neg hpos]
    exact free_run S hch hu ht
  | elem c' i j =>
    obtain rfl : c' = c := hc
    exact free_elem S hch hu ht
  | huge c' =>
    obtain rfl : c' = c := hc
    obtain ⟨ch', hch', hu', -⟩ := given_huge.mp ht
    rw [hch, Option.some_inj] at hch'
    rw [← hch', hu] at hu'
    cases hu'

end PoolChunk

end Nio.Pool
