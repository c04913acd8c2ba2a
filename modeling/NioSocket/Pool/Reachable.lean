import NioSocket.Pool.Buffers

/-!
# Every state of an arena

What holds in each state that a run of `Buffers` reaches: of the regions of the live buffers,
of the pools, of the chunk lists, and of what the chunks have given out.
-/

namespace Nio.Pool

open PoolArena (chunkAt)

namespace Buffers

variable {l : Layout} {s s' : Buffers} {e : Call} {es : List Call} {σ : Nat → Slot} {b b' : PooledCharBuf} {c id : Nat}

/-! ## Regions -/

/-- The requests that a buffer is made with. -/
def Call.Proper : Call → Prop
  | .allocate reqCapacity maxCapacity => 1 ≤ reqCapacity ∧ reqCapacity ≤ maxCapacity
  | _ => True

theorem Step.length_nonneg (H : Held l s σ) (st : Step s e s') (he : e.Proper)
    (h : ∀ id b, s.buf id = some b → 0 ≤ b.length_) : ∀ id b, s'.buf id = some b → 0 ≤ b.length_ := by
  have set : ∀ {id : Nat} {p : Pooled}, 0 ≤ p.buf.length_ → ∀ k b, (s.set id p).buf k = some b → 0 ≤ b.length_ :=
    fun {id p} hp k b hb => by
      rcases of_set_buf hb with ⟨-, rfl⟩ | ⟨-, hb⟩
      · exact hp
      · exact h k b hb
  cases st with
  | @allocate req max b a' _ _ ea =>
    intro id bk hk
    rcases of_add_buf hk with ⟨-, rfl⟩ | ⟨-, hk⟩
    · rw [PoolArena.allocateBuf, Method.bind_apply] at ea
      have hr : req ≠ intMin := by
        rintro rfl
        rw [PoolArena.allocate_intMin H.whole] at ea
        cases ea
      obtain ⟨r, t, a₁, e₁, hS, -⟩ := PoolArena.allocate_ok H.whole ‹_› hr
      rw [e₁] at ea
      obtain ⟨rfl, -⟩ := Outcome.ok.inj ea
      show 0 ≤ r.length_
      rw [hS.length_]
      have := he.1
      omega
    · exact h id bk hk
  | @capacity id n b p hb hi ec =>
    refine set ?_
    rcases Pooled.setCapacity_cases H.whole (H.holds id b hb) hi with ⟨-, e⟩ | ⟨-, -, what, e⟩ |
      ⟨-, hn, ⟨-, e⟩ | ⟨-, r, t', a', e, M⟩ | ⟨-, e⟩⟩
    · obtain ⟨-, rfl⟩ := Outcome.ok.inj (e.symm.trans ec)
      exact h id b hb
    · cases e.symm.trans ec
    · obtain ⟨-, rfl⟩ := Outcome.ok.inj (e.symm.trans ec)
      obtain ⟨i, e⟩ := (b.withLength n).settle_eq b.length_ n
      rw [e]
      exact hn.1
    · obtain ⟨-, rfl⟩ := Outcome.ok.inj (e.symm.trans ec)
      obtain ⟨i, e⟩ := (b.init0 r).settle_eq b.length_ n
      rw [e]
      show 0 ≤ r.length_
      rw [M.length_]
      exact hn.1
    · cases e.symm.trans ec
  | @refused id n b what p hb hi ec =>
    refine set ?_
    rcases Pooled.setCapacity_cases H.whole (H.holds id b hb) hi with ⟨-, e⟩ | ⟨-, -, what, e⟩ |
      ⟨-, -, ⟨-, e⟩ | ⟨-, r, t', a', e, -⟩ | ⟨-, e⟩⟩
    · cases e.symm.trans ec
    · obtain ⟨-, rfl⟩ := Outcome.throw.inj (e.symm.trans ec)
      exact h id b hb
    · cases e.symm.trans ec
    · cases e.symm.trans ec
    · cases e.symm.trans ec
  | @write id index src b p hb hle ep =>
    refine set ?_
    have hH := H.holds id b hb
    have hlen := hH.length_
    obtain ⟨ch, -, e⟩ := Pooled.poke_ok H.whole hH (show index + src.length ≤ b.maxLength_ by omega)
    obtain ⟨-, rfl⟩ := Outcome.ok.inj (e.symm.trans ep)
    exact h id b hb
  | @release id b p hb er =>
    exact fun k bk hk => h k bk (of_remove_buf hk).2

/-- Buffers that were made of proper requests have regions in their chunks, as long as they are,
and two of them have no byte of a chunk in common. -/
theorem regions_apart (h : Run Step (init l) es s) (hes : ∀ e ∈ es, e.Proper) :
    (∀ id b, s.buf id = some b → 0 ≤ b.length_ ∧ b.length_ ≤ b.maxLength_ ∧
      ∃ c ch, b.chunk_ = some c ∧ s.arena.chunk c = some ch ∧ b.offset_ + b.maxLength_ ≤ ch.chunkSize_) ∧
    ∀ id id' b b', s.buf id = some b → s.buf id' = some b' → id ≠ id' → b.chunk_ = b'.chunk_ →
      b.offset_ + b.maxLength_ ≤ b'.offset_ ∨ b'.offset_ + b'.maxLength_ ≤ b.offset_ := by
  obtain ⟨⟨σ, H⟩, hnn⟩ : (∃ σ, Held l s σ) ∧ ∀ id b, s.buf id = some b → 0 ≤ b.length_ :=
    h.inv_mem (P := fun s => (∃ σ, Held l s σ) ∧ ∀ id b, s.buf id = some b → 0 ≤ b.length_)
      ⟨⟨_, init_held l⟩, fun _ _ => nofun⟩ fun _ _ _ he ⟨⟨_, H⟩, hnn⟩ st =>
        ⟨st.held H, st.length_nonneg H (hes _ he) hnn⟩
  refine ⟨fun id b hb => ?_, fun id id' b b' hb hb' hne hc => ?_⟩
  · have hH := H.holds id b hb
    obtain ⟨ch, hch, hin⟩ := H.whole.chunks.in_chunk H.whole.pools hH.given
    exact ⟨hnn id b hb, hH.length_, _, ch, hH.chunk_, hch, hin⟩
  · have h₁ := H.holds id b hb
    have h₂ := H.holds id' b' hb'
    by_cases he : σ id = σ id'
    · have h0 := H.apart id id' b b' hb hb' hne he
      have hg := h₁.given
      rw [he, h₂.given] at hg
      have := (Extent.mk.inj (Option.some.inj hg)).1
      omega
    · rw [h₁.chunk_, h₂.chunk_, Option.some_inj] at hc
      exact H.whole.chunks.apart H.whole.pools h₁.given h₂.given he hc

/-- The layout of the witnesses: chunks of two pages. -/
abbrev twoPages : Layout := ⟨12, 1, by decide, by decide, by decide⟩

/-- The second buffer of a page, after the first has moved to the other page. -/
theorem regions_apart_two : ∃ s, Run Step (init twoPages) [.allocate 40 100, .allocate 48 48, .capacity 0 100] s ∧
    ((s.buf 0).map fun b => (b.chunk_, b.offset_, b.maxLength_)) = some (some 0, 4096, 112) ∧
    ((s.buf 1).map fun b => (b.chunk_, b.offset_, b.maxLength_)) = some (some 0, 48, 48) ∧
    ∀ id id' b b', s.buf id = some b → s.buf id' = some b' → id ≠ id' → b.chunk_ = b'.chunk_ →
      b.offset_ + b.maxLength_ ≤ b'.offset_ ∨ b'.offset_ + b'.maxLength_ ≤ b.offset_ := by
  obtain ⟨s, hr, h0, h1⟩ := exists_run (s := init twoPages)
    (P := fun s => ((s.buf 0).map fun b => (b.chunk_, b.offset_, b.maxLength_)) = some (some 0, 4096, 112) ∧
      ((s.buf 1).map fun b => (b.chunk_, b.offset_, b.maxLength_)) = some (some 0, 48, 48))
    [.allocate 40 100, .allocate 48 48, .capacity 0 100] (by decide +kernel)
  exact ⟨s, hr, h0, h1, (regions_apart hr (by simp [Call.Proper])).2⟩

/-! ## Pools -/

/-- The pool of each size, the elements of each subpage, and what the arena does with them: no
assertion fails, and a pool always has an element to give. -/
theorem pools_of_run (h : Run Step (init l) es s) :
    (∀ n, SizeClass l n → PoolArena.findSubpagePoolHead n s.arena = .ok (headOf n) s.arena ∧
      ∃ xs, Ring s.arena.next_ s.arena.prev_ (headOf n) xs ∧
        ∀ r, r ∈ xs ↔ ∃ c i, ∃ sp : PoolSubpage, r = .page c i ∧ s.arena.subpages c i = some sp ∧ sp.elemSize_ = n ∧
          sp.doNotDestroy_ = true ∧ (n = 0 ∨ 0 < sp.numAvail_)) ∧
    (∀ c i sp, s.arena.subpages c i = some sp → sp.elemSize_ ≠ 0 →
      sp.numAvail_ = ({j ∈ Finset.range sp.maxNumElems_ | sp.bit j = false} : Finset Nat).card ∧
      (sp.nextAvail_ = -1 ∨ ∃ j < sp.maxNumElems_, sp.bit j = false ∧ sp.nextAvail_ = j) ∧
      (0 < sp.numAvail_ → ∃ j < sp.maxNumElems_, ∃ sp', sp.bit j = false ∧ PoolSubpage.getNextAvail sp = .ok (j : Int) sp')) ∧
    (∀ req, i32 req = req → PoolArena.allocate req s.arena ≠ .ub) ∧
    (∀ id b, s.buf id = some b → ∃ p, Pooled.release 1 ⟨s.arena, b⟩ = .ok () p) ∧
    (∀ id b n, s.buf id = some b → 0 ≤ b.length_ → i32 n = n → Pooled.setCapacity n ⟨s.arena, b⟩ ≠ .ub) := by
  obtain ⟨σ, H⟩ := run_held h
  have W := H.whole
  refine ⟨fun n hn => ⟨W.laid.findSubpagePoolHead hn, ?_⟩, fun c i sp hs h0 => ?_, fun req hi => ?_, fun id b hb => ?_,
    fun id b n hb h0 hi => ?_⟩
  · obtain ⟨xs, R, hm⟩ := W.pools.rings.ring _ (headOf_isHead hn)
    refine ⟨xs, R, fun r => (hm r).trans ⟨fun hr => ?_, ?_⟩⟩
    · obtain ⟨c, i, sp, rfl, hs, hin, he⟩ := PoolArena.exists_of_poolOf hr
      have hn' := headOf_inj (W.pools.page c i sp hs).elemSize_ hn he
      exact ⟨c, i, sp, rfl, hs, hn', hin.1, hn' ▸ hin.2⟩
    · rintro ⟨c, i, sp, rfl, hs, rfl, hd, hin⟩
      rw [PoolArena.poolOf_page hs, if_pos ⟨hd, hin⟩]
  · have E := (W.pools.page c i sp hs).elems h0
    refine ⟨E.numAvail_, ?_, fun h => ?_⟩
    · rcases E.nextAvail_ with h | ⟨j, hj, h⟩
      · exact .inl h
      · obtain ⟨hlt, hb⟩ := PoolSubpage.mem_clear.mp hj
        exact .inr ⟨j, hlt, hb, h⟩
    · obtain ⟨j, hj, e⟩ := E.getNextAvail h
      obtain ⟨hlt, hb⟩ := PoolSubpage.mem_clear.mp hj
      exact ⟨j, hlt, _, hb, e⟩
  · by_cases hm : req = intMin
    · rw [hm, PoolArena.allocate_intMin W]
      nofun
    · obtain ⟨r, t, a', e, -⟩ := PoolArena.allocate_ok W hi hm
      rw [e]
      nofun
  · obtain ⟨a', b', e, -⟩ := Pooled.release_one W (H.holds id b hb) (H.refCnt_ id b hb)
    exact ⟨_, e⟩
  · rcases Pooled.setCapacity_cases W (H.holds id b hb) hi with ⟨-, e⟩ | ⟨-, -, what, e⟩ |
      ⟨-, -, ⟨-, e⟩ | ⟨-, r, t', a', e, -⟩ | ⟨h, -⟩⟩
    · rw [e]
      nofun
    · rw [e]
      nofun
    · rw [e]
      nofun
    · rw [e]
      nofun
    · omega

/-- After the last buffer of a page is released, its subpage stays in the pool of its size. -/
theorem pools_of_run_kept : ∃ s, Run Step (init twoPages) [.allocate 40 100, .release 0] s ∧
    ∃ xs, Ring s.arena.next_ s.arena.prev_ (headOf 48) xs ∧
      ∀ r, r ∈ xs ↔ ∃ c i, ∃ sp : PoolSubpage, r = .page c i ∧ s.arena.subpages c i = some sp ∧ sp.elemSize_ = 48 ∧
        sp.doNotDestroy_ = true ∧ (48 = 0 ∨ 0 < sp.numAvail_) := by
  obtain ⟨s, hr, -⟩ := exists_run (s := init twoPages) (P := fun s => s.nextBuf = 1) [.allocate 40 100, .release 0]
    (by decide +kernel)
  exact ⟨s, hr, ((pools_of_run hr).1 48 (.inl ⟨by decide, by decide⟩)).2⟩

/-! ## Chunk lists -/

/-- Each pooled chunk is in the list that is its parent, and in no other, its usage is in the range of
the list, and chunks are moved without an assertion failing. -/
theorem lists_of_run (h : Run Step (init l) es s) :
    (∀ x, ∃ xs : List Nat, Ended s.arena.nextChunkOf s.arena.prevChunkOf none (s.arena.list x).head_ xs ∧ xs.Nodup ∧
      ∀ c, c ∈ xs ↔ ∃ ch, s.arena.chunk c = some ch ∧ ch.unpooled = false ∧ ch.parent = some x) ∧
    (∀ c ch, s.arena.chunk c = some ch → ch.unpooled = false → ∃ x, ch.parent = some x ∧
      (s.arena.list x).minUsage_ ≤ ch.usage ∧ ch.usage < (s.arena.list x).maxUsage_) ∧
    (∀ req, i32 req = req → req ≠ intMin → ∃ r a', PoolArena.allocate req s.arena = .ok r a') ∧
    (∀ c ch, s.arena.chunk c = some ch →
      PoolChunk.allocate c intMin (s.arena.normalizeCapacity intMin) s.arena = .hang) ∧
    (∀ id b, s.buf id = some b → ∃ p, Pooled.release 1 ⟨s.arena, b⟩ = .ok () p) ∧
    (∀ id b n, s.buf id = some b → 0 ≤ b.length_ → i32 n = n →
      (∃ p, Pooled.setCapacity n ⟨s.arena, b⟩ = .ok () p) ∨ ∃ what p, Pooled.setCapacity n ⟨s.arena, b⟩ = .throw what p) := by
  obtain ⟨σ, H⟩ := run_held h
  have W := H.whole
  refine ⟨fun x => ?_, fun c ch hc hu => ?_, fun req hi hm => ?_, fun c ch hc => ?_, fun id b hb => ?_,
    fun id b n hb h0 hi => ?_⟩
  · obtain ⟨xs, e, hd, hm⟩ := W.listed.lists x
    refine ⟨xs, e, hd, fun c => (hm c).trans ⟨fun hx => ?_, ?_⟩⟩
    · obtain ⟨ch, hc, hx⟩ := Option.bind_eq_some_iff.mp hx
      cases hu : ch.unpooled with
      | true =>
        rw [hu, if_pos rfl] at hx
        cases hx
      | false =>
        rw [hu] at hx
        exact ⟨ch, hc, hu, hx⟩
    · rintro ⟨ch, hc, hu, hx⟩
      rw [PoolArena.listOf_eq hc hu, hx]
  · exact W.listed.fit c ch hc hu
  · obtain ⟨r, t, a', e, -⟩ := PoolArena.allocate_ok W hi hm
    exact ⟨r, a', e⟩
  · rw [W.laid.normalizeCapacity_intMin]
    exact PoolArena.allocate_negative hc (by decide) (by decide)
  · obtain ⟨a', b', e, -⟩ := Pooled.release_one W (H.holds id b hb) (H.refCnt_ id b hb)
    exact ⟨_, e⟩
  · rcases Pooled.setCapacity_cases W (H.holds id b hb) hi with ⟨-, e⟩ | ⟨-, -, what, e⟩ |
      ⟨-, -, ⟨-, e⟩ | ⟨-, r, t', a', e, -⟩ | ⟨h, -⟩⟩
    · exact .inl ⟨_, e⟩
    · exact .inr ⟨_, _, e⟩
    · exact .inl ⟨_, e⟩
    · exact .inl ⟨_, e⟩
    · omega

/-- A chunk that is half used is in the list of its usage. -/
theorem lists_of_run_half : ∃ s, Run Step (init twoPages) [.allocate 4096 4096] s ∧
    (s.arena.chunk 0).bind (·.parent) = some .q025 ∧
    ∀ c ch, s.arena.chunk c = some ch → ch.unpooled = false → ∃ x, ch.parent = some x ∧
      (s.arena.list x).minUsage_ ≤ ch.usage ∧ ch.usage < (s.arena.list x).maxUsage_ := by
  obtain ⟨s, hr, hp⟩ := exists_run (s := init twoPages) (P := fun s => (s.arena.chunk 0).bind (·.parent) = some .q025)
    [.allocate 4096 4096] (by decide +kernel)
  exact ⟨s, hr, hp, (lists_of_run hr).2.1⟩

/-! ## What the chunks have given out -/

/-- No live buffer has its region in a chunk that is not there. -/
theorem Held.chunk_ne (H : Held l s σ) (hc : s.arena.chunk c = none) (hb : s.buf id = some b) : b.chunk_ ≠ some c := by
  have hH := H.holds id b hb
  obtain ⟨ch, hch, -⟩ := H.whole.chunks.in_chunk H.whole.pools hH.given
  rw [hH.chunk_, ne_eq, Option.some_inj]
  rintro rfl
  rw [hc] at hch
  cases hch

/-- A pooled chunk is destroyed with nothing of it given out and none of its subpages in a pool. -/
theorem Step.destroyed (H : Held l s σ) (st : Step s e s') {ch : PoolChunk} (hc : s.arena.chunk c = some ch)
    (hu : ch.unpooled = false) (hgone : s'.arena.chunk c = none) :
    ∃ a₁, PoolArena.destroyChunk c a₁ = .ok () s'.arena ∧ a₁.Sound l ∧ a₁.Unused l c := by
  have ext : s.arena.Extends s'.arena → False := fun hE => by
    obtain ⟨ch', hc', -⟩ := hE c ch hc
    rw [hgone] at hc'
    cases hc'
  cases st with
  | @allocate req max b a' hi _ ea =>
    rw [PoolArena.allocateBuf, Method.bind_apply] at ea
    have hr : req ≠ intMin := by
      rintro rfl
      rw [PoolArena.allocate_intMin H.whole] at ea
      cases ea
    obtain ⟨r, t, a₁, e₁, -, -, hE⟩ := PoolArena.allocate_ok H.whole hi hr
    rw [e₁] at ea
    obtain ⟨-, rfl⟩ := Outcome.ok.inj ea
    exact (ext hE).elim
  | @capacity id n b p hb hi ec =>
    rcases Pooled.setCapacity_cases H.whole (H.holds id b hb) hi with ⟨-, e⟩ | ⟨-, -, what, e⟩ |
      ⟨-, -, ⟨-, e⟩ | ⟨-, r, t', a', e, M⟩ | ⟨-, e⟩⟩
    · obtain ⟨-, rfl⟩ := Outcome.ok.inj (e.symm.trans ec)
      exact (ext (.refl _)).elim
    · cases e.symm.trans ec
    · obtain ⟨-, rfl⟩ := Outcome.ok.inj (e.symm.trans ec)
      exact (ext (.refl _)).elim
    · obtain ⟨-, rfl⟩ := Outcome.ok.inj (e.symm.trans ec)
      exact M.destroyed c ch hc hu hgone
    · cases e.symm.trans ec
  | @refused id n b what p hb hi ec =>
    rcases Pooled.setCapacity_cases H.whole (H.holds id b hb) hi with ⟨-, e⟩ | ⟨-, -, what, e⟩ |
      ⟨-, -, ⟨-, e⟩ | ⟨-, r, t', a', e, -⟩ | ⟨-, e⟩⟩
    · cases e.symm.trans ec
    · obtain ⟨-, rfl⟩ := Outcome.throw.inj (e.symm.trans ec)
      exact (ext (.refl _)).elim
    · cases e.symm.trans ec
    · cases e.symm.trans ec
    · cases e.symm.trans ec
  | @write id index src b p hb hle ep =>
    have hH := H.holds id b hb
    have hlen := hH.length_
    obtain ⟨ch', hch', e⟩ := Pooled.poke_ok H.whole hH (show index + src.length ≤ b.maxLength_ by omega)
    obtain ⟨-, rfl⟩ := Outcome.ok.inj (e.symm.trans ep)
    obtain ⟨m, hc'⟩ := (PoolArena.Rewritten.setChunk hch' (ch'.memory.write (b.offset_ + index) src)).exists_chunk hc
    cases hgone.symm.trans hc'
  | @release id b p hb er =>
    obtain ⟨a', b', e, F⟩ := Pooled.release_one H.whole (H.holds id b hb) (H.refCnt_ id b hb)
    obtain ⟨-, rfl⟩ := Outcome.ok.inj (e.symm.trans er)
    exact F.destroyed c ch hc hu hgone

/-- A node that no live buffer has is the page of a subpage that is kept in a pool. -/
theorem Held.kept (H : Held l s σ) (hno : ∀ id, s.buf id = none) {ch : PoolChunk} (hc : s.arena.chunk c = some ch)
    (hid : id ∈ ch.nodes) : ∃ i, ∃ sp : PoolSubpage, id = 2 ^ l.maxOrder + i ∧ s.arena.subpages c i = some sp ∧ sp.InPool ∧
      sp.Idle := by
  have empty : ∀ t e, s.arena.given l t = some e → e.length = 0 := fun t e ht => by
    by_contra he
    obtain ⟨k, b, hb, -⟩ := H.covered t e ht he
    rw [hno k] at hb
    cases hb
  have hp : s.arena.Paged l c id := by
    by_contra hp
    have hg : s.arena.given l (.run c id) = some ⟨l.runOff id, l.runLen id⟩ :=
      PoolArena.given_run.mpr ⟨⟨by rw [PoolArena.nodesOf_eq hc]; exact hid, hp⟩, rfl⟩
    exact (Layout.runLen_pos id).ne' (empty _ _ hg)
  obtain ⟨i, rfl⟩ := Nat.exists_eq_add_of_le hp.1
  obtain ⟨sp, hs, hd⟩ := PoolArena.paged_page.mp hp
  have hP := H.whole.pools.page c i sp hs
  refine ⟨i, sp, rfl, hs, ?_⟩
  by_cases h0 : sp.elemSize_ = 0
  · exact ⟨⟨hd, .inl h0⟩, .inl h0⟩
  have hE := hP.elems h0
  have hall : sp.numAvail_ = sp.maxNumElems_ := hE.numAvail_eq_iff.mpr fun j hj => by
    by_contra hb
    have ht : sp.Taken j := ⟨hd, .inr ⟨h0, hj, by simpa using hb⟩⟩
    exact h0 (empty _ _ (PoolArena.given_elem.mpr ⟨sp, hs, ht, rfl⟩))
  have h2 := hP.two_le h0
  exact ⟨⟨hd, .inr (by omega)⟩, .inr hall⟩

/-- The free bytes of a chunk are what its nodes leave; a chunk is destroyed when nothing of it is used;
and with no buffer live, of each size of elements at most one page is kept, and nothing else. -/
theorem freeBytes_of_run (h : Run Step (init l) es s) :
    (∀ c ch, s.arena.chunk c = some ch → ch.unpooled = false →
      ch.freeBytes_ = ch.chunkSize_ - (∑ id ∈ ch.nodes, l.runLen id : Nat) ∧ 0 ≤ ch.freeBytes_ ∧
        ch.freeBytes_ ≤ ch.chunkSize_) ∧
    (∀ e s' c ch, Step s e s' → s.arena.chunk c = some ch → ch.unpooled = false → s'.arena.chunk c = none →
      (∀ id b, s'.buf id = some b → b.chunk_ ≠ some c) ∧
      ∃ a₁, PoolArena.destroyChunk c a₁ = .ok () s'.arena ∧
        ∀ r, IsHead l r → ∃ xs, Ring a₁.next_ a₁.prev_ r xs ∧ ∀ i, .page c i ∉ xs) ∧
    ((∀ id, s.buf id = none) →
      (∀ c ch, s.arena.chunk c = some ch → ch.unpooled = false ∧ ∀ id ∈ ch.nodes, ∃ i, ∃ sp : PoolSubpage,
        id = 2 ^ l.maxOrder + i ∧ s.arena.subpages c i = some sp ∧ sp.doNotDestroy_ = true) ∧
      ∀ c i sp c' i' sp', s.arena.subpages c i = some sp → s.arena.subpages c' i' = some sp' →
        sp.doNotDestroy_ = true → sp'.doNotDestroy_ = true → sp.elemSize_ = sp'.elemSize_ → c = c' ∧ i = i') := by
  obtain ⟨σ, H⟩ := run_held h
  have W := H.whole
  refine ⟨fun c ch hc hu => ?_, fun e s' c ch st hc hu hgone => ?_, fun hno => ⟨fun c ch hc => ⟨?_, fun id hid => ?_⟩,
    fun c i sp c' i' sp' hs hs' hd hd' he => ?_⟩⟩
  · have hC := W.chunks.pooled c ch hc hu
    have h1 := hC.freeBytes_
    have h2 := hC.freeBytes_nonneg
    have h3 := hC.freeBytes_le
    rw [hC.chunkSize_]
    omega
  · obtain ⟨σ', H'⟩ := st.held H
    obtain ⟨a₁, e₁, S, U⟩ := st.destroyed H hc hu hgone
    refine ⟨fun id b hb => H'.chunk_ne hgone hb, a₁, e₁, fun r hr => ?_⟩
    obtain ⟨xs, R, hm⟩ := S.pools.rings.ring r hr
    refine ⟨xs, R, fun i hi => ?_⟩
    rw [hm, U.poolOf i] at hi
    cases hi
  · by_contra hu
    have hu : ch.unpooled = true := by simpa using hu
    have hlt := (W.chunks.huge c ch hc hu).chunkSize_
    obtain ⟨k, b, hb, -⟩ := H.covered (.huge c) ⟨ch.offset, ch.chunkSize_⟩ (PoolArena.given_huge.mpr ⟨ch, hc, hu, rfl⟩)
      (by dsimp only; omega)
    rw [hno k] at hb
    cases hb
  · obtain ⟨i, sp, he, hs, hin, -⟩ := H.kept hno hc hid
    exact ⟨i, sp, he, hs, hin.1⟩
  · have kept : ∀ {c i sp}, s.arena.subpages c i = some sp → sp.doNotDestroy_ = true → sp.InPool ∧ sp.Idle :=
      fun {c i sp} hs hd => by
        obtain ⟨-, ch, hc, -⟩ := W.chunks.page c i sp hs
        have hid := W.chunks.kept c i sp hs hd
        rw [PoolArena.nodesOf_eq hc] at hid
        obtain ⟨i', sp', he, hs', hin, hidle⟩ := H.kept hno hc hid
        obtain rfl : i = i' := by omega
        obtain rfl := Option.some_inj.mp (hs.symm.trans hs')
        exact ⟨hin, hidle⟩
    obtain ⟨h1, h2⟩ := kept hs hd
    obtain ⟨h1', h2'⟩ := kept hs' hd'
    exact W.pools.idle c i sp c' i' sp' hs hs' h1 h1' he h2 h2'

/-- One page is kept of two that were used for elements of one size. -/
theorem freeBytes_of_run_kept : ∃ s, Run Step (init twoPages)
      [.allocate 2048 2048, .allocate 2048 2048, .allocate 2048 2048, .release 0, .release 1, .release 2] s ∧
    ((s.arena.chunk 0).map fun ch => (ch.freeBytes_, ch.nodes)) = some (4096, {3}) ∧
    ∀ c ch, s.arena.chunk c = some ch → ch.unpooled = false →
      ch.freeBytes_ = ch.chunkSize_ - (∑ id ∈ ch.nodes, twoPages.runLen id : Nat) ∧ 0 ≤ ch.freeBytes_ ∧
        ch.freeBytes_ ≤ ch.chunkSize_ := by
  obtain ⟨s, hr, hp⟩ := exists_run (s := init twoPages)
    (P := fun s => ((s.arena.chunk 0).map fun ch => (ch.freeBytes_, ch.nodes)) = some (4096, {3}))
    [.allocate 2048 2048, .allocate 2048 2048, .allocate 2048 2048, .release 0, .release 1, .release 2] (by decide +kernel)
  exact ⟨s, hr, hp, (freeBytes_of_run hr).1⟩

end Buffers

end Nio.Pool
