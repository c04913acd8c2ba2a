import NioSocket.Pool.Serving

/-!
# What the arena does

`PoolArena::allocate` gives out a slot for every request but the least `int`, and
`PoolArena::free` takes back any slot that was given out. Neither fails an assertion, and
both leave an arena that is whole: its pools, its chunks and its chunk lists are in order.
-/

namespace Nio.Pool

open PoolArena

variable {l : Layout} {a a' a'' : PoolArena} {ch : PoolChunk} {s : PoolSubpage} {r : Region} {t : Slot}
  {x : ListName} {c : Nat} {req n k : Int}

/-- The arena with all its parts in order. -/
structure PoolArena.Whole (l : Layout) (a : PoolArena) : Prop extends a.Sound l where
  listed : a.Listed

/-- The arena as it is made. -/
theorem Layout.arena_whole (l : Layout) : l.arena.Whole l where
  laid := l.arena_laid
  pools := by
    have hp : l.arena.poolOf = fun _ => none := by
      funext r
      cases r <;> rfl
    refine ⟨fun _ _ _ => nofun, ?_, fun _ _ _ _ _ _ => nofun⟩
    rw [hp]
    refine Rings.empty (fun r hr => ?_) fun r hr => ?_
    · cases r with
      | tiny i => exact ⟨if_pos hr, if_pos hr⟩
      | small i => exact ⟨if_pos hr, if_pos hr⟩
      | page => exact hr.elim
    · cases r with
      | tiny i => exact ⟨if_neg hr, if_neg hr⟩
      | small i => exact ⟨if_neg hr, if_neg hr⟩
      | page => exact ⟨rfl, rfl⟩
  chunks := ⟨fun _ _ => rfl, fun _ _ => nofun, fun _ _ => nofun, fun _ _ _ => nofun, fun _ _ _ => nofun⟩
  listed := by
    refine ⟨fun x => ⟨[], ?_, List.nodup_nil, fun c => ⟨nofun, nofun⟩⟩, fun _ _ => nofun⟩
    cases x <;> rfl

theorem Served.relinked (h : Served l a a' req n t r) (R : a'.Relinked a'') : Served l a a'' req n t r :=
  { h with sound := R.sound h.sound, given := R.given.trans h.given }

theorem Served.of_given (h : Served l a' a'' req n t r) (hg : a'.given l = a.given l) : Served l a a'' req n t r :=
  { h with given := hg ▸ h.given, fresh := hg ▸ h.fresh }

/-! ## A chunk that has worked -/

namespace Worked

variable (w : Worked a a' c ch k) (hch : a.chunk c = some ch)
include w hch

theorem bind_chunk {α : Type} (f : PoolChunk → Option α) (hf : ∀ m, f ((ch.withMap m).withFreeBytes k) = f ch) (n : Nat) :
    (a'.chunk n).bind f = (a.chunk n).bind f := by
  obtain ⟨m, hc⟩ := w.chunk
  rw [hc]
  by_cases hn : n = c
  · subst hn
    rw [chunk_setChunk, hch]
    exact hf m
  · rw [chunk_setChunk_of_ne hn]

theorem listedBut (h : a.ListedBut c) : a'.ListedBut c where
  lists := by
    have h1 : a'.nextChunkOf = a.nextChunkOf := funext fun n => w.bind_chunk hch _ (fun _ => rfl) n
    have h2 : a'.prevChunkOf = a.prevChunkOf := funext fun n => w.bind_chunk hch _ (fun _ => rfl) n
    have h3 : a'.listOf = a.listOf := funext fun n => w.bind_chunk hch _ (fun _ => rfl) n
    have h4 : a'.headChunk = a.headChunk := funext fun x => by rw [headChunk, headChunk, w.list]
    rw [h1, h2, h3, h4]
    exact h.lists
  fit n chn hn hc hu := by
    obtain ⟨m, hcm⟩ := w.chunk
    rw [hcm, chunk_setChunk_of_ne hn] at hc
    obtain ⟨y, hy, hfit⟩ := h.fit n chn hn hc hu
    exact ⟨y, hy, by rw [w.list]; exact hfit⟩

omit hch in
theorem exists_chunk : ∃ m, a'.chunk c = some ((ch.withMap m).withFreeBytes k) := by
  obtain ⟨m, hc⟩ := w.chunk
  exact ⟨m, by rw [hc, chunk_setChunk]⟩

theorem carried : a.Extends a' := fun n chn hn => by
  obtain ⟨m, hc⟩ := w.chunk
  rw [hc]
  by_cases h : n = c
  · subst h
    obtain rfl := Option.some_inj.mp (hch.symm.trans hn)
    exact ⟨_, chunk_setChunk, rfl, rfl⟩
  · exact ⟨chn, (chunk_setChunk_of_ne h).trans hn, rfl, rfl⟩

theorem carried' : a'.Extends a := fun n chn hn => by
  obtain ⟨m, hc⟩ := w.chunk
  rw [hc] at hn
  by_cases h : n = c
  · subst h
    rw [chunk_setChunk] at hn
    obtain rfl := Option.some_inj.mp hn
    exact ⟨ch, hch, rfl, rfl⟩
  · rw [chunk_setChunk_of_ne h] at hn
    exact ⟨chn, hn, rfl, rfl⟩

end Worked

/-! ## Giving out -/

namespace PoolChunkList

open PoolArena

/-- What `allocate` asks of the pools: that of the size is empty. -/
def NoneLinked (l : Layout) (a : PoolArena) (n : Int) : Prop :=
  ∀ m : Nat, SizeClass l m → n = m → ∀ r, a.poolOf r ≠ some (headOf m)

/-- `allocate` either leaves everything as it was, or gives out a slot. -/
def Gives (l : Layout) (a : PoolArena) (req n : Int) (o : Outcome PoolArena (Option Region)) : Prop :=
  o = .ok none a ∨ ∃ r t a', o = .ok (some r) a' ∧ (Served l a a' req n t r ∧ a'.Listed ∧ a.Extends a') ∧
    a'.nextChunk = a.nextChunk

variable (W : a.Whole l) (hn : Normalized l req n) (hle : n ≤ l.chunkSize) (hring : NoneLinked l a n)
include W hn hle hring

/-- The walk along a list. A chunk that has nothing to give is left as it was. -/
theorem allocateLoop_ok {fuel : Nat} {p first : Option Nat} {xs : List Nat}
    (e : Ended a.nextChunkOf a.prevChunkOf p first xs) (hm : ∀ c ∈ xs, a.listOf c = some x) (hf : xs.length < fuel) :
    Gives l a req n (allocateLoop x req n fuel first a) := by
  induction xs generalizing p first fuel with
  | nil =>
    obtain ⟨fuel, rfl⟩ : ∃ f, fuel = f + 1 := ⟨fuel - 1, by omega⟩
    obtain rfl : first = none := e
    exact .inl rfl
  | cons c xs ih =>
    obtain ⟨fuel, rfl⟩ : ∃ f, fuel = f + 1 := ⟨fuel - 1, by omega⟩
    obtain ⟨rfl, -, e⟩ := e
    have hx := hm c (by simp)
    obtain ⟨ch, hch⟩ := Option.ne_none_iff_exists'.mp (listOf_ne_none (by rw [hx]; simp) : a.chunk c ≠ none)
    have hu : ch.unpooled = false := by
      by_contra hu
      rw [listOf, hch, Option.bind_some, if_pos (by simpa using hu)] at hx
      cases hx
    have hpar : ch.parent = some x := (listOf_eq hch hu).symm.trans hx
    have hC := W.chunks.pooled c ch hch hu
    rw [allocateLoop]
    rcases PoolChunk.allocate_ok W.toSound hch hu hn hle hring with ⟨ea, -⟩ | ⟨r, t, a', k, ea, hS, hw, hk⟩
    · simp only [Method.bind_apply, ea, Outcome.bind_ok, chunkAt_ok hch]
      have hnext : a.nextChunkOf c = ch.next := by rw [nextChunkOf, hch]; rfl
      rw [hnext] at e
      exact ih e (fun y hy => hm y (by simp [hy])) (by simp at hf; omega)
    · right
      obtain ⟨m, hch'⟩ := hw.exists_chunk
      have hB := hw.listedBut hch (W.listed.but c)
      have hC' := hS.sound.chunks.pooled c _ hch' hu
      obtain ⟨h0, h100⟩ := hC'.usage_bounds
      have hle := hC'.usage_le hC (show k ≤ ch.freeBytes_ by omega)
      obtain ⟨y, hy, hmin, -⟩ := W.listed.fit c ch hch hu
      obtain rfl : y = x := Option.some_inj.mp (hy.symm.trans hpar)
      rw [← hw.list] at hmin
      simp only [Method.bind_apply, ea, Outcome.bind_ok, Method.get_apply, chunkAt_ok hch']
      split
      case isTrue hge =>
        obtain ⟨a₁, a₂, e1, e2, R, hL⟩ := hB.moveUp hch' hu hpar hS.sound.laid h100 hge
        refine ⟨r, t, a₂, ?_, ⟨hS.relinked R, hL, (hw.carried hch).trans R.carried⟩, R.nextChunk.trans hw.nextChunk⟩
        simp only [Method.bind_apply, e1, e2, Outcome.bind_ok]
        rfl
      case isFalse hlt =>
        exact ⟨r, t, a', rfl, ⟨hS, hB.listed hch' hpar ⟨by omega, by omega⟩, hw.carried hch⟩, hw.nextChunk⟩

theorem allocate_ok (x : ListName) : Gives l a req n (allocate x req n a) := by
  rw [allocate]
  split
  · exact .inl rfl
  · obtain ⟨xs, e, hd, hm⟩ := W.listed.lists x
    refine allocateLoop_ok W hn hle hring e (fun c hc => (hm c).mp hc) ?_
    have hsub : xs ⊆ List.range a.nextChunk := fun c hc => by
      have hx := (hm c).mp hc
      rw [List.mem_range]
      by_contra hge
      exact listOf_ne_none (by rw [hx]; simp) (W.chunks.fresh c (by omega))
    have := (List.subperm_of_subset hd hsub).length_le
    rw [List.length_range] at this
    omega

end PoolChunkList

namespace PoolArena

theorem allocateFrom_ok (W : a.Whole l) (hn : Normalized l req n) (hle : n ≤ l.chunkSize)
    (hring : PoolChunkList.NoneLinked l a n) (xs : List ListName) :
    PoolChunkList.Gives l a req n (allocateFrom req n xs a) := by
  induction xs with
  | nil => exact .inl rfl
  | cons x xs ih =>
    rw [allocateFrom, Method.bind_apply]
    rcases PoolChunkList.allocate_ok W hn hle hring x with e | ⟨r, t, a', e, h⟩
    · rw [e]
      exact ih
    · rw [e]
      exact .inr ⟨r, t, a', rfl, h⟩

/-! ## New chunks -/

/-- The arena with one more chunk, which is in no list. -/
def withChunk (a : PoolArena) (ch : PoolChunk) : PoolArena :=
  { a.setChunk a.nextChunk ch with nextChunk := a.nextChunk + 1 }

theorem newChunk_ok (ch : PoolChunk) (a : PoolArena) : newChunk ch a = .ok a.nextChunk (a.withChunk ch) := rfl

theorem chunk_withChunk : (a.withChunk ch).chunk a.nextChunk = some ch := chunk_setChunk

theorem chunk_withChunk_of_ne (h : c ≠ a.nextChunk) : (a.withChunk ch).chunk c = a.chunk c := chunk_setChunk_of_ne h

section

variable (S : a.Sound l)
include S

theorem Sound.chunk_nextChunk : a.chunk a.nextChunk = none := S.chunks.fresh _ (Nat.le_refl _)

theorem Sound.ne_nextChunk {c' : Nat} {ch' : PoolChunk} (h : a.chunk c' = some ch') : c' ≠ a.nextChunk := by
  rintro rfl
  rw [S.chunk_nextChunk] at h
  cases h

theorem Sound.carried_withChunk : a.Extends (a.withChunk ch) := fun _ chn hn =>
  ⟨chn, (chunk_withChunk_of_ne (S.ne_nextChunk hn)).trans hn, rfl, rfl⟩

/-- A new chunk in good shape. -/
theorem Sound.withChunk (hp : ch.unpooled = false → ch.Counted l ch.nodes) (hh : ch.unpooled = true → ch.Huge l) :
    (a.withChunk ch).Sound l where
  laid := { S.laid with }
  pools := by
    have hp : (a.withChunk ch).poolOf = a.poolOf := by
      funext r
      cases r <;> rfl
    exact ⟨S.pools.page, hp ▸ S.pools.rings, S.pools.idle⟩
  chunks := by
    have old : ∀ {c' ch'}, a.chunk c' = some ch' → (a.withChunk ch).chunk c' = some ch' := fun h =>
      (chunk_withChunk_of_ne (S.ne_nextChunk h)).trans h
    refine ⟨fun c' hc => ?_, fun c' ch' h hu => ?_, fun c' ch' h hu => ?_, fun c' i s h => ?_, fun c' i s h hd => ?_⟩
    · have hc : a.nextChunk + 1 ≤ c' := hc
      rw [chunk_withChunk_of_ne (by omega)]
      exact S.chunks.fresh c' (by omega)
    · by_cases hc : c' = a.nextChunk
      · subst hc
        rw [chunk_withChunk] at h
        obtain rfl := Option.some_inj.mp h
        exact hp hu
      · exact S.chunks.pooled c' ch' ((chunk_withChunk_of_ne hc).symm.trans h) hu
    · by_cases hc : c' = a.nextChunk
      · subst hc
        rw [chunk_withChunk] at h
        obtain rfl := Option.some_inj.mp h
        exact hh hu
      · exact S.chunks.huge c' ch' ((chunk_withChunk_of_ne hc).symm.trans h) hu
    · obtain ⟨hi, ch', hc, hu⟩ := S.chunks.page c' i s h
      exact ⟨hi, ch', old hc, hu⟩
    · obtain ⟨-, ch', hc, -⟩ := S.chunks.page c' i s h
      have := S.chunks.kept c' i s h hd
      rw [nodesOf_eq hc] at this
      rw [nodesOf_eq (old hc)]
      exact this

/-- Of a new chunk that is pooled, nothing is given out. -/
theorem Sound.given_withChunk (hn : ch.nodes = ∅) (hu : ch.unpooled = false) : (a.withChunk ch).given l = a.given l := by
  have hno := S.chunk_nextChunk
  funext t
  cases t with
  | run c' id =>
    have hnodes : (a.withChunk ch).nodesOf c' = a.nodesOf c' := by
      by_cases hc : c' = a.nextChunk
      · subst hc
        rw [nodesOf_eq chunk_withChunk, hn, nodesOf, hno]
      · rw [nodesOf, nodesOf, chunk_withChunk_of_ne hc]
    show (if id ∈ (a.withChunk ch).nodesOf c' ∧ ¬a.Paged l c' id then _ else _) = _
    rw [hnodes]
    rfl
  | elem => rfl
  | huge c' =>
    by_cases hc : c' = a.nextChunk
    · subst hc
      simp [given, chunk_withChunk, hno, hu]
    · simp [given, chunk_withChunk_of_ne hc]

/-- A new chunk of its own is given out. -/
theorem Sound.given_withChunk_huge (hh : ch.Huge l) (hu : ch.unpooled = true) : (a.withChunk ch).given l =
    Function.update (a.given l) (.huge a.nextChunk) (some ⟨0, ch.chunkSize_⟩) := by
  have hno := S.chunk_nextChunk
  funext t
  cases t with
  | run c' id =>
    have hnodes : (a.withChunk ch).nodesOf c' = a.nodesOf c' := by
      by_cases hc : c' = a.nextChunk
      · subst hc
        rw [nodesOf_eq chunk_withChunk, hh.nodes, nodesOf, hno]
      · rw [nodesOf, nodesOf, chunk_withChunk_of_ne hc]
    rw [Function.update_of_ne (by simp)]
    show (if id ∈ (a.withChunk ch).nodesOf c' ∧ ¬a.Paged l c' id then _ else _) = _
    rw [hnodes]
    rfl
  | elem =>
    rw [Function.update_of_ne (by simp)]
    rfl
  | huge c' =>
    by_cases hc : c' = a.nextChunk
    · subst hc
      rw [Function.update_self]
      simp [given, chunk_withChunk, hu, hh.offset]
    · rw [Function.update_of_ne (by simpa using hc)]
      simp [given, chunk_withChunk_of_ne hc]

end

/-- The other chunks are still in their lists. -/
theorem Whole.listedBut_withChunk (W : a.Whole l) (hp : ch.parent = none) (hprev : ch.prev = none)
    (hnext : ch.next = none) : (a.withChunk ch).ListedBut a.nextChunk := by
  have hno := W.chunk_nextChunk
  have key : ∀ {α : Type} (f : PoolChunk → Option α), f ch = none → ∀ n,
      ((a.withChunk ch).chunk n).bind f = (a.chunk n).bind f := by
    intro α f hf n
    by_cases hn : n = a.nextChunk
    · subst hn
      rw [chunk_withChunk, hno, Option.bind_some, hf]
      rfl
    · rw [chunk_withChunk_of_ne hn]
  have h1 : (a.withChunk ch).nextChunkOf = a.nextChunkOf := funext (key _ hnext)
  have h2 : (a.withChunk ch).prevChunkOf = a.prevChunkOf := funext (key _ hprev)
  have h3 : (a.withChunk ch).listOf = a.listOf := funext (key _ (by rw [hp, ite_self]))
  refine ⟨?_, fun n chn hn hc hu' => ?_⟩
  · rw [h1, h2, h3]
    exact W.listed.lists
  · rw [chunk_withChunk_of_ne hn] at hc
    exact W.listed.fit n chn hc hu'

/-! ## Requests -/

/-- A buffer gets a slot, and the arena stays whole. -/
def Allocates (l : Layout) (a : PoolArena) (req n : Int) (o : Outcome PoolArena Region) : Prop :=
  ∃ r t a', o = .ok r a' ∧ Served l a a' req n t r ∧ a'.Listed ∧ a.Extends a'

theorem chunk_eq (H : a.Laid l) : PoolChunk.new a.chunkSize_ a.pageSize_ a.pageShifts_ a.maxOrder_ 0 = l.chunk := by
  rw [H.chunkSize_, H.pageSize_, H.pageShifts_, H.maxOrder_]
  rfl

section

variable (W : a.Whole l)
include W

/-- A request for which there is room in no list gets a new chunk. -/
theorem allocateNormal_new (hn : Normalized l req n) (hle : n ≤ l.chunkSize) (hring : PoolChunkList.NoneLinked l a n)
    (e : allocateFrom req n [.q050, .q025, .q000, .qInit, .q075] a = .ok none a) :
    ∃ r t a', allocateNormal req n a = .ok r a' ∧ (Served l a a' req n t r ∧ a'.Listed ∧ a.Extends a') ∧
      a'.nextChunk = a.nextChunk + 1 := by
  rw [allocateNormal, Method.bind_apply, e, Outcome.bind_ok]
  simp only [Method.bind_apply, Method.get_apply, Outcome.bind_ok, chunk_eq W.laid, newChunk_ok]
  have hC := PoolChunk.chunk_counted l
  have hnodes : l.chunk.nodes = ∅ := hC.toTree.nodes_eq
  have hu : l.chunk.unpooled = false := rfl
  have S₀ := W.toSound.withChunk (fun _ => hC.nodes) fun h => by cases h
  have hg := W.toSound.given_withChunk hnodes hu
  have hB : (a.withChunk l.chunk).ListedBut a.nextChunk := W.listedBut_withChunk rfl rfl rfl
  have hring₀ : PoolChunkList.NoneLinked l (a.withChunk l.chunk) n := fun m hm he r => by
    have hp : (a.withChunk l.chunk).poolOf = a.poolOf := by
      funext r
      cases r <;> rfl
    rw [hp]
    exact hring m hm he r
  rcases PoolChunk.allocate_ok S₀ chunk_withChunk hu hn hle hring₀ with ⟨-, hne⟩ | ⟨r, t, a', k, ea, hS, hw, -⟩
  · exact absurd hnodes hne
  obtain ⟨m, hch'⟩ := hw.exists_chunk
  have hC' := hS.sound.chunks.pooled _ _ hch' rfl
  have hU := (hw.listedBut chunk_withChunk hB).unlisted (by rw [listOf, hch']; rfl)
  obtain ⟨h0, h100⟩ := hC'.usage_bounds
  obtain ⟨a'', e', R, hL⟩ := hU.add hS.sound.laid hch' rfl h100 (x := .qInit) (by
    rw [hS.sound.laid.list]
    exact Int.le_trans (show intMin ≤ 0 by decide) h0)
  refine ⟨r, t, a'', ?_, ⟨(hS.relinked R).of_given hg, hL,
    (W.toSound.carried_withChunk.trans (hw.carried chunk_withChunk)).trans R.carried⟩, R.nextChunk.trans hw.nextChunk⟩
  simp only [ea, Outcome.bind_ok, Method.bind_apply, e']
  rfl

theorem allocateNormal_ok (hn : Normalized l req n) (hle : n ≤ l.chunkSize) (hring : PoolChunkList.NoneLinked l a n) :
    Allocates l a req n (allocateNormal req n a) := by
  rcases allocateFrom_ok W hn hle hring [.q050, .q025, .q000, .qInit, .q075] with e | ⟨r, t, a', e, h, -⟩
  · obtain ⟨r, t, a', e, h, -⟩ := allocateNormal_new W hn hle hring e
    exact ⟨r, t, a', e, h⟩
  · refine ⟨r, t, a', ?_, h⟩
    rw [allocateNormal, Method.bind_apply, e]
    rfl

omit W in
/-- The branch of `allocate` for a pool that is not empty. -/
theorem fastPath_eq {m i : Nat} {h : Int} (hs : a.subpages c i = some s)
    (hok : s.doNotDestroy_ = true ∧ (s.elementSize : Int) = m) (ea : PoolSubpage.allocate c i a = .ok h a') (hnn : h ≥ 0)
    (hinit : PoolChunk.initBufWithSubpage s.chunk_ h req a' = .ok r a'') :
    ((do
      let subpage ← subpageAt c i
      assert (subpage.doNotDestroy_ = true ∧ (subpage.elementSize : Int) = m)
      let handle ← PoolSubpage.allocate c i
      assert (handle ≥ 0)
      PoolChunk.initBufWithSubpage subpage.chunk_ handle req) : Method PoolArena Region) a = .ok r a'' := by
  simp only [Method.bind_apply, subpageAt_ok hs, Outcome.bind_ok, assert_ok hok, ea, assert_ok hnn, hinit]

/-- A buffer gets an element of a subpage that is in the pool of its size. -/
theorem fastPath_ok {m : Nat} {i : Nat} (hreq : req ≤ m)
    (hs : a.subpages c i = some s) (hin : s.InPool) (he : s.elemSize_ = m) :
    Allocates l a req m ((do
      let subpage ← subpageAt c i
      assert (subpage.doNotDestroy_ = true ∧ (subpage.elementSize : Int) = m)
      let handle ← PoolSubpage.allocate c i
      assert (handle ≥ 0)
      PoolChunk.initBufWithSubpage subpage.chunk_ handle req) a) := by
  have hp := W.pools.page c i s hs
  obtain ⟨hi, ch, hch, hu⟩ := W.chunks.page c i s hs
  have hC := W.chunks.pooled c ch hch hu
  have hkept := W.chunks.kept c i s hs hin.1
  rw [nodesOf_eq hch] at hkept
  obtain ⟨j, s', next, prev, ea, hP, hcase⟩ := W.pools.allocate W.laid hs hin
  have hok : s.doNotDestroy_ = true ∧ (s.elementSize : Int) = m := ⟨hin.1, congrArg Nat.cast he⟩
  have hh : s.toHandle j = (Slot.elem c i j).handle l := by
    rw [PoolSubpage.toHandle, hp.memoryMapIdx_]
    rfl
  have hnn : (Slot.elem c i j).handle l ≥ 0 := Int.natCast_nonneg _
  have hS : ((a.setSubpage c i s').relink next prev).Sound l := by
    refine ⟨W.laid.setSubpage.relink, hP, (W.chunks.setSubpage hch hu hi fun _ => hkept).of_relink⟩
  have hs' : ((a.setSubpage c i s').relink next prev).subpages c i = some s' := subpages_setSubpage
  have key : s'.Taken j ∧ s'.elemSize_ = m ∧ (a.given l (.elem c i j) = none ∨ m = 0 ∧ a.given l (.elem c i j) = some ⟨i * l.pageSize + j * m, m⟩) ∧
      ((a.setSubpage c i s').relink next prev).given l =
        Function.update (a.given l) (.elem c i j) (some ⟨i * l.pageSize + j * m, m⟩) := by
    rw [given_relink]
    rcases hcase with ⟨h0, rfl, hss⟩ | ⟨h0, hj, rfl⟩
    · obtain rfl : s = s' := hss.symm
      have ht : s.Taken 0 := ⟨hin.1, .inl ⟨h0, rfl⟩⟩
      have hgiven : a.given l (.elem c i 0) = some ⟨i * l.pageSize + 0 * m, m⟩ := given_elem.mpr ⟨s, hs, ht, by rw [he]⟩
      refine ⟨ht, he, .inr ⟨he.symm.trans h0, hgiven⟩, ?_⟩
      rw [setSubpage_self hs, eq_comm, Function.update_eq_self_iff, hgiven]
    · obtain ⟨hn, ht, hother⟩ := PoolSubpage.taken_take h0 hin.1 hj
      have hg : (a.setSubpage c i (s.take j)).given l = _ := given_setSubpage_update hs rfl rfl hother
      refine ⟨ht, he, .inl ?_, ?_⟩
      · rw [given, hs]
        exact if_neg hn
      · rw [hg, if_pos ht, he]
  obtain ⟨ht, he', hf, hg⟩ := key
  have hinit := PoolChunk.initBufWithSubpage_ok (a := (a.setSubpage c i s').relink next prev) hch hC.toShaped
    hs' (hP.page c i s' hs') hi ht (show req ≤ s'.elemSize_ by rw [he']; exact hreq)
  rw [he'] at hinit
  refine ⟨⟨c, (Slot.elem c i j).handle l, i * l.pageSize + j * m, req, m⟩, .elem c i j, _, ?_,
    ⟨hS, hg, hf, rfl, rfl, rfl, hreq, rfl⟩, ?_, .refl a⟩
  · exact fastPath_eq hs hok (hh ▸ ea) hnn (hp.chunk_.symm ▸ hinit)
  · exact ⟨W.listed.lists, W.listed.fit⟩

/-- A request that no chunk of the arena can hold gets one of its own. -/
theorem allocateHuge_ok (h : (l.chunkSize : Int) < req) : Allocates l a req req (allocateHuge req a) := by
  obtain ⟨k, rfl⟩ : ∃ k : Nat, req = k := ⟨req.toNat, by omega⟩
  have hh : (PoolChunk.newUnpooled k 0).Huge l := ⟨rfl, rfl, Int.ofNat_lt.mp h⟩
  have hS : (a.withChunk (.newUnpooled k 0)).Sound l := W.toSound.withChunk (fun h => by cases h) fun _ => hh
  have hg := W.toSound.given_withChunk_huge hh rfl
  have hB : (a.withChunk (.newUnpooled k 0)).ListedBut a.nextChunk := W.listedBut_withChunk rfl rfl rfl
  refine ⟨⟨a.nextChunk, 0, 0, k, k⟩, .huge a.nextChunk, a.withChunk (.newUnpooled k 0), ?_,
    ⟨hS, hg, .inl ?_, rfl, rfl, rfl, Int.le_refl _, rfl⟩, ⟨hB.lists, fun n chn hc hu => ?_⟩, W.toSound.carried_withChunk⟩
  · simp only [allocateHuge, Method.bind_apply, Int.toNat_natCast, newChunk_ok, Outcome.bind_ok,
      chunkAt_ok chunk_withChunk]
    rfl
  · rw [given, W.toSound.chunk_nextChunk]
  · by_cases hn : n = a.nextChunk
    · subst hn
      rw [chunk_withChunk] at hc
      rw [← Option.some_inj.mp hc] at hu
      cases hu
    · exact hB.fit n chn hn hc hu

/-- `allocate` gives out a slot for every request but the least `int`. -/
theorem allocate_ok (hr : i32 req = req) (hm : req ≠ intMin) :
    Allocates l a req (a.normalizeCapacity req) (allocate req a) := by
  have hN := W.laid.normalizeCapacity hr hm
  have hint := hN.int hr
  unfold allocate
  generalize a.normalizeCapacity req = n at *
  have hp := l.pageSize_le
  have hpc := l.pageSize_le_chunkSize
  cases hN with
  | @elem m hm hreq =>
    have h2 := hm.two_mul_le
    have hT : a.isTinyOrSmall m := (W.laid.isTinyOrSmall_iff hint).mpr (by omega)
    simp only [if_pos hT, W.laid.poolHead hm, Outcome.bind_ok]
    obtain ⟨y, hy, hmem, hempty⟩ := W.pools.rings.next_head (headOf_isHead hm)
    rw [hy]
    by_cases he : y = headOf m
    · simp only [he, ne_eq, not_true_eq_false, if_false]
      refine allocateNormal_ok W (.elem hm hreq) (by omega) fun m' hm' he' r => ?_
      obtain rfl : m = m' := by omega
      exact hempty he r
    · obtain ⟨c, i, s, rfl, hs, hin, hh⟩ := exists_of_poolOf (hmem.resolve_left he)
      simp only [ne_eq, he, not_false_eq_true, if_true]
      exact fastPath_ok W hreq hs hin (headOf_inj (W.pools.page c i s hs).elemSize_ hm hh)
  | @run k hk hk' hreq =>
    have hle : 2 ^ k ≤ l.chunkSize := Nat.pow_le_pow_right (by decide) hk'
    have hge : l.pageSize ≤ 2 ^ k := Nat.pow_le_pow_right (by decide) hk
    have hT : ¬a.isTinyOrSmall (2 ^ k : Nat) := by
      rw [W.laid.isTinyOrSmall_iff hint]
      omega
    simp only [if_neg hT]
    rw [if_pos (by rw [W.laid.chunkSize_]; omega)]
    refine allocateNormal_ok W (.run hk hk' hreq) (by omega) fun m hm he _ => ?_
    have := hm.two_mul_le
    have := Nat.two_pow_pos k
    omega
  | huge hlt =>
    have hT : ¬a.isTinyOrSmall req := by
      rw [W.laid.isTinyOrSmall_iff hr]
      omega
    simp only [if_neg hT]
    rw [if_neg (by rw [W.laid.chunkSize_]; omega)]
    exact allocateHuge_ok W hlt

end

/-! ## The request that never returns -/

/-- Shifted to the right, a negative size never becomes zero. -/
theorem allocate_negative (hch : a.chunk c = some ch) (hn : n < 0) (hi : i32 n = n) :
    PoolChunk.allocate c req n a = .hang := by
  have hlt : ¬n ≥ ch.pageSize := by omega
  have hT : ¬isTiny n := by
    rw [isTiny_iff hi]
    omega
  have hs : smallIdxLoop 32 (n >>> (10 : Nat)) 0 = none := smallIdxLoop_neg 32 (by rw [Int.shiftRight_eq_div_pow]; omega) 0
  simp only [PoolChunk.allocate, Method.bind_apply, chunkAt_ok hch, Outcome.bind_ok, if_neg hlt,
    PoolChunk.allocateSubpage, findSubpagePoolHead, if_neg hT, hs]
  rfl

/-- A list that has a chunk does not return. -/
theorem list_allocate_negative (W : a.Whole l) (hn : n < 0) (hi : i32 n = n) (x : ListName) :
    PoolChunkList.allocate x req n a = .ok none a ∨ PoolChunkList.allocate x req n a = .hang := by
  rw [PoolChunkList.allocate]
  split
  · exact .inl rfl
  obtain ⟨xs, e, -, hm⟩ := W.listed.lists x
  cases xs with
  | nil =>
    have e : (a.list x).head_ = none := e
    rw [e]
    exact .inl rfl
  | cons c xs =>
    obtain ⟨e, -⟩ := e
    have e : (a.list x).head_ = some c := e
    have hx := (hm c).mp (by simp)
    obtain ⟨ch, hch⟩ := Option.ne_none_iff_exists'.mp (listOf_ne_none (by rw [hx]; simp) : a.chunk c ≠ none)
    right
    rw [e, PoolChunkList.allocateLoop, Method.bind_apply, allocate_negative hch hn hi]
    rfl

theorem allocateFrom_negative (W : a.Whole l) (hn : n < 0) (hi : i32 n = n) (xs : List ListName) :
    allocateFrom req n xs a = .ok none a ∨ allocateFrom req n xs a = .hang := by
  induction xs with
  | nil => exact .inl rfl
  | cons x xs ih =>
    rw [allocateFrom, Method.bind_apply]
    rcases @list_allocate_negative _ _ req _ W hn hi x with e | e
    · rw [e]
      exact ih
    · rw [e]
      exact .inr rfl

theorem allocateNormal_negative (W : a.Whole l) (hn : n < 0) (hi : i32 n = n) : allocateNormal req n a = .hang := by
  rw [allocateNormal, Method.bind_apply]
  rcases @allocateFrom_negative _ _ req _ W hn hi [.q050, .q025, .q000, .qInit, .q075] with e | e
  · rw [e, Outcome.bind_ok]
    simp only [Method.bind_apply, Method.get_apply, Outcome.bind_ok, newChunk_ok,
      allocate_negative chunk_withChunk hn hi]
    rfl
  · rw [e]
    rfl

/-- The least `int` is normalized to a negative size. -/
theorem allocate_intMin (W : a.Whole l) : allocate intMin a = .hang := by
  have hi : i32 (-2 ^ 30) = -2 ^ 30 := by decide
  have hT : ¬a.isTinyOrSmall (-2 ^ 30) := by
    rw [W.laid.isTinyOrSmall_iff hi]
    omega
  simp only [allocate, W.laid.normalizeCapacity_intMin, if_neg hT]
  rw [if_pos (by omega)]
  exact allocateNormal_negative W (by decide) hi

/-! ## Chunks that are destroyed -/

/-- The arena without a chunk. -/
def without (a : PoolArena) (c : Nat) : PoolArena :=
  { a with chunk := Function.update a.chunk c none, subpages := Function.update a.subpages c fun _ => none }

theorem destroyChunk_ok (c : Nat) (a : PoolArena) : destroyChunk c a = .ok () (a.without c) := rfl

theorem chunk_without : (a.without c).chunk c = none := Function.update_self ..

theorem chunk_without_of_ne {c' : Nat} (h : c' ≠ c) : (a.without c).chunk c' = a.chunk c' := Function.update_of_ne h ..

theorem subpages_without {i : Nat} : (a.without c).subpages c i = none := by
  show Function.update a.subpages c (fun _ => none) c i = none
  rw [Function.update_self]

theorem subpages_without_of_ne {c' : Nat} (h : c' ≠ c) : (a.without c).subpages c' = a.subpages c' :=
  Function.update_of_ne h ..

theorem carried_without : (a.without c).Extends a := fun c' ch' h => by
  by_cases hc : c' = c
  · subst hc
    rw [chunk_without] at h
    cases h
  · exact ⟨ch', (chunk_without_of_ne hc).symm.trans h, rfl, rfl⟩

/-- Nothing is given out of a chunk that is destroyed. -/
theorem given_without (ht : t.chunk ≠ c) : (a.without c).given l t = a.given l t := by
  cases t with
  | run c' id =>
    have ht : c' ≠ c := ht
    have hn : (a.without c).nodesOf c' = a.nodesOf c' := by rw [nodesOf, nodesOf, chunk_without_of_ne ht]
    have hp : (a.without c).Paged l c' id ↔ a.Paged l c' id := by rw [Paged, Paged, subpages_without_of_ne ht]
    simp only [given, hn, hp]
  | elem c' i j =>
    have ht : c' ≠ c := ht
    rw [given, given, subpages_without_of_ne ht]
  | huge c' =>
    have ht : c' ≠ c := ht
    rw [given, given, chunk_without_of_ne ht]

theorem given_without_self (ht : t.chunk = c) : (a.without c).given l t = none := by
  by_contra hne
  obtain ⟨e, he⟩ := Option.ne_none_iff_exists'.mp hne
  cases t with
  | run c' id =>
    obtain rfl : c' = c := ht
    obtain ⟨⟨hid, -⟩, -⟩ := given_run.mp he
    have hn : (a.without c').nodesOf c' = ∅ := by rw [nodesOf, chunk_without]
    rw [hn] at hid
    exact absurd hid (Finset.notMem_empty _)
  | elem c' i j =>
    obtain rfl : c' = c := ht
    obtain ⟨s, hs, -⟩ := given_elem.mp he
    rw [subpages_without] at hs
    cases hs
  | huge c' =>
    obtain rfl : c' = c := ht
    obtain ⟨ch, hch, -⟩ := given_huge.mp he
    rw [chunk_without] at hch
    cases hch

/-- No subpage of a chunk that is destroyed may be linked. -/
theorem Sound.without (S : a.Sound l) (hp : ∀ i, a.poolOf (.page c i) = none) : (a.without c).Sound l where
  laid := { S.laid with }
  pools := by
    have old : ∀ {c' i s}, (a.without c).subpages c' i = some s → a.subpages c' i = some s := fun {c' i s} h => by
      by_cases hc : c' = c
      · subst hc
        rw [subpages_without] at h
        cases h
      · rwa [subpages_without_of_ne hc] at h
    have hpool : (a.without c).poolOf = a.poolOf := by
      funext r
      cases r with
      | tiny | small => rfl
      | page c' i =>
        by_cases hc : c' = c
        · subst hc
          rw [hp, poolOf, subpages_without]
        · rw [poolOf, poolOf, subpages_without_of_ne hc]
    exact ⟨fun c' i s h => S.pools.page c' i s (old h), hpool ▸ S.pools.rings, fun c₁ i₁ s₁ c₂ i₂ s₂ h1 h2 =>
      S.pools.idle c₁ i₁ s₁ c₂ i₂ s₂ (old h1) (old h2)⟩
  chunks := by
    have oldc : ∀ {c' ch'}, (a.without c).chunk c' = some ch' → a.chunk c' = some ch' := fun {c' ch'} h => by
      obtain ⟨hc, h⟩ : c' ≠ c ∧ a.chunk c' = some ch' := by
        by_cases hc : c' = c
        · subst hc
          rw [chunk_without] at h
          cases h
        · exact ⟨hc, (chunk_without_of_ne hc).symm.trans h⟩
      exact h
    have sub : ∀ {c' i s}, (a.without c).subpages c' i = some s → c' ≠ c ∧ a.subpages c' i = some s :=
      fun {c' i s} h => by
        by_cases hc : c' = c
        · subst hc
          rw [subpages_without] at h
          cases h
        · exact ⟨hc, by rwa [subpages_without_of_ne hc] at h⟩
    refine ⟨fun c' hc => ?_, fun c' ch' h => S.chunks.pooled c' ch' (oldc h), fun c' ch' h => S.chunks.huge c' ch' (oldc h),
      fun c' i s h => ?_, fun c' i s h hd => ?_⟩
    · by_cases he : c' = c
      · subst he
        exact chunk_without
      · rw [chunk_without_of_ne he]
        exact S.chunks.fresh c' hc
    · obtain ⟨hne, h⟩ := sub h
      obtain ⟨hi, ch', hc, hu⟩ := S.chunks.page c' i s h
      exact ⟨hi, ch', (chunk_without_of_ne hne).trans hc, hu⟩
    · obtain ⟨hne, h⟩ := sub h
      rw [nodesOf, chunk_without_of_ne hne]
      exact S.chunks.kept c' i s h hd

/-- The lists without a chunk that was in none. -/
theorem Unlisted.without (U : a.Unlisted c) : (a.without c).Listed where
  lists := by
    have hl : (a.without c).listOf = Function.update a.listOf c none := by
      funext n
      by_cases hn : n = c
      · subst hn
        rw [listOf, chunk_without, Function.update_self]
        rfl
      · rw [Function.update_of_ne hn, listOf, listOf, chunk_without_of_ne hn]
    have hne : ∀ {n}, Function.update a.listOf c none n ≠ none → n ≠ c := fun h hn => by
      subst hn
      exact h (Function.update_self ..)
    rw [hl]
    refine U.lists.congr (fun n h => ?_) fun n h => ?_
    · rw [nextChunkOf, nextChunkOf, chunk_without_of_ne (hne h)]
    · rw [prevChunkOf, prevChunkOf, chunk_without_of_ne (hne h)]
  fit n ch' h hu := by
    by_cases hn : n = c
    · subst hn
      rw [chunk_without] at h
      cases h
    · rw [chunk_without_of_ne hn] at h
      exact U.fit n ch' hn h hu

/-! ## Taking back -/

/-- Nothing of the chunk is given out or linked. -/
structure Unused (l : Layout) (a : PoolArena) (c : Nat) : Prop where
  given : ∀ t : Slot, t.chunk = c → a.given l t = none
  poolOf : ∀ i, a.poolOf (.page c i) = none

theorem Sound.unused (S : a.Sound l) (hch : a.chunk c = some ch) (hu : ch.unpooled = false) (hn : ch.nodes = ∅) :
    a.Unused l c := by
  have hd : ∀ i s, a.subpages c i = some s → ¬s.doNotDestroy_ = true := fun i s hs hd => by
    have := S.chunks.kept c i s hs hd
    rw [nodesOf_eq hch, hn] at this
    exact absurd this (Finset.notMem_empty _)
  refine ⟨fun t ht => ?_, fun i => ?_⟩
  · by_contra hne
    obtain ⟨e, he⟩ := Option.ne_none_iff_exists'.mp hne
    cases t with
    | run c' id =>
      obtain rfl : c' = c := ht
      obtain ⟨⟨hid, -⟩, -⟩ := given_run.mp he
      rw [nodesOf_eq hch, hn] at hid
      exact absurd hid (Finset.notMem_empty _)
    | elem c' i j =>
      obtain rfl : c' = c := ht
      obtain ⟨s, hs, ht, -⟩ := given_elem.mp he
      exact hd i s hs ht.1
    | huge c' =>
      obtain rfl : c' = c := ht
      obtain ⟨ch', hch', hu', -⟩ := given_huge.mp he
      obtain rfl := Option.some_inj.mp (hch.symm.trans hch')
      rw [hu] at hu'
      cases hu'
  · cases hs : a.subpages c i with
    | none => rw [PoolArena.poolOf, hs]
    | some s =>
      rw [poolOf_page hs, if_neg]
      exact fun h => hd i s hs h.1

/-- From `a` to `a'`, slot `t` is taken back. -/
structure Freed (l : Layout) (a a' : PoolArena) (t : Slot) (e : Extent) : Prop where
  whole : a'.Whole l
  given : a'.given l = if e.length = 0 then a.given l else Function.update (a.given l) t none
  carried : a'.Extends a
  destroyed : ∀ c ch, a.chunk c = some ch → ch.unpooled = false → a'.chunk c = none →
    ∃ a₁, destroyChunk c a₁ = .ok () a' ∧ a₁.Sound l ∧ a₁.Unused l c

section

variable (W : a.Whole l) {e : Extent} (ht : a.given l t = some e)
include W ht

/-- A chunk that is used less, in its list or in one below, unless it is to be destroyed. -/
theorem list_free_ok (hc : t.chunk = c) (hch : a.chunk c = some ch) (hu : ch.unpooled = false) (hx : ch.parent = some x) :
    ∃ b a', PoolChunkList.free x c (t.handle l) a = .ok b a' ∧ a'.Sound l ∧
      a'.given l = (if e.length = 0 then a.given l else Function.update (a.given l) t none) ∧ a'.Extends a ∧
      a.Extends a' ∧ (b = true ∧ a'.Listed ∨ b = false ∧ a'.Unlisted c ∧ a'.Unused l c) := by
  obtain ⟨a₁, k, ef, hS, hg, hw, hk⟩ := PoolChunk.free_ok W.toSound hch hu ht hc
  obtain ⟨m, hch'⟩ := hw.exists_chunk
  have hC := W.chunks.pooled c ch hch hu
  have hC' := hS.chunks.pooled c _ hch' hu
  obtain ⟨h0, -⟩ := hC'.usage_bounds
  have hle := hC.usage_le hC' hk
  obtain ⟨y, hy, -, hmax⟩ := W.listed.fit c ch hch hu
  obtain rfl : y = x := Option.some_inj.mp (hy.symm.trans hx)
  rw [← hw.list] at hmax
  have hB := hw.listedBut hch (W.listed.but c)
  simp only [PoolChunkList.free, Method.bind_apply, ef, Outcome.bind_ok, chunkAt_ok hch', Method.get_apply]
  split
  case isTrue hlt =>
    obtain ⟨a₂, er, R, ⟨a₃, em, R', hL⟩ | ⟨em, hz, hU⟩⟩ := hB.moveDown hch' hu hx hS.laid h0 hlt
    · refine ⟨true, a₃, ?_, R'.sound hS, R'.given.trans hg, R'.carried'.trans (hw.carried' hch),
        (hw.carried hch).trans R'.carried, .inl ⟨rfl, hL⟩⟩
      rw [Method.bind_apply, er, Outcome.bind_ok, em]
    · have hS₂ := R.sound hS
      obtain ⟨ch₂, hch₂, he⟩ := R.exists_chunk hch'
      have hn : ch₂.nodes = ∅ := by
        have h1 := congrArg PoolChunk.nodes he
        rw [show ch₂.nodes = ch₂.unlinked.nodes from rfl, h1]
        exact (hC'.usage_eq_zero_iff).mp hz
      refine ⟨false, a₂, ?_, hS₂, R.given.trans hg, R.carried'.trans (hw.carried' hch), (hw.carried hch).trans R.carried,
        .inr ⟨rfl, hU, hS₂.unused hch₂ ((congrArg PoolChunk.unpooled he).trans hu) hn⟩⟩
      rw [Method.bind_apply, er, Outcome.bind_ok, em]
  case isFalse hge =>
    exact ⟨true, a₁, rfl, hS, hg, hw.carried' hch, hw.carried hch, .inl ⟨rfl, hB.listed hch' hx ⟨by omega, by omega⟩⟩⟩

/-- `free` takes back a slot that was given out. -/
theorem free_ok : ∃ a', free t.chunk (t.handle l) a = .ok () a' ∧ Freed l a a' t e := by
  obtain ⟨ch, hch, -⟩ := W.chunks.in_chunk W.pools ht
  by_cases hu : ch.unpooled = true
  · -- a chunk of its own
    have hh := W.chunks.huge _ _ hch hu
    obtain ⟨c, rfl⟩ : ∃ c, t = .huge c := by
      have hg : a.given l (.huge t.chunk) = some ⟨ch.offset, ch.chunkSize_⟩ := given_huge.mpr ⟨ch, hch, hu, rfl⟩
      exact ⟨_, W.chunks.not_huge_of W.pools hg rfl ht rfl⟩
    have hch : a.chunk c = some ch := hch
    have hno : a.listOf c = none := by rw [listOf, hch, Option.bind_some, if_pos hu]
    have hp : ∀ i, a.poolOf (.page c i) = none := fun i => by
      rw [poolOf]
      cases hs : a.subpages c i with
      | none => rfl
      | some s =>
        obtain ⟨-, ch', hch', hu'⟩ := W.chunks.page _ i s hs
        obtain rfl := Option.some_inj.mp (hch.symm.trans hch')
        rw [hu] at hu'
        cases hu'
    have hlen : ¬e.length = 0 := by
      obtain ⟨ch', hch', -, rfl⟩ := given_huge.mp ht
      obtain rfl := Option.some_inj.mp (hch.symm.trans hch')
      have := hh.chunkSize_
      dsimp only
      omega
    refine ⟨a.without c, ?_, ⟨⟨W.toSound.without hp, ((W.listed.but c).unlisted hno).without⟩, ?_, carried_without,
      fun c' ch' hc' hu' hgone => ?_⟩⟩
    · show free c 0 a = _
      simp only [free, Method.bind_apply, chunkAt_ok hch, Outcome.bind_ok, if_pos hu]
      rfl
    · rw [if_neg hlen]
      funext t'
      by_cases hc' : t'.chunk = c
      · rw [given_without_self hc']
        by_cases he : t' = .huge c
        · rw [he, Function.update_self]
        · rw [Function.update_of_ne he, eq_comm]
          by_contra hne
          obtain ⟨e', he'⟩ := Option.ne_none_iff_exists'.mp hne
          exact he (W.chunks.not_huge_of W.pools ht rfl he' hc')
      · rw [given_without hc', Function.update_of_ne]
        rintro rfl
        exact hc' rfl
    · by_cases he : c' = c
      · subst he
        obtain rfl := Option.some_inj.mp (hch.symm.trans hc')
        rw [hu] at hu'
        cases hu'
      · rw [chunk_without_of_ne he, hc'] at hgone
        cases hgone
  · have hu : ch.unpooled = false := by simpa using hu
    obtain ⟨x, hx, -⟩ := W.listed.fit _ ch hch hu
    obtain ⟨b, a', ef, hS, hg, hE', hE, hb⟩ := list_free_ok W ht rfl hch hu hx
    have hfree : free t.chunk (t.handle l) a = (if b = true then Outcome.ok () a' else .ok () (a'.without t.chunk)) := by
      simp only [free, Method.bind_apply, chunkAt_ok hch, Outcome.bind_ok, hu, Bool.false_eq_true, if_false, freeChunk, hx,
        ef, Method.ite_apply, destroyChunk_ok]
      rfl
    rcases hb with ⟨rfl, hL⟩ | ⟨rfl, hU, hUn⟩
    · refine ⟨a', by rw [hfree, if_pos rfl], ⟨hS, hL⟩, hg, hE', fun c' ch' hc' _ hgone => ?_⟩
      obtain ⟨ch'', hc'', -⟩ := hE c' ch' hc'
      rw [hgone] at hc''
      cases hc''
    · have hg' : (a'.without t.chunk).given l = a'.given l := by
        funext t'
        by_cases hc' : t'.chunk = t.chunk
        · rw [given_without_self hc', hUn.given t' hc']
        · rw [given_without hc']
      refine ⟨a'.without t.chunk, by rw [hfree]; rfl, ⟨hS.without hUn.poolOf, hU.without⟩, hg'.trans hg,
        carried_without.trans hE', fun c' ch' hc' _ hgone => ?_⟩
      by_cases he : c' = t.chunk
      · subst he
        exact ⟨a', destroyChunk_ok _ _, hS, hUn⟩
      · obtain ⟨ch'', hc'', -⟩ := hE c' ch' hc'
        rw [chunk_without_of_ne he, hc''] at hgone
        cases hgone

end

end PoolArena

end Nio.Pool
