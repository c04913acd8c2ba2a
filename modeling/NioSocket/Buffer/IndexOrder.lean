import NioSocket.Buffer.Moving
import NioSocket.Pool.Buffers

/-!
# Indices in order, over every run

A buffer with bytes of its own, unpooled or pooled, as it is made (`Heap.Made`), and any calls on
it in any order (`Heap.Step`). Its indices stay in order as long as no call is one of a few kinds
(`Heap.Spares`): a skip to a negative index, or by a sum that wraps; a writer index above the
capacity but not above the maximum; and, where nothing checks it, a capacity that is negative or
above the maximum (`in_order_iff`).
-/

namespace Nio

/-! ## A pooled buffer -/

namespace Pool

open Buffer.CharBuf.Store (Fetches)

variable {l : Layout} {a : PoolArena} {t : Slot} {s : Pooled} {n : Int} {b : PooledCharBuf} {ch : PoolChunk}

/-- The memory a buffer is in is no larger than an `int` can say. -/
theorem PooledCharBuf.Holds.chunkSize_le (W : a.Whole l) (H : b.Holds l a t) (hch : a.chunk t.chunk = some ch) :
    (ch.chunkSize_ : Int) ≤ intMax := by
  unfold intMax
  have hint := H.int
  by_cases hu : ch.unpooled = true
  · have hg : a.given l (.huge t.chunk) = some ⟨ch.offset, ch.chunkSize_⟩ :=
      PoolArena.given_huge.mpr ⟨ch, hch, hu, rfl⟩
    have hgiven := H.given
    rw [W.chunks.not_huge_of W.pools hg rfl hgiven rfl, hg] at hgiven
    have := (Extent.mk.inj (Option.some.inj hgiven)).2
    omega
  · have hc := l.chunkSize_le
    rw [(W.chunks.pooled _ ch hch (by simpa using hu)).chunkSize_]
    omega

/-- What `settle` leaves is in order, within the length `n`. -/
theorem PooledCharBuf.settle_order {old : Int} (h0 : 0 ≤ b.indices.readerIndex_)
    (hr : b.indices.readerIndex_ ≤ b.indices.writerIndex_) (hw : b.indices.writerIndex_ ≤ old) (hn : 0 ≤ n) :
    0 ≤ (b.settle old n).indices.readerIndex_ ∧
      (b.settle old n).indices.readerIndex_ ≤ (b.settle old n).indices.writerIndex_ ∧
      (b.settle old n).indices.writerIndex_ ≤ n ∧
      (b.settle old n).indices.maxCapacity_ = b.indices.maxCapacity_ := by
  unfold settle trimIndicesToCapacity
  dsimp only
  split
  · exact ⟨h0, hr, by omega, rfl⟩
  split
  · exact ⟨by dsimp only; omega, by dsimp only; omega, Int.le_refl n, rfl⟩
  · exact ⟨h0, hr, by omega, rfl⟩

namespace Pooled

/-- Of memory, nothing is read that an `int` cannot say. -/
theorem peek_cases (hs : store.Sound s) (n : Int) :
    (∃ bs, peek s.buf.indices.readerIndex_ n s = .ok bs s ∧ 0 ≤ n ∧ s.buf.indices.readerIndex_ + n ≤ intMax) ∨
    peek s.buf.indices.readerIndex_ n s = .ub := by
  obtain ⟨l, t, h⟩ := hs.live
  obtain ⟨ch, hch, -⟩ := h.exists_chunk
  have hc := h.holds.chunkSize_le h.whole hch
  have h0 : 0 ≤ s.buf.indices.readerIndex_ := hs.reader_nonneg
  have hr : s.buf.indices.readerIndex_ ≤ s.buf.indices.writerIndex_ := hs.reader_le
  have hw : s.buf.indices.writerIndex_ ≤ s.buf.length_ := hs.writer_le
  obtain ⟨r, hr'⟩ : ∃ r : Nat, s.buf.indices.readerIndex_ = r := ⟨s.buf.indices.readerIndex_.toNat, by omega⟩
  have hidx : Pooled.idx r s.buf = (s.buf.offset_ + r : Nat) := h.idx (i := r) (n := 0) (by omega)
  rw [hr']
  simp only [peek, h.holds.memory_, deref_ok, Outcome.bind_ok, hidx, onArena, PoolArena.peek, Method.bind_apply,
    PoolArena.chunkAt_ok hch, Method.ite_apply, Method.pure_apply]
  by_cases hin : (0 : Int) ≤ (s.buf.offset_ + r : Nat) ∧ 0 ≤ n ∧ (s.buf.offset_ + r : Nat) + n ≤ ch.chunkSize_
  · rw [if_pos hin]
    exact .inl ⟨_, rfl, hin.2.1, by omega⟩
  · rw [if_neg hin]
    exact .inr rfl

theorem peek_fetches (hs : store.Sound s) (n : Int) : Fetches charBuf s n (peek s.buf.indices.readerIndex_ n s) := by
  obtain ⟨_, e, h0, hn⟩ | e := peek_cases hs n
  · rw [e]
    exact ⟨rfl, h0, hn⟩
  · rw [e]
    trivial

theorem guarded : store.Guarded where
  _get hs := peek_fetches hs _
  _getString {s} n hs := by
    show Fetches charBuf s n (if n < 0 then .throw "basic_string::assign" s else peek s.buf.indices.readerIndex_ n s)
    split
    · exact rfl
    · exact peek_fetches hs n
  getChars n hs := peek_fetches hs n
  _setChars _ _ _ _ := rfl
  setCharsFrom _ _ _ _ _ := rfl

theorem setCapacity_moves (hs : store.Sound s) (hi : i32 n = n) : store.Moves s (setCapacity n s) := by
  obtain ⟨l, t, h⟩ := hs.live
  obtain ⟨a, b⟩ := s
  have H : b.Holds l a t := h.holds
  have hmax := hs.max_le
  have settled : ∀ (b' : PooledCharBuf) (a' : PoolArena) (t' : Slot), b'.indices = b.indices → b'.length_ = n →
      b'.Holds l a' t' → a'.Whole l → 0 ≤ n → n ≤ b.indices.maxCapacity_ →
      store.Sound ⟨a', b'.settle b.length_ n⟩ := by
    intro b' a' t' hb hl H' W' hn hn'
    have hw : b'.indices.writerIndex_ ≤ b.length_ := hb ▸ hs.writer_le
    obtain ⟨h0, hr, hw, hm⟩ := PooledCharBuf.settle_order (hb ▸ hs.reader_nonneg) (hb ▸ hs.reader_le) hw hn
    obtain ⟨i, e⟩ := b'.settle_eq b.length_ n
    rw [e] at h0 hr hw hm ⊢
    have hm : i.maxCapacity_ = b.indices.maxCapacity_ := hm.trans (congrArg _ hb)
    refine ⟨⟨h0, hr, hl ▸ hw, ?_⟩, ⟨l, t', W', { H' with }, hl ▸ hn⟩, ?_⟩
    · show b'.length_ ≤ i.maxCapacity_
      omega
    · exact hm.trans_le hmax
  rcases setCapacity_cases h.whole H hi with ⟨-, e⟩ | ⟨-, -, what, e⟩ |
    ⟨-, ⟨hn, hn'⟩, ⟨hle, e⟩ | ⟨-, r, t', a', e, M⟩ | ⟨hneg, -⟩⟩
  · rw [e]
    exact hs
  · rw [e]
    exact ⟨hs, rfl⟩
  · rw [e]
    exact settled _ a t rfl rfl { H with length_ := hle } h.whole hn hn'
  · rw [e]
    exact settled _ a' t' rfl M.length_ (M.holds H b) M.whole hn hn'
  · have h0 : 0 ≤ b.length_ := h.length_
    omega

end Pooled

end Pool

namespace Buffer

open CharBuf (InOrder)
open Pool (Pooled Buffers)

/-! ## An unpooled buffer -/

namespace UnpooledHeapCharBuf

open CharBuf.Store (Fetches)

variable {b : UnpooledHeapCharBuf} {n : Int}

theorem peek_fetches (hb : store.Sound b) (n : Int) : Fetches charBuf b n (peek b.indices.readerIndex_ n b) := by
  unfold peek
  split
  · rename_i hin
    have hc : b.capacity_ ≤ intMax := hb.live.2
    exact ⟨rfl, hin.2.1, Int.le_trans hin.2.2 hc⟩
  · trivial

theorem guarded : store.Guarded where
  _get hb := peek_fetches hb _
  _getString {b} n hb := by
    show Fetches charBuf b n (if n < 0 then .throw "basic_string::assign" b else peek b.indices.readerIndex_ n b)
    split
    · exact rfl
    · exact peek_fetches hb n
  getChars {b} n hb := by
    show Fetches charBuf b n ((CharBuf.checkRangeBounds b.indices.readerIndex_ n b.capacity_ b).bind fun _ =>
      peek b.indices.readerIndex_ n)
    rcases CharBuf.checkRangeBounds_nonneg b.indices.readerIndex_ n b.capacity_ b with e | ⟨e, -⟩
    · rw [e]
      exact rfl
    · rw [e]
      exact peek_fetches hb n
  _setChars _ _ _ _ := rfl
  setCharsFrom _ _ _ _ _ := rfl

/-- What is above a lower capacity is cut off. -/
theorem trim_moves (hb : store.Sound b) (hn : 0 ≤ n) (hlt : n < b.capacity_) :
    ∃ i : Indices, trim n { b with capacity_ := n } = .ok () { b with capacity_ := n, indices := i } ∧
      0 ≤ i.readerIndex_ ∧ i.readerIndex_ ≤ i.writerIndex_ ∧ i.writerIndex_ ≤ n ∧
      i.maxCapacity_ = b.indices.maxCapacity_ := by
  have h0 : 0 ≤ b.indices.readerIndex_ := hb.reader_nonneg
  have hr : b.indices.readerIndex_ ≤ b.indices.writerIndex_ := hb.reader_le
  have hm : b.capacity_ ≤ b.indices.maxCapacity_ := hb.capacity_le
  simp only [trim]
  by_cases h1 : b.indices.readerIndex_ < n
  · rw [if_pos h1]
    by_cases h2 : b.indices.writerIndex_ > n
    · rw [if_pos h2, CharBuf.checkIndexBounds_ok h0 (by omega) (by omega)]
      exact ⟨_, rfl, h0, by dsimp only; omega, Int.le_refl n, rfl⟩
    · rw [if_neg h2]
      exact ⟨b.indices, rfl, h0, hr, by omega, rfl⟩
  · rw [if_neg h1]
    exact ⟨_, rfl, hn, Int.le_refl n, Int.le_refl n, rfl⟩

theorem setCapacity_moves (hb : store.Sound b) (hn : 0 ≤ n ∧ n ≤ b.indices.maxCapacity_) :
    store.Moves b (setCapacity n b) := by
  have h0 : 0 ≤ b.indices.readerIndex_ := hb.reader_nonneg
  have hr : b.indices.readerIndex_ ≤ b.indices.writerIndex_ := hb.reader_le
  have hw : b.indices.writerIndex_ ≤ b.capacity_ := hb.writer_le
  have hmax : b.indices.maxCapacity_ ≤ intMax := hb.max_le
  rcases Int.lt_trichotomy n b.capacity_ with hlt | rfl | hgt
  · obtain ⟨i, e, hi0, hir, hiw, him⟩ := trim_moves hb hn.1 hlt
    simp only [setCapacity]
    rw [if_neg (by omega), if_pos hlt, e, Outcome.bind_ok]
    exact ⟨⟨hi0, hir, hiw, hn.2.trans_eq him.symm⟩, ⟨hn.1, hn.2.trans hmax⟩, him.trans_le hmax⟩
  · simp only [setCapacity, if_true]
    exact hb
  · rw [Sound.setCapacity_grow hgt]
    exact ⟨⟨h0, hr, hw.trans (Int.le_of_lt hgt), hn.2⟩, ⟨hn.1, hn.2.trans hmax⟩, hmax⟩

/-- Nothing checks a capacity. -/
theorem setCapacity_breaks (hb : store.Sound b) (hn : ¬(0 ≤ n ∧ n ≤ b.indices.maxCapacity_)) :
    ∃ b', setCapacity n b = .ok () b' ∧ ¬InOrder charBuf b' := by
  have h0 : 0 ≤ b.indices.readerIndex_ := hb.reader_nonneg
  have hr : b.indices.readerIndex_ ≤ b.indices.writerIndex_ := hb.reader_le
  have hw : b.indices.writerIndex_ ≤ b.capacity_ := hb.writer_le
  have hm : b.capacity_ ≤ b.indices.maxCapacity_ := hb.capacity_le
  by_cases hneg : n < 0
  · have e : trim n { b with capacity_ := n } = .ok () { b with
        capacity_ := n
        indices := { b.indices with readerIndex_ := n, writerIndex_ := n } } := by
      simp only [trim]
      rw [if_neg (by omega)]
    simp only [setCapacity]
    rw [if_neg (by omega), if_pos (by omega), e, Outcome.bind_ok]
    refine ⟨_, rfl, fun h => ?_⟩
    have h' : 0 ≤ n := h.reader_nonneg
    omega
  · rw [Sound.setCapacity_grow (by omega)]
    refine ⟨_, rfl, fun h => ?_⟩
    have h' : n ≤ b.indices.maxCapacity_ := h.capacity_le
    omega

end UnpooledHeapCharBuf

/-! ## Runs -/

namespace Heap

variable {h : Heap} {s t t' : h.State} {e : Option Move} {es : List (Option Move)} {initial max : Int}

/-- A buffer just made: an unpooled one with a length that `new` accepts, a pooled one allocated of
an arena that any calls have worked on. -/
def Made : (h : Heap) → Int → Int → h.State → Prop
  | unpooled, initial, max, b => i32 initial = initial ∧ i32 max = max ∧ 0 ≤ initial ∧ b = .new initial max
  | pooled, initial, max, s => i32 initial = initial ∧ i32 max = max ∧
      ∃ l es a, Run Buffers.Step (.init l) es a ∧ a.arena.allocateBuf initial max = .ok s.buf s.arena

/-- A call returns or throws, or something else happens that does not move the indices: bytes are
set, or calls on other buffers work on the arena. -/
inductive Step (h : Heap) (s : h.State) : Option Move → h.State → Prop
  | returns {m : Move} {s' : h.State} : m.Proper → h.charBuf.move m s = .ok () s' → Step h s (some m) s'
  | throws {m : Move} {what : String} {s' : h.State} : m.Proper → h.charBuf.move m s = .throw what s' →
      Step h s (some m) s'
  | other {s' : h.State} : h.store.Live s' → h.charBuf.indices s' = h.charBuf.indices s →
      h.charBuf.capacity s' = h.charBuf.capacity s → Step h s none s'

/-- The call spares the order of the indices. -/
def Spares (h : Heap) (s : h.State) : Option Move → Prop
  | some (.skipBytes n) => 0 ≤ h.charBuf.readerIndex s + n ∧ h.charBuf.readerIndex s + n ≤ intMax
  | some (.writerIndex i) => ¬(h.charBuf.capacity s < i ∧ i ≤ h.charBuf.maxCapacity s)
  | some .resetWriterIndex =>
    ¬(h.charBuf.capacity s < (h.charBuf.indices s).markedWriterIndex_ ∧
      (h.charBuf.indices s).markedWriterIndex_ ≤ h.charBuf.maxCapacity s)
  | some (.capacity n) => h = unpooled → 0 ≤ n ∧ n ≤ h.charBuf.maxCapacity s
  | _ => True

/-- The indices are in order, and a call that throws leaves them as they are. -/
structure Kept (h : Heap) (s : h.State) : Prop extends InOrder h.charBuf s where
  throws {m : Move} {what : String} {s' : h.State} : m.Proper → h.charBuf.move m s = .throw what s' →
    h.charBuf.indices s' = h.charBuf.indices s

theorem guarded : (h : Heap) → h.store.Guarded
  | unpooled => UnpooledHeapCharBuf.guarded
  | pooled => Pooled.guarded

/-- A call either spares the order or breaks it. -/
theorem move_cases (hs : h.store.Sound s) {m : Move} (hp : m.Proper) :
    h.Spares s (some m) ∧ h.store.Moves s (h.charBuf.move m s) ∨
      ¬h.Spares s (some m) ∧ ∃ s', h.charBuf.move m s = .ok () s' ∧ ¬InOrder h.charBuf s' := by
  have h0 := hs.reader_nonneg
  have hrw := hs.writer_le_intMax
  have hr := hs.reader_le
  unfold intMax at hrw
  by_cases hsp : h.Spares s (some m)
  · refine .inl ⟨hsp, CharBuf.Store.move_moves hs h.guarded hp ?_ ?_ ?_⟩
    · rintro n rfl
      obtain ⟨hn, hn'⟩ := hsp
      unfold intMax at hn'
      rwa [i32_eq (by omega) hn']
    · rintro i (rfl | ⟨rfl, rfl⟩)
      · have hsp : ¬(_ ∧ _) := hsp
        omega
      · have hsp : ¬(_ ∧ _) := hsp
        omega
    · rintro n rfl
      cases h with
      | unpooled => exact UnpooledHeapCharBuf.setCapacity_moves hs (hsp rfl)
      | pooled => exact Pooled.setCapacity_moves hs hp
  · refine .inr ⟨hsp, ?_⟩
    cases m with
    | skipBytes n =>
      have hn : i32 n = n := hp
      have hsp : ¬(_ ∧ _) := hsp
      refine CharBuf.Store.skipBytes_breaks hs ?_
      unfold i32 intMax at *
      omega
    | writerIndex i =>
      have hsp : ¬¬(_ ∧ _) := hsp
      exact CharBuf.Store.setWriterIndex_breaks hs (by omega)
    | resetWriterIndex =>
      have hsp : ¬¬(_ ∧ _) := hsp
      exact CharBuf.Store.setWriterIndex_breaks hs (by omega)
    | capacity n =>
      cases h with
      | unpooled => exact UnpooledHeapCharBuf.setCapacity_breaks hs fun hn => hsp fun _ => hn
      | pooled => exact absurd nofun hsp
    | readerIndex | markReaderIndex | resetReaderIndex | markWriterIndex | read | write | discardReadBytes |
      discardSomeReadBytes => exact absurd trivial hsp

/-- What a buffer that is just made has. -/
theorem Made.indices (hm : h.Made initial max s) :
    h.charBuf.indices s = .init max ∧ h.charBuf.capacity s = initial ∧ max ≤ intMax ∧
      (0 ≤ initial → h.store.Live s) := by
  cases h with
  | unpooled =>
    obtain ⟨hi, hmax, h0, rfl⟩ := hm
    have hi' := i32_range initial
    have hm' := i32_range max
    exact ⟨rfl, rfl, by unfold intMax; omega, fun _ => ⟨h0, by show initial ≤ 2147483647; omega⟩⟩
  | pooled =>
    obtain ⟨a, b⟩ := s
    obtain ⟨hi, hmax, l, es, A, hrun, ea⟩ := hm
    obtain ⟨σ, H⟩ := Pool.Buffers.run_held hrun
    have hm' := i32_range max
    have hne : initial ≠ Pool.intMin := by
      rintro rfl
      rw [Pool.PoolArena.allocateBuf, Method.bind_apply, Pool.PoolArena.allocate_intMin H.whole] at ea
      cases ea
    obtain ⟨r, t, a₁, e₁, hS, hL, -⟩ := Pool.PoolArena.allocate_ok H.whole hi hne
    rw [Pool.PoolArena.allocateBuf, Method.bind_apply, e₁] at ea
    obtain ⟨rfl, rfl⟩ := Outcome.ok.inj ea
    have hN := H.whole.laid.normalizeCapacity hi hne
    refine ⟨rfl, hS.length_, by unfold intMax; omega, fun h0 => ⟨l, t, ⟨hS.sound, hL⟩, hS.holds (hN.int hi) _, ?_⟩⟩
    show 0 ≤ r.length_
    rw [hS.length_]
    exact h0

theorem Made.inOrder_iff (hm : h.Made initial max s) : InOrder h.charBuf s ↔ 0 ≤ initial ∧ initial ≤ max := by
  obtain ⟨hi, hc, -, -⟩ := hm.indices
  have hr : h.charBuf.readerIndex s = 0 := congrArg (·.readerIndex_) hi
  have hw : h.charBuf.writerIndex s = 0 := congrArg (·.writerIndex_) hi
  have hmax : h.charBuf.maxCapacity s = max := congrArg (·.maxCapacity_) hi
  constructor
  · intro ho
    have h1 := ho.writer_le
    have h2 := ho.capacity_le
    omega
  · rintro ⟨h0, hle⟩
    exact ⟨by omega, by omega, by omega, by omega⟩

theorem Made.sound (hm : h.Made initial max s) (ho : InOrder h.charBuf s) : h.store.Sound s := by
  obtain ⟨hi, -, hmax, hl⟩ := hm.indices
  have hmax' : h.charBuf.maxCapacity s = max := congrArg (·.maxCapacity_) hi
  exact ⟨ho, hl (hm.inOrder_iff.mp ho).1, hmax'.trans_le hmax⟩

theorem kept (hs : h.store.Sound s) : h.Kept s where
  toInOrder := hs.toInOrder
  throws hp e := by
    rcases move_cases hs hp with ⟨-, hM⟩ | ⟨-, s'', e', -⟩
    · rw [e] at hM
      exact hM.2
    · cases e.symm.trans e'

/-- A step that spares the order keeps it, and one that does not breaks it. -/
theorem Step.sound_iff (hs : h.store.Sound s) (st : h.Step s e t) :
    (h.Spares s e → h.store.Sound t) ∧ (InOrder h.charBuf t → h.Spares s e) := by
  cases st with
  | returns hp eq =>
    rcases move_cases hs hp with ⟨hsp, hM⟩ | ⟨hsp, s', e', hbreak⟩
    · rw [eq] at hM
      exact ⟨fun _ => hM, fun _ => hsp⟩
    · obtain ⟨-, rfl⟩ := Outcome.ok.inj (eq.symm.trans e')
      exact ⟨fun h => absurd h hsp, fun h => absurd h hbreak⟩
  | throws hp eq =>
    rcases move_cases hs hp with ⟨hsp, hM⟩ | ⟨-, s', e', -⟩
    · rw [eq] at hM
      exact ⟨fun _ => hM.1, fun _ => hsp⟩
    · cases eq.symm.trans e'
  | other hl hi hc =>
    exact ⟨fun _ => hs.of_indices hi hl (by rw [hc]; exact hs.writer_le) (by rw [hc]; exact hs.capacity_le),
      fun _ => trivial⟩

/-- While the indices are in order, the buffer is in use. -/
theorem sound_of_run (hs : h.store.Sound s) (hr : Run h.Step s es t)
    (ho : ∀ es' t, es' <+: es → Run h.Step s es' t → InOrder h.charBuf t) : h.store.Sound t := by
  induction hr with
  | nil => exact hs
  | @snoc es e t u hr st ih =>
    have ht := ih fun es' t hp => ho es' t (hp.trans (List.prefix_append es [e]))
    obtain ⟨hspares, hbreaks⟩ := st.sound_iff ht
    exact hspares (hbreaks (ho _ u (List.prefix_refl _) (hr.snoc st)))

/-- The indices are in order in every state if and only if they are in the first, and each call
spares their order. -/
theorem in_order_iff (hm : h.Made initial max s) (es : List (Option Move)) :
    (∀ es' t, es' <+: es → Run h.Step s es' t → h.Kept t) ↔
      (0 ≤ initial ∧ initial ≤ max) ∧
        ∀ es' e t t', es' ++ [e] <+: es → Run h.Step s es' t → h.Step t e t' → h.Spares t e := by
  constructor
  · intro hk
    have ho := (hk [] s (List.nil_prefix) .nil).toInOrder
    refine ⟨hm.inOrder_iff.mp ho, fun es' e t t' hp hr st => ?_⟩
    have ht := sound_of_run (hm.sound ho) hr fun es'' t hp' hr' =>
      (hk es'' t (hp'.trans ((List.prefix_append es' [e]).trans hp)) hr').toInOrder
    exact (st.sound_iff ht).2 (hk _ t' hp (hr.snoc st)).toInOrder
  · rintro ⟨h0, hsp⟩ es' t hp hr
    refine kept ?_
    induction hr with
    | nil => exact hm.sound (hm.inOrder_iff.mpr h0)
    | @snoc es' e t u hr st ih =>
      have ht := ih ((List.prefix_append es' [e]).trans hp)
      exact (st.sound_iff ht).1 (hsp es' e t u hp hr st)

theorem in_order_iff_eight :
    (∀ es' t, es' <+: [some (.write (.typed .int 7)), some (.skipBytes 2)] →
        Run (Step .unpooled) (.new 8 16) es' t → Kept .unpooled t) ↔
      ((0 : Int) ≤ 8 ∧ (8 : Int) ≤ 16) ∧
        ∀ es' e t t', es' ++ [e] <+: [some (.write (.typed .int 7)), some (.skipBytes 2)] →
          Run (Step .unpooled) (.new 8 16) es' t → Step .unpooled t e t' → Spares .unpooled t e :=
  in_order_iff (h := .unpooled) ⟨by decide, by decide, by decide, rfl⟩ _

/-- One byte is skipped backwards from the first; the writer index is set above the capacity; and
the capacity is set above the maximum. -/
theorem not_in_order :
    (∃ t, Run (Step .unpooled) (.new 8 16) [some (.skipBytes (-1))] t ∧ ¬Kept .unpooled t) ∧
    (∃ t, Run (Step .unpooled) (.new 8 16) [some (.writerIndex 12)] t ∧ ¬Kept .unpooled t) ∧
    (∃ t, Run (Step .unpooled) (.new 8 16) [some (.capacity 20)] t ∧ ¬Kept .unpooled t) :=
  ⟨⟨_, .one (.returns (m := .skipBytes (-1)) (show i32 (-1) = -1 by decide) rfl),
      fun h => absurd h.reader_nonneg (by decide)⟩,
    ⟨_, .one (.returns (m := .writerIndex 12) (show i32 12 = 12 by decide) rfl),
      fun h => absurd h.writer_le (by decide)⟩,
    ⟨_, .one (.returns (m := .capacity 20) (show i32 20 = 20 by decide) rfl),
      fun h => absurd h.capacity_le (by decide)⟩⟩

end Heap

end Buffer

end Nio
