import NioSocket.Buffer.Kinds

/-!
# Discarding what was read

`discardReadBytes` and `discardSomeReadBytes` move the unread bytes to the front by a `memcpy`
in the buffer's own memory, and take what was read off the indices and the marks. The
`memcpy` is one of ranges apart as long as no more is unread than was read; `adjustMarkers`
lets the writer mark become negative where it is before, and the reader mark behind, the
reader index (`discard_iff`).
-/

namespace Nio.Buffer

/-! ## The marks -/

namespace Indices

/-- No mark becomes negative. -/
def Markable (i : Indices) (decrement : Int) : Prop :=
  i.markedReaderIndex_ ≤ decrement ∨ decrement ≤ i.markedWriterIndex_

instance (i : Indices) (d : Int) : Decidable (i.Markable d) := inferInstanceAs (Decidable (_ ∨ _))

variable {i : Indices} {d : Int}

theorem adjustMarkers_reader (h : i.markedReaderIndex_ ≤ intMax) (hd : 0 ≤ d) :
    (i.adjustMarkers d).markedReaderIndex_ = max 0 (i.markedReaderIndex_ - d) := by
  unfold intMax at h
  unfold adjustMarkers
  split
  · show 0 = _
    omega
  · show i32 _ = _
    rw [i32_eq (by omega) (by omega)]
    omega

theorem adjustMarkers_writer (h0 : 0 ≤ i.markedWriterIndex_) (h : i.markedWriterIndex_ ≤ intMax) (hd : 0 ≤ d)
    (hd' : d ≤ intMax) :
    (i.adjustMarkers d).markedWriterIndex_ = max 0 (i.markedWriterIndex_ - d) ↔ i.Markable d := by
  unfold intMax at h hd'
  have e : i32 (i.markedWriterIndex_ - d) = i.markedWriterIndex_ - d := i32_eq (by omega) (by omega)
  unfold adjustMarkers Markable
  split
  · refine iff_of_true ?_ (.inl ‹_›)
    show (if i.markedWriterIndex_ ≤ d then 0 else i32 (i.markedWriterIndex_ - d)) = _
    split <;> omega
  · show i32 _ = _ ↔ _
    omega

end Indices

/-! ## A store that discards -/

namespace CharBuf.Store

variable {σ : Type} {c : CharBuf σ} (B : Store c) {s s' : σ}

/-- The indices of a buffer in order, the marks anywhere in its capacity. -/
structure Ordered (c : CharBuf σ) (s : σ) : Prop where
  reader_nonneg : 0 ≤ c.readerIndex s
  reader_le : c.readerIndex s ≤ c.writerIndex s
  writer_le : c.writerIndex s ≤ c.capacity s
  markedReader_nonneg : 0 ≤ (c.indices s).markedReaderIndex_
  markedReader_le : (c.indices s).markedReaderIndex_ ≤ c.capacity s
  markedWriter_nonneg : 0 ≤ (c.indices s).markedWriterIndex_
  markedWriter_le : (c.indices s).markedWriterIndex_ ≤ c.capacity s

/-- The bytes between the indices. -/
def readable (s : σ) : List UInt8 :=
  (B.byte s).read (c.readerIndex s).toNat (c.writerIndex s - c.readerIndex s).toNat

/-- The read bytes are gone, from `s` to `s'`. -/
structure Discarded (s s' : σ) : Prop where
  readable : B.readable s' = B.readable s
  readerIndex : c.readerIndex s' = 0
  writerIndex : c.writerIndex s' = c.writerIndex s - c.readerIndex s
  markedReaderIndex_ : (c.indices s').markedReaderIndex_ = max 0 ((c.indices s).markedReaderIndex_ - c.readerIndex s)
  markedWriterIndex_ : (c.indices s').markedWriterIndex_ = max 0 ((c.indices s).markedWriterIndex_ - c.readerIndex s)

/-- `discardSomeReadBytes` does something. -/
def Acts (c : CharBuf σ) (s : σ) : Prop :=
  c.readerIndex s ≠ 0 ∧ (c.readerIndex s = c.writerIndex s ∨ c.capacity s / 2 ≤ c.readerIndex s)

instance (c : CharBuf σ) (s : σ) : Decidable (Acts c s) := inferInstanceAs (Decidable (_ ∧ _))

/-- What is read can be discarded: no more is unread, and no mark becomes negative. -/
def Discardable (c : CharBuf σ) (s : σ) : Prop :=
  c.readerIndex s = 0 ∨
    c.writerIndex s - c.readerIndex s ≤ c.readerIndex s ∧ (c.indices s).Markable (c.readerIndex s)

section

include B

theorem readerIndex_setIndex0 (r w : Int) (s : σ) : c.readerIndex (c.setIndex0 r w s) = r :=
  congrArg (·.readerIndex_) (B.indices_setIndices _ s)

theorem writerIndex_setIndex0 (r w : Int) (s : σ) : c.writerIndex (c.setIndex0 r w s) = w :=
  congrArg (·.writerIndex_) (B.indices_setIndices _ s)

theorem writerIndex_adjustMarkers (d : Int) (s : σ) : c.writerIndex (c.adjustMarkers d s) = c.writerIndex s := by
  rw [writerIndex, adjustMarkers, B.indices_setIndices, Indices.adjustMarkers_writerIndex_]
  rfl

end

variable (hs : B.Live s) (ho : Ordered c s)
include hs ho

/-- With the bytes `bs` in front, and the indices adjusted. -/
theorem discarded_iff {bs : Mem} (hbs : bs.read 0 (c.writerIndex s - c.readerIndex s).toNat = B.readable s)
    (hbyte : B.byte s' = bs)
    (hi : c.indices s' = { ({ c.indices s with writerIndex_ := c.writerIndex s - c.readerIndex s } :
      Indices).adjustMarkers (c.readerIndex s) with readerIndex_ := 0 }) :
    B.Discarded s s' ↔ (c.indices s).Markable (c.readerIndex s) := by
  have hc := B.capacity_le hs
  have hr0 := ho.reader_nonneg
  have hr := ho.reader_le
  have hw := ho.writer_le
  have hmr := ho.markedReader_le
  have hmw := ho.markedWriter_le
  have hreader : c.readerIndex s' = 0 := congrArg (·.readerIndex_) hi
  have hwriter : c.writerIndex s' = c.writerIndex s - c.readerIndex s := by
    rw [writerIndex, hi]
    exact Indices.adjustMarkers_writerIndex_ _ _
  have h1 := Indices.adjustMarkers_reader
    (i := { c.indices s with writerIndex_ := c.writerIndex s - c.readerIndex s })
    (show (c.indices s).markedReaderIndex_ ≤ intMax by omega) hr0
  have h2 := Indices.adjustMarkers_writer
    (i := { c.indices s with writerIndex_ := c.writerIndex s - c.readerIndex s })
    ho.markedWriter_nonneg (show (c.indices s).markedWriterIndex_ ≤ intMax by omega) hr0 (by omega)
  constructor
  · intro h
    refine h2.mp ?_
    have hm := h.markedWriterIndex_
    rw [hi] at hm
    exact hm
  · intro h
    refine ⟨?_, hreader, hwriter, ?_, ?_⟩
    · rw [readable, hbyte, hreader, hwriter, Int.sub_zero]
      exact hbs
    · rw [hi]
      exact h1
    · rw [hi]
      exact h2.mpr h

theorem readableBytes_eq : i32 (c.writerIndex s - c.readerIndex s) = c.writerIndex s - c.readerIndex s := by
  have hc : c.capacity s ≤ 2147483647 := B.capacity_le hs
  have := ho.reader_nonneg
  have := ho.reader_le
  have := ho.writer_le
  exact i32_eq (by omega) (by omega)

/-- Nothing is unread. -/
theorem dropRead_discarded (he : c.readerIndex s = c.writerIndex s) :
    B.Discarded s (c.dropRead s) ↔ (c.indices s).Markable (c.readerIndex s) := by
  refine B.discarded_iff hs ho (show (B.byte s).read 0 _ = _ from ?_) ?_ ?_
  · rw [readable, he, Int.sub_self]
    rfl
  · simp only [dropRead, setIndex0, adjustMarkers, B.byte_setIndices]
  · simp only [dropRead, setIndex0, adjustMarkers, B.indices_setIndices, ← he, Int.sub_self]
    unfold Indices.adjustMarkers
    split <;> rfl

omit hs ho in
/-- What `moveUnread` does after the `memcpy`. -/
theorem moveUnread_eq (c : CharBuf σ) (s : σ) : c.moveUnread s =
    (c.setCharsSelf 0 (c.readerIndex s) (i32 (c.writerIndex s - c.readerIndex s)) s).bind fun _ p =>
      let p := c.setIndex0 (c.readerIndex p) (i32 (c.writerIndex p - c.readerIndex p)) p
      let p := c.adjustMarkers (c.readerIndex p) p
      .ok () (c.setIndex0 0 (c.writerIndex p) p) :=
  rfl

omit hs in
theorem length_readable : ((B.readable s).length : Int) = c.writerIndex s - c.readerIndex s := by
  have := ho.reader_le
  rw [readable, Mem.length_read]
  omega

/-- The `memcpy` is of ranges apart if no more is unread than was read. -/
theorem copyUnread_eq : c.setCharsSelf 0 (c.readerIndex s) (c.writerIndex s - c.readerIndex s) s =
    if c.writerIndex s - c.readerIndex s ≤ c.readerIndex s then .ok () (B.put 0 (B.readable s) s) else .ub := by
  have hr0 := ho.reader_nonneg
  have hr := ho.reader_le
  have hw := ho.writer_le
  have e := B.setCharsSelf_eq hs (i := 0) (j := (c.readerIndex s).toNat)
    (n := (c.writerIndex s - c.readerIndex s).toNat) (by omega) (by omega)
  rw [Int.toNat_of_nonneg hr0, Int.toNat_of_nonneg (by omega)] at e
  refine e.trans ?_
  by_cases hd : c.writerIndex s - c.readerIndex s ≤ c.readerIndex s
  · rw [if_pos hd, if_pos (by omega)]
    rfl
  · rw [if_neg hd, if_neg (by omega)]

/-- The unread bytes are moved. -/
theorem moveUnread_discarded :
    (∃ s', c.moveUnread s = .ok () s' ∧ B.Discarded s s') ↔
      c.writerIndex s - c.readerIndex s ≤ c.readerIndex s ∧ (c.indices s).Markable (c.readerIndex s) := by
  have hr := ho.reader_le
  have hw := ho.writer_le
  have hn := B.readableBytes_eq hs ho
  have hl := B.length_readable ho
  rw [moveUnread_eq, hn, B.copyUnread_eq hs ho]
  by_cases hd : c.writerIndex s - c.readerIndex s ≤ c.readerIndex s
  · rw [if_pos hd, Outcome.bind_ok]
    have hi := B.indices_put 0 (B.readable s) s
    have hb : B.byte (B.put 0 (B.readable s) s) = (B.byte s).write 0 (B.readable s) := B.byte_put hs (by omega)
    generalize B.put 0 (B.readable s) s = p at hi hb
    have hpr : c.readerIndex p = c.readerIndex s := congrArg (·.readerIndex_) hi
    have hpw : c.writerIndex p = c.writerIndex s := congrArg (·.writerIndex_) hi
    have key : B.Discarded s (c.setIndex0 0 (c.writerIndex s - c.readerIndex s)
        (c.adjustMarkers (c.readerIndex s) (c.setIndex0 (c.readerIndex s) (c.writerIndex s - c.readerIndex s) p))) ↔ _ :=
      B.discarded_iff hs ho (show (B.byte p).read 0 _ = _ from ?_) ?_ ?_
    · simp only [hpr, hpw, hn, B.readerIndex_setIndex0, B.writerIndex_setIndex0, B.writerIndex_adjustMarkers]
      constructor
      · rintro ⟨s', e, h⟩
        obtain ⟨-, rfl⟩ := Outcome.ok.inj e
        exact ⟨hd, key.mp h⟩
      · rintro ⟨-, h⟩
        exact ⟨_, rfl, key.mpr h⟩
    · rw [hb, ← hl, Int.toNat_natCast, Mem.read_write_self]
    · simp only [setIndex0, adjustMarkers, B.byte_setIndices]
    · simp only [setIndex0, adjustMarkers, B.indices_setIndices, hi]
      unfold Indices.adjustMarkers
      split <;> rfl
  · rw [if_neg hd]
    refine iff_of_false ?_ (fun h => hd h.1)
    rintro ⟨s', e, -⟩
    cases e

theorem discardReadBytes_discarded :
    (∃ s', c.discardReadBytes s = .ok () s' ∧ B.Discarded s s') ↔ Discardable c s := by
  have hr := ho.reader_le
  have hr0 := ho.reader_nonneg
  unfold discardReadBytes Discardable
  by_cases h0 : c.readerIndex s = 0
  · rw [if_pos h0]
    refine iff_of_true ⟨s, rfl, rfl, h0, by omega, ?_, ?_⟩ (.inl h0)
    · have := ho.markedReader_nonneg
      omega
    · have := ho.markedWriter_nonneg
      omega
  · rw [if_neg h0]
    by_cases he : c.readerIndex s = c.writerIndex s
    · rw [if_neg (fun hne => hne he)]
      have hd := B.dropRead_discarded hs ho he
      constructor
      · rintro ⟨s', e, h⟩
        obtain ⟨-, rfl⟩ := Outcome.ok.inj e
        exact .inr ⟨by omega, hd.mp h⟩
      · rintro (h | ⟨-, h⟩)
        · exact absurd h h0
        · exact ⟨_, rfl, hd.mpr h⟩
    · rw [if_pos he, B.moveUnread_discarded hs ho]
      exact ⟨.inr, fun h => h.resolve_left h0⟩

omit hs ho in
/-- `discardSomeReadBytes` is `discardReadBytes` where it acts. -/
theorem discardSomeReadBytes_eq (ha : Acts c s) : c.discardSomeReadBytes s = c.discardReadBytes s := by
  obtain ⟨h0, ha⟩ := ha
  unfold discardSomeReadBytes discardReadBytes
  rw [if_neg h0, if_neg h0]
  by_cases he : c.readerIndex s = c.writerIndex s
  · rw [if_pos he, if_neg (fun hne => hne he)]
  · rw [if_neg he, if_pos he, if_pos (ha.resolve_left he)]

omit hs ho in
theorem discardSomeReadBytes_idle (ha : ¬Acts c s) : c.discardSomeReadBytes s = .ok () s := by
  unfold discardSomeReadBytes
  by_cases h0 : c.readerIndex s = 0
  · rw [if_pos h0]
  · have ha : ¬(c.readerIndex s = c.writerIndex s ∨ c.capacity s / 2 ≤ c.readerIndex s) := fun h => ha ⟨h0, h⟩
    rw [if_neg h0, if_neg (fun h => ha (.inl h)), if_neg (fun h => ha (.inr h))]

end CharBuf.Store

namespace Kind

open CharBuf.Store

variable {k : Kind} {s : k.State}

/-- Discarding is right exactly where no more is unread than was read, so that the `memcpy` is of
ranges apart, and where no mark becomes negative. -/
theorem discard_iff (hs : k.store.Live s) (ho : Ordered k.charBuf s) :
    ((∃ s', k.charBuf.discardReadBytes s = .ok () s' ∧ k.store.Discarded s s') ↔ Discardable k.charBuf s) ∧
    ((∃ s', k.charBuf.discardSomeReadBytes s = .ok () s' ∧
        if Acts k.charBuf s then k.store.Discarded s s' else s' = s) ↔
      (Acts k.charBuf s → Discardable k.charBuf s)) := by
  refine ⟨k.store.discardReadBytes_discarded hs ho, ?_⟩
  by_cases ha : Acts k.charBuf s
  · simp only [ha, true_imp_iff, discardSomeReadBytes_eq ha]
    exact k.store.discardReadBytes_discarded hs ho
  · simp only [if_neg ha]
    exact iff_of_true ⟨s, discardSomeReadBytes_idle ha, rfl⟩ fun h => absurd h ha

theorem discard_iff_read : ∃ b : (heap .unpooled).State, let c := (heap .unpooled).charBuf
    ((∃ b', c.discardReadBytes b = .ok () b' ∧ (heap .unpooled).store.Discarded b b') ↔ Discardable c b) ∧
    ((∃ b', c.discardSomeReadBytes b = .ok () b' ∧
        if Acts c b then (heap .unpooled).store.Discarded b b' else b' = b) ↔ (Acts c b → Discardable c b)) :=
  ⟨⟨⟨8, 10, 3, 9, 16⟩, 16, fun _ => 7, 1⟩, discard_iff (k := .heap .unpooled) ⟨by decide, by decide⟩
    ⟨by decide, by decide, by decide, by decide, by decide, by decide, by decide⟩⟩

/-- Eight bytes are copied two bytes down, onto themselves; and a writer mark that is before the
reader index becomes `-2`. -/
theorem discard_overlap : ∃ b b' : (heap .unpooled).State, let c := (heap .unpooled).charBuf
    ((heap .unpooled).store.Live b ∧ Ordered c b ∧ c.discardReadBytes b = .ub) ∧
    ((heap .unpooled).store.Live b' ∧ Ordered c b' ∧ ∃ s, c.discardReadBytes b' = .ok () s ∧
      ¬(heap .unpooled).store.Discarded b' s) := by
  refine ⟨⟨⟨2, 10, 0, 0, 16⟩, 16, fun _ => 7, 1⟩, ⟨⟨4, 6, 6, 2, 16⟩, 16, fun _ => 7, 1⟩,
    ⟨⟨by decide, by decide⟩, ⟨by decide, by decide, by decide, by decide, by decide, by decide, by decide⟩, rfl⟩,
    ⟨by decide, by decide⟩, ⟨by decide, by decide, by decide, by decide, by decide, by decide, by decide⟩, _, rfl, fun h => ?_⟩
  exact absurd h.markedWriterIndex_ (by decide)

end Kind

end Nio.Buffer
