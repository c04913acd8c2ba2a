import NioSocket.Buffer.AbstractCharBuf
import NioSocket.Lib.Triple

/-!
# Heap buffers of their own

`UnpooledHeapCharBuf`: its memory, its reference count and its virtual functions,
and what the calls the network code makes on one do to a buffer whose indices are
in order (`Valid`). Bytes of `array_` that nothing has written have no meaning: a
`realloc` keeps the first `min(old, new)` bytes, and clears the others.
-/

namespace Nio.Buffer

/-- The data members of an `UnpooledHeapCharBuf`. -/
structure UnpooledHeapCharBuf where
  indices : Indices
  capacity_ : Int
  array_ : Mem
  refCnt_ : Int

namespace UnpooledHeapCharBuf

/-- `new UnpooledHeapCharBuf(initialCapacity, maxCapacity)`. -/
def new (initialCapacity maxCapacity : Int) : UnpooledHeapCharBuf :=
  ⟨.init maxCapacity, initialCapacity, fun _ => 0, 1⟩

/-- `retain(increment)`. A count does not wrap: there are fewer references to a buffer than
an `int` can count. -/
def retain (b : UnpooledHeapCharBuf) (increment : Int) : UnpooledHeapCharBuf :=
  if increment > 0 then { b with refCnt_ := b.refCnt_ + increment } else b

/-- `release(decrement)`; `deallocate()` does nothing here. -/
def release (b : UnpooledHeapCharBuf) (decrement : Int) : UnpooledHeapCharBuf :=
  if decrement > 0 then { b with refCnt_ := b.refCnt_ - decrement } else b

/-! ## Memory -/

/-- A `memcpy` into the memory. -/
def poke (index : Int) (bs : List UInt8) : Method UnpooledHeapCharBuf Unit := fun b =>
  if 0 ≤ index ∧ index + bs.length ≤ b.capacity_ then
    .ok () { b with array_ := b.array_.write index.toNat bs } else .ub

/-- A `memcpy` out of the memory. -/
def peek (index length : Int) : Method UnpooledHeapCharBuf (List UInt8) := fun b =>
  if 0 ≤ index ∧ 0 ≤ length ∧ index + length ≤ b.capacity_ then
    .ok (b.array_.read index.toNat length.toNat) b else .ub

/-- A `memcpy` of the first `length` bytes at `src` into the memory. -/
def pokeSome (index : Int) (src : List UInt8) (length : Int) : Method UnpooledHeapCharBuf Unit :=
  fun b => if 0 ≤ length ∧ length ≤ src.length then poke index (src.take length.toNat) b else .ub

/-- `array_ = realloc(array_, newCapacity)`. -/
def realloc (oldCapacity newCapacity : Int) (b : UnpooledHeapCharBuf) : UnpooledHeapCharBuf :=
  { b with array_ := fun k => if (k : Int) < min oldCapacity newCapacity then b.array_ k else 0 }

/-- The indices of a buffer whose capacity becomes less. -/
def trim (newCapacity : Int) : Method UnpooledHeapCharBuf Unit := fun b =>
  let i := b.indices
  if i.readerIndex_ < newCapacity then
    if i.writerIndex_ > newCapacity then
      (CharBuf.checkIndexBounds i.readerIndex_ newCapacity i.maxCapacity_ b).bind
        fun _ b => .ok () { b with indices := { i with writerIndex_ := newCapacity } }
    else .ok () b
  else .ok () { b with indices := { i with readerIndex_ := newCapacity, writerIndex_ := newCapacity } }

/-- `capacity(newCapacity)`. -/
def setCapacity (newCapacity : Int) : Method UnpooledHeapCharBuf Unit := fun b =>
  let oldCapacity := b.capacity_
  if oldCapacity = newCapacity then .ok () b
  else
    let b := { b with capacity_ := newCapacity }
    ((if newCapacity < oldCapacity then trim newCapacity else pure ()) b).bind
      fun _ => .modify (realloc oldCapacity newCapacity)

/-! ## The virtual functions -/

/-- `checkIndex(index, fieldLength)`. -/
def checkIndex (index fieldLength : Int) : Method UnpooledHeapCharBuf Unit := fun b =>
  CharBuf.checkRangeBounds index fieldLength b.capacity_ b

/-- `getChars(index, dst, dstIndex, length)`: the bytes put into `dst`. -/
def getChars (index length : Int) : Method UnpooledHeapCharBuf (List UInt8) := do
  checkIndex index length
  peek index length

/-- `src.getChars(srcIndex, array_, index, length)`. -/
def setCharsFrom (index : Int) (src : Source) (srcIndex length : Int) :
    Method UnpooledHeapCharBuf Unit := fun b =>
  match src srcIndex length with
  | .ok bs _ => poke index bs b
  | .throw e _ => .throw e b
  | .ub => .ub
  | .hang => .hang

/-- The same with the buffer itself: a `memcpy` of a range onto one that overlaps it
has no meaning. -/
def setCharsSelf (index srcIndex length : Int) : Method UnpooledHeapCharBuf Unit := do
  let bs ← getChars srcIndex length
  if index + length ≤ srcIndex ∨ srcIndex + length ≤ index then poke index bs else fun _ => .ub

/-- The functions `AbstractCharBuf` calls on an `UnpooledHeapCharBuf`. -/
def charBuf : CharBuf UnpooledHeapCharBuf where
  indices b := b.indices
  setIndices i b := { b with indices := i }
  capacity b := b.capacity_
  setCapacity := setCapacity
  _set := poke
  _get index n := peek index n
  _setChars := pokeSome
  _getString index len := fun b =>
    if len < 0 then .throw "basic_string::assign" b else peek index len b
  setChars index src length := do
    checkIndex index length
    pokeSome index src length
  setCharsFrom := setCharsFrom
  setCharsSelf := setCharsSelf
  getChars := getChars

/-! ## Buffers in order -/

/-- The indices are in order, and the capacity is a positive `int`. -/
structure Valid (b : UnpooledHeapCharBuf) : Prop where
  reader_nonneg : 0 ≤ b.indices.readerIndex_
  reader_le : b.indices.readerIndex_ ≤ b.indices.writerIndex_
  writer_le : b.indices.writerIndex_ ≤ b.capacity_
  capacity_pos : 0 < b.capacity_
  capacity_le : b.capacity_ ≤ b.indices.maxCapacity_
  max_le : b.indices.maxCapacity_ ≤ 2147483647

/-- The bytes between the indices. -/
def readable (b : UnpooledHeapCharBuf) : List UInt8 :=
  b.array_.read b.indices.readerIndex_.toNat (b.indices.writerIndex_ - b.indices.readerIndex_).toNat

/-- The buffer with another reader index. -/
def withReader (b : UnpooledHeapCharBuf) (index : Int) : UnpooledHeapCharBuf :=
  { b with indices := { b.indices with readerIndex_ := index } }

/-- The buffer with another writer index. -/
def withWriter (b : UnpooledHeapCharBuf) (index : Int) : UnpooledHeapCharBuf :=
  { b with indices := { b.indices with writerIndex_ := index } }

variable {b b' : UnpooledHeapCharBuf} {n i : Int} {bs : List UInt8}

theorem length_readable (b : UnpooledHeapCharBuf) :
    b.readable.length = (b.indices.writerIndex_ - b.indices.readerIndex_).toNat := Mem.length_read _ _ _

theorem new_valid {c m : Int} (h0 : 0 < c) (h : c ≤ m) (hm : m ≤ 2147483647) : (new c m).Valid :=
  ⟨Int.le_refl _, Int.le_refl _, Int.le_of_lt h0, h0, h, hm⟩

@[simp] theorem readerIndex_charBuf (b : UnpooledHeapCharBuf) :
    charBuf.readerIndex b = b.indices.readerIndex_ := rfl
@[simp] theorem writerIndex_charBuf (b : UnpooledHeapCharBuf) :
    charBuf.writerIndex b = b.indices.writerIndex_ := rfl
@[simp] theorem maxCapacity_charBuf (b : UnpooledHeapCharBuf) :
    charBuf.maxCapacity b = b.indices.maxCapacity_ := rfl
@[simp] theorem capacity_charBuf (b : UnpooledHeapCharBuf) : charBuf.capacity b = b.capacity_ := rfl

theorem isReadable_charBuf (b : UnpooledHeapCharBuf) :
    charBuf.isReadable b = decide (b.indices.readerIndex_ < b.indices.writerIndex_) := rfl

namespace Valid

variable (h : b.Valid)
include h

theorem readableBytes : charBuf.readableBytes b = b.indices.writerIndex_ - b.indices.readerIndex_ := by
  obtain ⟨_, _, _, _, _, _⟩ := h
  exact i32_eq (by simp; omega) (by simp; omega)

theorem writableBytes : charBuf.writableBytes b = b.capacity_ - b.indices.writerIndex_ := by
  obtain ⟨_, _, _, _, _, _⟩ := h
  exact i32_eq (by simp; omega) (by simp; omega)

theorem withReader (h0 : 0 ≤ i) (hi : i ≤ b.indices.writerIndex_) : (b.withReader i).Valid :=
  { h with reader_nonneg := h0, reader_le := hi }

theorem withWriter (h0 : b.indices.readerIndex_ ≤ i) (hi : i ≤ b.capacity_) : (b.withWriter i).Valid :=
  { h with reader_le := h0, writer_le := hi }

theorem setWriterIndex (h0 : b.indices.readerIndex_ ≤ i) (hi : i ≤ b.capacity_) :
    charBuf.setWriterIndex i b = .ok () (b.withWriter i) := by
  have hm := h.capacity_le
  rw [CharBuf.setWriterIndex, readerIndex_charBuf, maxCapacity_charBuf,
    CharBuf.checkIndexBounds_ok h.reader_nonneg h0 (by omega)]
  rfl

theorem setReaderIndex (h0 : 0 ≤ i) (hi : i ≤ b.indices.writerIndex_) :
    charBuf.setReaderIndex i b = .ok () (b.withReader i) := by
  have hw := h.writer_le
  have hm := h.capacity_le
  rw [CharBuf.setReaderIndex, writerIndex_charBuf, maxCapacity_charBuf,
    CharBuf.checkIndexBounds_ok h0 hi (by omega)]
  rfl

omit h in
/-- `skipBytes`, as the compiled code adds. -/
theorem skipBytes_eq (hi : i32 (b.indices.readerIndex_ + n) = i) (hle : i ≤ b.indices.writerIndex_) :
    charBuf.skipBytes n b = .ok () (b.withReader i) := by
  simp only [CharBuf.skipBytes, Method.bind_apply, CharBuf.checkReadable, readerIndex_charBuf,
    writerIndex_charBuf, hi]
  rw [if_neg (by omega), Outcome.bind_ok]
  simp only [CharBuf.advanceReader, readerIndex_charBuf, hi]
  rfl

/-- `skipBytes` forwards, within the bytes there are. -/
theorem skipBytes (h0 : 0 ≤ n) (hn : b.indices.readerIndex_ + n ≤ b.indices.writerIndex_) :
    charBuf.skipBytes n b = .ok () (b.withReader (b.indices.readerIndex_ + n)) := by
  obtain ⟨_, _, _, _, _, _⟩ := h
  exact skipBytes_eq (i32_eq (by omega) (by omega)) hn

theorem getChars (h0 : 0 ≤ i) (hn : 0 ≤ n) (hc : i + n ≤ b.capacity_) :
    charBuf.getChars i n b = .ok (b.array_.read i.toNat n.toNat) b := by
  obtain ⟨_, _, _, _, _, _⟩ := h
  have e : CharBuf.checkRangeBounds i n b.capacity_ b = .ok () b := by
    rw [CharBuf.checkRangeBounds_eq (i32_eq (by omega) (by omega)) (i32_eq (by omega) (by omega))
      (i32_eq (by omega) (by omega)) (by omega), if_pos ⟨h0, hn, hc⟩]
  show (CharBuf.checkRangeBounds i n b.capacity_ b).bind (fun _ => peek i n) = _
  rw [e, Outcome.bind_ok, peek, if_pos ⟨h0, hn, hc⟩]

open CharBuf (Ty) in
theorem getTyped {t : Ty} (h0 : 0 ≤ i) (hc : i + t.size ≤ b.capacity_) :
    charBuf.getTyped t i b = .ok (t.decode (b.array_.read i.toNat t.size)) b := by
  obtain ⟨_, _, _, _, _, _⟩ := h
  have e : CharBuf.checkRangeBounds i t.size b.capacity_ b = .ok () b := by
    rw [CharBuf.checkRangeBounds_eq (i32_eq (by omega) (by omega)) (i32_eq (by omega) (by omega))
      (i32_eq (by omega) (by omega)) (by omega), if_pos ⟨h0, by omega, hc⟩]
  have e' : peek i t.size b = .ok (b.array_.read i.toNat t.size) b := if_pos ⟨h0, by omega, hc⟩
  show ((CharBuf.checkRangeBounds i t.size b.capacity_ b).bind fun _ => peek i t.size).bind _ = _
  rw [e, Outcome.bind_ok, e']
  rfl

omit h in
/-- A read within the readable bytes. -/
theorem read_readable {k m : Nat} (hk : k + m ≤ b.readable.length) :
    b.array_.read (b.indices.readerIndex_.toNat + k) m = (b.readable.drop k).take m := by
  rw [length_readable] at hk
  rw [readable, Mem.drop_read (by omega), Mem.take_read (by omega)]

end Valid

/-! ## The reference count -/

/-- `x` is an `int`. -/
abbrev IsInt (x : Int) : Prop := -2147483648 ≤ x ∧ x ≤ 2147483647

/-- The count is `n`; of the indices no more is known than that they are `int`s, as a decoder
that skips backwards can bring them into any order. -/
structure Counted (n : Int) (b : UnpooledHeapCharBuf) : Prop where
  refCnt : b.refCnt_ = n
  max_eq : b.indices.maxCapacity_ = intMax
  reader : IsInt b.indices.readerIndex_
  writer : IsInt b.indices.writerIndex_

/-- A call that leaves the count as it is, whether it returns or throws. -/
def Neutral {α : Type} (m : Method UnpooledHeapCharBuf α) : Prop :=
  ∀ n, Triple (Counted n) m (fun _ => Counted n) (Counted n)

theorem isInt_zero : IsInt 0 := ⟨by decide, by decide⟩

theorem new_counted (c : Int) : Counted 1 (new c intMax) := ⟨rfl, rfl, isInt_zero, isInt_zero⟩

theorem Counted.retain (h : Counted n b) : Counted (n + 1) (b.retain 1) :=
  ⟨congrArg (· + 1) h.refCnt, h.max_eq, h.reader, h.writer⟩

theorem Counted.release (h : Counted n b) : Counted (n - 1) (b.release 1) :=
  ⟨congrArg (· - 1) h.refCnt, h.max_eq, h.reader, h.writer⟩

namespace Neutral

variable {α β : Type} {m m' : Method UnpooledHeapCharBuf α}

theorem bind {f : α → Method UnpooledHeapCharBuf β} (h : Neutral m) (hf : ∀ a, Neutral (f a)) :
    Neutral (m >>= f) := fun n => (h n).bind fun a => hf a n

theorem ite {c : Prop} [Decidable c] (h : Neutral m) (h' : Neutral m') : Neutral (if c then m else m') :=
  fun n => .ite (fun _ => h n) fun _ => h' n

theorem pure (a : α) : Neutral (Pure.pure a) := fun _ _ h => h
theorem throw (what : String) : Neutral (α := α) (Method.throw what) := fun _ _ h => h
theorem ub : Neutral (α := α) fun _ => .ub := fun _ _ _ => trivial

theorem checkIndexBounds (r w c : Int) : Neutral (CharBuf.checkIndexBounds r w c) := ite (throw _) (pure _)

theorem checkRangeBounds (i l c : Int) : Neutral (CharBuf.checkRangeBounds i l c) := ite (throw _) (pure _)

theorem poke (i : Int) (bs : List UInt8) : Neutral (poke i bs) := fun n b h => by
  unfold UnpooledHeapCharBuf.poke
  split
  · exact { h with }
  · trivial

theorem peek (i l : Int) : Neutral (peek i l) := fun n b h => by
  unfold UnpooledHeapCharBuf.peek
  split
  · exact h
  · trivial

theorem checkIndex (i l : Int) : Neutral (checkIndex i l) :=
  fun n b h => checkRangeBounds i l b.capacity_ n b h

theorem getChars (i l : Int) : Neutral (getChars i l) := bind (checkIndex i l) fun _ => peek i l

theorem checkReadable (i : Int) : Neutral (charBuf.checkReadable i) := fun n b h => by
  unfold CharBuf.checkReadable
  split
  · exact h
  · exact h

theorem skipBytes (i : Int) : Neutral (charBuf.skipBytes i) :=
  bind (checkReadable i) fun _ => fun _ _ h => ⟨h.refCnt, h.max_eq, i32_range _, h.writer⟩

theorem setReaderIndex {i : Int} (hi : IsInt i) : Neutral (charBuf.setReaderIndex i) := fun n b h => by
  refine Outcome.Sat.bind (checkIndexBounds _ _ _ n b h) fun _ b' h' => ?_
  exact (⟨h'.refCnt, h'.max_eq, hi, h.writer⟩ : Counted n (charBuf.setIndex0 i (charBuf.writerIndex b) b'))

theorem setWriterIndex {i : Int} (hi : IsInt i) : Neutral (charBuf.setWriterIndex i) := fun n b h => by
  refine Outcome.Sat.bind (checkIndexBounds _ _ _ n b h) fun _ b' h' => ?_
  exact (⟨h'.refCnt, h'.max_eq, h.reader, hi⟩ : Counted n (charBuf.setIndex0 (charBuf.readerIndex b) i b'))

theorem trim {c : Int} (hc : IsInt c) : Neutral (trim c) := fun n b h => by
  dsimp only [UnpooledHeapCharBuf.trim]
  split
  · split
    · exact Outcome.Sat.bind (checkIndexBounds _ _ _ n b h) fun _ b' h' => ⟨h'.refCnt, h.max_eq, h.reader, hc⟩
    · exact h
  · exact ⟨h.refCnt, h.max_eq, hc, hc⟩

theorem setCapacity {c : Int} (hc : IsInt c) : Neutral (setCapacity c) := fun n b h => by
  dsimp only [UnpooledHeapCharBuf.setCapacity]
  split
  · exact h
  · refine Outcome.Sat.bind ((ite (trim hc) (pure _)) n _ ⟨h.refCnt, h.max_eq, h.reader, h.writer⟩) fun _ b' h' => ?_
    exact ⟨h'.refCnt, h'.max_eq, h'.reader, h'.writer⟩

theorem growLoop_range {f : Nat} {c m x : Int} (hc : IsInt c) (h : CharBuf.growLoop f c m = some x) : IsInt x := by
  induction f generalizing c with
  | zero => cases h
  | succ f ih =>
    rw [CharBuf.growLoop] at h
    split at h
    · exact ih (i32_range _) h
    · cases h; exact hc

theorem ensureWritable (i : Int) : Neutral (charBuf.ensureWritable i) := fun n b h => by
  have hm := h.max_eq
  unfold CharBuf.ensureWritable
  split
  · split
    · exact h
    · unfold CharBuf.calculateNewCapacity
      split
      · exact h
      · split
        · rename_i c hc
          have hr := growLoop_range (i32_range _) hc
          refine setCapacity ⟨?_, ?_⟩ n b h
          · show -2147483648 ≤ min c b.indices.maxCapacity_
            rw [hm, intMax]; omega
          · show min c b.indices.maxCapacity_ ≤ 2147483647
            rw [hm, intMax]; omega
        · trivial
  · exact h

theorem setCharsFrom (i : Int) (src : Source) (j l : Int) : Neutral (setCharsFrom i src j l) := fun n b h => by
  unfold UnpooledHeapCharBuf.setCharsFrom
  split
  · exact poke _ _ n b h
  · exact h
  · trivial
  · trivial

theorem writeCharsFrom (src : Source) (j l : Int) : Neutral (charBuf.writeCharsFrom src j l) :=
  bind (ensureWritable l) fun _ => bind (fun n b h => setCharsFrom _ src j l n b h) fun _ =>
    fun _ _ h => ⟨h.refCnt, h.max_eq, h.reader, i32_range _⟩

theorem setCharsSelf (i j l : Int) : Neutral (setCharsSelf i j l) :=
  bind (getChars j l) fun _ => ite (poke _ _) ub

theorem adjustMarkers (d : Int) (h : Counted n b) : Counted n (charBuf.adjustMarkers d b) :=
  ⟨h.refCnt, (b.indices.adjustMarkers_maxCapacity_ d).trans h.max_eq,
    (b.indices.adjustMarkers_readerIndex_ d).symm ▸ h.reader,
    (b.indices.adjustMarkers_writerIndex_ d).symm ▸ h.writer⟩

theorem discardSomeReadBytes : Neutral charBuf.discardSomeReadBytes := fun n b h => by
  unfold CharBuf.discardSomeReadBytes
  split
  · exact h
  split
  · have hm := adjustMarkers b.indices.readerIndex_ h
    exact ⟨hm.refCnt, hm.max_eq, isInt_zero, isInt_zero⟩
  split
  · refine Outcome.Sat.bind (setCharsSelf _ _ _ n b h) fun _ => ?_
    refine Triple.bind (Q := fun _ => Counted n)
      (fun _ h' => ⟨h'.refCnt, h'.max_eq, h'.reader, i32_range _⟩) fun _ => ?_
    refine Triple.bind (Q := fun _ => Counted n) (fun _ h' => adjustMarkers _ h') fun _ => ?_
    exact fun _ h' => ⟨h'.refCnt, h'.max_eq, isInt_zero, h'.writer⟩
  · exact h

end Neutral

/-! ## The buffers of a connection -/

/-- A buffer as the allocator hands it out, and as the network code keeps it: with the
largest `maxCapacity_` there is, and an even capacity that a power of two can hold. -/
structure Sound (b : UnpooledHeapCharBuf) : Prop extends b.Valid where
  max_eq : b.indices.maxCapacity_ = intMax
  even : 2 ∣ b.capacity_
  capacity_le_pow : b.capacity_ ≤ 2 ^ 30

theorem Sound.withReader (h : b.Sound) (h0 : 0 ≤ i) (hi : i ≤ b.indices.writerIndex_) : (b.withReader i).Sound :=
  { h with toValid := h.toValid.withReader h0 hi }

theorem Sound.withWriter (h : b.Sound) (h0 : b.indices.readerIndex_ ≤ i) (hi : i ≤ b.capacity_) :
    (b.withWriter i).Sound :=
  { h with toValid := h.toValid.withWriter h0 hi }

theorem readable_withReader {k : Nat} (h0 : 0 ≤ b.indices.readerIndex_) (hk : k ≤ b.readable.length) :
    (b.withReader (b.indices.readerIndex_ + k)).readable = b.readable.drop k := by
  rw [length_readable] at hk
  rw [readable, readable, Mem.drop_read hk]
  show b.array_.read (b.indices.readerIndex_ + k).toNat _ = _
  rw [show (b.indices.readerIndex_ + k).toNat = b.indices.readerIndex_.toNat + k by omega]
  refine congrArg (b.array_.read _) ?_
  show (b.indices.writerIndex_ - (b.indices.readerIndex_ + k)).toNat = _
  omega

theorem new_sound {c : Int} (h0 : 0 < c) (h2 : 2 ∣ c) (h : c ≤ 2 ^ 30) : (new c intMax).Sound where
  toValid := new_valid h0 (by unfold intMax; omega) (Int.le_refl _)
  max_eq := rfl
  even := h2
  capacity_le_pow := h

/-- The memory is larger, and nothing else has changed. -/
structure Grown (b b' : UnpooledHeapCharBuf) : Prop where
  sound : b'.Sound
  indices : b'.indices = b.indices
  refCnt : b'.refCnt_ = b.refCnt_
  array : ∀ k : Nat, (k : Int) < b.capacity_ → b'.array_ k = b.array_ k

/-- The bytes `bs` are behind what was written before. -/
structure Appended (b : UnpooledHeapCharBuf) (bs : List UInt8) (b' : UnpooledHeapCharBuf) : Prop where
  sound : b'.Sound
  reader : b'.indices.readerIndex_ = b.indices.readerIndex_
  writer : b'.indices.writerIndex_ = b.indices.writerIndex_ + bs.length
  refCnt : b'.refCnt_ = b.refCnt_
  array : ∀ k : Nat, (k : Int) < b.indices.writerIndex_ → b'.array_ k = b.array_ k
  written : b'.array_.read b.indices.writerIndex_.toNat bs.length = bs

theorem Appended.readable (h : Appended b bs b') (hb : b.Sound) : b'.readable = b.readable ++ bs := by
  have h0 := hb.reader_nonneg
  have h1 := hb.reader_le
  have e : (b'.indices.writerIndex_ - b'.indices.readerIndex_).toNat =
      (b.indices.writerIndex_ - b.indices.readerIndex_).toNat + bs.length := by
    rw [h.reader, h.writer]; omega
  have e' : b.indices.readerIndex_.toNat + (b.indices.writerIndex_ - b.indices.readerIndex_).toNat =
      b.indices.writerIndex_.toNat := by omega
  rw [UnpooledHeapCharBuf.readable, UnpooledHeapCharBuf.readable, e, Mem.read_add, h.reader, e', h.written]
  exact congrArg (· ++ bs) (Mem.read_congr fun k hk => h.array _ (by omega))

/-- The read bytes, or some of them, are gone. -/
structure Discarded (b b' : UnpooledHeapCharBuf) : Prop where
  sound : b'.Sound
  readable : b'.readable = b.readable
  refCnt : b'.refCnt_ = b.refCnt_
  capacity : b'.capacity_ = b.capacity_
  reader : b'.indices.readerIndex_ ≤ b.indices.readerIndex_
  empty : b.indices.readerIndex_ = b.indices.writerIndex_ → b'.indices.writerIndex_ = 0

/-- The capacity is `n`; what fits into it has stayed. -/
structure Resized (b : UnpooledHeapCharBuf) (n : Int) (b' : UnpooledHeapCharBuf) : Prop where
  sound : b'.Sound
  refCnt : b'.refCnt_ = b.refCnt_
  capacity : b'.capacity_ = n
  indices : b.indices.writerIndex_ ≤ n → b'.indices = b.indices
  readable : b.indices.writerIndex_ ≤ n → b'.readable = b.readable

namespace Sound

variable (h : b.Sound)
include h

theorem calculateNewCapacity {m : Int} (hm : m ≤ 2 ^ 30) : ∃ j : Nat, j ≤ 30 ∧ m ≤ 2 ^ j ∧
    b.capacity_ ≤ 2 ^ j ∧ charBuf.calculateNewCapacity m b.indices.maxCapacity_ b = .ok (2 ^ j) b := by
  obtain ⟨k, hk, hle, e⟩ := CharBuf.roundUpPower2_int h.capacity_pos h.capacity_le_pow
  obtain ⟨j, h1, h2, h3, h4⟩ := CharBuf.growLoop_pow (k := k) (d := 30 - k) (by omega) (show 30 - k < 34 by omega) hm
  have hj : (2 : Int) ^ j ≤ 2 ^ 30 := mod_cast Nat.pow_le_pow_right (by decide) h2
  have hkj : (2 : Int) ^ k ≤ 2 ^ j := mod_cast Nat.pow_le_pow_right (by decide) h1
  refine ⟨j, h2, h3, by omega, ?_⟩
  simp only [CharBuf.calculateNewCapacity, capacity_charBuf, e, h4, h.max_eq]
  rw [if_neg (by unfold intMax; omega)]
  exact congrArg (Outcome.ok · b) (show min (2 ^ j) intMax = 2 ^ j by unfold intMax; omega)

/-- Above the largest power of two that is an `int`, the loop does not end. -/
theorem ensureWritable_hang (hn : 2 ^ 30 < b.indices.writerIndex_ + n) (hn' : b.indices.writerIndex_ + n ≤ intMax) :
    charBuf.ensureWritable n b = .hang := by
  obtain ⟨k, hk, hle, e⟩ := CharBuf.roundUpPower2_int h.capacity_pos h.capacity_le_pow
  have hloop := CharBuf.growLoop_hang (k := k) (d := 30 - k) (by omega) 34 hn
  have hw := h.writer_le
  have hpow := h.capacity_le_pow
  have hmax := h.max_eq
  have hr := h.reader_nonneg
  have hrw := h.reader_le
  unfold intMax at hn' hmax
  rw [CharBuf.ensureWritable, h.writableBytes, if_pos (by omega), maxCapacity_charBuf, writerIndex_charBuf, hmax,
    if_neg (by rw [i32_eq (by omega) (by omega)]; omega), i32_eq (by omega) (by omega)]
  simp only [CharBuf.calculateNewCapacity, capacity_charBuf, e, hloop]
  rw [if_neg (by omega)]
  rfl

omit h in
theorem setCapacity_grow (hn : b.capacity_ < n) :
    setCapacity n b = .ok () (realloc b.capacity_ n { b with capacity_ := n }) := by
  simp only [setCapacity]
  rw [if_neg (by omega), if_neg (by omega)]
  rfl

theorem ensureWritable (h0 : 0 ≤ n) (hn : b.indices.writerIndex_ + n ≤ 2 ^ 30) :
    ∃ b', charBuf.ensureWritable n b = .ok () b' ∧ Grown b b' ∧
      b.indices.writerIndex_ + n ≤ b'.capacity_ := by
  have hw := h.writer_le
  have hr := h.reader_nonneg
  have hrw := h.reader_le
  have hmax := h.max_eq
  rw [CharBuf.ensureWritable, h.writableBytes]
  split
  case isFalse hle => exact ⟨b, rfl, ⟨h, rfl, rfl, fun _ _ => rfl⟩, by omega⟩
  case isTrue hgt =>
    obtain ⟨j, hj, hm, hc, e⟩ := h.calculateNewCapacity (m := b.indices.writerIndex_ + n) (by omega)
    have hj' : (2 : Int) ^ j ≤ 2 ^ 30 := mod_cast Nat.pow_le_pow_right (by decide) hj
    rw [maxCapacity_charBuf, writerIndex_charBuf, if_neg, i32_eq (by omega) (by omega), e, Outcome.bind_ok]
    · refine ⟨_, setCapacity_grow (by omega), ⟨⟨⟨hr, hrw, ?_, ?_, ?_, h.max_le⟩, hmax, ?_, hj'⟩, rfl,
        rfl, fun k hk => ?_⟩, hm⟩
      · show b.indices.writerIndex_ ≤ 2 ^ j; omega
      · show (0 : Int) < 2 ^ j; omega
      · show (2 : Int) ^ j ≤ b.indices.maxCapacity_; rw [hmax, intMax]; omega
      · have hpos := h.capacity_pos
        have heven := h.even
        rcases j with _ | j
        · omega
        · exact ⟨2 ^ j, by show (2 : Int) ^ (j + 1) = 2 * 2 ^ j; rw [Int.pow_succ, Int.mul_comm]⟩
      · show (if (k : Int) < min b.capacity_ (2 ^ j) then b.array_ k else 0) = b.array_ k
        rw [if_pos (by omega)]
    · rw [hmax, intMax, i32_eq (by omega) (by omega)]; omega

/-- Writing the bytes of another buffer. -/
theorem writeCharsFrom {src : Source} {srcIndex : Int} (hs : src srcIndex bs.length = .ok bs ())
    (hn : b.indices.writerIndex_ + bs.length ≤ 2 ^ 30) :
    ∃ b', charBuf.writeCharsFrom src srcIndex bs.length b = .ok () b' ∧ Appended b bs b' := by
  obtain ⟨g, hg, hgr, hc⟩ := h.ensureWritable (n := bs.length) (by omega) hn
  have hr := h.reader_nonneg
  have hrw := h.reader_le
  have hgs := hgr.sound
  have hgi : charBuf.writerIndex g = b.indices.writerIndex_ := by rw [writerIndex_charBuf, hgr.indices]
  have hset : charBuf.setCharsFrom (charBuf.writerIndex g) src srcIndex bs.length g =
      .ok () { g with array_ := g.array_.write b.indices.writerIndex_.toNat bs } := by
    show UnpooledHeapCharBuf.setCharsFrom _ _ _ _ _ = _
    rw [UnpooledHeapCharBuf.setCharsFrom, hs, hgi]
    exact if_pos ⟨by omega, hc⟩
  refine ⟨UnpooledHeapCharBuf.withWriter { g with array_ := g.array_.write b.indices.writerIndex_.toNat bs }
    (b.indices.writerIndex_ + bs.length), ?_, ?_⟩
  · simp only [CharBuf.writeCharsFrom, Method.bind_apply, hg, hset, Outcome.bind_ok, CharBuf.advanceWriter]
    rw [i32_eq]
    · simp only [CharBuf.setIndex0, writerIndex_charBuf, hgr.indices]
      rfl
    · show _ ≤ g.indices.writerIndex_ + _; rw [hgr.indices]; omega
    · show g.indices.writerIndex_ + _ ≤ _; rw [hgr.indices]; omega
  · have hri : g.indices.readerIndex_ = b.indices.readerIndex_ := congrArg _ hgr.indices
    have hw := h.writer_le
    refine ⟨⟨⟨hgs.reader_nonneg, ?_, hc, hgs.capacity_pos, hgs.capacity_le, hgs.max_le⟩, hgs.max_eq,
      hgs.even, hgs.capacity_le_pow⟩, hri, rfl, hgr.refCnt, fun k hk => ?_, ?_⟩
    · show g.indices.readerIndex_ ≤ b.indices.writerIndex_ + bs.length; rw [hri]; omega
    · exact (Mem.write_of_lt (by omega)).trans (hgr.array k (by omega))
    · exact Mem.read_write_self _ _ _

/-- The unread bytes move to the front, where they were not: as the capacity is even, the
two ranges are apart. -/
theorem moveUnread (hge : b.capacity_ / 2 ≤ b.indices.readerIndex_) :
    charBuf.moveUnread b = .ok () { b with
      array_ := b.array_.write 0 b.readable
      indices := { ({ b.indices with
        writerIndex_ := b.indices.writerIndex_ - b.indices.readerIndex_ } : Indices).adjustMarkers
          b.indices.readerIndex_ with
        readerIndex_ := 0 } } := by
  have hr := h.reader_nonneg
  have hrw := h.reader_le
  have hw := h.writer_le
  have heven := h.even
  have hpow := h.capacity_le_pow
  have e : i32 (b.indices.writerIndex_ - b.indices.readerIndex_) =
      b.indices.writerIndex_ - b.indices.readerIndex_ := i32_eq (by omega) (by omega)
  have hl := length_readable b
  have hset : charBuf.setCharsSelf 0 b.indices.readerIndex_
      (b.indices.writerIndex_ - b.indices.readerIndex_) b =
      .ok () { b with array_ := b.array_.write 0 b.readable } := by
    show ((UnpooledHeapCharBuf.getChars _ _ b).bind _) = _
    rw [show UnpooledHeapCharBuf.getChars _ _ b = _ from h.getChars hr (by omega) (by omega), Outcome.bind_ok,
      if_pos (by omega)]
    exact if_pos ⟨Int.le_refl 0, by rw [← UnpooledHeapCharBuf.readable, hl]; omega⟩
  simp only [CharBuf.moveUnread, Method.bind_apply, readerIndex_charBuf, writerIndex_charBuf, e, hset,
    Outcome.bind_ok, Method.modify_apply]
  rfl

theorem discardSomeReadBytes : ∃ b', charBuf.discardSomeReadBytes b = .ok () b' ∧ Discarded b b' := by
  have hr := h.reader_nonneg
  have hrw := h.reader_le
  have hw := h.writer_le
  have hl := length_readable b
  show ∃ b', (if b.indices.readerIndex_ = 0 then Outcome.ok () b
    else if b.indices.readerIndex_ = b.indices.writerIndex_ then .ok () (charBuf.dropRead b)
    else if b.indices.readerIndex_ ≥ b.capacity_ / 2 then charBuf.moveUnread b else .ok () b) = _ ∧ _
  by_cases h0 : b.indices.readerIndex_ = 0
  · rw [if_pos h0]
    exact ⟨b, rfl, ⟨h, rfl, rfl, rfl, Int.le_refl _, fun e => by omega⟩⟩
  rw [if_neg h0]
  by_cases he : b.indices.readerIndex_ = b.indices.writerIndex_
  · rw [if_pos he]
    have hm := b.indices.adjustMarkers_maxCapacity_ b.indices.readerIndex_
    refine ⟨_, rfl, ⟨⟨⟨Int.le_refl _, Int.le_refl _, Int.le_of_lt h.capacity_pos, h.capacity_pos,
      h.capacity_le.trans_eq hm.symm, hm.trans_le h.max_le⟩, hm.trans h.max_eq, h.even, h.capacity_le_pow⟩,
      ?_, rfl, rfl, hr, fun _ => rfl⟩⟩
    rw [UnpooledHeapCharBuf.readable, UnpooledHeapCharBuf.readable, he, Int.sub_self]; rfl
  rw [if_neg he]
  by_cases hge : b.indices.readerIndex_ ≥ b.capacity_ / 2
  · rw [if_pos hge]
    refine ⟨_, h.moveUnread hge, ⟨⟨⟨Int.le_refl _, ?_, ?_, h.capacity_pos, ?_, ?_⟩, ?_, h.even,
      h.capacity_le_pow⟩, ?_, rfl, rfl, hr, fun e => absurd e he⟩⟩
    · simp only [Indices.adjustMarkers_writerIndex_]; omega
    · simp only [Indices.adjustMarkers_writerIndex_]; omega
    · simpa only [Indices.adjustMarkers_maxCapacity_] using h.capacity_le
    · simpa only [Indices.adjustMarkers_maxCapacity_] using h.max_le
    · simpa only [Indices.adjustMarkers_maxCapacity_] using h.max_eq
    · simp only [UnpooledHeapCharBuf.readable, Indices.adjustMarkers_writerIndex_, Int.sub_zero]
      exact (congrArg _ hl.symm).trans (Mem.read_write_self _ _ _)
  · rw [if_neg hge]
    exact ⟨b, rfl, ⟨h, rfl, rfl, rfl, Int.le_refl _, fun e => absurd e he⟩⟩

theorem setCapacity_shrink (h0 : 0 < n) (h2 : 2 ∣ n) (hn : n < b.capacity_) :
    ∃ b', setCapacity n b = .ok () b' ∧ Resized b n b' := by
  have hr := h.reader_nonneg
  have hrw := h.reader_le
  have hw := h.writer_le
  have hpow := h.capacity_le_pow
  have hmax := h.capacity_le
  -- what `trim` leaves: indices in order, below the new capacity
  have htrim : ∃ r w : Int, 0 ≤ r ∧ r ≤ w ∧ w ≤ n ∧
      (b.indices.writerIndex_ ≤ n → r = b.indices.readerIndex_ ∧ w = b.indices.writerIndex_) ∧
      trim n { b with capacity_ := n } = .ok () { b with
        capacity_ := n
        indices := { b.indices with readerIndex_ := r, writerIndex_ := w } } := by
    simp only [trim]
    by_cases h1 : b.indices.readerIndex_ < n
    · rw [if_pos h1]
      by_cases h3 : b.indices.writerIndex_ > n
      · rw [if_pos h3, CharBuf.checkIndexBounds_ok hr (by omega) (by omega)]
        exact ⟨_, n, hr, by omega, by omega, by omega, rfl⟩
      · rw [if_neg h3]
        exact ⟨_, _, hr, hrw, by omega, fun _ => ⟨rfl, rfl⟩, rfl⟩
    · rw [if_neg h1]
      exact ⟨n, n, by omega, by omega, by omega, fun _ => by omega, rfl⟩
  obtain ⟨r, w, hr0, hrw', hwn, hsame, ht⟩ := htrim
  refine ⟨realloc b.capacity_ n { b with
      capacity_ := n, indices := { b.indices with readerIndex_ := r, writerIndex_ := w } }, ?_,
    ⟨⟨⟨hr0, hrw', hwn, h0, ?_, h.max_le⟩, h.max_eq, h2, ?_⟩, rfl, rfl, fun hle => ?_, fun hle => ?_⟩⟩
  · simp only [setCapacity]
    rw [if_neg (by omega), if_pos hn, ht, Outcome.bind_ok]
    rfl
  · show n ≤ b.indices.maxCapacity_; omega
  · show n ≤ 2 ^ 30; omega
  · obtain ⟨rfl, rfl⟩ := hsame hle
    rfl
  · obtain ⟨rfl, rfl⟩ := hsame hle
    exact Mem.read_congr fun k (hk : k < (b.indices.writerIndex_ - b.indices.readerIndex_).toNat) =>
      if_pos (show ((b.indices.readerIndex_.toNat + k : Nat) : Int) < min b.capacity_ n by omega)

/-- `capacity(n)`, whichever way it goes. -/
theorem setCapacity (h0 : 0 < n) (h2 : 2 ∣ n) (hn : n ≤ 2 ^ 30) :
    ∃ b', UnpooledHeapCharBuf.setCapacity n b = .ok () b' ∧ Resized b n b' := by
  have hmax := h.max_eq
  have hw := h.writer_le
  rcases Int.lt_trichotomy n b.capacity_ with hlt | rfl | hgt
  · exact h.setCapacity_shrink h0 h2 hlt
  · exact ⟨b, by simp only [UnpooledHeapCharBuf.setCapacity, if_true], h, rfl, rfl, fun _ => rfl, fun _ => rfl⟩
  · refine ⟨_, setCapacity_grow hgt, ⟨⟨h.reader_nonneg, h.reader_le, ?_, h0, ?_, h.max_le⟩, hmax, h2, hn⟩, rfl, rfl,
      fun _ => rfl, fun _ => ?_⟩
    · show b.indices.writerIndex_ ≤ n; omega
    · show n ≤ b.indices.maxCapacity_; rw [hmax, intMax]; omega
    · have hr := h.reader_nonneg
      have hrw := h.reader_le
      exact Mem.read_congr fun k (hk : k < (b.indices.writerIndex_ - b.indices.readerIndex_).toNat) =>
        if_pos (show ((b.indices.readerIndex_.toNat + k : Nat) : Int) < min b.capacity_ n by omega)

end Sound

end UnpooledHeapCharBuf

end Nio.Buffer
