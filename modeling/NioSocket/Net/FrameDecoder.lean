import NioSocket.Buffer.UnpooledHeap

/-!
# The frame decoder

`LengthFieldBasedFrameDecoder`: its constructor's checks (`init`) and `decode`, on
the buffer it decodes. The object and the buffer are one state (`Decoding`), as an
exception keeps what was done to either before it.
-/

namespace Nio.Net

open Buffer (UnpooledHeapCharBuf)
open Buffer.CharBuf (Ty)

/-- The data members of a `LengthFieldBasedFrameDecoder`. -/
structure LengthFieldBasedFrameDecoder where
  maxFrameLength_ : Int
  lengthFieldOffset_ : Int
  lengthFieldLength_ : Int
  lengthFieldEndOffset_ : Int
  lengthAdjustment_ : Int
  initialBytesToStrip_ : Int
  failFast_ : Bool
  discardingTooLongFrame_ : Bool
  tooLongFrameLength_ : Int
  bytesToDiscard_ : Int
  deriving DecidableEq, Repr

/-- An `UnpooledSlicedCharBuf`: where it begins in its buffer, and its length. -/
structure Slice where
  adjustment_ : Int
  length : Int
  deriving DecidableEq, Repr

/-- `retainedSlice(index, length)`. The constructor of the slice moves its writer index. -/
def retainedSlice (index length : Int) : Method UnpooledHeapCharBuf Slice := do
  Buffer.CharBuf.checkIndexBounds 0 length length
  .modify fun b => b.retain 1
  pure ⟨index, length⟩

/-- The decoder and the buffer `in` it decodes; and where in it length fields were read. -/
structure Decoding where
  decoder : LengthFieldBasedFrameDecoder
  buf : UnpooledHeapCharBuf
  fields : List Int

/-- A call on `in`. -/
def Decoding.on {α : Type} (m : Method UnpooledHeapCharBuf α) : Method Decoding α := fun s =>
  match m s.buf with
  | .ok a b => .ok a { s with buf := b }
  | .throw e b => .throw e { s with buf := b }
  | .ub => .ub
  | .hang => .hang

namespace LengthFieldBasedFrameDecoder

/-! ## Constructing -/

/-- `init(…)`: what the constructors accept, or the text of the exception. -/
def init (maxFrameLength lengthFieldOffset lengthFieldLength lengthAdjustment initialBytesToStrip : Int)
    (failFast : Bool) : Except String LengthFieldBasedFrameDecoder :=
  if maxFrameLength ≤ 0 then .error s!"maxFrameLength:{maxFrameLength} (expected: > 0)"
  else if lengthFieldOffset < 0 then .error s!"lengthFieldOffset:{lengthFieldOffset} (expected: >= 0)"
  else if initialBytesToStrip < 0 then
    .error s!"initialBytesToStrip:{initialBytesToStrip} (expected: >= 0)"
  else if lengthFieldOffset > i32 (maxFrameLength - lengthFieldLength) then
    .error s!"maxFrameLength({maxFrameLength}) must be equal to or greater than lengthFieldOffset({lengthFieldOffset}) + lengthFieldLength({lengthFieldLength})."
  else .ok
    { maxFrameLength_ := maxFrameLength
      lengthFieldOffset_ := lengthFieldOffset
      lengthFieldLength_ := lengthFieldLength
      lengthFieldEndOffset_ := i32 (lengthFieldOffset + lengthFieldLength)
      lengthAdjustment_ := lengthAdjustment
      initialBytesToStrip_ := initialBytesToStrip
      failFast_ := failFast
      discardingTooLongFrame_ := false
      tooLongFrameLength_ := 0
      bytesToDiscard_ := 0 }

/-- `LengthFieldBasedFrameDecoder(maxFrameLength, lengthFieldOffset, lengthFieldLength,
lengthAdjustment, initialBytesToStrip)`; the constructor with three arguments passes `0, 0`. -/
def new (maxFrameLength lengthFieldOffset lengthFieldLength lengthAdjustment initialBytesToStrip : Int) :
    Except String LengthFieldBasedFrameDecoder :=
  init maxFrameLength lengthFieldOffset lengthFieldLength lengthAdjustment initialBytesToStrip true

/-! ## Failing -/

/-- `fail(frameLength)`. -/
def fail {α : Type} (frameLength : Int) : Method Decoding α := fun s =>
  if frameLength > 0 then
    .throw s!"Adjusted frame length exceeds {s.decoder.maxFrameLength_} : {frameLength} - discarded" s
  else .throw s!"Adjusted frame length exceeds {s.decoder.maxFrameLength_} : - discarding" s

/-- `failIfNecessary(firstDetectionOfTooLongFrame)`. -/
def failIfNecessary (firstDetectionOfTooLongFrame : Bool) : Method Decoding Unit := fun s =>
  if s.decoder.bytesToDiscard_ = 0 then
    let tooLongFrameLength := s.decoder.tooLongFrameLength_
    let s := { s with decoder := { s.decoder with
      tooLongFrameLength_ := 0, discardingTooLongFrame_ := false } }
    if !s.decoder.failFast_ || firstDetectionOfTooLongFrame then fail tooLongFrameLength s else .ok () s
  else if s.decoder.failFast_ && firstDetectionOfTooLongFrame then fail s.decoder.tooLongFrameLength_ s
  else .ok () s

/-- `failOnNegativeLengthField(in, frameLength, lengthFieldEndOffset)`. -/
def failOnNegativeLengthField {α : Type} (frameLength lengthFieldEndOffset : Int) : Method Decoding α := do
  Decoding.on (UnpooledHeapCharBuf.charBuf.skipBytes lengthFieldEndOffset)
  .throw s!"negative pre-adjustment length field: {frameLength}"

/-- `failOnFrameLengthLessThanLengthFieldEndOffset(in, frameLength, lengthFieldEndOffset)`. -/
def failOnFrameLengthLessThanLengthFieldEndOffset {α : Type} (frameLength lengthFieldEndOffset : Int) :
    Method Decoding α := do
  Decoding.on (UnpooledHeapCharBuf.charBuf.skipBytes lengthFieldEndOffset)
  .throw s!"Adjusted frame length ({frameLength}) is less than lengthFieldEndOffset: {lengthFieldEndOffset}"

/-- `failOnFrameLengthLessThanInitialBytesToStrip(in, frameLength, initialBytesToStrip)`. -/
def failOnFrameLengthLessThanInitialBytesToStrip {α : Type} (frameLength initialBytesToStrip : Int) :
    Method Decoding α := do
  Decoding.on (UnpooledHeapCharBuf.charBuf.skipBytes (i32 frameLength))
  .throw s!"Adjusted frame length ({frameLength}) is less than initialBytesToStrip: {initialBytesToStrip}"

/-- `exceededFrameLength(in, frameLength)`: what of the frame is there is skipped, and the rest is to be. -/
def exceededFrameLength (frameLength : Int) : Method Decoding Unit := fun s =>
  let readable := UnpooledHeapCharBuf.charBuf.readableBytes s.buf
  let discard := i64 (frameLength - readable)
  let s := { s with decoder := { s.decoder with tooLongFrameLength_ := frameLength } }
  if discard ≤ 0 then
    (Decoding.on (UnpooledHeapCharBuf.charBuf.skipBytes (i32 frameLength)) s).bind
      fun _ => failIfNecessary true
  else
    let s := { s with decoder := { s.decoder with
      discardingTooLongFrame_ := true, bytesToDiscard_ := discard } }
    (Decoding.on (UnpooledHeapCharBuf.charBuf.skipBytes readable) s).bind fun _ => failIfNecessary true

/-! ## Decoding -/

/-- `(int)std::min((int)bytesToDiscard, in.readableBytes())` bytes are skipped. -/
def discardingTooLongFrame : Method Decoding Unit := fun s =>
  let bytesToDiscard := s.decoder.bytesToDiscard_
  let localBytesToDiscard := min (i32 bytesToDiscard) (UnpooledHeapCharBuf.charBuf.readableBytes s.buf)
  (Decoding.on (UnpooledHeapCharBuf.charBuf.skipBytes localBytesToDiscard) s).bind fun _ s =>
    failIfNecessary false { s with decoder := { s.decoder with
      bytesToDiscard_ := i64 (bytesToDiscard - localBytesToDiscard) } }

/-- The accessor for a `lengthFieldLength`. -/
def accessor (length : Int) : Option Ty :=
  if length = 1 then some .char
  else if length = 2 then some .ushort
  else if length = 4 then some .uint
  else if length = 8 then some .long
  else none

/-- `getUnadjustedFrameLength(buf, offset, length)`. -/
def getUnadjustedFrameLength (offset length : Int) : Method Decoding Int := fun s =>
  match accessor length with
  | some t =>
    Decoding.on (UnpooledHeapCharBuf.charBuf.getTyped t offset) { s with fields := s.fields ++ [offset] }
  | none => .throw
      s!"unsupported lengthFieldLength: {s.decoder.lengthFieldLength_} (expected: 1, 2, 4, or 8)" s

/-- The frame behind the bytes to strip. -/
def extractFrame (frameLength : Int) : Method Decoding Slice := fun s =>
  let strip := s.decoder.initialBytesToStrip_
  (Decoding.on (UnpooledHeapCharBuf.charBuf.skipBytes strip) s).bind fun _ s =>
    let readerIndex := UnpooledHeapCharBuf.charBuf.readerIndex s.buf
    let actualFrameLength := i32 (frameLength - strip)
    (Decoding.on (retainedSlice readerIndex actualFrameLength) s).bind fun frame s =>
      (Decoding.on (UnpooledHeapCharBuf.charBuf.setReaderIndex (i32 (readerIndex + actualFrameLength))) s).bind
        fun _ => pure frame

/-- `decode` once what is left of a too long frame has been skipped. -/
def decodeFrame : Method Decoding (Option Slice) := fun s =>
  let d := s.decoder
  if UnpooledHeapCharBuf.charBuf.readableBytes s.buf < d.lengthFieldEndOffset_ then .ok none s
  else
    let actualLengthFieldOffset := i32 (UnpooledHeapCharBuf.charBuf.readerIndex s.buf + d.lengthFieldOffset_)
    (getUnadjustedFrameLength actualLengthFieldOffset d.lengthFieldLength_ s).bind fun frameLength s =>
      if frameLength < 0 then failOnNegativeLengthField frameLength d.lengthFieldEndOffset_ s
      else
        let frameLength := i64 (frameLength + i32 (d.lengthAdjustment_ + d.lengthFieldEndOffset_))
        if frameLength < d.lengthFieldEndOffset_ then
          failOnFrameLengthLessThanLengthFieldEndOffset frameLength d.lengthFieldEndOffset_ s
        else if frameLength > d.maxFrameLength_ then
          (exceededFrameLength frameLength s).bind fun _ => pure none
        else if UnpooledHeapCharBuf.charBuf.readableBytes s.buf < frameLength then .ok none s
        else if d.initialBytesToStrip_ > frameLength then
          failOnFrameLengthLessThanInitialBytesToStrip frameLength d.initialBytesToStrip_ s
        else (extractFrame frameLength s).bind fun frame => pure (some frame)

/-- `decode(ctx, in)`. -/
def decode : Method Decoding (Option Slice) := fun s =>
  ((if s.decoder.discardingTooLongFrame_ then discardingTooLongFrame else pure ()) s).bind fun _ => decodeFrame

/-! ## What the bytes hold -/

/-- The decoder in the middle of a too long frame with `bytesToDiscard` bytes to come, or, if
there are none, between two frames. -/
abbrev discarding (d : LengthFieldBasedFrameDecoder) (bytesToDiscard tooLongFrameLength : Int) :
    LengthFieldBasedFrameDecoder :=
  { d with
    discardingTooLongFrame_ := decide (bytesToDiscard ≠ 0)
    bytesToDiscard_ := bytesToDiscard
    tooLongFrameLength_ := if bytesToDiscard = 0 then 0 else tooLongFrameLength }

/-- What a constructor accepts, with a length field that `decode` can read. -/
structure Supported (d : LengthFieldBasedFrameDecoder) : Prop where
  length : d.lengthFieldLength_ = 1 ∨ d.lengthFieldLength_ = 2 ∨ d.lengthFieldLength_ = 4 ∨
    d.lengthFieldLength_ = 8
  offset_nonneg : 0 ≤ d.lengthFieldOffset_
  end_eq : d.lengthFieldEndOffset_ = d.lengthFieldOffset_ + d.lengthFieldLength_
  end_le : d.lengthFieldEndOffset_ ≤ d.maxFrameLength_
  max_le : d.maxFrameLength_ ≤ 2147483647
  strip_nonneg : 0 ≤ d.initialBytesToStrip_
  failFast : d.failFast_ = true

/-- What the bytes `l` begin with. -/
inductive Item
  /-- Bytes that are skipped with an exception. -/
  | rejected (length : Int) (what : String)
  /-- A frame longer than `maxFrameLength_`. -/
  | tooLong (length : Int)
  | frame (length : Int)
  deriving DecidableEq, Repr

/-- How many bytes the item takes. -/
def Item.length : Item → Int
  | .rejected n _ | .tooLong n | .frame n => n

variable (d : LengthFieldBasedFrameDecoder)

/-- The length field at the front of `l`. -/
def lengthField (l : List UInt8) : Int :=
  match accessor d.lengthFieldLength_ with
  | some t => t.decode ((l.drop d.lengthFieldOffset_.toNat).take t.size)
  | none => 0

/-- The adjusted length of the frame at the front of `l`. -/
abbrev frameLength (l : List UInt8) : Int :=
  i64 (d.lengthField l + i32 (d.lengthAdjustment_ + d.lengthFieldEndOffset_))

/-- The item at the front of `l`, if there are enough bytes to tell. -/
def item (l : List UInt8) : Option Item :=
  if l.length < d.lengthFieldEndOffset_ then none
  else if d.lengthField l < 0 then
    some (.rejected d.lengthFieldEndOffset_ s!"negative pre-adjustment length field: {d.lengthField l}")
  else if d.frameLength l < d.lengthFieldEndOffset_ then
    some (.rejected d.lengthFieldEndOffset_
      s!"Adjusted frame length ({d.frameLength l}) is less than lengthFieldEndOffset: {d.lengthFieldEndOffset_}")
  else if d.frameLength l > d.maxFrameLength_ then some (.tooLong (d.frameLength l))
  else if l.length < d.frameLength l then none
  else if d.initialBytesToStrip_ > d.frameLength l then
    some (.rejected (d.frameLength l)
      s!"Adjusted frame length ({d.frameLength l}) is less than initialBytesToStrip: {d.initialBytesToStrip_}")
  else some (.frame (d.frameLength l))

/-- What `decodeFrame` does with an item at the front of the readable bytes. -/
def taken (b : UnpooledHeapCharBuf) (fs : List Int) : Option Item → Outcome Decoding (Option Slice)
  | none => .ok none ⟨d.discarding 0 0, b, fs⟩
  | some (.rejected n what) => .throw what ⟨d.discarding 0 0, b.withReader (b.indices.readerIndex_ + n), fs⟩
  | some (.tooLong n) =>
    let here := min n b.readable.length
    .throw s!"Adjusted frame length exceeds {d.maxFrameLength_} : {n} - discarded"
      ⟨d.discarding (n - here) n, b.withReader (b.indices.readerIndex_ + here), fs⟩
  | some (.frame n) =>
    .ok (some ⟨b.indices.readerIndex_ + d.initialBytesToStrip_, n - d.initialBytesToStrip_⟩)
      ⟨d.discarding 0 0, (b.retain 1).withReader (b.indices.readerIndex_ + n), fs⟩

/-- The length fields read, after one more `decodeFrame`. -/
def fieldsRead (b : UnpooledHeapCharBuf) (fs : List Int) : List Int :=
  if b.readable.length < d.lengthFieldEndOffset_ then fs
  else fs ++ [b.indices.readerIndex_ + d.lengthFieldOffset_]

variable {d} {b : UnpooledHeapCharBuf} {fs : List Int}

theorem accessor_size {n : Int} (h : n = 1 ∨ n = 2 ∨ n = 4 ∨ n = 8) :
    ∃ t, accessor n = some t ∧ (t.size : Int) = n := by
  rcases h with rfl | rfl | rfl | rfl
  · exact ⟨.char, rfl, rfl⟩
  · exact ⟨.ushort, rfl, rfl⟩
  · exact ⟨.uint, rfl, rfl⟩
  · exact ⟨.long, rfl, rfl⟩

theorem getUnadjustedFrameLength_eq (hd : d.Supported) (hb : b.Valid) (D T : Int)
    (hl : d.lengthFieldEndOffset_ ≤ b.readable.length) :
    getUnadjustedFrameLength (i32 (b.indices.readerIndex_ + d.lengthFieldOffset_)) d.lengthFieldLength_
      ⟨d.discarding D T, b, fs⟩ =
        .ok (d.lengthField b.readable)
          ⟨d.discarding D T, b, fs ++ [b.indices.readerIndex_ + d.lengthFieldOffset_]⟩ := by
  obtain ⟨t, ht, hs⟩ := accessor_size hd.length
  have h0 := hd.offset_nonneg
  have he := hd.end_eq
  have hn := hd.length
  have hr := hb.reader_nonneg
  have hw := hb.writer_le
  have hc := hb.capacity_le
  have hm := hb.max_le
  have hl' := UnpooledHeapCharBuf.length_readable b
  rw [i32_eq (by omega) (by omega), getUnadjustedFrameLength, ht, lengthField, ht]
  show Decoding.on _ _ = _
  rw [Decoding.on, hb.getTyped (by omega) (by omega)]
  refine congrArg (fun bs => Outcome.ok (t.decode bs) _) ?_
  rw [← UnpooledHeapCharBuf.Valid.read_readable (by omega)]
  exact congrArg (b.array_.read · _) (by omega)

theorem end_pos (hd : d.Supported) : 0 < d.lengthFieldEndOffset_ := by
  have hl := hd.length
  have h0 := hd.offset_nonneg
  have he := hd.end_eq
  omega

theorem on_skipBytes (hb : b.Valid) {n : Int} (h0 : 0 ≤ n) (hn : n ≤ b.readable.length)
    (d : LengthFieldBasedFrameDecoder) :
    Decoding.on (UnpooledHeapCharBuf.charBuf.skipBytes n) ⟨d, b, fs⟩ =
      .ok () ⟨d, b.withReader (b.indices.readerIndex_ + n), fs⟩ := by
  have hr := hb.reader_le
  rw [UnpooledHeapCharBuf.length_readable] at hn
  rw [Decoding.on, hb.skipBytes h0 (by omega)]

/-- The exception that reports a too long frame. -/
theorem failIfNecessary_first (hd : d.Supported) (b : UnpooledHeapCharBuf) (fs : List Int) {D T : Int}
    {x : Bool} (hT : 0 < T) (hx : D ≠ 0 → x = true) :
    failIfNecessary true ⟨{ d with
        discardingTooLongFrame_ := x, tooLongFrameLength_ := T, bytesToDiscard_ := D }, b, fs⟩ =
      .throw s!"Adjusted frame length exceeds {d.maxFrameLength_} : {T} - discarded"
        ⟨d.discarding D T, b, fs⟩ := by
  by_cases h : D = 0
  · simp [failIfNecessary, fail, discarding, h, hT]
  · simp [failIfNecessary, fail, discarding, h, hT, hx h, hd.failFast]

/-- While more of the frame is skipped, and at its end, nothing is reported. -/
theorem failIfNecessary_later (hd : d.Supported) (D T : Int) :
    failIfNecessary false ⟨{ d with
        discardingTooLongFrame_ := true, tooLongFrameLength_ := T, bytesToDiscard_ := D }, b, fs⟩ =
      .ok () ⟨d.discarding D T, b, fs⟩ := by
  by_cases h : D = 0
  · simp [failIfNecessary, discarding, h, hd.failFast]
  · simp [failIfNecessary, discarding, h]

theorem exceededFrameLength_eq (hd : d.Supported) (hb : b.Valid) {n : Int}
    (hn : d.maxFrameLength_ < n) (hn' : n ≤ 9223372036854775807) :
    (exceededFrameLength n ⟨d.discarding 0 0, b, fs⟩).bind (fun _ => pure none) =
      d.taken b fs (some (.tooLong n)) := by
  have he := end_pos hd
  have hle := hd.end_le
  have hr := hb.reader_nonneg
  have hrw := hb.reader_le
  have hw := hb.writer_le
  have hc := hb.capacity_le
  have hm := hb.max_le
  have hl := UnpooledHeapCharBuf.length_readable b
  have hread : UnpooledHeapCharBuf.charBuf.readableBytes b = b.readable.length := by
    rw [hb.readableBytes]; omega
  simp only [exceededFrameLength, hread, taken]
  rw [i64_eq (by omega) (by omega)]
  by_cases h : n - b.readable.length ≤ 0
  · have hthrow := failIfNecessary_first hd (b.withReader (b.indices.readerIndex_ + n)) fs (D := 0) (x := false)
      (T := n) (by omega) (by simp)
    rw [if_pos h, i32_eq (by omega) (by omega), on_skipBytes hb (by omega) (by omega),
      Int.min_eq_left (by omega), Int.sub_self]
    exact congrArg (Outcome.bind · _) hthrow
  · have hthrow := failIfNecessary_first hd (b.withReader (b.indices.readerIndex_ + b.readable.length)) fs
      (D := n - b.readable.length) (x := true) (T := n) (by omega) (fun _ => rfl)
    rw [if_neg h, on_skipBytes hb (by omega) (by omega), Int.min_eq_right (by omega)]
    exact congrArg (Outcome.bind · _) hthrow

theorem extractFrame_eq (hd : d.Supported) (hb : b.Valid) {n : Int} (hs : d.initialBytesToStrip_ ≤ n)
    (hn : n ≤ b.readable.length) : (extractFrame n ⟨d.discarding 0 0, b, fs⟩).bind (fun frame => pure (some frame)) =
      d.taken b fs (some (.frame n)) := by
  have h0 := hd.strip_nonneg
  have hr := hb.reader_nonneg
  have hrw := hb.reader_le
  have hw := hb.writer_le
  have hc := hb.capacity_le
  have hm := hb.max_le
  have hl := UnpooledHeapCharBuf.length_readable b
  have hb1 := hb.withReader (i := b.indices.readerIndex_ + d.initialBytesToStrip_) (by omega) (by omega)
  have hslice : retainedSlice (b.indices.readerIndex_ + d.initialBytesToStrip_) (n - d.initialBytesToStrip_)
      (b.withReader (b.indices.readerIndex_ + d.initialBytesToStrip_)) =
      .ok ⟨b.indices.readerIndex_ + d.initialBytesToStrip_, n - d.initialBytesToStrip_⟩
        ((b.withReader (b.indices.readerIndex_ + d.initialBytesToStrip_)).retain 1) := by
    rw [retainedSlice, Method.bind_apply, Buffer.CharBuf.checkIndexBounds_ok (by omega) (by omega) (by omega)]
    rfl
  have hb2 : ((b.withReader (b.indices.readerIndex_ + d.initialBytesToStrip_)).retain 1).Valid := ⟨hb1.reader_nonneg,
    hb1.reader_le, hb1.writer_le, hb1.capacity_pos, hb1.capacity_le, hb1.max_le⟩
  have hset := hb2.setReaderIndex (i := b.indices.readerIndex_ + n) (by omega)
    (show b.indices.readerIndex_ + n ≤ b.indices.writerIndex_ by omega)
  simp only [extractFrame]
  rw [on_skipBytes hb h0 (by omega), Outcome.bind_ok]
  show (Outcome.bind (Decoding.on (retainedSlice (b.indices.readerIndex_ + d.initialBytesToStrip_)
    (i32 (n - d.initialBytesToStrip_))) _) _).bind _ = _
  rw [i32_eq (by omega) (by omega), Decoding.on, hslice]
  show (Outcome.bind (Decoding.on (UnpooledHeapCharBuf.charBuf.setReaderIndex
    (i32 (b.indices.readerIndex_ + d.initialBytesToStrip_ + (n - d.initialBytesToStrip_)))) _) _).bind _ = _
  rw [show b.indices.readerIndex_ + d.initialBytesToStrip_ + (n - d.initialBytesToStrip_) =
    b.indices.readerIndex_ + n by omega, i32_eq (by omega) (by omega), Decoding.on, hset]
  rfl

theorem frameLength_range (d : LengthFieldBasedFrameDecoder) (l : List UInt8) :
    d.frameLength l ≤ 9223372036854775807 := by
  show i64 _ ≤ _
  unfold i64
  omega

/-- `decodeFrame` takes the item at the front of the readable bytes. -/
theorem decodeFrame_eq (hd : d.Supported) (hb : b.Valid) :
    decodeFrame ⟨d.discarding 0 0, b, fs⟩ = d.taken b (d.fieldsRead b fs) (d.item b.readable) := by
  have hrw := hb.reader_le
  have hw := hb.writer_le
  have hc := hb.capacity_le
  have hm := hb.max_le
  have hr := hb.reader_nonneg
  have hl := UnpooledHeapCharBuf.length_readable b
  have hread : UnpooledHeapCharBuf.charBuf.readableBytes b = b.readable.length := by
    rw [hb.readableBytes]; omega
  have he := end_pos hd
  have hlong := frameLength_range d b.readable
  have hskip : ∀ (fs : List Int) (n : Int), 0 ≤ n → n ≤ b.readable.length → ∀ what : String,
      (Decoding.on (UnpooledHeapCharBuf.charBuf.skipBytes n) ⟨d.discarding 0 0, b, fs⟩).bind
        (fun _ => (Method.throw what : Method Decoding (Option Slice))) =
      d.taken b fs (some (.rejected n what)) := fun fs n h0 hn what => by
    rw [on_skipBytes hb h0 hn]; rfl
  rw [item, fieldsRead]
  simp only [decodeFrame, hread]
  by_cases h1 : (b.readable.length : Int) < d.lengthFieldEndOffset_
  · rw [if_pos h1, if_pos h1, if_pos h1]; rfl
  rw [if_neg h1, if_neg h1, if_neg h1]
  show Outcome.bind (getUnadjustedFrameLength (i32 (b.indices.readerIndex_ + d.lengthFieldOffset_))
    d.lengthFieldLength_ ⟨d.discarding 0 0, b, fs⟩) _ = _
  rw [getUnadjustedFrameLength_eq hd hb 0 0 (by omega), Outcome.bind_ok]
  by_cases h2 : d.lengthField b.readable < 0
  · rw [if_pos h2, if_pos h2]
    exact hskip _ _ (by omega) (by omega) _
  rw [if_neg h2, if_neg h2]
  show (if d.frameLength b.readable < d.lengthFieldEndOffset_ then _ else _) = _
  by_cases h3 : d.frameLength b.readable < d.lengthFieldEndOffset_
  · rw [if_pos h3, if_pos h3]
    exact hskip _ _ (by omega) (by omega) _
  rw [if_neg h3, if_neg h3]
  by_cases h4 : d.frameLength b.readable > d.maxFrameLength_
  · rw [if_pos h4, if_pos h4]
    exact exceededFrameLength_eq hd hb h4 hlong
  rw [if_neg h4, if_neg h4]
  rw [show UnpooledHeapCharBuf.charBuf.readableBytes (Decoding.mk (d.discarding 0 0) b _).buf =
    b.readable.length from hread]
  by_cases h5 : (b.readable.length : Int) < d.frameLength b.readable
  · rw [if_pos h5, if_pos h5]; rfl
  rw [if_neg h5, if_neg h5]
  by_cases h6 : d.initialBytesToStrip_ > d.frameLength b.readable
  · rw [if_pos h6, if_pos h6]
    refine Eq.trans ?_ (hskip _ _ (show 0 ≤ d.frameLength b.readable by omega) (by omega) _)
    show Outcome.bind (Decoding.on (UnpooledHeapCharBuf.charBuf.skipBytes (i32 (d.frameLength b.readable))) _) _ = _
    rw [i32_eq (by omega) (by omega)]
  · rw [if_neg h6, if_neg h6]
    exact extractFrame_eq (n := d.frameLength b.readable) hd hb (by omega) (by omega)

/-- What is left of a too long frame, of which no more is to come than an `int` holds, is skipped. -/
theorem discardingTooLongFrame_eq (hd : d.Supported) (hb : b.Valid) {D T : Int} (h0 : 0 < D) (hD : D ≤ 2147483647) :
    discardingTooLongFrame ⟨d.discarding D T, b, fs⟩ =
      let here := min D b.readable.length
      .ok () ⟨d.discarding (D - here) T, b.withReader (b.indices.readerIndex_ + here), fs⟩ := by
  have hrw := hb.reader_le
  have hl := UnpooledHeapCharBuf.length_readable b
  have hread : UnpooledHeapCharBuf.charBuf.readableBytes b = b.readable.length := by
    rw [hb.readableBytes]; omega
  simp only [discardingTooLongFrame, hread]
  rw [i32_eq (by omega) (by omega), on_skipBytes hb (by omega) (by omega), Outcome.bind_ok,
    i64_eq (by omega) (by omega)]
  refine Eq.trans ?_ (failIfNecessary_later hd _ T)
  simp only [if_neg (Int.ne_of_gt h0), decide_eq_true (Int.ne_of_gt h0)]

/-- `decode` while a too long frame is skipped, of which no more is to come than an `int` holds. -/
theorem decode_discarding (hd : d.Supported) (hb : b.Valid) {D T : Int} (h0 : 0 < D) (hD : D ≤ 2147483647) :
    decode ⟨d.discarding D T, b, fs⟩ =
      let here := min D b.readable.length
      decodeFrame ⟨d.discarding (D - here) T, b.withReader (b.indices.readerIndex_ + here), fs⟩ := by
  have hflag : (d.discarding D T).discardingTooLongFrame_ = true := decide_eq_true (by omega)
  show Outcome.bind ((if (d.discarding D T).discardingTooLongFrame_ then discardingTooLongFrame else pure ())
    ⟨d.discarding D T, b, fs⟩) _ = _
  rw [if_pos hflag, discardingTooLongFrame_eq hd hb h0 hD]
  rfl

theorem decode_between (b : UnpooledHeapCharBuf) (fs : List Int) :
    decode ⟨d.discarding 0 0, b, fs⟩ = decodeFrame ⟨d.discarding 0 0, b, fs⟩ := rfl

/-- Too few bytes for a length field, whatever the decoder is doing. -/
theorem decodeFrame_short (hb : b.Valid) (h : b.readable.length < d.lengthFieldEndOffset_) :
    decodeFrame ⟨d, b, fs⟩ = .ok none ⟨d, b, fs⟩ := by
  have hl := UnpooledHeapCharBuf.length_readable b
  have hr := hb.reader_le
  dsimp only [decodeFrame]
  rw [if_pos (by rw [hb.readableBytes]; omega)]

/-- `decode` in either case: what is left of a too long frame is skipped, and the item behind it
taken. -/
theorem decode_eq (hd : d.Supported) (hb : b.Valid) {D T : Int} (h0 : 0 ≤ D) (hD : D ≤ 2147483647) :
    decode ⟨d.discarding D T, b, fs⟩ =
      let b' := b.withReader (b.indices.readerIndex_ + min D b.readable.length)
      if D ≤ b.readable.length then d.taken b' (d.fieldsRead b' fs) (d.item b'.readable)
      else .ok none ⟨d.discarding (D - b.readable.length) T, b', fs⟩ := by
  have hl := UnpooledHeapCharBuf.length_readable b
  have hr := hb.reader_nonneg
  have hrw := hb.reader_le
  have he := end_pos hd
  have e : ∀ T, d.discarding 0 T = d.discarding 0 0 := fun T => by simp [discarding]
  dsimp only
  rcases Int.lt_or_eq_of_le h0 with hpos | rfl
  · rw [decode_discarding hd hb hpos hD]
    obtain ⟨k, hk⟩ : ∃ k : Nat, min D (b.readable.length : Int) = k := ⟨(min D b.readable.length).toNat, by omega⟩
    rw [hk]
    dsimp only
    have hb' : (b.withReader (b.indices.readerIndex_ + k)).Valid := hb.withReader (by omega) (by omega)
    split
    · rw [show D - k = 0 by omega, e]
      exact decodeFrame_eq hd hb'
    · have hempty : (b.withReader (b.indices.readerIndex_ + k)).readable.length = 0 := by
        rw [UnpooledHeapCharBuf.readable_withReader hr (by omega), List.length_drop]
        omega
      rw [decodeFrame_short hb' (by rw [hempty]; exact he), show D - k = D - b.readable.length by omega]
  · have e' : b.withReader (b.indices.readerIndex_ + min (0 : Int) b.readable.length) = b := by
      rw [Int.min_eq_left (by omega)]
      show { b with indices := { b.indices with readerIndex_ := b.indices.readerIndex_ + 0 } } = b
      rw [Int.add_zero]
    rw [if_pos (by omega), e', e, decode_between, decodeFrame_eq hd hb]

/-! ## The reference that travels with a frame -/

open Buffer.UnpooledHeapCharBuf (Counted Neutral IsInt)

/-- What becomes of a decoder that a constructor accepts, with any length of the length field. -/
structure Becomes (d d' : LengthFieldBasedFrameDecoder) : Prop where
  config : ∃ x T D, d' = { d with discardingTooLongFrame_ := x, tooLongFrameLength_ := T, bytesToDiscard_ := D }
  /-- No frame is found too long where no length can be read. -/
  idle : accessor d'.lengthFieldLength_ = none → d'.discardingTooLongFrame_ = false
  offset_nonneg : 0 ≤ d'.lengthFieldOffset_
  offset_le : d'.lengthFieldOffset_ ≤ 2147483647
  strip_nonneg : 0 ≤ d'.initialBytesToStrip_
  end_gt : (accessor d'.lengthFieldLength_).isSome = true → d'.lengthFieldOffset_ < d'.lengthFieldEndOffset_

/-- A decoder, and a buffer with `n` references whose indices are in order. -/
structure Counts (d : LengthFieldBasedFrameDecoder) (n : Int) (s : Decoding) : Prop where
  decoder : d.Becomes s.decoder
  counted : Counted n s.buf
  reader_le : s.buf.indices.readerIndex_ ≤ s.buf.indices.writerIndex_

variable {n : Int} {s : Decoding}

theorem on_skipBytes_counts (m : Int) :
    Triple (Counts d n) (Decoding.on (UnpooledHeapCharBuf.charBuf.skipBytes m)) (fun _ => Counts d n) (Counts d n) := by
  intro s h
  have hs : ∀ b', UnpooledHeapCharBuf.charBuf.skipBytes m s.buf = .ok () b' →
      b'.indices.readerIndex_ ≤ b'.indices.writerIndex_ := by
    intro b' e
    rw [Buffer.CharBuf.skipBytes, Method.bind_apply, Buffer.CharBuf.checkReadable] at e
    split at e
    · cases e
    · cases e
      exact Int.not_lt.mp ‹_›
  have ht : ∀ e b', UnpooledHeapCharBuf.charBuf.skipBytes m s.buf = .throw e b' → b' = s.buf := by
    intro e' b' e
    rw [Buffer.CharBuf.skipBytes, Method.bind_apply, Buffer.CharBuf.checkReadable] at e
    split at e
    · cases e; rfl
    · cases e
  have hc := Neutral.skipBytes m n s.buf h.counted
  unfold Decoding.on
  cases e : UnpooledHeapCharBuf.charBuf.skipBytes m s.buf with
  | ok a b' => rw [e] at hc; exact ⟨h.decoder, hc, hs b' e⟩
  | throw what b' => rw [e] at hc; exact ⟨h.decoder, hc, by rw [ht what b' e]; exact h.reader_le⟩
  | ub | hang => trivial

/-- What `decode` changes of a decoder. -/
theorem Counts.withDecoder (h : Counts d n s) {x : Bool} (T D : Int)
    (hx : accessor s.decoder.lengthFieldLength_ = none → x = false) :
    Counts d n { s with decoder := { s.decoder with
      discardingTooLongFrame_ := x, tooLongFrameLength_ := T, bytesToDiscard_ := D } } := by
  obtain ⟨_, _, _, e⟩ := h.decoder.config
  exact ⟨{ h.decoder with config := ⟨x, T, D, by rw [e]⟩, idle := hx }, h.counted, h.reader_le⟩

theorem fail_counts {α : Type} {Q : α → Decoding → Prop} (T : Int) : Triple (Counts d n) (fail T) Q (Counts d n) := by
  intro s h
  unfold fail
  split
  · exact h
  · exact h

theorem failIfNecessary_counts (x : Bool) :
    Triple (Counts d n) (failIfNecessary x) (fun _ => Counts d n) (Counts d n) := by
  intro s h
  have h' : Counts d n { s with decoder := { s.decoder with
      tooLongFrameLength_ := 0, discardingTooLongFrame_ := false } } := h.withDecoder 0 _ fun _ => rfl
  dsimp only [failIfNecessary]
  split
  · split
    · exact fail_counts _ _ h'
    · exact h'
  · split
    · exact fail_counts _ _ h
    · exact h

theorem exceededFrameLength_counts (h : Counts d n s) (hs : (accessor s.decoder.lengthFieldLength_).isSome = true)
    (m : Int) : (exceededFrameLength m s).Sat (fun _ => Counts d n) (Counts d n) := by
  dsimp only [exceededFrameLength]
  split
  · refine (on_skipBytes_counts _ _ ?_).bind fun _ => failIfNecessary_counts true
    exact h.withDecoder m _ h.decoder.idle
  · refine (on_skipBytes_counts _ _ ?_).bind fun _ => failIfNecessary_counts true
    exact h.withDecoder m _ fun e => by rw [e] at hs; cases hs

theorem discardingTooLongFrame_counts :
    Triple (Counts d n) discardingTooLongFrame (fun _ => Counts d n) (Counts d n) := by
  intro s h
  dsimp only [discardingTooLongFrame]
  exact (on_skipBytes_counts _ _ h).bind fun _ t ht =>
    failIfNecessary_counts false _ (ht.withDecoder _ _ ht.decoder.idle)

/-- A length field that was read begins at or behind the start of the buffer. -/
theorem getUnadjustedFrameLength_counts {i : Int} (hi : IsInt i) (s : Decoding) :
    (getUnadjustedFrameLength i s.decoder.lengthFieldLength_ s).Sat
      (fun _ t => (accessor s.decoder.lengthFieldLength_).isSome = true ∧ 0 ≤ i ∧ t.decoder = s.decoder ∧
        t.buf = s.buf)
      (fun t => t.decoder = s.decoder ∧ t.buf = s.buf) := by
  unfold getUnadjustedFrameLength
  cases ha : accessor s.decoder.lengthFieldLength_ with
  | none => exact ⟨rfl, rfl⟩
  | some t =>
    show (Decoding.on (fun b => ((Buffer.CharBuf.checkRangeBounds i t.size b.capacity_ b).bind
      fun _ => UnpooledHeapCharBuf.peek i t.size).bind fun bs => pure (t.decode bs)) _).Sat _ _
    rcases Buffer.CharBuf.checkRangeBounds_nonneg i t.size s.buf.capacity_ s.buf with e | ⟨e, h0⟩
    · simp only [Decoding.on, e]
      exact ⟨rfl, rfl⟩
    · rw [i32_eq hi.1 hi.2] at h0
      simp only [Decoding.on, e, Outcome.bind_ok, UnpooledHeapCharBuf.peek]
      by_cases hc : 0 ≤ i ∧ 0 ≤ (t.size : Int) ∧ i + t.size ≤ s.buf.capacity_
      · simp only [if_pos hc]
        exact ⟨rfl, h0, rfl, rfl⟩
      · simp only [if_neg hc]
        trivial

/-- Once the slice is retained nothing fails: the reader index is moved to within the buffer. -/
theorem extractFrame_counts (h : Counts d n s) {m : Int} (h0 : 0 ≤ s.buf.indices.readerIndex_ + m)
    (hm : m ≤ s.buf.indices.writerIndex_ - s.buf.indices.readerIndex_) (hM : m ≤ 2147483647)
    (hs : s.decoder.initialBytesToStrip_ ≤ m) :
    (extractFrame m s).Sat (fun _ => Counts d (n + 1)) fun _ => False := by
  have hr := h.counted.reader
  have hw := h.counted.writer
  have hst := h.decoder.strip_nonneg
  have hmax := h.counted.max_eq
  unfold intMax at hmax
  generalize hr1 : s.buf.indices.readerIndex_ + s.decoder.initialBytesToStrip_ = r1
  have e1 : i32 r1 = r1 := i32_eq (by omega) (by omega)
  have e2 : i32 (m - s.decoder.initialBytesToStrip_) = m - s.decoder.initialBytesToStrip_ :=
    i32_eq (by omega) (by omega)
  have e3 : i32 (r1 + (m - s.decoder.initialBytesToStrip_)) = s.buf.indices.readerIndex_ + m := by
    rw [i32_eq (by omega) (by omega)]; omega
  have hskip : UnpooledHeapCharBuf.charBuf.skipBytes s.decoder.initialBytesToStrip_ s.buf =
      .ok () (s.buf.withReader r1) :=
    UnpooledHeapCharBuf.Valid.skipBytes_eq (by rw [hr1, e1]) (by omega)
  have hslice : retainedSlice r1 (m - s.decoder.initialBytesToStrip_) (s.buf.withReader r1) =
      .ok ⟨r1, m - s.decoder.initialBytesToStrip_⟩ ((s.buf.withReader r1).retain 1) := by
    rw [retainedSlice, Method.bind_apply, Buffer.CharBuf.checkIndexBounds_ok (by omega) (by omega) (by omega)]
    rfl
  have hset : UnpooledHeapCharBuf.charBuf.setReaderIndex (s.buf.indices.readerIndex_ + m)
      ((s.buf.withReader r1).retain 1) =
      .ok () (((s.buf.withReader r1).retain 1).withReader (s.buf.indices.readerIndex_ + m)) := by
    have hc := Buffer.CharBuf.checkIndexBounds_ok h0
      (show _ ≤ s.buf.indices.writerIndex_ by omega)
      (show s.buf.indices.writerIndex_ ≤ s.buf.indices.maxCapacity_ by omega)
      ((s.buf.withReader r1).retain 1)
    exact congrArg (Outcome.bind · _) hc
  simp only [extractFrame, Decoding.on, hskip, Outcome.bind_ok]
  rw [show UnpooledHeapCharBuf.charBuf.readerIndex (s.buf.withReader r1) = r1 from rfl, e2, hslice]
  simp only [Outcome.bind_ok, e3, hset]
  have hr2 : IsInt (s.buf.indices.readerIndex_ + m) := ⟨by omega, by omega⟩
  exact ⟨h.decoder, ⟨(Counted.retain h.counted).refCnt, h.counted.max_eq, hr2, hw⟩,
    show s.buf.indices.readerIndex_ + m ≤ s.buf.indices.writerIndex_ by omega⟩

theorem decodeFrame_counts :
    Triple (Counts d n) decodeFrame (fun o => Counts d (n + if o.isSome then 1 else 0)) (Counts d n) := by
  intro s h
  have hr := h.counted.reader
  have hw := h.counted.writer
  have hrw := h.reader_le
  have hoff := h.decoder.offset_nonneg
  have hoff' := h.decoder.offset_le
  have hnone : ∀ t, Counts d n t → Counts d (n + if (none : Option Slice).isSome = true then 1 else 0) t :=
    fun t ht => by simpa using ht
  have hthrow : ∀ (t : Decoding) (m : Int) (what : String), Counts d n t →
      ((Decoding.on (UnpooledHeapCharBuf.charBuf.skipBytes m) t).bind
        fun _ => (Method.throw what : Method Decoding (Option Slice))).Sat
        (fun o => Counts d (n + if o.isSome then 1 else 0)) (Counts d n) := fun t m what ht =>
    (on_skipBytes_counts m t ht).bind fun _ => Triple.throw fun _ h => h
  dsimp only [decodeFrame]
  split
  · exact hnone s h
  rename_i hread
  refine Outcome.Sat.bind ((getUnadjustedFrameLength_counts (i32_range _) s).mono (fun _ _ h => h) fun t ht =>
    ⟨ht.1.symm ▸ h.decoder, ht.2.symm ▸ h.counted, ht.2.symm ▸ h.reader_le⟩) fun v t ⟨hacc, hi, hd, hb⟩ => ?_
  have ht : Counts d n t := ⟨hd.symm ▸ h.decoder, hb.symm ▸ h.counted, hb.symm ▸ h.reader_le⟩
  have hend := h.decoder.end_gt hacc
  split
  · exact hthrow t _ _ ht
  split
  · exact hthrow t _ _ ht
  split
  · exact (exceededFrameLength_counts ht (by rw [hd]; exact hacc) _).bind fun _ => Triple.pure hnone
  split
  · exact hnone t ht
  split
  · exact hthrow t _ _ ht
  rename_i h3 _ h5 h6
  -- the frame lies within the readable bytes, and ends behind its length field
  simp only [Buffer.CharBuf.readableBytes, UnpooledHeapCharBuf.readerIndex_charBuf,
    UnpooledHeapCharBuf.writerIndex_charBuf, hb] at h5 hread hi
  have hi' : 0 ≤ s.buf.indices.readerIndex_ + s.decoder.lengthFieldOffset_ := by unfold i32 at hi; omega
  generalize i64 (v + i32 (s.decoder.lengthAdjustment_ + s.decoder.lengthFieldEndOffset_)) = m at *
  refine ((extractFrame_counts ht (m := m) ?_ ?_ ?_ ?_).mono (fun _ _ h => h) fun _ h => h.elim).bind fun _ => Triple.pure fun t ht => by simpa using ht
  · rw [hb]; omega
  · rw [hb]; unfold i32 at h5; omega
  · unfold i32 at h5; omega
  · rw [hd]; omega

theorem decode_counts :
    Triple (Counts d n) decode (fun o => Counts d (n + if o.isSome then 1 else 0)) (Counts d n) := fun s h =>
  Outcome.Sat.bind (Triple.ite (fun _ => discardingTooLongFrame_counts) (fun _ => Triple.pure fun _ h => h) s h)
    fun _ => decodeFrame_counts

theorem new_becomes {a b c x y : Int} (h : new a b c x y = .ok d) (ha : IsInt a) (hb : IsInt b) : d.Becomes d := by
  unfold new init at h
  split at h
  · cases h
  split at h
  · cases h
  split at h
  · cases h
  split at h
  · cases h
  cases h
  refine ⟨⟨_, _, _, rfl⟩, fun _ => rfl, show 0 ≤ b by omega, show b ≤ 2147483647 from hb.2, show 0 ≤ y by omega,
    fun hs => ?_⟩
  rename_i h1 h2 h3 h4
  have hc : c = 1 ∨ c = 2 ∨ c = 4 ∨ c = 8 := by
    unfold accessor at hs
    grind
  show b < i32 (b + c)
  rw [i32_eq (x := a - c) (by omega) (by omega)] at h4
  rw [i32_eq (by omega) (by omega)]
  omega

/-- What a constructor accepts with a length field of 1, 2, 4 or 8 bytes. -/
theorem new_supported {a b c x y : Int} (h : new a b c x y = .ok d) (ha : IsInt a) (hb : IsInt b)
    (hc : c = 1 ∨ c = 2 ∨ c = 4 ∨ c = 8) : d.Supported := by
  unfold new init at h
  split at h
  · cases h
  split at h
  · cases h
  split at h
  · cases h
  split at h
  · cases h
  cases h
  rename_i h1 h2 h3 h4
  rw [i32_eq (x := a - c) (by have := ha.1; omega) (by have := ha.2; omega)] at h4
  have hmax := ha.2
  refine ⟨hc, show 0 ≤ b by omega, ?_, ?_, hmax, show 0 ≤ y by omega, rfl⟩
  · exact i32_eq (by omega) (by omega)
  · show i32 (b + c) ≤ a
    rw [i32_eq (by omega) (by omega)]
    omega

/-- The members a constructor sets from its arguments, and the state it begins in. -/
theorem new_eq {a b c x y : Int} (h : new a b c x y = .ok d) :
    d.maxFrameLength_ = a ∧ d.lengthFieldLength_ = c ∧ d.lengthAdjustment_ = x ∧ d.initialBytesToStrip_ = y ∧
      d.discarding 0 0 = d := by
  unfold new init at h
  split at h
  · cases h
  split at h
  · cases h
  split at h
  · cases h
  split at h
  · cases h
  cases h
  exact ⟨rfl, rfl, rfl, rfl, rfl⟩

end LengthFieldBasedFrameDecoder

end Nio.Net
