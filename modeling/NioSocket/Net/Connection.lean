import NioSocket.Net.FrameDecoder
import NioSocket.Net.RecvAllocator
import NioSocket.Lib.Trans

/-!
# The inbound side of a connection

`AbstractConnection` with its read buffer, `TcpConnection::handleRead` and
`SctpConnection::handleRead`, the pipeline a message goes through, and the frame
decoder's `ByteToMessageDecoder` in it. The buffers are `UnpooledHeapCharBuf`s (the
default allocator's) in one heap; a `shared_ptr<CharBuf>` is the place of a buffer in it.
A handler of the application reads some bytes of a message and forwards it, or keeps it
and releases it later.
-/

namespace Nio.Net

open Buffer (UnpooledHeapCharBuf)
open Buffer.UnpooledHeapCharBuf (charBuf)

/-- The message of a `ChannelInboundEvent`: a buffer, or a slice of one. -/
inductive Message
  | whole (buf : Nat)
  | slice (buf : Nat) (s : Slice)
  deriving DecidableEq

/-- The heap buffer that counts the references to a message. -/
def Message.buf : Message → Nat
  | .whole b | .slice b _ => b

/-- What a call of `decode` did, or did first: a length field it read, at an offset of the
stream; an exception; an event with these bytes. -/
inductive Decoded
  | field (offset : Int)
  | exception (what : String)
  | frame (bytes : List UInt8)
  deriving DecidableEq

/-- `ByteToMessageDecoder`, with the part its subclass adds. -/
structure ByteToMessageDecoder where
  frameDecoder : LengthFieldBasedFrameDecoder
  cumulation_ : Option Nat
  singleDecode : Bool
  first : Bool
  discardAfterReads : Int
  numReads : Int
  /-- How many bytes of the stream `decode` has consumed. -/
  consumed : Int
  /-- What the calls of `decode` did. -/
  trace : List Decoded

/-- A decoder that has read nothing; it discards what was read after four reads. -/
def ByteToMessageDecoder.new (d : LengthFieldBasedFrameDecoder) : ByteToMessageDecoder :=
  ⟨d, none, false, true, 4, 0, 0, []⟩

/-- A message that reached the handlers of the application, and what was readable of it. -/
structure Fired where
  message : Message
  bytes : List UInt8

/-- The data members of an `AbstractConnection`, an `SctpConnection` and the handlers of
their pipeline. -/
structure Connection where
  heap : Nat → UnpooledHeapCharBuf
  /-- The next buffer to be allocated. -/
  next : Nat
  connected_ : Bool
  cumulation_ : Option Nat
  readBufferLen_ : Int
  recvHandle : Option HandleImpl
  streamMsgs_ : List (Nat × Nat)
  decoder : ByteToMessageDecoder
  fired : List Fired
  /-- The messages that handlers have kept. -/
  held : List Message
  /-- The messages that were decoded, and left in `out` by an exception. -/
  dropped : List Message
  /-- The exceptions that left a `channelRead`. -/
  caught : List String

/-- A handler that, of the `i`-th message fired, reads `reads i` bytes (or all there are), and
keeps it or forwards it. -/
structure Handler where
  reads : Nat → Nat
  keeps : Nat → Bool

/-- `ChannelInboundHandlerAdapter`. -/
def Handler.adapter : Handler := ⟨fun _ => 0, fun _ => false⟩

/-- The handlers between head and tail, and whether there is a frame decoder, behind which
of them. -/
structure Pipeline where
  before : List Handler
  decoder : Bool
  after : List Handler

namespace Connection

/-! ## Buffers -/

/-- Dereferencing a `shared_ptr`. -/
def deref (r : Option Nat) : Method Connection Nat := fun w =>
  match r with
  | some b => .ok b w
  | none => .ub

/-- A buffer changes. -/
def setBuf (w : Connection) (b : Nat) (x : UnpooledHeapCharBuf) : Connection :=
  { w with heap := Function.update w.heap b x }

@[simp] theorem setBuf_heap_self (w : Connection) (b : Nat) (x : UnpooledHeapCharBuf) :
    (w.setBuf b x).heap b = x := Function.update_self ..

theorem setBuf_heap_of_ne (w : Connection) {b c : Nat} (x : UnpooledHeapCharBuf) (h : c ≠ b) :
    (w.setBuf b x).heap c = w.heap c := Function.update_of_ne h ..

@[simp] theorem setBuf_setBuf (w : Connection) (b : Nat) (x y : UnpooledHeapCharBuf) :
    (w.setBuf b x).setBuf b y = w.setBuf b y :=
  congrArg (fun h => { w with heap := h }) (Function.update_idem ..)

/-- Letting go of a buffer changes nothing but its count. -/
theorem setBuf_release_heap (w : Connection) (c b : Nat) :
    ∃ k, (w.setBuf c ((w.heap c).release 1)).heap b = { w.heap b with refCnt_ := k } := by
  by_cases h : b = c
  · subst h
    exact ⟨_, setBuf_heap_self ..⟩
  · exact ⟨_, setBuf_heap_of_ne _ _ h⟩

/-- A call on a buffer. -/
def on {α : Type} (b : Nat) (m : Method UnpooledHeapCharBuf α) : Method Connection α := fun w =>
  match m (w.heap b) with
  | .ok a x => .ok a (w.setBuf b x)
  | .throw e x => .throw e (w.setBuf b x)
  | .ub => .ub
  | .hang => .hang

/-- `retain()`, of a buffer. -/
def retain (b : Nat) : Method Connection Unit := on b (.modify fun x => x.retain 1)

/-- `release()`, of a buffer. -/
def release (b : Nat) : Method Connection Unit := on b (.modify fun x => x.release 1)

/-- `heapBuffer(initialCapacity)`. -/
def heapBuffer (initialCapacity : Int) : Method Connection (Option Nat) := fun w =>
  if initialCapacity = 0 ∨ initialCapacity > intMax then .ok none w
  else .ok (some w.next)
    { w.setBuf w.next (UnpooledHeapCharBuf.new initialCapacity intMax) with next := w.next + 1 }

/-- `src.getChars(index, dst, dstIndex, length)`. -/
def source (src : UnpooledHeapCharBuf) : Buffer.Source := fun index length =>
  match UnpooledHeapCharBuf.getChars index length src with
  | .ok bs _ => .ok bs ()
  | .throw e _ => .throw e ()
  | .ub => .ub
  | .hang => .hang

/-- `writeChars(CharBuf &src)`. -/
def writeChars (dst src : Nat) : Method Connection Unit := fun w =>
  let length := charBuf.readableBytes (w.heap src)
  let srcIndex := charBuf.readerIndex (w.heap src)
  (on dst (charBuf.writeCharsFrom (source (w.heap src)) srcIndex length) w).bind
    fun _ => on src (charBuf.setReaderIndex (i32 (srcIndex + length)))

/-! ## The handlers of the application -/

/-- `TailContext::channelRead`. -/
def tail (m : Message) : Method Connection Unit := release m.buf

/-- An exception does not leave a context's `invokeChannelRead`. -/
def invokeChannelRead (channelRead : Method Connection Unit) : Method Connection Unit := fun w =>
  match channelRead w with
  | .throw what w => .ok () { w with caught := w.caught ++ [what] }
  | o => o

/-- Reading up to `n` of the readable bytes of a message. A slice has indices of its own, which
nothing else looks at. -/
def readSome (m : Message) (n : Nat) : Method Connection Unit :=
  match m with
  | .whole b => on b (.modify fun x => x.withReader (x.indices.readerIndex_ + min n x.readable.length))
  | .slice _ _ => pure ()

/-- A handler keeps a message. -/
def keep (m : Message) : Method Connection Unit := .modify fun w => { w with held := w.held ++ [m] }

/-- The handlers from `h` on, the tail behind them, with the `i`-th message fired. -/
def invokeHandlers (i : Nat) (next : Message → Method Connection Unit) :
    List Handler → Message → Method Connection Unit
  | [], m => invokeChannelRead (next m)
  | h :: hs, m => invokeChannelRead do
    readSome m (h.reads i)
    if h.keeps i then keep m else invokeHandlers i next hs m

/-- The bytes of a message that are readable. -/
def readableOf (w : Connection) : Message → List UInt8
  | .whole b => (w.heap b).readable
  | .slice b s => (w.heap b).array_.read s.adjustment_.toNat s.length.toNat

/-- `fireChannelRead` to the handlers `hs` of the application. -/
def fire (hs : List Handler) (m : Message) : Method Connection Unit := fun w =>
  invokeHandlers w.fired.length tail hs m { w with fired := w.fired ++ [⟨m, w.readableOf m⟩] }

/-- `fireChannelRead` of all that was decoded. -/
def fireAll (hs : List Handler) : List Message → Method Connection Unit
  | [] => pure ()
  | m :: ms => do fire hs m; fireAll hs ms

/-! ### Slices -/

/-- What handlers do to a slice: only reference counts change, and what they keep. -/
structure Handled (w w' : Connection) : Prop where
  heap : ∀ b, ∃ k, w'.heap b = { w.heap b with refCnt_ := k }
  rest : ∃ heap fired held, w' = { w with heap := heap, fired := fired, held := held }

theorem Handled.refl (w : Connection) : Handled w w := ⟨fun _ => ⟨_, rfl⟩, _, _, _, rfl⟩

theorem Handled.trans {w w' w'' : Connection} (h : Handled w w') (h' : Handled w' w'') : Handled w w'' := by
  refine ⟨fun b => ?_, ?_⟩
  · obtain ⟨k, hk⟩ := h.heap b
    obtain ⟨k', hk'⟩ := h'.heap b
    exact ⟨k', by rw [hk', hk]⟩
  · obtain ⟨_, _, _, rfl⟩ := h.rest
    obtain ⟨_, _, _, rfl⟩ := h'.rest
    exact ⟨_, _, _, rfl⟩

/-- A slice is kept by the first handler that keeps it, or released by the tail. -/
def afterSlice (w : Connection) (m : Message) (kept : Bool) : Connection :=
  if kept then { w with held := w.held ++ [m] } else w.setBuf m.buf ((w.heap m.buf).release 1)

theorem invokeHandlers_slice (i : Nat) (hs : List Handler) (b : Nat) (s : Slice) (w : Connection) :
    invokeHandlers i tail hs (.slice b s) w = .ok () (w.afterSlice (.slice b s) (hs.any (·.keeps i))) := by
  induction hs with
  | nil => rfl
  | cons h hs ih =>
    rw [invokeHandlers, List.any_cons]
    cases hk : h.keeps i with
    | true => simp [invokeChannelRead, Method.bind_apply, readSome, keep, afterSlice]
    | false => simp [invokeChannelRead, Method.bind_apply, readSome, ih]

/-- The connection after a slice was fired. -/
def fired1 (hs : List Handler) (w : Connection) (m : Message) : Connection :=
  afterSlice { w with fired := w.fired ++ [⟨m, w.readableOf m⟩] } m (hs.any (·.keeps w.fired.length))

theorem fire_slice (hs : List Handler) (b : Nat) (s : Slice) (w : Connection) :
    fire hs (.slice b s) w = .ok () (w.fired1 hs (.slice b s)) :=
  invokeHandlers_slice _ hs b s _

theorem handled_fired1 (hs : List Handler) (w : Connection) (m : Message) : Handled w (w.fired1 hs m) := by
  unfold fired1 afterSlice
  split
  · exact ⟨fun _ => ⟨_, rfl⟩, _, _, _, rfl⟩
  · refine ⟨fun b => ?_, _, _, _, rfl⟩
    by_cases h : b = m.buf
    · subst h
      rw [setBuf_heap_self]
      exact ⟨_, rfl⟩
    · rw [setBuf_heap_of_ne _ _ h]
      exact ⟨_, rfl⟩

theorem fireAll_slices (hs : List Handler) (ss : List Slice) (c : Nat) (w : Connection) :
    fireAll hs (ss.map (.slice c)) w = .ok () ((ss.map (.slice c)).foldl (fired1 hs) w) := by
  induction ss generalizing w with
  | nil => rfl
  | cons s ss ih =>
    rw [List.map_cons, fireAll, Method.bind_apply, fire_slice, Outcome.bind_ok, ih]
    rfl

theorem Handled.indices {w w' : Connection} (h : Handled w w') (b : Nat) :
    (w'.heap b).indices = (w.heap b).indices := by
  obtain ⟨k, hk⟩ := h.heap b
  rw [hk]

theorem handled_foldl (hs : List Handler) (ms : List Message) (w : Connection) :
    Handled w (ms.foldl (fired1 hs) w) := by
  induction ms generalizing w with
  | nil => exact .refl w
  | cons m ms ih => exact (handled_fired1 hs w m).trans (ih _)

/-! ## ByteToMessageDecoder -/

/-- The decoder changes. -/
def setDecoder (w : Connection) (d : ByteToMessageDecoder) : Connection := { w with decoder := d }

/-- `expandCumulation(alloc, cumulation_, readable)`. -/
def expandCumulation (oldCumulation : Nat) (readable : Int) : Method Connection Nat := do
  let n ← .get fun w => charBuf.readableBytes (w.heap oldCumulation)
  let cumulation ← (← heapBuffer (i32 (n + readable))) |> deref
  .modify fun w => w.setDecoder { w.decoder with cumulation_ := some cumulation }
  writeChars cumulation oldCumulation
  release oldCumulation
  pure cumulation

/-- `MergeCumulator::cumulate(alloc, cumulation_, in)`. -/
def cumulate (cumulation src : Nat) : Method Connection Nat := fun w =>
  let n := charBuf.readableBytes (w.heap src)
  ((if i32 (charBuf.writerIndex (w.heap cumulation) + n) > charBuf.maxCapacity (w.heap cumulation) then
    expandCumulation cumulation n else pure cumulation) w).bind fun buffer => do
      writeChars buffer src
      pure buffer

/-- `ByteToMessageDecoder::discardSomeReadBytes`. -/
def discardSomeReadBytes : Method Connection Unit := fun w =>
  match w.decoder.cumulation_ with
  | some c =>
    if !w.decoder.first ∧ (w.heap c).refCnt_ = 1 then on c charBuf.discardSomeReadBytes w else .ok () w
  | none => .ok () w

/-- `else if (++numReads >= discardAfterReads)` of `resetCumulation`, which catches what is
thrown in it. -/
def countRead : Method Connection Unit := fun w =>
  let numReads := i32 (w.decoder.numReads + 1)
  if numReads ≥ w.decoder.discardAfterReads then
    match discardSomeReadBytes (w.setDecoder { w.decoder with numReads := 0 }) with
    | .throw _ w => .ok () w
    | o => o
  else .ok () (w.setDecoder { w.decoder with numReads := numReads })

/-- `resetCumulation()`: the buffer is released when nothing of it is unread. -/
def resetCumulation : Method Connection Unit := fun w =>
  match w.decoder.cumulation_ with
  | some c =>
    if charBuf.isReadable (w.heap c) then countRead w
    else (release c (w.setDecoder { w.decoder with numReads := 0 })).bind fun _ =>
      .modify fun w => w.setDecoder { w.decoder with cumulation_ := none }
  | none => countRead w

/-- The length fields that `decode` read, in the stream, where it began to read `in` at
`readerIndex`. -/
def fieldOffsets (w : Connection) (readerIndex : Int) (fields : List Int) : List Decoded :=
  fields.map fun i => .field (w.decoder.consumed + (i - readerIndex))

/-- What a call of `decode` on the buffer `c` leaves. -/
def decoded (w : Connection) (c : Nat) (s : Decoding) (outcome : List Decoded) : Connection :=
  let r := charBuf.readerIndex (w.heap c)
  (w.setBuf c s.buf).setDecoder { w.decoder with
    frameDecoder := s.decoder
    consumed := w.decoder.consumed + (charBuf.readerIndex s.buf - r)
    trace := w.decoder.trace ++ w.fieldOffsets r s.fields ++ outcome }

/-- `decodeRemovalReentryProtection(ctx, in, out)`: the event that is added to `out`. -/
def decode (c : Nat) : Method Connection (Option Message) := fun w =>
  match LengthFieldBasedFrameDecoder.decode ⟨w.decoder.frameDecoder, w.heap c, []⟩ with
  | .ok none s => .ok none (w.decoded c s [])
  | .ok (some f) s =>
    .ok (some (.slice c f)) (w.decoded c s [.frame (s.buf.array_.read f.adjustment_.toNat f.length.toNat)])
  | .throw what s => .throw what (w.decoded c s [.exception what])
  | .ub => .ub
  | .hang => .hang

/-- What `callDecode` throws when an event was decoded of no bytes. -/
def didNotRead : String := "ByteToMessageDecoder::decode() did not read anything but decoded a message."

/-- The loop of `callDecode(ctx, in, out)`, in `fuel` rounds: what is in `out` and in `ex` at
its end. -/
def decodeLoop (hs : List Handler) (c : Nat) :
    Nat → List Message → String → Method Connection (List Message × String)
  | 0, _, _ => fun _ => .hang
  | fuel + 1, out, ex => fun w =>
    if !charBuf.isReadable (w.heap c) then .ok (out, ex) w
    else (fireAll hs out w).bind fun _ w =>
      let oldInputLength := charBuf.readableBytes (w.heap c)
      match decode c w with
      | .ok none w =>
        if oldInputLength = charBuf.readableBytes (w.heap c) then .ok ([], ex) w
        else decodeLoop hs c fuel [] ex w
      | .ok (some m) w =>
        if oldInputLength = charBuf.readableBytes (w.heap c) then decodeLoop hs c fuel [m] didNotRead w
        else if w.decoder.singleDecode then .ok ([m], ex) w
        else decodeLoop hs c fuel [m] ex w
      | .throw what w => decodeLoop hs c fuel [] what w
      | .ub => .ub
      | .hang => .hang

/-- `callDecode(ctx, in, out)`. -/
def callDecode (fuel : Nat) (hs : List Handler) (c : Nat) : Method Connection (List Message) := do
  let (out, ex) ← decodeLoop hs c fuel [] ""
  if ex ≠ "" then
    .modify fun w => { w with dropped := w.dropped ++ out }
    .throw ex
  else pure out

/-- The `try` block of `ByteToMessageDecoder::channelRead`, up to the last `fireChannelRead`. -/
def decodeRead (fuel : Nat) (hs : List Handler) (data : Nat) : Method Connection (List Message) := do
  .modify fun w => w.setDecoder { w.decoder with first := w.decoder.cumulation_.isNone }
  match ← .get fun w => w.decoder.cumulation_ with
  | none =>
    .modify fun w => w.setDecoder { w.decoder with cumulation_ := some data }
    retain data
  | some c =>
    let c ← cumulate c data
    .modify fun w => w.setDecoder { w.decoder with cumulation_ := some c }
  let c ← (← .get fun w => w.decoder.cumulation_) |> deref
  callDecode fuel hs c

/-- `ByteToMessageDecoder::channelRead(ctx, event)`, `data` the event's message. -/
def channelRead (fuel : Nat) (hs : List Handler) (data : Nat) : Method Connection Unit := fun w =>
  match decodeRead fuel hs data w with
  | .ok out w => (resetCumulation w).bind fun _ => fireAll hs out
  | .throw what w => (resetCumulation w).bind fun _ => .throw what
  | .ub => .ub
  | .hang => .hang

/-- `ByteToMessageDecoder::channelInactive(ctx)`. -/
def channelInactive : Method Connection Unit := fun w =>
  match w.decoder.cumulation_ with
  | some c => (release c w).bind fun _ => .modify fun w => w.setDecoder { w.decoder with cumulation_ := none }
  | none => .ok () w

/-! ## AbstractConnection -/

variable (p : Pipeline) (fuel : Nat)

/-- `pipeline_->fireChannelRead(event)` with a buffer. -/
def fireChannelRead (b : Nat) : Method Connection Unit := fun w =>
  if p.decoder then
    invokeHandlers w.fired.length (fun _ => channelRead fuel p.after b) p.before (.whole b) w
  else fire (p.before ++ p.after) (.whole b) w

/-- `pipeline_->fireChannelInactive()`. -/
def fireChannelInactive : Method Connection Unit := fun w =>
  if p.decoder then channelInactive w else .ok () w

/-- `freeBuffer()`: the read buffer is released. -/
def freeBuffer : Method Connection Unit := fun w =>
  match w.cumulation_ with
  | some b => (release b w).bind fun _ => .modify fun w => { w with cumulation_ := none }
  | none => .ok () w

/-- `recvBufAllocHandle()`. -/
def recvBufAllocHandle (w : Connection) : HandleImpl := w.recvHandle.getD .default

/-- The part of `adjustReadBuffer()` that allocates. -/
def newReadBuffer (guess : Int) : Method Connection Unit := do
  freeBuffer
  .modify fun w => { w with readBufferLen_ := guess }
  let b ← heapBuffer guess
  .modify fun w => { w with cumulation_ := b }

theorem freeBuffer_release (w : Connection) : ∃ w', freeBuffer w = .ok () w' ∧ w'.next = w.next ∧
    w'.recvHandle = w.recvHandle ∧ w'.connected_ = w.connected_ ∧
    ∀ b, ∃ k, w'.heap b = { w.heap b with refCnt_ := k } := by
  cases hb : w.cumulation_ with
  | none => exact ⟨w, by simp only [freeBuffer, hb], rfl, rfl, rfl, fun _ => ⟨_, rfl⟩⟩
  | some c =>
    refine ⟨{ w.setBuf c ((w.heap c).release 1) with cumulation_ := none }, by simp only [freeBuffer, hb]; rfl, rfl,
      rfl, rfl, setBuf_release_heap w c⟩

/-- The old buffer loses a reference, and the new one has its first. -/
theorem newReadBuffer_new (w : Connection) {g : Int} (h0 : 0 < g) (hg : g ≤ intMax) :
    ∃ w', newReadBuffer g w = .ok () w' ∧ w'.cumulation_ = some w.next ∧ w'.next = w.next + 1 ∧
      w'.heap w.next = UnpooledHeapCharBuf.new g intMax ∧ w'.recvHandle = w.recvHandle ∧
      w'.connected_ = w.connected_ ∧ ∀ b, b ≠ w.next → ∃ k, w'.heap b = { w.heap b with refCnt_ := k } := by
  obtain ⟨w₁, e, hn, hr, hc, hh⟩ := freeBuffer_release w
  refine ⟨{ w₁.setBuf w₁.next (UnpooledHeapCharBuf.new g intMax) with
      readBufferLen_ := g, next := w₁.next + 1, cumulation_ := some w₁.next }, ?_, congrArg some hn,
    congrArg (· + 1) hn, ?_, hr, hc, fun b hb => ?_⟩
  · simp only [newReadBuffer, Method.bind_apply, e, Outcome.bind_ok, Method.modify_apply, heapBuffer]
    rw [if_neg (by omega)]
    rfl
  · rw [← hn]
    exact setBuf_heap_self ..
  · obtain ⟨k, hk⟩ := hh b
    exact ⟨k, (setBuf_heap_of_ne _ _ (hn ▸ hb)).trans hk⟩

/-- A buffer of the size that the handle guesses. -/
def fitReadBuffer : Method Connection Unit := fun w =>
  let guess := w.recvBufAllocHandle.guess
  match w.cumulation_ with
  | none => newReadBuffer guess w
  | some b =>
    if w.readBufferLen_ ≠ guess ∨ !charBuf.isWritable (w.heap b) then
      if guess < w.readBufferLen_ then on b (UnpooledHeapCharBuf.setCapacity guess) w
      else newReadBuffer guess w
    else .ok () w

/-- `adjustReadBuffer()`, with what the handle is told of the room there is. -/
def adjustReadBuffer : Method Connection Unit := do
  .modify fun w => { w with recvHandle := some w.recvBufAllocHandle }
  fitReadBuffer
  let b ← (← .get fun w => w.cumulation_) |> deref
  .modify fun w => { w with
    recvHandle := some (w.recvBufAllocHandle.attemptedBytesRead (charBuf.writableBytes (w.heap b))).reset }

/-- `record(len)`. -/
def record (len : Int) : Method Connection Unit := .modify fun w =>
  let h := w.recvBufAllocHandle
  { w with recvHandle := some (if len > 0 then h.lastBytesRead len else h).readComplete }

/-- `discardSomeBytes()`: a read buffer that others hold is left to them. -/
def discardSomeBytes : Method Connection Unit := do
  let b ← (← .get fun w => w.cumulation_) |> deref
  if (← .get fun w => (w.heap b).refCnt_) > 1 then freeBuffer else on b charBuf.discardSomeReadBytes

/-- `messageReceived(len)`. -/
def messageReceived (len : Int) : Method Connection Unit := do
  record len
  let b ← (← .get fun w => w.cumulation_) |> deref
  fireChannelRead p fuel b
  discardSomeBytes

/-- `close()`; the socket is not part of the model. -/
def close : Method Connection Unit := fun w =>
  if !w.connected_ then .ok () w
  else (freeBuffer { w with connected_ := false }).bind fun _ =>
    .modify fun w => { w with recvHandle := none }

/-- What the socket has put behind the writer index, and the completion handler's first line:
`cumulation_->writerIndex(cumulation_->writerIndex() + bytes_transferred)`. -/
def received (bytes : List UInt8) : Method Connection Nat := do
  let b ← (← .get fun w => w.cumulation_) |> deref
  on b fun x => UnpooledHeapCharBuf.poke x.indices.writerIndex_ bytes x
  on b fun x => charBuf.setWriterIndex (i32 (x.indices.writerIndex_ + bytes.length)) x
  pure b

/-- What a read brings is behind what there was. -/
theorem received_appended {w : Connection} {b : Nat} {bytes : List UInt8} (hb : w.cumulation_ = some b)
    (hs : (w.heap b).Sound) (hlen : bytes.length ≤ charBuf.writableBytes (w.heap b)) :
    ∃ x, received bytes w = .ok b (w.setBuf b x) ∧ UnpooledHeapCharBuf.Appended (w.heap b) bytes x ∧
      x.capacity_ = (w.heap b).capacity_ := by
  have hr := hs.reader_nonneg
  have hrw := hs.reader_le
  have hw := hs.writer_le
  have hpow := hs.capacity_le_pow
  rw [hs.toValid.writableBytes] at hlen
  have hpoke : UnpooledHeapCharBuf.poke (w.heap b).indices.writerIndex_ bytes (w.heap b) =
      .ok () { w.heap b with array_ := (w.heap b).array_.write (w.heap b).indices.writerIndex_.toNat bytes } :=
    if_pos ⟨by omega, by omega⟩
  have hs' : UnpooledHeapCharBuf.Sound
      { w.heap b with array_ := (w.heap b).array_.write (w.heap b).indices.writerIndex_.toNat bytes } := { hs with }
  have hset := hs'.toValid.setWriterIndex (i := (w.heap b).indices.writerIndex_ + bytes.length)
    (show (w.heap b).indices.readerIndex_ ≤ _ by omega) (show _ ≤ (w.heap b).capacity_ by omega)
  refine ⟨_, ?_, ⟨hs'.withWriter (i := (w.heap b).indices.writerIndex_ + bytes.length)
    (show (w.heap b).indices.readerIndex_ ≤ _ by omega) (show _ ≤ (w.heap b).capacity_ by omega), rfl, rfl, rfl,
    fun k hk => Mem.write_of_lt (by omega), Mem.read_write_self _ _ _⟩, rfl⟩
  rw [received]
  simp only [Method.bind_apply, Method.get_apply, Outcome.bind_ok, hb, deref, on, hpoke, setBuf_heap_self]
  rw [i32_eq (by omega) (by omega), hset]
  simp only [Outcome.bind_ok, setBuf_setBuf]
  rfl

/-- `handleRead` with an error, of either kind of connection. -/
def handleReadError : Method Connection Unit := do
  close
  fireChannelInactive p

/-- `TcpConnection::handleRead(ec, bytes_transferred)` without an error. -/
def tcpHandleRead (bytes : List UInt8) : Method Connection Unit := do
  discard (received bytes)
  messageReceived p fuel bytes.length
  adjustReadBuffer

/-- `streamMsgs_.find(stream_no)`. -/
def streamMsg (w : Connection) (stream_no : Nat) : Option Nat := w.streamMsgs_.lookup stream_no

/-- `SctpConnection::appendMessage(stream_no, buf)`. -/
def appendMessage (stream_no : Nat) (buf : Nat) : Method Connection Unit := fun w =>
  match w.streamMsg stream_no with
  | some m => writeChars m buf w
  | none =>
    (do
      let buffer ← (← heapBuffer (i32 (charBuf.readableBytes (w.heap buf) * 2))) |> deref
      writeChars buffer buf
      .modify fun w => { w with streamMsgs_ := (stream_no, buffer) :: w.streamMsgs_ }) w

/-- `SctpConnection::getAndRemoveMessage(stream_no)`. -/
def getAndRemoveMessage (stream_no : Nat) : Method Connection (Option Nat) := fun w =>
  .ok (w.streamMsg stream_no) { w with streamMsgs_ := w.streamMsgs_.eraseP (·.1 == stream_no) }

/-- With `flags & MSG_EOR`: the read buffer is the message, or the end of one. -/
def endOfRecord (stream_no : Nat) (c : Nat) (len : Int) : Method Connection Unit := do
  match ← getAndRemoveMessage stream_no with
  | none =>
    retain c
    messageReceived p fuel len
  | some buf =>
    writeChars buf c
    record len
    fireChannelRead p fuel buf
    discardSomeBytes

/-- Without it. -/
def partOfRecord (stream_no : Nat) (c : Nat) (len : Int) : Method Connection Unit := do
  record len
  appendMessage stream_no c
  discardSomeBytes

/-- `SctpConnection::handleRead(stream_no, flags, ec, bytes_transferred)` without an error;
`eor` is `flags & MSG_EOR`. -/
def sctpHandleRead (stream_no : Nat) (eor : Bool) (bytes : List UInt8) : Method Connection Unit := do
  let c ← received bytes
  (if eor then endOfRecord p fuel stream_no c bytes.length else partOfRecord stream_no c bytes.length)
  adjustReadBuffer

/-! ## Runs -/

/-- A connection as its constructor leaves it, but for the read buffer. -/
def blank (d : LengthFieldBasedFrameDecoder) : Connection where
  heap _ := { UnpooledHeapCharBuf.new 0 intMax with refCnt_ := 0 }
  next := 0
  connected_ := false
  cumulation_ := none
  readBufferLen_ := 0
  recvHandle := none
  streamMsgs_ := []
  decoder := .new d
  fired := []
  held := []
  dropped := []
  caught := []

/-- `handleConnected` without an error: `startReadMessage()`. -/
def startReading : Method Connection Unit := do
  .modify fun w => { w with connected_ := true }
  adjustReadBuffer

end Connection

/-- What happens to a connection. -/
inductive Input
  | connect
  /-- A read completion of a `TcpConnection`. -/
  | read (bytes : List UInt8)
  /-- A read completion of an `SctpConnection`: the stream, `MSG_EOR` and the bytes. -/
  | fragment (stream_no : Nat) (eor : Bool) (bytes : List UInt8)
  /-- A read completion with an error. -/
  | error
  /-- A handler releases a message it had kept. -/
  | release (m : Message)

namespace Input

/-- What can happen: a read brings at least one byte, and no more than fit into the read buffer. -/
def Enabled (w : Connection) : Input → Prop
  | .connect => w.connected_ = false
  | .read bytes | .fragment _ _ bytes => bytes ≠ [] ∧ w.connected_ = true ∧
      ∃ b ∈ w.cumulation_, bytes.length ≤ charBuf.writableBytes (w.heap b)
  | .error => w.connected_ = true
  | .release m => m ∈ w.held

instance (w : Connection) (e : Input) : Decidable (e.Enabled w) :=
  match e with
  | .connect => inferInstanceAs (Decidable (_ = _))
  | .read _ => inferInstanceAs (Decidable (_ ∧ _))
  | .fragment _ _ _ => inferInstanceAs (Decidable (_ ∧ _))
  | .error => inferInstanceAs (Decidable (_ = _))
  | .release _ => inferInstanceAs (Decidable (_ ∈ _))

/-- What a connection does then, with `fuel` rounds for the loop of the decoder. -/
def handle (p : Pipeline) (fuel : Nat) : Input → Method Connection Unit
  | .connect => Connection.startReading
  | .read bytes => Connection.tcpHandleRead p fuel bytes
  | .fragment stream_no eor bytes => Connection.sctpHandleRead p fuel stream_no eor bytes
  | .error => Connection.handleReadError p
  | .release m => fun w => Connection.release m.buf { w with held := w.held.erase m }

end Input

/-- One input, which the connection deals with without an exception: the loop of the decoder
ends after some number of rounds. -/
structure Step (p : Pipeline) (w : Connection) (e : Input) (w' : Connection) : Prop where
  enabled : e.Enabled w
  handled : ∃ fuel, e.handle p fuel w = .ok () w'

/-- The constructor calls `adjustReadBuffer()` before there are any handlers. -/
def Started (d : LengthFieldBasedFrameDecoder) (w : Connection) : Prop :=
  Connection.adjustReadBuffer (Connection.blank d) = .ok () w

/-! Runs that compute -/

namespace Connection

/-- A connection as its constructor leaves it. -/
def start (d : LengthFieldBasedFrameDecoder) : Option Connection := (adjustReadBuffer (blank d)).ok?

/-- A run whose steps pass a check. -/
def run (check : Connection → Input → Bool) (p : Pipeline) (fuel : Nat) : List Input → Connection → Option Connection
  | [], w => some w
  | e :: es, w =>
    if check w e = true ∧ e.Enabled w then (e.handle p fuel w).ok?.bind (run check p fuel es) else none

theorem run_sound {check : Connection → Input → Bool} {p : Pipeline} {fuel : Nat} {es : List Input}
    {w w' : Connection} (h : run check p fuel es w = some w') :
    Run (fun w e w' => check w e = true ∧ Step p w e w') w es w' := by
  induction es generalizing w with
  | nil => cases h; exact .nil
  | cons e es ih =>
    rw [run] at h
    split at h
    · rename_i hc
      obtain ⟨w₁, h1, h2⟩ := Option.bind_eq_some_iff.mp h
      exact .cons ⟨hc.1, hc.2, fuel, Outcome.ok?_eq_some.mp h1⟩ (ih h2)
    · cases h

/-- A run that a computation finds. -/
theorem exists_run_of {d : LengthFieldBasedFrameDecoder} {p : Pipeline} (check : Connection → Input → Bool)
    (es : List Input) (fuel : Nat) {P : Connection → Prop} [DecidablePred P]
    (h : ((start d).bind (run check p fuel es)).any (P ·) = true) :
    ∃ w₀ w, Started d w₀ ∧ Run (fun w e w' => check w e = true ∧ Step p w e w') w₀ es w ∧ P w := by
  obtain ⟨w, hw, hP⟩ := (Option.any_eq_true _ _).mp h
  obtain ⟨w₀, h0, hrun⟩ := Option.bind_eq_some_iff.mp hw
  exact ⟨w₀, w, Outcome.ok?_eq_some.mp h0, run_sound hrun, of_decide_eq_true hP⟩

theorem exists_run {d : LengthFieldBasedFrameDecoder} {p : Pipeline} (es : List Input) (fuel : Nat)
    {P : Connection → Prop} [DecidablePred P]
    (h : ((start d).bind (run (fun _ _ => true) p fuel es)).any (P ·) = true) :
    ∃ w₀ w, Started d w₀ ∧ Run (Step p) w₀ es w ∧ P w := by
  obtain ⟨w₀, w, h0, hrun, hP⟩ := exists_run_of _ es fuel h
  exact ⟨w₀, w, h0, hrun.mono fun _ _ _ h => h.2, hP⟩

end Connection

end Nio.Net
