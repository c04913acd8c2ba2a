import NioSocket.Net.TcpConnection

/-!
# What a connection keeps of the bytes it has read

The read loop of a connection: `startReadMessage` adjusts the read buffer and posts a read, the
read appends some bytes, and a handler consumes any number of those that are readable. `received`
and `consumed` are all the bytes that were read, and all that were consumed. The size of the
buffer follows the guesses of the adaptive allocator.
-/

namespace Nio.Net

open Buffer (UnpooledHeapCharBuf)
open Buffer.UnpooledHeapCharBuf (charBuf)

/-! ## The guesses -/

/-- Every size in the table is even, and a power of two can hold it. -/
theorem SizeTable.getSize_bounds (index : Int) :
    16 ≤ SizeTable.getSize index ∧ SizeTable.getSize index ≤ 2 ^ 30 ∧ 2 ∣ SizeTable.getSize index := by
  have h : ∀ x ∈ SizeTable.sizes, 16 ≤ x ∧ x ≤ 2 ^ 30 ∧ 2 ∣ x := by decide
  have hentry : ∀ i : Int, i < SizeTable.sizes.length → SizeTable.entry i ∈ SizeTable.sizes := fun i hi => by
    have hlen : 0 < SizeTable.sizes.length := by decide
    rw [SizeTable.entry, List.getD_eq_getElem _ _ (by omega)]
    exact List.getElem_mem _
  refine h _ ?_
  unfold SizeTable.getSize
  split
  · exact hentry 0 (by decide)
  · split
    · exact hentry _ (by omega)
    · exact hentry _ (by omega)

namespace HandleImpl

variable {h : HandleImpl}

/-- The guess is a size of the table. -/
def Sized (h : HandleImpl) : Prop := ∃ index, h.guess = SizeTable.getSize index

theorem new_sized {minIndex maxIndex initial : Int} (e : new minIndex maxIndex initial = some h) : h.Sized := by
  obtain ⟨index, -, e'⟩ := Option.bind_eq_some_iff.mp e
  cases e'
  exact ⟨index, rfl⟩

theorem Sized.record (hs : h.Sized) (n : Int) : (h.record n).Sized := by
  unfold HandleImpl.record
  split
  · split
    · exact ⟨_, rfl⟩
    · exact hs
  · split
    · exact ⟨_, rfl⟩
    · exact hs

theorem Sized.lastBytesRead (hs : h.Sized) (n : Int) : (h.lastBytesRead n).Sized := by
  unfold HandleImpl.lastBytesRead
  split
  · exact hs.record n
  · exact hs

theorem Sized.guess (hs : h.Sized) : 16 ≤ h.guess ∧ h.guess ≤ 2 ^ 30 ∧ 2 ∣ h.guess := by
  obtain ⟨index, e⟩ := hs
  rw [e]
  exact SizeTable.getSize_bounds index

end HandleImpl

/-! ## The loop -/

/-- A connection in its read loop. -/
structure ReadLoop where
  connection : Connection
  posted : Bool
  received : List UInt8
  consumed : List UInt8

/-- What happens in the loop of a connection that reads. -/
inductive LoopEvent
  /-- `startReadMessage()`. -/
  | adjust
  /-- A read completion, and how many bytes the handler consumes then. -/
  | read (bytes : List UInt8) (n : Nat)
  deriving DecidableEq

namespace ReadLoop

variable {t t' : ReadLoop} {e : LoopEvent} {b : Nat}

/-- The bytes that are readable in the read buffer. -/
def unread (t : ReadLoop) : List UInt8 :=
  match t.connection.cumulation_ with
  | some b => (t.connection.heap b).readable
  | none => []

/-- A member function of the connection. -/
def on {α : Type} (m : Method Connection α) : Method ReadLoop α := fun t =>
  match m t.connection with
  | .ok a w => .ok a { t with connection := w }
  | .throw what w => .throw what { t with connection := w }
  | .ub => .ub
  | .hang => .hang

/-- The next read is posted. -/
def adjust : Method ReadLoop Unit := do
  on TcpConnection.startReadMessage
  .modify fun t => { t with posted := true }

/-- `handleRead`, up to the next `startReadMessage`; the handler consumes `n` of the bytes that are readable
then, or all of them. -/
def read (bytes : List UInt8) (n : Nat) : Method ReadLoop Unit := do
  let b ← on (Connection.received bytes)
  .modify fun t => { t with
    posted := false
    received := t.received ++ bytes
    consumed := t.consumed ++ (t.connection.heap b).readable.take n }
  on (TcpConnection.messageReceived bytes.length [.read n])

end ReadLoop

namespace LoopEvent

/-- A read brings at least one byte, and no more than fit into the buffer. -/
def Enabled (t : ReadLoop) : LoopEvent → Prop
  | .adjust => t.posted = false
  | .read bytes _ => t.posted = true ∧ bytes ≠ [] ∧
      ∃ b ∈ t.connection.cumulation_, bytes.length ≤ charBuf.writableBytes (t.connection.heap b)

instance (t : ReadLoop) (e : LoopEvent) : Decidable (e.Enabled t) :=
  match e with
  | .adjust => inferInstanceAs (Decidable (_ = _))
  | .read _ _ => inferInstanceAs (Decidable (_ ∧ _))

/-- What the connection does at an event. -/
def handle : LoopEvent → Method ReadLoop Unit
  | .adjust => ReadLoop.adjust
  | .read bytes n => ReadLoop.read bytes n

/-- What is in the buffer fits below the size it is shrunk to; and a buffer that is replaced, because the
guess is another and not smaller or because it is full, has no unread bytes. -/
def Meets (t : ReadLoop) : LoopEvent → Prop
  | .adjust => ∀ b ∈ t.connection.cumulation_,
      let x := t.connection.heap b
      let guess := t.connection.recvBufAllocHandle.guess
      if guess < t.connection.readBufferLen_ then charBuf.writerIndex x < guess
      else guess = t.connection.readBufferLen_ ∧ charBuf.isWritable x ∨ ¬charBuf.isReadable x
  | .read _ _ => True

end LoopEvent

namespace ReadLoop

variable {t t' : ReadLoop} {e : LoopEvent} {b : Nat}

/-- What was consumed is a prefix of what was received, and the rest is readable; and a read that is posted
has room. -/
structure Conserved (t : ReadLoop) : Prop where
  unread : t.consumed ++ t.unread = t.received
  room : t.posted = true → ∃ b ∈ t.connection.cumulation_, 0 < charBuf.writableBytes (t.connection.heap b)

/-- Before the first read, with a handle of an allocator that accepts its sizes. -/
def Started (t : ReadLoop) : Prop :=
  ∃ d minimum initial maximum minIndex maxIndex initial_ h,
    AdaptiveRecvByteBufAllocator.init minimum initial maximum = .ok (some (minIndex, maxIndex, initial_)) ∧
    HandleImpl.new minIndex maxIndex initial_ = some h ∧
    t = ⟨{ Connection.blank d with recvHandle := some h }, false, [], []⟩

/-- An event that can happen, and that the connection deals with. -/
structure Step (t : ReadLoop) (e : LoopEvent) (t' : ReadLoop) : Prop where
  enabled : e.Enabled t
  handled : e.handle t = .ok () t'

/-! ## One step -/

/-- What the loop keeps: one buffer in order, with one reference. -/
structure Inv (t : ReadLoop) : Prop where
  handle : t.connection.recvBufAllocHandle.Sized
  next : ∀ b ∈ t.connection.cumulation_, b < t.connection.next
  sound : ∀ b ∈ t.connection.cumulation_, (t.connection.heap b).Sound
  refCnt : ∀ b ∈ t.connection.cumulation_, (t.connection.heap b).refCnt_ = 1

theorem Inv.of_buffer (hb : t.connection.cumulation_ = some b) (hn : b < t.connection.next)
    (hs : (t.connection.heap b).Sound) (h1 : (t.connection.heap b).refCnt_ = 1)
    (hh : t.connection.recvBufAllocHandle.Sized) : Inv t := by
  refine ⟨hh, fun c hc => ?_, fun c hc => ?_, fun c hc => ?_⟩
  all_goals
    obtain rfl : b = c := Option.some.inj (hb.symm.trans hc)
    assumption

theorem unread_of_buffer (hb : t.connection.cumulation_ = some b) : t.unread = (t.connection.heap b).readable := by
  rw [unread, hb]

theorem on_ok {α : Type} {m : Method Connection α} {a : α} {w : Connection} (h : m t.connection = .ok a w) :
    on m t = .ok a { t with connection := w } := by
  rw [on, h]

/-- `discardSomeBytes` with a buffer that nobody else refers to. -/
theorem discardSomeBytes_alone {w : Connection} {x : UnpooledHeapCharBuf} (hb : w.cumulation_ = some b)
    (h1 : (w.heap b).refCnt_ = 1) (hx : charBuf.discardSomeReadBytes (w.heap b) = .ok () x) :
    Connection.discardSomeBytes w = .ok () (w.setBuf b x) := by
  simp only [Connection.discardSomeBytes, Method.bind_apply, Method.get_apply, Outcome.bind_ok, hb, Connection.deref,
    Method.ite_apply]
  rw [if_neg (by omega), Connection.on, hx]

/-- The event, and what `discardSomeBytes` leaves of a buffer that nobody else refers to. -/
theorem messageReceived_eq {w : Connection} (hb : w.cumulation_ = some b) (hs : (w.heap b).Sound)
    (h1 : (w.heap b).refCnt_ = 1) (hh : w.recvBufAllocHandle.Sized) (len n : Nat) :
    ∃ x h, TcpConnection.messageReceived len [.read n] w = .ok () { w.setBuf b x with recvHandle := some h } ∧
      x.Sound ∧ x.refCnt_ = 1 ∧ x.readable = (w.heap b).readable.drop n ∧ h.Sized := by
  have hr := hs.reader_nonneg
  have hrw := hs.reader_le
  have hl := UnpooledHeapCharBuf.length_readable (w.heap b)
  obtain ⟨h, e₁, hsized⟩ : ∃ h, Connection.record len w = .ok () { w with recvHandle := some h } ∧ h.Sized := by
    refine ⟨_, rfl, HandleImpl.Sized.record ?_ _⟩
    split
    · exact hh.lastBytesRead _
    · exact hh
  -- the handler moves the reader index
  let z := (w.heap b).withReader ((w.heap b).indices.readerIndex_ + (min n (w.heap b).readable.length : Nat))
  have hz : z.Sound := hs.withReader (by omega) (by omega)
  obtain ⟨y, e₂, hd⟩ := hz.discardSomeReadBytes
  refine ⟨y, h, ?_, hd.sound, hd.refCnt.trans h1, ?_, hsized⟩
  · have e₃ : TcpConnection.cumulation { w with recvHandle := some h } = .ok b { w with recvHandle := some h } :=
      TcpConnection.cumulation_eq hb
    have e₄ := discardSomeBytes_alone (w := { w with recvHandle := some h }.setBuf b z) hb
      (by rw [Connection.setBuf_heap_self]; exact h1) (by rw [Connection.setBuf_heap_self]; exact e₂)
    simp only [TcpConnection.messageReceived, Method.bind_apply, e₁, Outcome.bind_ok, e₃]
    exact e₄.trans (congrArg (Outcome.ok ()) (Connection.setBuf_setBuf ..))
  · rw [hd.readable, UnpooledHeapCharBuf.readable_withReader hr (Nat.min_le_right ..)]
    rcases Nat.le_total n (w.heap b).readable.length with hle | hle
    · rw [Nat.min_eq_left hle]
    · rw [Nat.min_eq_right hle, List.drop_length, List.drop_eq_nil_of_le hle]

/-- A read and its event, which carries what was left unread and then the bytes that were read. -/
theorem Inv.of_read {bytes : List UInt8} {n : Nat} (h : Inv t) (he : (LoopEvent.read bytes n).Enabled t)
    (hc : t.Conserved) : ∃ t', Step t (.read bytes n) t' ∧ Inv t' ∧ t'.Conserved := by
  obtain ⟨-, -, b, hb, hlen⟩ := id he
  have hs := h.sound b hb
  obtain ⟨x, e₁, ha, -⟩ := Connection.received_appended hb hs hlen
  have hx := Connection.setBuf_heap_self t.connection b x
  obtain ⟨y, a, e₂, hy, hy1, hyr, ha'⟩ := messageReceived_eq (w := t.connection.setBuf b x) hb
    (by rw [hx]; exact ha.sound) (by rw [hx, ha.refCnt, h.refCnt b hb]) h.handle bytes.length n
  rw [hx] at hyr
  obtain ⟨w, hw⟩ : ∃ w, w = { (t.connection.setBuf b x).setBuf b y with recvHandle := some a } := ⟨_, rfl⟩
  have hself : w.heap b = y := hw ▸ Connection.setBuf_heap_self (t.connection.setBuf b x) b y
  have hwb : w.cumulation_ = some b := hw ▸ hb
  refine ⟨⟨w, false, t.received ++ bytes, t.consumed ++ x.readable.take n⟩, ⟨he, ?_⟩,
    .of_buffer hwb (hw ▸ h.next b hb) (hself ▸ hy) (hself ▸ hy1) (hw ▸ ha'), ?_, nofun⟩
  · simp only [LoopEvent.handle, read, Method.bind_apply, on_ok e₁, Outcome.bind_ok, Method.modify_apply]
    rw [hx, hw]
    exact on_ok e₂
  · have hr : ReadLoop.unread ⟨w, false, t.received ++ bytes, t.consumed ++ x.readable.take n⟩ =
        x.readable.drop n := (unread_of_buffer hwb).trans (hself ▸ hyr)
    rw [hr, List.append_assoc, List.take_append_drop, ha.readable hs, ← unread_of_buffer hb, ← List.append_assoc,
      hc.unread]

/-- The read buffer for the next read: the buffer that fits the guess, and the handle that knows of it. -/
theorem startReadMessage_eq {w w₁ : Connection} (hh : w.recvBufAllocHandle.Sized) (hb : w₁.cumulation_ = some b)
    (hr : w₁.recvHandle = some w.recvBufAllocHandle)
    (e : Connection.fitReadBuffer { w with recvHandle := some w.recvBufAllocHandle } = .ok () w₁) :
    ∃ h, TcpConnection.startReadMessage w = .ok () { w₁ with recvHandle := some h } ∧ h.Sized := by
  refine ⟨(w.recvBufAllocHandle.attemptedBytesRead (charBuf.writableBytes (w₁.heap b))).reset, ?_, hh⟩
  have hw₁ : w₁.recvBufAllocHandle = w.recvBufAllocHandle := by rw [Connection.recvBufAllocHandle, hr]; rfl
  generalize hw₂ : ({ w₁ with recvHandle := some (w.recvBufAllocHandle.attemptedBytesRead
    (charBuf.writableBytes (w₁.heap b))).reset } : Connection) = w₂
  have e' : Connection.adjustReadBuffer w = .ok () w₂ := by
    simp only [Connection.adjustReadBuffer, Method.bind_apply, Method.modify_apply, Outcome.bind_ok, e,
      Method.get_apply, hb, Connection.deref, hw₁]
    rw [← hb, hw₂]
  rw [TcpConnection.startReadMessage, Method.bind_apply, e', Outcome.bind_ok]
  show (TcpConnection.cumulation w₂).bind _ = _
  rw [TcpConnection.cumulation_eq (b := b) (hw₂ ▸ hb)]
  rfl

/-- What `startReadMessage` leaves, with the buffer `x` that it reads into. -/
theorem Inv.posted {w : Connection} {x : UnpooledHeapCharBuf} (hh : t.connection.recvBufAllocHandle.Sized)
    (he : t.posted = false) (hb : w.cumulation_ = some b) (hn : b < w.next) (hx : w.heap b = x) (hs : x.Sound)
    (h1 : x.refCnt_ = 1) (hr : w.recvHandle = some t.connection.recvBufAllocHandle)
    (e : Connection.fitReadBuffer { t.connection with recvHandle := some t.connection.recvBufAllocHandle } = .ok () w) :
    ∃ t', Step t .adjust t' ∧ Inv t' ∧
      (t'.Conserved ↔ t.consumed ++ x.readable = t.received ∧ x.indices.writerIndex_ < x.capacity_) := by
  obtain ⟨h, e', hh'⟩ := startReadMessage_eq hh hb hr e
  have hself : ({ w with recvHandle := some h } : Connection).heap b = x := hx
  refine ⟨⟨{ w with recvHandle := some h }, true, t.received, t.consumed⟩, ⟨he, ?_⟩,
    .of_buffer hb hn (hself ▸ hs) (hself ▸ h1) hh', fun hc => ⟨?_, ?_⟩, fun hc => ⟨?_, fun _ => ⟨b, hb, ?_⟩⟩⟩
  · rw [LoopEvent.handle, adjust, Method.bind_apply, on_ok e']
    rfl
  · have := hc.unread
    rwa [unread_of_buffer hb, hself] at this
  · obtain ⟨c, hc, hroom⟩ := hc.room rfl
    obtain rfl : b = c := Option.some.inj (hb.symm.trans hc)
    rw [hself, hs.toValid.writableBytes] at hroom
    omega
  · rw [unread_of_buffer hb, hself]
    exact hc.1
  · rw [hself, hs.toValid.writableBytes]
    omega

/-- Shrinking below what is written leaves no room. -/
theorem setCapacity_full {x : UnpooledHeapCharBuf} {n : Int} (hs : x.Sound) (h0 : 0 < n) (h2 : 2 ∣ n)
    (hn : n ≤ x.indices.writerIndex_) :
    ∃ y, UnpooledHeapCharBuf.setCapacity n x = .ok () y ∧ y.Sound ∧ y.refCnt_ = x.refCnt_ ∧
      y.capacity_ ≤ y.indices.writerIndex_ := by
  have hw := hs.writer_le
  have hp := hs.capacity_le_pow
  obtain ⟨y, e, hr⟩ := hs.setCapacity h0 h2 (by omega)
  refine ⟨y, e, hr.sound, hr.refCnt, ?_⟩
  rw [hr.capacity]
  by_cases heq : x.capacity_ = n
  · rw [hr.indices (by omega)]
    exact hn
  · have ht : ∃ r, UnpooledHeapCharBuf.trim n { x with capacity_ := n } = .ok () { x with
        capacity_ := n, indices := { x.indices with readerIndex_ := r, writerIndex_ := n } } := by
      have hm := hs.capacity_le
      have hr := hs.reader_nonneg
      simp only [UnpooledHeapCharBuf.trim]
      split
      · split
        · rw [Buffer.CharBuf.checkIndexBounds_ok hr (by omega) (by omega)]
          exact ⟨_, rfl⟩
        · obtain rfl : n = x.indices.writerIndex_ := by omega
          exact ⟨_, rfl⟩
      · exact ⟨n, rfl⟩
    obtain ⟨r, ht⟩ := ht
    simp only [UnpooledHeapCharBuf.setCapacity] at e
    rw [if_neg heq, if_pos (by omega), ht] at e
    cases e
    exact Int.le_refl n

/-- Adjusting the read buffer keeps what is unread, with room for more, exactly if the condition holds. -/
theorem Inv.of_adjust (h : Inv t) (he : LoopEvent.adjust.Enabled t) (hc : t.Conserved) :
    ∃ t', Step t .adjust t' ∧ Inv t' ∧ (t'.Conserved ↔ LoopEvent.adjust.Meets t) := by
  have hg := h.handle.guess
  generalize hw : ({ t.connection with recvHandle := some t.connection.recvBufAllocHandle } : Connection) = w
  have hlen : w.readBufferLen_ = t.connection.readBufferLen_ := hw ▸ rfl
  have hheap : w.heap = t.connection.heap := hw ▸ rfl
  have hnext : w.next = t.connection.next := hw ▸ rfl
  have hcum : w.cumulation_ = t.connection.cumulation_ := hw ▸ rfl
  have hrecv : w.recvHandle = some t.connection.recvBufAllocHandle := hw ▸ rfl
  have hguess : w.recvBufAllocHandle = t.connection.recvBufAllocHandle := hw ▸ rfl
  have hposted := fun (w' : Connection) b x => Inv.posted (t := t) (w := w') (b := b) (x := x) h.handle he
  rw [hw] at hposted
  -- a new buffer has room, and nothing in it
  have hnew : Connection.fitReadBuffer w = Connection.newReadBuffer t.connection.recvBufAllocHandle.guess w →
      ∃ t', Step t .adjust t' ∧ Inv t' ∧ (t'.Conserved ↔ t.unread = []) := fun e => by
    obtain ⟨w', e', hb, hn, hx, hr, -, -⟩ := Connection.newReadBuffer_new w
      (g := t.connection.recvBufAllocHandle.guess) (by omega) (by unfold intMax; omega)
    obtain ⟨t', hs, hi, hiff⟩ := hposted w' _ _ hb (by omega) hx
      (UnpooledHeapCharBuf.new_sound (by omega) hg.2.2 hg.2.1) rfl (hr.trans hrecv) (e.trans e')
    refine ⟨t', hs, hi, hiff.trans ⟨fun hr => ?_, fun hr => ⟨?_, ?_⟩⟩⟩
    · exact List.append_cancel_left (hc.unread.trans hr.1.symm)
    · show t.consumed ++ [] = t.received
      rw [← hr]
      exact hc.unread
    · show (0 : Int) < t.connection.recvBufAllocHandle.guess
      omega
  cases hb : t.connection.cumulation_ with
  | none =>
    obtain ⟨t', hs, hi, hiff⟩ := hnew (by simp only [Connection.fitReadBuffer, hcum, hb, hguess])
    refine ⟨t', hs, hi, hiff.trans ⟨fun _ b hb' => ?_, fun _ => by rw [unread, hb]⟩⟩
    rw [hb] at hb'
    cases hb'
  | some b =>
    have hs := h.sound b hb
    have hr := hs.reader_nonneg
    have hrw := hs.reader_le
    have hun := unread_of_buffer hb
    have hmeets : LoopEvent.adjust.Meets t ↔
        if t.connection.recvBufAllocHandle.guess < t.connection.readBufferLen_ then
          (t.connection.heap b).indices.writerIndex_ < t.connection.recvBufAllocHandle.guess
        else t.connection.recvBufAllocHandle.guess = t.connection.readBufferLen_ ∧
          (t.connection.heap b).indices.writerIndex_ < (t.connection.heap b).capacity_ ∨
          ¬(t.connection.heap b).indices.readerIndex_ < (t.connection.heap b).indices.writerIndex_ := by
      simp only [LoopEvent.Meets, hb, Option.mem_def, Option.some.injEq, forall_eq', Buffer.CharBuf.isWritable,
        Buffer.CharBuf.isReadable, decide_eq_true_eq]
      rfl
    have hfit : Connection.fitReadBuffer w =
        if t.connection.readBufferLen_ ≠ t.connection.recvBufAllocHandle.guess ∨
            !charBuf.isWritable (t.connection.heap b) then
          if t.connection.recvBufAllocHandle.guess < t.connection.readBufferLen_ then
            Connection.on b (UnpooledHeapCharBuf.setCapacity t.connection.recvBufAllocHandle.guess) w
          else Connection.newReadBuffer t.connection.recvBufAllocHandle.guess w
        else .ok () w := by
      simp only [Connection.fitReadBuffer, hcum, hb, hguess, hlen, hheap]
    have hnext' := h.next b hb
    have hw' : charBuf.isWritable (t.connection.heap b) =
        decide ((t.connection.heap b).indices.writerIndex_ < (t.connection.heap b).capacity_) := rfl
    rw [hmeets]
    by_cases hlt : t.connection.recvBufAllocHandle.guess < t.connection.readBufferLen_
    · -- the buffer gets the capacity that is guessed
      rw [if_pos (.inl (by omega)), if_pos hlt] at hfit
      rw [if_pos hlt]
      have hset : ∀ y, UnpooledHeapCharBuf.setCapacity t.connection.recvBufAllocHandle.guess (t.connection.heap b) =
          .ok () y → y.Sound → y.refCnt_ = (t.connection.heap b).refCnt_ → ∃ t', Step t .adjust t' ∧ Inv t' ∧
            (t'.Conserved ↔ t.consumed ++ y.readable = t.received ∧ y.indices.writerIndex_ < y.capacity_) :=
        fun y e hy h1 => hposted (w.setBuf b y) b y (hcum.trans hb) (hnext ▸ hnext')
          (Connection.setBuf_heap_self ..) hy (h1.trans (h.refCnt b hb)) hrecv
          (hfit.trans (by rw [Connection.on, hheap, e]))
      by_cases hfits : (t.connection.heap b).indices.writerIndex_ < t.connection.recvBufAllocHandle.guess
      · obtain ⟨y, e, hy⟩ := hs.setCapacity (n := t.connection.recvBufAllocHandle.guess) (by omega) hg.2.2 hg.2.1
        obtain ⟨t', hs', hi, hiff⟩ := hset y e hy.sound hy.refCnt
        refine ⟨t', hs', hi, hiff.trans ⟨fun _ => hfits, fun _ => ⟨?_, ?_⟩⟩⟩
        · rw [hy.readable (by omega), ← hun]
          exact hc.unread
        · rw [hy.indices (by omega), hy.capacity]
          exact hfits
      · obtain ⟨y, e, hy, h1, hfull⟩ := setCapacity_full hs (n := t.connection.recvBufAllocHandle.guess) (by omega)
          hg.2.2 (by omega)
        obtain ⟨t', hs', hi, hiff⟩ := hset y e hy h1
        exact ⟨t', hs', hi, hiff.trans ⟨fun hc' => by omega, fun h => absurd h hfits⟩⟩
    · rw [if_neg hlt]
      by_cases hkeep : t.connection.recvBufAllocHandle.guess = t.connection.readBufferLen_ ∧
          (t.connection.heap b).indices.writerIndex_ < (t.connection.heap b).capacity_
      · -- the buffer stays
        rw [if_neg (by simp [hw', hkeep.1, hkeep.2])] at hfit
        obtain ⟨t', hs', hi, hiff⟩ := hposted w b (t.connection.heap b) (hcum.trans hb) (hnext ▸ hnext') (by rw [hheap])
          hs (h.refCnt b hb) hrecv hfit
        exact ⟨t', hs', hi, hiff.trans ⟨fun _ => .inl hkeep, fun _ => ⟨hun ▸ hc.unread, hkeep.2⟩⟩⟩
      · -- the buffer is replaced
        rw [if_pos, if_neg hlt] at hfit
        · obtain ⟨t', hs', hi, hiff⟩ := hnew hfit
          refine ⟨t', hs', hi, hiff.trans ?_⟩
          rw [hun, ← List.length_eq_zero_iff, UnpooledHeapCharBuf.length_readable]
          omega
        · simp only [hw', Bool.not_eq_true', decide_eq_false_iff_not]
          omega

/-! ## Runs -/

theorem started_inv (h : Started t) : Inv t ∧ t.Conserved := by
  obtain ⟨d, _, _, _, _, _, _, a, -, ha, rfl⟩ := h
  exact ⟨⟨HandleImpl.new_sized ha, nofun, nofun, nofun⟩, rfl, nofun⟩

theorem Inv.step (h : Inv t) (hc : t.Conserved) (he : e.Enabled t) :
    ∃ t', Step t e t' ∧ Inv t' ∧ (t'.Conserved ↔ e.Meets t) := by
  cases e with
  | adjust => exact h.of_adjust he hc
  | read bytes n =>
    obtain ⟨t', hs, hi, hc'⟩ := h.of_read he hc
    exact ⟨t', hs, hi, fun _ => trivial, fun _ => hc'⟩

theorem Step.det {t'' : ReadLoop} (h : Step t e t') (h' : Step t e t'') : t' = t'' := by
  cases h.handled.symm.trans h'.handled
  rfl

theorem run_inv {t₀ : ReadLoop} {es : List LoopEvent} (h0 : Started t₀)
    (h : Run (fun t e t' => e.Meets t ∧ Step t e t') t₀ es t) : Inv t ∧ t.Conserved := by
  refine h.inv (P := fun t => Inv t ∧ t.Conserved) (started_inv h0) fun t e u ht hs => ?_
  obtain ⟨t', hs', hi, hiff⟩ := ht.1.step ht.2 hs.2.enabled
  obtain rfl := hs'.det hs.2
  exact ⟨hi, hiff.mpr hs.1⟩

/-- In a run whose steps all meet the condition no byte is lost, and every read is posted with room; and the
next step keeps it so if and only if it meets the condition too. -/
theorem conserved_iff {t₀ : ReadLoop} {es : List LoopEvent} (h0 : Started t₀)
    (h : Run (fun t e t' => e.Meets t ∧ Step t e t') t₀ es t) :
    t.Conserved ∧ ∀ e, e.Enabled t → ∃ t', Step t e t' ∧ (t'.Conserved ↔ e.Meets t) := by
  obtain ⟨hi, hc⟩ := run_inv h0 h
  refine ⟨hc, fun e he => ?_⟩
  obtain ⟨t', hs, -, hiff⟩ := hi.step hc he
  exact ⟨t', hs, hiff⟩

/-! Runs that compute -/

/-- With the sizes every connection has. -/
def start (d : LengthFieldBasedFrameDecoder) : ReadLoop :=
  ⟨{ Connection.blank d with recvHandle := some .default }, false, [], []⟩

theorem start_started (d : LengthFieldBasedFrameDecoder) : Started (start d) :=
  ⟨d, 1024, 8192, 65536, 32, 38, 8192, .default, by decide, by decide, rfl⟩

/-- A step that computes. -/
def next (t : ReadLoop) (e : LoopEvent) : Option ReadLoop := if e.Enabled t then (e.handle t).ok? else none

theorem step_of_next (h : next t e = some t') : Step t e t' := by
  unfold next at h
  split at h
  · exact ⟨‹_›, Outcome.ok?_eq_some.mp h⟩
  · cases h

instance (t : ReadLoop) (e : LoopEvent) : Decidable (e.Meets t) := by
  cases e <;> unfold LoopEvent.Meets <;> infer_instance

/-- A step that meets the condition, computed. -/
def nextMet (t : ReadLoop) (e : LoopEvent) : Option ReadLoop := if e.Meets t then next t e else none

theorem step_of_nextMet (h : nextMet t e = some t') : e.Meets t ∧ Step t e t' := by
  unfold nextMet at h
  split at h
  · exact ⟨‹_›, step_of_next h⟩
  · cases h

/-- The handler leaves two bytes of the first read. -/
theorem conserved_iff_one_read : ∃ t, Run (fun t e t' => e.Meets t ∧ Step t e t')
      (start ⟨64, 0, 2, 2, 0, 0, true, false, 0, 0⟩) [.adjust, .read [1, 2, 3, 4, 5] 3] t ∧
    t.consumed = [1, 2, 3] ∧ t.Conserved := by
  obtain ⟨t, h, hc⟩ := Run.exists_of_next (s := start ⟨64, 0, 2, 2, 0, 0, true, false, 0, 0⟩)
    (P := fun t => t.consumed = [1, 2, 3]) (fun t e t' (h : nextMet t e = some t') => step_of_nextMet h)
    [.adjust, .read [1, 2, 3, 4, 5] 3] (by decide +kernel)
  exact ⟨t, h, hc, (conserved_iff (start_started _) h).1⟩

/-- A read that fills the first buffer, of which the handler consumes nothing: the guess grows, and the buffer
is replaced. -/
theorem unread_bytes_lost : ∃ t₀ t, Started t₀ ∧ Run Step t₀ [.adjust, .read (List.replicate 8192 7) 0, .adjust] t ∧
    t.unread = [] ∧ ¬t.Conserved := by
  obtain ⟨t, h, hr, hc, hu⟩ := Run.exists_of_next (s := start ⟨64, 0, 2, 2, 0, 0, true, false, 0, 0⟩)
    (P := fun t => t.received ≠ [] ∧ t.consumed = [] ∧ t.unread = [])
    (fun t e t' (h : next t e = some t') => step_of_next h)
    [.adjust, .read (List.replicate 8192 7) 0, .adjust] (by decide +kernel)
  exact ⟨_, t, start_started _, h, hu, fun h => hr (by rw [← h.unread, hc, hu, List.nil_append])⟩

end ReadLoop

end Nio.Net
