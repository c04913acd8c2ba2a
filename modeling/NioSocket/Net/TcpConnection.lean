import NioSocket.Net.Connection

/-!
# A TcpConnection whose handlers close it

`TcpConnection` from its constructor on, with the resolver, the connect and the read that are
under way. A callback of the pipeline is a list of what its handlers do (`Action`): they read
of the event's message, keep it, release it, or call `close()` on the connection in the middle
of `handleRead` or `handleConnected`. `->` on a null `cumulation_` has no meaning.

A resolver, a connect or a read can end in any order with what else happens, but for this: a
socket connects while it is not connected, and what a read of the old socket has brought was
handed over before.
-/

namespace Nio.Net

open Buffer (UnpooledHeapCharBuf)
open Buffer.UnpooledHeapCharBuf (charBuf)

/-- What a handler does in `channelRead`: the decoder keeps the message or takes some of its bytes,
the tail releases it. -/
inductive Action
  | read (n : Nat)
  | retain
  | release
  | close
  deriving DecidableEq

namespace TcpConnection

open Connection

/-- `cumulation_->`. -/
def cumulation : Method Connection Nat := do (← .get fun w => w.cumulation_) |> deref

/-- `close()`, whose message ends in `cumulation_->refCnt()`. -/
def close : Method Connection Unit := fun w =>
  if !w.connected_ then .ok () w
  else (do
    discard cumulation
    freeBuffer
    .modify fun w => { w with recvHandle := none }) { w with connected_ := false }

/-- What a handler does with the read buffer. -/
def act (b : Nat) : Action → Method Connection Unit
  | .read n => readSome (.whole b) n
  | .retain => retain b
  | .release => release b
  | .close => close

/-- `pipeline_->fireChannelRead(event)`, `b` the event's message. -/
def fireChannelRead (b : Nat) : List Action → Method Connection Unit
  | [] => pure ()
  | a :: as => do act b a; fireChannelRead b as

/-- `fireConnectionActvice()`, in which the handlers call `close()` so many times. -/
def fireConnectionActive : Nat → Method Connection Unit
  | 0 => pure ()
  | closes + 1 => do close; fireConnectionActive closes

/-- `startReadMessage()`. -/
def startReadMessage : Method Connection Unit := do
  adjustReadBuffer
  discard cumulation

/-- `messageReceived(len)`, with handlers that do so much. -/
def messageReceived (len : Nat) (as : List Action) : Method Connection Unit := do
  record len
  let b ← cumulation
  fireChannelRead b as
  discardSomeBytes

/-- `handleRead(ec, bytes_transferred)` without an error. -/
def handleRead (bytes_transferred : Nat) (as : List Action) : Method Connection Unit := do
  let b ← cumulation
  on b fun x => charBuf.setWriterIndex (i32 (x.indices.writerIndex_ + bytes_transferred)) x
  messageReceived bytes_transferred as
  startReadMessage

/-- `handleConnected(ec, true)` without an error. -/
def handleConnected (closes : Nat) : Method Connection Unit := do
  .modify fun w => { w with connected_ := true }
  fireConnectionActive closes
  startReadMessage

/-- `fireChannelActive()` and `read()`, as the acceptor calls them. -/
def started (closes : Nat) : Method Connection Unit := do
  fireConnectionActive closes
  startReadMessage

end TcpConnection

/-- The data members of a `TcpConnection`, and what its socket and its resolver are at. -/
structure TcpConnection where
  connection : Connection
  stopped_ : Bool
  /-- The acceptor has the connection, and has not started it yet. -/
  accepted : Bool
  resolving : Nat
  connecting : Nat
  reading : Bool

/-- What happens to a `TcpConnection`. -/
inductive TcpEvent
  /-- `connect(host, port)`. -/
  | connect
  | resolved (ok : Bool)
  | connectFailed
  /-- The socket is connected, and the handlers call `close()` so many times in `channelActive`. -/
  | connected (closes : Nat)
  /-- The acceptor starts the connection. -/
  | start (closes : Nat)
  | read (bytes_transferred : Nat) (as : List Action)
  | error
  | close
  | stop
  deriving DecidableEq

namespace TcpConnection

/-- A member function of the connection. -/
def on (m : Method Connection Unit) : Method TcpConnection Unit := fun t =>
  match m t.connection with
  | .ok a w => .ok a { t with connection := w }
  | .throw what w => .throw what { t with connection := w }
  | .ub => .ub
  | .hang => .hang

/-- `connect(host, port)`. -/
def connect : Method TcpConnection Unit := do
  on close
  .modify fun t => if t.stopped_ then t else { t with resolving := t.resolving + 1 }

/-- `handleResolved(ec, iterator, resolver)`. -/
def handleResolved (ok : Bool) : Method TcpConnection Unit :=
  .modify fun t => if ok then { t with connecting := t.connecting + 1 } else t

/-- A read is posted last. -/
def posts (m : Method Connection Unit) : Method TcpConnection Unit := do
  on m
  .modify fun t => { t with reading := true }

end TcpConnection

namespace TcpEvent

/-- What can happen: a read brings at least one byte, and no more than fitted into the buffer. -/
def Enabled (t : TcpConnection) : TcpEvent → Prop
  | .connect | .close | .stop => True
  | .resolved _ => 0 < t.resolving
  | .connectFailed => 0 < t.connecting
  | .connected _ => 0 < t.connecting ∧ t.connection.connected_ = false ∧ t.reading = false
  | .start _ => t.accepted = true
  | .read n _ => t.reading = true ∧ 0 < n ∧
      ∀ b ∈ t.connection.cumulation_, n ≤ charBuf.writableBytes (t.connection.heap b)
  | .error => t.reading = true

instance (t : TcpConnection) (e : TcpEvent) : Decidable (e.Enabled t) :=
  match e with
  | .connect | .close | .stop => inferInstanceAs (Decidable True)
  | .resolved _ | .connectFailed => inferInstanceAs (Decidable (_ < _))
  | .connected _ | .read _ _ => inferInstanceAs (Decidable (_ ∧ _))
  | .start _ | .error => inferInstanceAs (Decidable (_ = _))

/-- What the connection does at an event. -/
def handle : TcpEvent → Method TcpConnection Unit
  | .connect => TcpConnection.connect
  | .resolved ok => fun t => TcpConnection.handleResolved ok { t with resolving := t.resolving - 1 }
  | .connectFailed => .modify fun t => { t with connecting := t.connecting - 1 }
  | .connected closes => fun t =>
    TcpConnection.posts (TcpConnection.handleConnected closes) { t with connecting := t.connecting - 1 }
  | .start closes => fun t => TcpConnection.posts (TcpConnection.started closes) { t with accepted := false }
  | .read n as => fun t => TcpConnection.posts (TcpConnection.handleRead n as) { t with reading := false }
  | .error => fun t => TcpConnection.on TcpConnection.close { t with reading := false }
  | .close => TcpConnection.on TcpConnection.close
  | .stop => .modify fun t => { t with stopped_ := true }

/-- A read completes while there is a buffer, and nobody closes a connection that is connected while
the read is handled; nobody closes a connection in `channelActive` that has no buffer, because it was
closed before. -/
def Meets (t : TcpConnection) : TcpEvent → Prop
  | .read _ as => t.connection.cumulation_ ≠ none ∧ (t.connection.connected_ = true → .close ∉ as)
  | .connected closes => t.connection.cumulation_ = none → closes = 0
  | _ => True

instance (t : TcpConnection) (e : TcpEvent) : Decidable (e.Meets t) := by
  cases e <;> unfold Meets <;> infer_instance

end TcpEvent

namespace TcpConnection

variable {t t' : TcpConnection} {w w' : Connection} {e : TcpEvent} {b : Nat}

/-! ## What the member functions do to the buffer -/

/-- The buffers of a connection, and its handle, are in order. -/
structure Ok (w : Connection) : Prop where
  handle : w.recvBufAllocHandle.Ok
  sound : ∀ b < w.next, (w.heap b).Sound
  cumulation : ∀ b ∈ w.cumulation_, b < w.next

theorem Ok.setBuf (h : Ok w) {x : UnpooledHeapCharBuf} (hx : x.Sound) : Ok (w.setBuf b x) where
  handle := h.handle
  cumulation := h.cumulation
  sound a ha := by
    by_cases hab : a = b
    · subst hab
      rwa [Connection.setBuf_heap_self]
    · rw [Connection.setBuf_heap_of_ne _ _ hab]
      exact h.sound a ha

/-- A call on a buffer that keeps it in order. -/
theorem Ok.on (h : Ok w) {m : Method UnpooledHeapCharBuf Unit} {x : UnpooledHeapCharBuf}
    (hm : m (w.heap b) = .ok () x) (hx : x.Sound) : Connection.on b m w = .ok () (w.setBuf b x) ∧ Ok (w.setBuf b x) := by
  rw [Connection.on, hm]
  exact ⟨rfl, h.setBuf hx⟩

theorem cumulation_eq (hb : w.cumulation_ = some b) : cumulation w = .ok b w := by
  simp only [cumulation, Method.bind_apply, Method.get_apply, Outcome.bind_ok, hb, Connection.deref]

theorem cumulation_ub (hb : w.cumulation_ = none) : cumulation w = .ub := by
  simp only [cumulation, Method.bind_apply, Method.get_apply, Outcome.bind_ok, hb, Connection.deref]

/-- A call returns, and leaves the buffers in order. -/
structure Does (m : Method Connection Unit) (w w' : Connection) : Prop where
  eq : m w = .ok () w'
  ok : Ok w'
  connected : w'.connected_ = w.connected_
  next : w.next ≤ w'.next

theorem freeBuffer_does (h : Ok w) : ∃ w', Does Connection.freeBuffer w w' ∧ w'.cumulation_ = none := by
  unfold Connection.freeBuffer
  cases hb : w.cumulation_ with
  | none => exact ⟨w, ⟨by simp only [hb], h, rfl, Nat.le_refl _⟩, hb⟩
  | some b =>
    have hs := h.setBuf (b := b) (x := (w.heap b).release 1) { h.sound b (h.cumulation b hb) with }
    exact ⟨{ w.setBuf b ((w.heap b).release 1) with cumulation_ := none },
      ⟨by simp only [hb]; rfl, ⟨hs.handle, hs.sound, nofun⟩, rfl, Nat.le_refl _⟩, rfl⟩

theorem newReadBuffer_does (h : Ok w) {g : Int} (hg : 1024 ≤ g ∧ g ≤ 65536 ∧ 2 ∣ g) :
    ∃ w', Does (Connection.newReadBuffer g) w w' ∧ w'.cumulation_ ≠ none := by
  obtain ⟨w', e, hb, hn, hnew, hr, hc, hh⟩ := Connection.newReadBuffer_new w (g := g) (by omega) (by unfold intMax; omega)
  refine ⟨w', ⟨e, ⟨?_, fun a ha => ?_, ?_⟩, hc, by omega⟩, by rw [hb]; nofun⟩
  · unfold Connection.recvBufAllocHandle
    rw [hr]
    exact h.handle
  · by_cases haw : a = w.next
    · rw [haw, hnew]
      exact UnpooledHeapCharBuf.new_sound (by omega) hg.2.2 (by omega)
    · obtain ⟨k, hk⟩ := hh a haw
      rw [hk]
      exact { h.sound a (by omega) with }
  · rintro b hb'
    obtain rfl : w.next = b := Option.some.inj (hb.symm.trans hb')
    omega

theorem fitReadBuffer_does (h : Ok w) : ∃ w', Does Connection.fitReadBuffer w w' ∧ w'.cumulation_ ≠ none := by
  have hg := h.handle.guess
  have hnew := newReadBuffer_does h hg
  cases hb : w.cumulation_ with
  | none =>
    obtain ⟨w', hd, hc⟩ := hnew
    exact ⟨w', { hd with eq := by simpa only [Connection.fitReadBuffer, hb] using hd.eq }, hc⟩
  | some b =>
    have hne : w.cumulation_ ≠ none := by rw [hb]; nofun
    have e : Connection.fitReadBuffer w = if w.readBufferLen_ ≠ w.recvBufAllocHandle.guess ∨
          !charBuf.isWritable (w.heap b) then
        if w.recvBufAllocHandle.guess < w.readBufferLen_ then
          Connection.on b (UnpooledHeapCharBuf.setCapacity w.recvBufAllocHandle.guess) w
        else Connection.newReadBuffer w.recvBufAllocHandle.guess w
      else .ok () w := by simp only [Connection.fitReadBuffer, hb]
    split at e
    · split at e
      · obtain ⟨x, hx, hr⟩ := (h.sound b (h.cumulation b hb)).setCapacity (n := w.recvBufAllocHandle.guess)
          (by omega) hg.2.2 (by omega)
        obtain ⟨e', hok⟩ := h.on hx hr.sound
        exact ⟨_, ⟨e.trans e', hok, rfl, Nat.le_refl _⟩, hne⟩
      · obtain ⟨w', hd, hc⟩ := hnew
        exact ⟨w', { hd with eq := e.trans hd.eq }, hc⟩
    · exact ⟨w, ⟨e, h, rfl, Nat.le_refl _⟩, hne⟩

theorem adjustReadBuffer_does (h : Ok w) :
    ∃ w', Does Connection.adjustReadBuffer w w' ∧ w'.cumulation_ ≠ none := by
  obtain ⟨w₁, ⟨e, h₁, hc, hn⟩, hne⟩ :=
    fitReadBuffer_does (w := { w with recvHandle := some w.recvBufAllocHandle }) ⟨h.handle, h.sound, h.cumulation⟩
  obtain ⟨b, hb⟩ := Option.ne_none_iff_exists'.mp hne
  refine ⟨{ w₁ with
      recvHandle := some (w₁.recvBufAllocHandle.attemptedBytesRead (charBuf.writableBytes (w₁.heap b))).reset },
    ⟨?_, ⟨(h₁.handle.attemptedBytesRead _).reset, h₁.sound, h₁.cumulation⟩, hc, hn⟩, hne⟩
  simp only [Connection.adjustReadBuffer, Method.bind_apply, Method.modify_apply, Outcome.bind_ok, e,
    Method.get_apply, hb, Connection.deref]

theorem startReadMessage_does (h : Ok w) : ∃ w', Does startReadMessage w w' ∧ w'.cumulation_ ≠ none := by
  obtain ⟨w₁, hd, hne⟩ := adjustReadBuffer_does h
  obtain ⟨b, hb⟩ := Option.ne_none_iff_exists'.mp hne
  refine ⟨w₁, { hd with eq := ?_ }, hne⟩
  rw [startReadMessage, Method.bind_apply, hd.eq, Outcome.bind_ok]
  show (cumulation w₁).bind _ = _
  rw [cumulation_eq hb]
  rfl

theorem discardSomeBytes_does (h : Ok w) (hne : w.cumulation_ ≠ none) :
    ∃ w', Does Connection.discardSomeBytes w w' := by
  obtain ⟨b, hb⟩ := Option.ne_none_iff_exists'.mp hne
  have e : Connection.discardSomeBytes w = if (w.heap b).refCnt_ > 1 then Connection.freeBuffer w
      else Connection.on b charBuf.discardSomeReadBytes w := by
    simp only [Connection.discardSomeBytes, Method.bind_apply, Method.get_apply, Outcome.bind_ok, hb,
      Connection.deref, Method.ite_apply]
  split at e
  · obtain ⟨w', hd, -⟩ := freeBuffer_does h
    exact ⟨w', { hd with eq := e.trans hd.eq }⟩
  · obtain ⟨x, hx, hd⟩ := (h.sound b (h.cumulation b hb)).discardSomeReadBytes
    obtain ⟨e', hok⟩ := h.on hx hd.sound
    exact ⟨_, e.trans e', hok, rfl, Nat.le_refl _⟩

theorem discardSomeBytes_ub (hb : w.cumulation_ = none) : Connection.discardSomeBytes w = .ub := by
  simp only [Connection.discardSomeBytes, Method.bind_apply, Method.get_apply, Outcome.bind_ok, hb,
    Connection.deref]
  rfl

/-! ## Closing -/

theorem close_of_closed (hc : w.connected_ = false) : close w = .ok () w := by
  simp [close, hc]

/-- `close()` of a connection that is connected uses the buffer, and frees it. -/
theorem close_of_connected (h : Ok w) (hc : w.connected_ = true) (hne : w.cumulation_ ≠ none) :
    ∃ w', close w = .ok () w' ∧ Ok w' ∧ w'.connected_ = false ∧ w'.cumulation_ = none ∧ w.next ≤ w'.next := by
  obtain ⟨b, hb⟩ := Option.ne_none_iff_exists'.mp hne
  obtain ⟨w₁, ⟨e, h₁, hc₁, hn⟩, hb₁⟩ :=
    freeBuffer_does (w := { w with connected_ := false }) ⟨h.handle, h.sound, h.cumulation⟩
  refine ⟨{ w₁ with recvHandle := none }, ?_, ⟨HandleImpl.default_ok, h₁.sound, h₁.cumulation⟩, hc₁, hb₁, hn⟩
  have ec : cumulation { w with connected_ := false } = .ok b { w with connected_ := false } := cumulation_eq hb
  simp only [close, hc]
  show ((cumulation { w with connected_ := false }).bind _).bind _ = _
  rw [ec]
  show (Connection.freeBuffer { w with connected_ := false }).bind _ = _
  rw [e]
  rfl

theorem close_ub (hc : w.connected_ = true) (hb : w.cumulation_ = none) : close w = .ub := by
  have ec : cumulation { w with connected_ := false } = .ub := cumulation_ub hb
  simp only [close, hc]
  show ((cumulation { w with connected_ := false }).bind _).bind _ = _
  rw [ec]
  rfl

/-- Whether a connection that is connected has a buffer. -/
def Held (w : Connection) : Prop := w.connected_ = true → w.cumulation_ ≠ none

/-- What a callback leaves: the buffer, unless a handler has closed the connection. -/
structure Left (w : Connection) (closed : Bool) (w' : Connection) : Prop where
  ok : Ok w'
  next : w.next ≤ w'.next
  connected : w'.connected_ = (w.connected_ && !closed)
  cumulation : w'.cumulation_ = if w.connected_ && closed then none else w.cumulation_

theorem Left.refl (h : Ok w) : Left w false w := ⟨h, Nat.le_refl _, by simp, by simp⟩

theorem Left.trans {c c' : Bool} {w'' : Connection} (h : Left w c w') (h' : Left w' c' w'') :
    Left w (c || c') w'' := by
  refine ⟨h'.ok, Nat.le_trans h.next h'.next, ?_, ?_⟩
  · rw [h'.connected, h.connected]
    cases w.connected_ <;> cases c <;> cases c' <;> rfl
  · rw [h'.cumulation, h.connected, h.cumulation]
    cases w.connected_ <;> cases c <;> cases c' <;> rfl

theorem Left.held {c : Bool} (h : Left w c w') (hw : Held w) : Held w' := fun hc => by
  rw [h.connected] at hc
  rw [h.cumulation]
  cases c with
  | false => simpa using hw (by simpa using hc)
  | true => simp at hc

theorem close_left (h : Ok w) (hw : Held w) : ∃ w', close w = .ok () w' ∧ Left w true w' := by
  cases hc : w.connected_ with
  | false => exact ⟨w, close_of_closed hc, h, Nat.le_refl _, by simp [hc], by simp [hc]⟩
  | true =>
    obtain ⟨w', e, h', hc', hb', hn⟩ := close_of_connected h hc (hw hc)
    exact ⟨w', e, h', hn, by simp [hc'], by simp [hc, hb']⟩

theorem act_left (h : Ok w) (hw : Held w) (hb : b < w.next) (a : Action) :
    ∃ w', act b a w = .ok () w' ∧ Left w (a = .close) w' := by
  have hs := h.sound b hb
  -- only the reference count or the reader index changes
  have hset : ∀ x : UnpooledHeapCharBuf, x.Sound → Left w false (w.setBuf b x) := fun x hx =>
    ⟨h.setBuf hx, Nat.le_refl _, by simp [Connection.setBuf], by simp [Connection.setBuf]⟩
  cases a with
  | read n =>
    have hr := hs.reader_nonneg
    have hrw := hs.reader_le
    refine ⟨_, rfl, hset _ (hs.withReader (by omega) ?_)⟩
    rw [UnpooledHeapCharBuf.length_readable]
    omega
  | retain => exact ⟨_, rfl, hset _ { hs with }⟩
  | release => exact ⟨_, rfl, hset _ { hs with }⟩
  | close => exact close_left h hw

theorem fireChannelRead_left (h : Ok w) (hw : Held w) (hb : b < w.next) (as : List Action) :
    ∃ w', fireChannelRead b as w = .ok () w' ∧ Left w (.close ∈ as) w' := by
  induction as generalizing w with
  | nil => exact ⟨w, rfl, by simpa using Left.refl h⟩
  | cons a as ih =>
    obtain ⟨w₁, e₁, hl₁⟩ := act_left h hw hb a
    obtain ⟨w₂, e₂, hl₂⟩ := ih hl₁.ok (hl₁.held hw) (Nat.lt_of_lt_of_le hb hl₁.next)
    refine ⟨w₂, ?_, ?_⟩
    · rw [fireChannelRead, Method.bind_apply, e₁, Outcome.bind_ok, e₂]
    · have e : (decide (a = .close) || decide (.close ∈ as)) = decide (Action.close ∈ a :: as) := by
        rw [← Bool.decide_or]
        exact decide_eq_decide.mpr (by rw [List.mem_cons, eq_comm])
      exact e ▸ hl₁.trans hl₂

theorem fireConnectionActive_left (h : Ok w) (hw : Held w) (closes : Nat) :
    ∃ w', fireConnectionActive closes w = .ok () w' ∧ Left w (closes ≠ 0) w' := by
  induction closes generalizing w with
  | zero => exact ⟨w, rfl, by simpa using Left.refl h⟩
  | succ n ih =>
    obtain ⟨w₁, e₁, hl₁⟩ := close_left h hw
    obtain ⟨w₂, e₂, hl₂⟩ := ih hl₁.ok (hl₁.held hw)
    refine ⟨w₂, ?_, by simpa using hl₁.trans hl₂⟩
    rw [fireConnectionActive, Method.bind_apply, e₁, Outcome.bind_ok, e₂]

/-! ## Reading and connecting -/

/-- What a call that goes on reading leaves: a buffer for the next read. -/
structure Posted (w : Connection) (closed : Bool) (w' : Connection) : Prop where
  ok : Ok w'
  connected : w'.connected_ = (w.connected_ && !closed)
  cumulation : w'.cumulation_ ≠ none

/-- A callback, and the next read. -/
theorem Left.startReadMessage {c : Bool} (h : Left w c w') : ∃ w₁, startReadMessage w' = .ok () w₁ ∧ Posted w c w₁ := by
  obtain ⟨w₁, hd, hne⟩ := startReadMessage_does h.ok
  exact ⟨w₁, hd.eq, hd.ok, hd.connected.trans h.connected, hne⟩

theorem started_posted (h : Ok w) (hw : Held w) (closes : Nat) :
    ∃ w', started closes w = .ok () w' ∧ Posted w (closes ≠ 0) w' := by
  obtain ⟨w₁, e₁, hl⟩ := fireConnectionActive_left h hw closes
  obtain ⟨w₂, e₂, hp⟩ := hl.startReadMessage
  exact ⟨w₂, by rw [started, Method.bind_apply, e₁, Outcome.bind_ok, e₂], hp⟩

theorem handleConnected_eq (closes : Nat) (w : Connection) :
    handleConnected closes w = started closes { w with connected_ := true } := rfl

/-- Without a buffer, closing in `channelActive` uses one. -/
theorem handleConnected_ub (hb : w.cumulation_ = none) {closes : Nat} (h : closes ≠ 0) :
    handleConnected closes w = .ub := by
  obtain ⟨n, rfl⟩ := Nat.exists_eq_succ_of_ne_zero h
  have e : close { w with connected_ := true } = .ub := close_ub rfl hb
  rw [handleConnected_eq, started, fireConnectionActive, Method.bind_apply, Method.bind_apply, e]
  rfl

theorem handleConnected_posted (h : Ok w) {closes : Nat} (hm : w.cumulation_ = none → closes = 0) :
    ∃ w', handleConnected closes w = .ok () w' ∧ Posted { w with connected_ := true } (closes ≠ 0) w' := by
  have h' : Ok { w with connected_ := true } := ⟨h.handle, h.sound, h.cumulation⟩
  rw [handleConnected_eq]
  by_cases hb : w.cumulation_ = none
  · -- no handler closes, and `startReadMessage` allocates the buffer
    obtain rfl := hm hb
    obtain ⟨w₁, e, hp⟩ := (Left.refl h').startReadMessage
    exact ⟨w₁, e, by simpa using hp⟩
  · exact started_posted h' (fun _ => hb) closes

theorem handleRead_ub (hb : w.cumulation_ = none) (n : Nat) (as : List Action) : handleRead n as w = .ub := by
  rw [handleRead, Method.bind_apply, cumulation_ub hb]
  rfl

/-- `handleRead` up to `discardSomeBytes`. -/
theorem handleRead_callback (h : Ok w) (hw : Held w) (hb : w.cumulation_ = some b) {n : Nat}
    (hn : n ≤ charBuf.writableBytes (w.heap b)) (as : List Action) :
    ∃ w', handleRead n as w = (do Connection.discardSomeBytes; startReadMessage : Method Connection Unit) w' ∧
      Left w (.close ∈ as) w' := by
  have hlt := h.cumulation b hb
  have hs := h.sound b hlt
  have hr := hs.reader_nonneg
  have hrw := hs.reader_le
  have hc := hs.capacity_le_pow
  rw [hs.writableBytes] at hn
  -- the writer index moves, and the handle learns of the read
  have hset : charBuf.setWriterIndex (i32 ((w.heap b).indices.writerIndex_ + n)) (w.heap b) =
      .ok () ((w.heap b).withWriter ((w.heap b).indices.writerIndex_ + n)) := by
    rw [i32_eq (by omega) (by omega)]
    exact hs.setWriterIndex (by omega) (by omega)
  obtain ⟨e₁, h₁⟩ := h.on (m := fun x => charBuf.setWriterIndex (i32 (x.indices.writerIndex_ + n)) x) hset
    (hs.withWriter (by omega) (by omega))
  generalize (w.heap b).withWriter ((w.heap b).indices.writerIndex_ + n) = x at e₁ h₁
  obtain ⟨w₂, e₂, h₂, hc₂, hb₂, hn₂⟩ : ∃ w₂, Connection.record n (w.setBuf b x) = .ok () w₂ ∧ Ok w₂ ∧
      w₂.connected_ = w.connected_ ∧ w₂.cumulation_ = w.cumulation_ ∧ w₂.next = w.next := by
    refine ⟨_, rfl, ⟨?_, h₁.sound, h₁.cumulation⟩, rfl, rfl, rfl⟩
    refine HandleImpl.Ok.readComplete ?_
    split
    · exact h₁.handle.lastBytesRead _
    · exact h₁.handle
  have hw₂ : Held w₂ := fun hc => by
    rw [hb₂]
    exact hw (hc₂ ▸ hc)
  obtain ⟨w₃, e₃, hl⟩ := fireChannelRead_left h₂ hw₂ (b := b) (by omega) as
  refine ⟨w₃, ?_, hl.ok, hn₂ ▸ hl.next, hc₂ ▸ hl.connected, hc₂ ▸ hb₂ ▸ hl.cumulation⟩
  simp only [handleRead, messageReceived, Method.bind_apply, cumulation_eq hb, Outcome.bind_ok, e₁, e₂,
    cumulation_eq (hb₂.trans hb), e₃]

/-- A handler that closes the connection in `channelRead` leaves no buffer to `discardSomeBytes`. -/
theorem handleRead_closed_ub (h : Ok w) (hc : w.connected_ = true) (hb : w.cumulation_ = some b) {n : Nat}
    (hn : n ≤ charBuf.writableBytes (w.heap b)) {as : List Action} (has : .close ∈ as) : handleRead n as w = .ub := by
  obtain ⟨w', e, hl⟩ := handleRead_callback h (fun _ => by rw [hb]; nofun) hb hn as
  rw [e, Method.bind_apply, discardSomeBytes_ub]
  · rfl
  · rw [hl.cumulation, hc]
    simp [has]

theorem handleRead_posted (h : Ok w) (hw : Held w) (hb : w.cumulation_ = some b) {n : Nat}
    (hn : n ≤ charBuf.writableBytes (w.heap b)) {as : List Action} (hm : w.connected_ = true → .close ∉ as) :
    ∃ w', handleRead n as w = .ok () w' ∧ Posted w (.close ∈ as) w' := by
  obtain ⟨w₁, e₁, hl⟩ := handleRead_callback h hw hb hn as
  have hne : w₁.cumulation_ ≠ none := by
    rw [hl.cumulation]
    cases hc : w.connected_ with
    | false => simp [hb]
    | true => simp [hm hc, hb]
  obtain ⟨w₂, hd₂⟩ := discardSomeBytes_does hl.ok hne
  obtain ⟨w₃, hd₃, hne₃⟩ := startReadMessage_does hd₂.ok
  refine ⟨w₃, ?_, hd₃.ok, hd₃.connected.trans (hd₂.connected.trans hl.connected), hne₃⟩
  rw [e₁, Method.bind_apply, hd₂.eq, Outcome.bind_ok, hd₃.eq]

/-! ## Runs -/

/-- As the constructor leaves a connection, which may have an accepted socket. -/
def Started (t : TcpConnection) : Prop :=
  ∃ d w accepted, Net.Started d w ∧ t = ⟨{ w with connected_ := accepted }, false, accepted, 0, 0, false⟩

/-- An event that the connection deals with. -/
structure Step (t : TcpConnection) (e : TcpEvent) (t' : TcpConnection) : Prop where
  enabled : e.Enabled t
  handled : e.handle t = .ok () t'

/-- What holds between the events. -/
structure Inv (t : TcpConnection) : Prop where
  ok : Ok t.connection
  held : Held t.connection

theorem on_ok {m : Method Connection Unit} (h : m t.connection = .ok () w) :
    on m t = .ok () { t with connection := w } := by
  rw [on, h]

theorem posts_ok {m : Method Connection Unit} (h : m t.connection = .ok () w) :
    posts m t = .ok () { t with connection := w, reading := true } := by
  rw [posts, Method.bind_apply, on_ok h]
  rfl

theorem posts_ub {m : Method Connection Unit} (h : m t.connection = .ub) : posts m t = .ub := by
  rw [posts, Method.bind_apply, on, h]
  rfl

theorem Posted.inv {c : Bool} (h : Posted w c w') (ht : t.connection = w') : Inv t :=
  ⟨ht ▸ h.ok, fun _ => ht ▸ h.cumulation⟩

theorem Inv.close (h : Inv t) : ∃ w, on close t = .ok () { t with connection := w } ∧
    Inv { t with connection := w } := by
  obtain ⟨w, e, hl⟩ := close_left h.ok h.held
  exact ⟨w, on_ok e, hl.ok, hl.held h.held⟩

/-- An event that meets the condition is dealt with. -/
theorem Inv.handle (h : Inv t) (he : e.Enabled t) (hm : e.Meets t) : ∃ t', e.handle t = .ok () t' ∧ Inv t' := by
  obtain ⟨hok, hheld⟩ := h
  cases e with
  | connect =>
    obtain ⟨w, e, hi⟩ := Inv.close ⟨hok, hheld⟩
    refine ⟨if t.stopped_ then { t with connection := w } else
      { t with connection := w, resolving := t.resolving + 1 }, ?_, ?_⟩
    · rw [TcpEvent.handle, connect, Method.bind_apply, e]
      rfl
    · split
      · exact hi
      · exact ⟨hi.ok, hi.held⟩
  | resolved ok => cases ok <;> exact ⟨_, rfl, hok, hheld⟩
  | connectFailed => exact ⟨_, rfl, hok, hheld⟩
  | connected closes =>
    obtain ⟨w, e, hp⟩ := handleConnected_posted hok hm
    exact ⟨_, posts_ok e, hp.inv rfl⟩
  | start closes =>
    obtain ⟨w, e, hp⟩ := started_posted hok hheld closes
    exact ⟨_, posts_ok e, hp.inv rfl⟩
  | read n as =>
    obtain ⟨b, hb⟩ := Option.ne_none_iff_exists'.mp hm.1
    obtain ⟨w, e, hp⟩ := handleRead_posted hok hheld hb (he.2.2 b hb) hm.2
    exact ⟨_, posts_ok e, hp.inv rfl⟩
  | error =>
    obtain ⟨w, e, hi⟩ := Inv.close (t := { t with reading := false }) ⟨hok, hheld⟩
    exact ⟨_, e, hi⟩
  | close =>
    obtain ⟨w, e, hi⟩ := Inv.close ⟨hok, hheld⟩
    exact ⟨_, e, hi⟩
  | stop => exact ⟨_, rfl, hok, hheld⟩

/-- One that does not uses a buffer where there is none. -/
theorem Inv.handle_ub (h : Inv t) (he : e.Enabled t) (hm : ¬e.Meets t) : e.handle t = .ub := by
  cases e with
  | connected closes =>
    obtain ⟨hb, hc⟩ := Classical.not_imp.mp hm
    exact posts_ub (handleConnected_ub hb hc)
  | read n as =>
    cases hb : t.connection.cumulation_ with
    | none => exact posts_ub (handleRead_ub hb n as)
    | some b =>
      have hn : ¬(t.connection.connected_ = true → .close ∉ as) := fun h => hm ⟨by rw [hb]; nofun, h⟩
      have hc : t.connection.connected_ = true ∧ .close ∈ as := by simpa using hn
      exact posts_ub (handleRead_closed_ub h.ok hc.1 hb (he.2.2 b hb) hc.2)
  | connect | resolved | connectFailed | start | error | close | stop => exact absurd trivial hm

theorem started_inv (h : Started t) : Inv t := by
  obtain ⟨d, w, accepted, h0, rfl⟩ := h
  have hok : Ok (Connection.blank d) := ⟨HandleImpl.default_ok, fun b hb => absurd hb (Nat.not_lt_zero b), nofun⟩
  obtain ⟨w', hd, hne⟩ := adjustReadBuffer_does hok
  cases hd.eq.symm.trans h0
  exact ⟨⟨hd.ok.handle, hd.ok.sound, hd.ok.cumulation⟩, fun _ => hne⟩

theorem run_inv {t₀ : TcpConnection} {es : List TcpEvent} (h0 : Started t₀) (h : Run Step t₀ es t) : Inv t := by
  refine h.inv (started_inv h0) fun t e u ht hs => ?_
  by_cases hm : e.Meets t
  · obtain ⟨t', e', hi⟩ := ht.handle hs.enabled hm
    cases e'.symm.trans hs.handled
    exact hi
  · cases (ht.handle_ub hs.enabled hm).symm.trans hs.handled

/-- Whatever has happened to a connection before, it deals with an event without using a buffer that
it does not have if and only if the event meets the condition. -/
theorem buffer_used_iff {t₀ : TcpConnection} {es : List TcpEvent} (h0 : Started t₀) (h : Run Step t₀ es t)
    (he : e.Enabled t) : (e.handle t ≠ .ub ↔ e.Meets t) ∧ (e.Meets t → ∃ t', Step t e t') := by
  have hi := run_inv h0 h
  refine ⟨⟨fun hne => ?_, fun hm => ?_⟩, fun hm => ?_⟩
  · by_contra hm
    exact hne (hi.handle_ub he hm)
  · obtain ⟨t', e', -⟩ := hi.handle he hm
    rw [e']
    nofun
  · obtain ⟨t', e', -⟩ := hi.handle he hm
    exact ⟨t', he, e'⟩

/-! Runs that compute -/

/-- A step that computes. -/
def next (t : TcpConnection) (e : TcpEvent) : Option TcpConnection :=
  if e.Enabled t then (e.handle t).ok? else none

theorem step_of_next (h : next t e = some t') : Step t e t' := by
  unfold next at h
  split at h
  · exact ⟨‹_›, Outcome.ok?_eq_some.mp h⟩
  · cases h

/-- A connection that was accepted, or one that is to connect. -/
def start (d : LengthFieldBasedFrameDecoder) (accepted : Bool) : Option TcpConnection :=
  (Connection.start d).map fun w => ⟨{ w with connected_ := accepted }, false, accepted, 0, 0, false⟩

theorem exists_run {P : TcpConnection → Prop} [DecidablePred P] (d : LengthFieldBasedFrameDecoder) (accepted : Bool)
    (es : List TcpEvent) (h : ((start d accepted).bind (es.foldlM next)).any (P ·) = true) :
    ∃ t₀ t, Started t₀ ∧ Run Step t₀ es t ∧ P t := by
  obtain ⟨t, ht, hP⟩ := (Option.any_eq_true _ _).mp h
  obtain ⟨t₀, h0, hrun⟩ := Option.bind_eq_some_iff.mp ht
  obtain ⟨w, hw, rfl⟩ := Option.map_eq_some_iff.mp h0
  exact ⟨_, t, ⟨d, w, accepted, Outcome.ok?_eq_some.mp hw, rfl⟩, .of_next (fun _ _ _ => step_of_next) hrun,
    of_decide_eq_true hP⟩

/-- The decoder has kept the first read buffer. -/
theorem buffer_used_iff_kept : ∃ t₀ t, Started t₀ ∧
    Run Step t₀ [.connect, .resolved true, .connected 0, .read 3 [.retain, .read 2]] t ∧
    (TcpEvent.read 5 [.release]).Enabled t ∧ t.connection.cumulation_ = some 1 ∧
      (TcpEvent.read 5 [.release]).handle t ≠ .ub := by
  obtain ⟨t₀, t, h0, h, he, hc, hm⟩ := exists_run
    (P := fun t => (TcpEvent.read 5 [.release]).Enabled t ∧ t.connection.cumulation_ = some 1 ∧
      (TcpEvent.read 5 [.release]).Meets t)
    ⟨64, 0, 2, 2, 0, 0, true, false, 0, 0⟩ false [.connect, .resolved true, .connected 0, .read 3 [.retain, .read 2]]
    (by decide +kernel)
  exact ⟨t₀, t, h0, h, he, hc, (buffer_used_iff h0 h he).1.mpr hm⟩

/-- A handler that calls `close()` in `channelRead`, at the first read. -/
theorem close_in_channelRead : ∃ t₀ t, Started t₀ ∧ Run Step t₀ [.connect, .resolved true, .connected 0] t ∧
    (TcpEvent.read 1 [.close]).Enabled t ∧ (TcpEvent.read 1 [.close]).handle t = .ub :=
  exists_run ⟨64, 0, 2, 2, 0, 0, true, false, 0, 0⟩ false _ (by decide +kernel)

/-- A handler that calls `close()` in `channelActive`, when the connection has been closed before. -/
theorem close_in_channelActive : ∃ t₀ t, Started t₀ ∧
    Run Step t₀ [.connect, .resolved true, .connected 0, .error, .connect, .resolved true] t ∧
    (TcpEvent.connected 1).Enabled t ∧ (TcpEvent.connected 1).handle t = .ub :=
  exists_run ⟨64, 0, 2, 2, 0, 0, true, false, 0, 0⟩ false _ (by decide +kernel)

end TcpConnection

end Nio.Net
