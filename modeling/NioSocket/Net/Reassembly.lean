import NioSocket.Net.Fragments

/-!
# Messages put together

`SctpConnection::handleRead` delivers the message of a stream with its last fragment, or, if it
comes in one piece, the read buffer itself (`deliver`). What is delivered is the fragments of the
stream since the last message of it, as long as no message is delivered from the read buffer, left
unread in part and kept by nobody: the read buffer is then used again, with what was not read in
front (`reassembled`).
-/

namespace Nio.Net

open Buffer (UnpooledHeapCharBuf)
open Buffer.UnpooledHeapCharBuf (charBuf)

/-- The decoder or a handler takes the buffer that is the `i`-th message for its own. -/
def Pipeline.Takes (p : Pipeline) (i : Nat) : Prop := p.decoder = true ∨ (p.before ++ p.after).any (·.keeps i) = true

/-- How many bytes of the `i`-th message the handlers read, if there are as many. -/
def Pipeline.reads (p : Pipeline) (i : Nat) : Nat := ((p.before ++ p.after).map (·.reads i)).sum

instance (p : Pipeline) (i : Nat) : Decidable (p.Takes i) := inferInstanceAs (Decidable (_ ∨ _))

namespace Connection

variable {d : LengthFieldBasedFrameDecoder} {n b c m s fuel : Nat} {xs : List Nat} {w w' : Connection}
  {es : List Input} {bytes : List UInt8} {p : Pipeline}

/-! ## The end of a message -/

/-- With `MSG_EOR`, up to `fireChannelRead`: the buffer that is delivered. -/
def deliver (stream_no : Nat) (bytes : List UInt8) : Method Connection Nat := do
  let c ← received bytes
  match ← getAndRemoveMessage stream_no with
  | none =>
    retain c
    record bytes.length
    (← .get fun w => w.cumulation_) |> deref
  | some buf =>
    writeChars buf c
    record bytes.length
    pure buf

/-- `handleRead` delivers it, and goes on. -/
theorem sctpHandleRead_eor (p : Pipeline) (fuel s : Nat) (bytes : List UInt8) (w : Connection) :
    sctpHandleRead p fuel s true bytes w =
      (deliver s bytes w).bind fun b => (do
        fireChannelRead p fuel b
        discardSomeBytes
        adjustReadBuffer) := by
  simp only [sctpHandleRead, deliver, if_true, endOfRecord, Method.bind_apply, Outcome.bind_assoc]
  congr 1
  funext c w
  simp only [Method.bind_apply, Outcome.bind_assoc]
  congr 1
  funext r w
  cases r with
  | none =>
    simp only [messageReceived, Method.bind_apply, Outcome.bind_assoc]
    rfl
  | some buf =>
    simp only [Method.bind_apply, Outcome.bind_assoc, Method.pure_apply, Outcome.bind_ok]
    rfl

/-- Stream `s` has no message any more. -/
theorem Pending.complete (P : Pending es w) (hs : w'.streamMsgs_ = w.streamMsgs_.eraseP (·.1 == s))
    (hheap : ∀ m ∈ w'.buffers, w'.heap m = w.heap m) : Pending (es ++ [.fragment s true bytes]) w' := by
  have hsub : w'.streamMsgs_.Sublist w.streamMsgs_ := hs ▸ List.eraseP_sublist
  have hmem : ∀ m ∈ w'.buffers, m ∈ w.buffers := fun m hm => (hsub.map (·.2)).subset hm
  have hnone : w'.streamMsg s = none := by
    rw [streamMsg, hs]
    exact lookup_eraseP_self P.keys
  have hother : ∀ s', s' ≠ s → w'.streamMsg s' = w.streamMsg s' := fun s' h => by
    rw [streamMsg, hs]
    exact lookup_eraseP_of_ne h
  have hvalues : w'.buffers.Nodup := (hsub.map Prod.snd).nodup P.values
  refine ⟨(hsub.map (·.1)).nodup P.keys, hvalues, fun m hm => ?_, fun s' h => ?_, fun s' m h => ?_⟩
  · rw [hheap m hm]
    exact P.refCnt m (hmem m hm)
  · by_cases he : s' = s
    · rw [he, sinceEor_eor]
    · rw [sinceEor_of_ne he]
      exact P.idle s' ((hother s' he).symm.trans h)
  · have hne : s' ≠ s := fun e => by
      rw [e, hnone] at h
      cases h
    rw [hheap m (Pending.mem h), sinceEor_of_ne hne]
    exact P.filled s' m ((hother s' hne).symm.trans h)

/-- Buffer `b` is about to be delivered: the read buffer `c` itself, or a message that `c` was read into. -/
structure Delivering (d : LengthFieldBasedFrameDecoder) (es : List Input) (s : Nat) (bytes : List UInt8) (b c n : Nat)
    (xs : List Nat) (w : Connection) : Prop where
  own : Own d n (b :: xs) w
  pending : Pending (es ++ [.fragment s true bytes]) w
  cumulation : w.cumulation_ = some c
  readable : (w.heap b).readable = sinceEor s es ++ bytes
  sound : (w.heap c).Sound
  capacity : (w.heap c).capacity_ ≤ 65536
  read : b ≠ c → (w.heap c).indices.readerIndex_ = (w.heap c).indices.writerIndex_ ∧ (w.heap c).refCnt_ = 1

/-- What the handle guesses when a read has brought `len` bytes. -/
def nextGuess (w : Connection) (len : Int) : Int := (w.recvBufAllocHandle.lastBytesRead len).readComplete.guess

/-- A message is delivered from the read buffer `c`, which is as it was read. -/
structure InPlace (bytes : List UInt8) (c : Nat) (w w' : Connection) : Prop where
  readBufferLen_ : w'.readBufferLen_ = w.readBufferLen_
  guess : w'.recvBufAllocHandle.guess = w.nextGuess bytes.length
  heap : w'.heap c = (w.heap c).retain 1

/-- A message in one piece is delivered from the read buffer. -/
theorem Arriving.deliver_whole (A : Arriving d es bytes c n xs w) (hb : bytes ≠ []) (hm : w.streamMsg s = none)
    (hown : Own d n xs { w with streamMsgs_ := w.streamMsgs_.eraseP (·.1 == s) }) :
    ∃ w', (do retain c; record bytes.length; (← .get fun w => w.cumulation_) |> deref : Method Connection Nat)
        { w with streamMsgs_ := w.streamMsgs_.eraseP (·.1 == s) } = .ok c w' ∧
      Delivering d es s bytes c c n xs w' ∧ w'.fired = w.fired ∧ InPlace bytes c w w' := by
  have hpos : 0 < bytes.length := List.length_pos_iff.mpr hb
  have hcn : c < n := A.own.lt (by simp [refs, A.cumulation])
  have hnot := A.not_mem
  generalize hw₁ : { w with streamMsgs_ := w.streamMsgs_.eraseP (·.1 == s) } = w₁ at hown ⊢
  have hown₂ := hown.retain hcn
  have hown₃ := record_own bytes.length _ hown₂
  have hself : (w₁.setBuf c ((w₁.heap c).retain 1)).heap c = (w₁.heap c).retain 1 := setBuf_heap_self ..
  have hheap : w₁.heap = w.heap := by rw [← hw₁]
  have hcum : w₁.cumulation_ = some c := by rw [← hw₁]; exact A.cumulation
  have hstreams : w₁.streamMsgs_ = w.streamMsgs_.eraseP (·.1 == s) := by rw [← hw₁]
  have hlen : w₁.readBufferLen_ = w.readBufferLen_ := by rw [← hw₁]
  have hguess : (w₁.recvBufAllocHandle.lastBytesRead bytes.length).readComplete.guess = w.nextGuess bytes.length := by
    rw [← hw₁]
    rfl
  obtain ⟨w₃, e₃, h3⟩ : ∃ w₃, record bytes.length (w₁.setBuf c ((w₁.heap c).retain 1)) = .ok () w₃ ∧
      w₃.heap = (w₁.setBuf c ((w₁.heap c).retain 1)).heap ∧ w₃.cumulation_ = w₁.cumulation_ ∧
      w₃.streamMsgs_ = w₁.streamMsgs_ ∧ w₃.fired = w₁.fired ∧ w₃.readBufferLen_ = w₁.readBufferLen_ ∧
      w₃.recvBufAllocHandle = (if (bytes.length : Int) > 0 then w₁.recvBufAllocHandle.lastBytesRead bytes.length else
        w₁.recvBufAllocHandle).readComplete := ⟨_, rfl, rfl, rfl, rfl, rfl, rfl, rfl⟩
  obtain ⟨hh, hc, hs, hf, hl, hg⟩ := h3
  rw [if_pos (by omega)] at hg
  rw [e₃] at hown₃
  have hwc : w₃.heap c = (w.heap c).retain 1 := by rw [hh, hself, hheap]
  refine ⟨w₃, ?_, ⟨hown₃, ?_, hc.trans hcum, ?_, ?_, ?_, fun h => absurd rfl h⟩, hf.trans (by rw [← hw₁]),
    hl.trans hlen, (congrArg HandleImpl.guess hg).trans hguess, hwc⟩
  · simp only [Method.bind_apply, retain, on, Method.modify_apply, Outcome.bind_ok, e₃, Method.get_apply, hc, hcum, deref]
  · refine A.pending.complete (hs.trans hstreams) fun m hm' => ?_
    have hin : m ∈ w.buffers := by
      rw [buffers, hs, hstreams] at hm'
      exact (List.Sublist.map Prod.snd List.eraseP_sublist).subset hm'
    rw [hh, setBuf_heap_of_ne _ _ (fun h : m = c => hnot (h ▸ hin)), hheap]
  · rw [hwc, A.pending.idle s hm, List.nil_append]
    exact A.readable
  · rw [hwc]
    exact { A.sound with }
  · rw [hwc]
    exact A.capacity

/-- The last fragment of a message is appended to the others. -/
theorem Arriving.deliver_last (A : Arriving d es bytes c n xs w) (hm : w.streamMsg s = some m)
    (hown : Own d n (m :: xs) { w with streamMsgs_ := w.streamMsgs_.eraseP (·.1 == s) })
    (e : (do writeChars m c; record bytes.length; pure m : Method Connection Nat)
        { w with streamMsgs_ := w.streamMsgs_.eraseP (·.1 == s) } = .ok b w') :
    b = m ∧ m ≠ c ∧ Delivering d es s bytes m c n xs w' ∧ w'.fired = w.fired := by
  obtain ⟨hms, hmr⟩ := A.pending.filled s m hm
  have hmem := Pending.mem hm
  have h1 := A.pending.refCnt m hmem
  have hne : m ≠ c := fun h => A.not_mem (h ▸ hmem)
  generalize hw₁ : { w with streamMsgs_ := w.streamMsgs_.eraseP (·.1 == s) } = w₁ at hown e
  have hheap : w₁.heap = w.heap := by rw [← hw₁]
  have hcum : w₁.cumulation_ = some c := by rw [← hw₁]; exact A.cumulation
  have hstreams : w₁.streamMsgs_ = w.streamMsgs_.eraseP (·.1 == s) := by rw [← hw₁]
  -- the one reference to the message is at hand
  have hout : m ∉ w₁.buffers := fun hin =>
    absurd (hown.sole hin (by rw [hheap]; exact h1)).2.2.2.1 (by simp)
  by_cases hroom : (w₁.heap m).indices.writerIndex_ + (w₁.heap c).readable.length ≤ 2 ^ 30
  · obtain ⟨x, ex, hx⟩ := writeChars_eq hne (by rw [hheap]; exact hms) (by rw [hheap]; exact A.sound) hroom
    have hown₂ := writeChars_own m c w₁ hown
    rw [ex] at hown₂
    generalize hw₂ : (w₁.setBuf m x).setBuf c ((w₁.heap c).withReader (w₁.heap c).indices.writerIndex_) = w₂ at ex hown₂
    have hown₃ := record_own bytes.length w₂ hown₂
    have hself : w₂.heap m = x := by rw [← hw₂, setBuf_heap_of_ne _ _ hne, setBuf_heap_self]
    have hc₂ : w₂.heap c = (w.heap c).withReader (w.heap c).indices.writerIndex_ := by
      rw [← hw₂, setBuf_heap_self, hheap]
    have hother : ∀ a, a ≠ c → a ≠ m → w₂.heap a = w.heap a := fun a ha ha' => by
      rw [← hw₂, setBuf_heap_of_ne _ _ ha, setBuf_heap_of_ne _ _ ha', hheap]
    have hcum₂ : w₂.cumulation_ = some c := by rw [← hw₂]; exact hcum
    have hstreams₂ : w₂.streamMsgs_ = w.streamMsgs_.eraseP (·.1 == s) := by rw [← hw₂]; exact hstreams
    have hbuf₂ : w₂.buffers = w₁.buffers := congrArg (List.map _) (hstreams₂.trans hstreams.symm)
    have hfired₂ : w₂.fired = w.fired := by rw [← hw₂, ← hw₁]; rfl
    obtain ⟨w₃, e₃, h3⟩ : ∃ w₃, record bytes.length w₂ = .ok () w₃ ∧ w₃.heap = w₂.heap ∧
        w₃.cumulation_ = w₂.cumulation_ ∧ w₃.streamMsgs_ = w₂.streamMsgs_ ∧ w₃.fired = w₂.fired :=
      ⟨_, rfl, rfl, rfl, rfl, rfl⟩
    obtain ⟨hh, hc, hs, hf⟩ := h3
    rw [e₃] at hown₃
    simp only [Method.bind_apply, ex, Outcome.bind_ok, e₃, Method.pure_apply] at e
    obtain ⟨rfl, rfl⟩ := Outcome.ok.inj e
    refine ⟨rfl, hne, ⟨hown₃, ?_, hc.trans hcum₂, ?_, ?_, ?_, fun _ => ⟨?_, ?_⟩⟩, hf.trans hfired₂⟩
    · refine A.pending.complete (hs.trans hstreams₂) fun a ha => ?_
      have hb₃ : w₃.buffers = w₁.buffers := (congrArg (List.map _) hs).trans hbuf₂
      rw [hb₃] at ha
      have hin : a ∈ w.buffers := by
        rw [buffers, hstreams] at ha
        exact (List.Sublist.map Prod.snd List.eraseP_sublist).subset ha
      rw [hh, hother a (fun h => A.not_mem (h ▸ hin)) fun h => hout (h ▸ ha)]
    · rw [hh, hself, hx.readable (by rw [hheap]; exact hms), hheap, hmr, A.readable]
    · rw [hh, hc₂]
      exact A.read_sound
    · rw [hh, hc₂]
      exact A.capacity
    · rw [hh, hc₂]
      rfl
    · rw [hh, hc₂]
      exact A.refCnt
  · have hhang := writeChars_hang (w := w₁) (c := m) (b := c) (by rw [hheap]; exact hms) (by rw [hheap]; exact A.sound)
      (Int.not_le.mp hroom) (by rw [hheap]; exact A.capacity)
    rw [Method.bind_apply, hhang] at e
    cases e

/-- What is delivered at the end of a message. -/
theorem Reassembling.delivering (h : Reassembling d es w) (hen : (Input.fragment s true bytes).Enabled w)
    (e : deliver s bytes w = .ok b w') : ∃ c n xs x, Delivering d es s bytes b c n xs w' ∧ w'.fired = w.fired ∧
      (b = c → w.streamMsg s = none ∧ InPlace bytes c (w.setBuf c x) w' ∧ w.cumulation_ = some c ∧
        x.indices.readerIndex_ = 0 ∧ x.capacity_ = (w.heap c).capacity_) := by
  obtain ⟨c, n, xs, x, e₁, A, hx⟩ := h.arrives hen
  obtain ⟨w₁, hw₁⟩ : ∃ w₁, w.setBuf c x = w₁ := ⟨_, rfl⟩
  have hf : w₁.fired = w.fired := by rw [← hw₁]; rfl
  have hlookup : w₁.streamMsg s = w.streamMsg s := by rw [← hw₁]; rfl
  rw [hw₁] at e₁ A
  have hown := getAndRemoveMessage_own s w₁ A.own
  rw [deliver, Method.bind_apply, e₁, Outcome.bind_ok, Method.bind_apply] at e
  refine ⟨c, n, xs, x, ?_⟩
  rw [hw₁]
  cases hm : w₁.streamMsg s with
  | none =>
    rw [getAndRemoveMessage, hm] at hown e
    obtain ⟨w₂, e₂, D, hf₂, hplace⟩ := A.deliver_whole hen.1 hm hown
    obtain ⟨rfl, rfl⟩ := Outcome.ok.inj (e₂.symm.trans e)
    exact ⟨D, hf₂.trans hf, fun _ => ⟨hlookup.symm.trans hm, hplace, hx⟩⟩
  | some m =>
    rw [getAndRemoveMessage, hm] at hown e
    obtain ⟨rfl, hne, D, hf₂⟩ := A.deliver_last hm hown e
    exact ⟨D, hf₂.trans hf, fun h => absurd h hne⟩

/-! ## What the handlers leave -/

/-- Nothing is thrown. -/
theorem invokeChannelRead_sat {P Q : Connection → Prop} {m : Method Connection Unit}
    (h : Triple P m (fun _ => Q) fun _ => False) : Triple P (invokeChannelRead m) (fun _ => Q) fun _ => False := by
  intro w hw
  have hs := h w hw
  unfold invokeChannelRead
  cases e : m w with
  | ok a w' => rw [e] at hs; exact hs
  | throw what w' => rw [e] at hs; exact hs.elim
  | ub | hang => trivial

/-- A message is read, and ends with the first handler that keeps it or behind the last. -/
theorem invokeHandlers_sat {P : List Handler → Connection → Prop} {Q : Connection → Prop}
    {next : Message → Method Connection Unit} {m : Message} {i : Nat} {hs : List Handler}
    (hread : ∀ a hs, Triple (P (a :: hs)) (readSome m (a.reads i)) (fun _ => P hs) fun _ => False)
    (hkeep : hs.any (·.keeps i) = true → ∀ hs, Triple (P hs) (keep m) (fun _ => Q) fun _ => False)
    (hnext : hs.any (·.keeps i) = false → Triple (P []) (invokeChannelRead (next m)) (fun _ => Q) fun _ => False) :
    Triple (P hs) (invokeHandlers i next hs m) (fun _ => Q) fun _ => False := by
  induction hs with
  | nil => exact hnext rfl
  | cons a hs ih =>
    refine invokeChannelRead_sat ((hread a hs).bind fun _ => Triple.ite (fun hk => ?_) fun hk => ?_)
    · exact hkeep (by rw [List.any_cons, hk, Bool.true_or]) hs
    · have hany : (a :: hs).any (·.keeps i) = hs.any (·.keeps i) := by
        rw [List.any_cons, Bool.eq_false_of_not_eq_true hk, Bool.false_or]
      rw [hany] at hkeep hnext
      exact ih hkeep hnext

/-- Every reference is somebody's, and if `k` there is one to the buffer `b`. -/
def HandedOn (d : LengthFieldBasedFrameDecoder) (n b : Nat) (k : Prop) (w : Connection) : Prop :=
  ∃ ys, Own d n ys w ∧ (k → b ∈ ys ++ w.held.map Message.buf)

theorem keep_handedOn (k : Prop) :
    Triple (Own d n (b :: xs)) (keep (.whole b)) (fun _ => HandedOn d n b k) fun _ => False := by
  refine Triple.modify fun w hw => ⟨xs, hw.move rfl rfl rfl rfl fun c => ?_, fun _ => ?_⟩
  · simp only [owned, refs, List.map_append, List.count_append, List.count_cons, List.map_cons, List.map_nil,
      List.count_nil, Message.buf]
    omega
  · rw [List.map_append]
    exact List.mem_append_right _ (List.mem_append_right _ List.mem_cons_self)

theorem fireChannelRead_handedOn (p : Pipeline) (fuel : Nat) (h : Own d n (b :: xs) w) :
    (fireChannelRead p fuel b w).Sat (fun _ => HandedOn d n b (p.Takes w.fired.length)) fun _ => False := by
  have hb : b < n := h.lt (by simp)
  have hread : ∀ (i : Nat) (a : Handler) (_ : List Handler), Triple (Own d n (b :: xs)) (readSome (.whole b) (a.reads i))
      (fun _ => Own d n (b :: xs)) fun _ => False := fun i a _ => readSome_own _ _
  unfold fireChannelRead
  split
  · refine invokeHandlers_sat (P := fun _ => Own d n (b :: xs)) (hread _) (fun _ _ => keep_handedOn _) (fun _ => ?_) w h
    refine (invokeChannelRead_own (channelRead_own hb fuel p.after)).conseq (fun _ h => h) (fun _ w hw => ?_) fun _ h => h
    exact ⟨b :: xs, hw, fun _ => List.mem_cons_self⟩
  · rename_i hd
    have h' : Own d n (b :: xs) { w with fired := w.fired ++ [⟨.whole b, w.readableOf (.whole b)⟩] } :=
      h.move rfl rfl rfl rfl fun _ => rfl
    refine invokeHandlers_sat (P := fun _ => Own d n (b :: xs)) (hread _) (fun _ _ => keep_handedOn _) (fun hk => ?_) _ h'
    refine invokeChannelRead_sat ((release_own b).conseq (fun _ h => h) (fun _ w hw => ?_) fun _ h => h)
    refine ⟨xs, hw, fun hor => ?_⟩
    rcases hor with e | e
    · exact absurd e hd
    · rw [hk] at e
      cases e

/-- Handlers that forward a message have read together as much of it as they would, or all. -/
theorem invokeHandlers_reads {i : Nat} {hs : List Handler} (hk : hs.any (·.keeps i) = false) (hb : (w.heap b).Sound) :
    invokeHandlers i tail hs (.whole b) w = .ok () (w.setBuf b (((w.heap b).withReader ((w.heap b).indices.readerIndex_ +
      min (hs.map (·.reads i)).sum (w.heap b).readable.length)).release 1)) := by
  induction hs generalizing w with
  | nil =>
    have e : (w.heap b).withReader ((w.heap b).indices.readerIndex_ + (0 : Nat)) = w.heap b := by
      rw [Int.natCast_zero, Int.add_zero]
      rfl
    rw [List.map_nil, List.sum_nil, Nat.zero_min, e]
    rfl
  | cons a hs ih =>
    rw [List.any_cons, Bool.or_eq_false_iff] at hk
    have h0 := hb.reader_nonneg
    have hrw := hb.reader_le
    have hl := UnpooledHeapCharBuf.length_readable (w.heap b)
    generalize hx : (w.heap b).withReader ((w.heap b).indices.readerIndex_ +
      (min (a.reads i) (w.heap b).readable.length : Nat)) = x
    have hxs : x.Sound := hx ▸ hb.withReader (by omega) (by omega)
    have hxr : x.indices.readerIndex_ = (w.heap b).indices.readerIndex_ +
      (min (a.reads i) (w.heap b).readable.length : Nat) := by rw [← hx]; rfl
    have hxl := UnpooledHeapCharBuf.length_readable x
    rw [show x.indices.writerIndex_ = (w.heap b).indices.writerIndex_ by rw [← hx]; rfl] at hxl
    have hself : (w.setBuf b x).heap b = x := setBuf_heap_self w b x
    have hread : readSome (.whole b) (a.reads i) w = .ok () (w.setBuf b x) := by rw [← hx]; rfl
    have hsum : x.indices.readerIndex_ + (min (hs.map (·.reads i)).sum x.readable.length : Nat) =
        (w.heap b).indices.readerIndex_ +
          (min ((a :: hs).map (·.reads i)).sum (w.heap b).readable.length : Nat) := by
      rw [List.map_cons, List.sum_cons]
      omega
    have hnext := ih (w := w.setBuf b x) hk.2 (by rw [hself]; exact hxs)
    rw [hself, setBuf_setBuf, hsum] at hnext
    have hwith : ∀ k, x.withReader k = (w.heap b).withReader k := fun k => by rw [← hx]; rfl
    rw [hwith] at hnext
    rw [invokeHandlers, invokeChannelRead, Method.bind_apply, hread, Outcome.bind_ok, hk.1, if_neg (by decide), hnext]

/-- What the buffer of a message is to the application when handlers have forwarded it to the tail. -/
theorem fireChannelRead_reads (fuel : Nat) (ht : ¬p.Takes w.fired.length) (hs : (w.heap b).Sound) :
    ∃ w', fireChannelRead p fuel b w = .ok () w' ∧ w'.readBufferLen_ = w.readBufferLen_ ∧ w'.recvHandle = w.recvHandle ∧
      w'.heap b = ((w.heap b).withReader ((w.heap b).indices.readerIndex_ +
        min (p.reads w.fired.length) (w.heap b).readable.length)).release 1 := by
  obtain ⟨hd, hk⟩ := not_or.mp ht
  obtain ⟨w₁, hw₁⟩ : ∃ w₁ : Connection, { w with fired := w.fired ++ [⟨.whole b, w.readableOf (.whole b)⟩] } = w₁ := ⟨_, rfl⟩
  have hheap : w₁.heap = w.heap := by rw [← hw₁]
  have h := invokeHandlers_reads (w := w₁) (b := b) (Bool.eq_false_of_not_eq_true hk) (by rw [hheap]; exact hs)
  rw [hheap] at h
  refine ⟨_, ?_, ?_, ?_, setBuf_heap_self w₁ b _⟩
  · rw [fireChannelRead, if_neg hd, fire, hw₁, h]
    rfl
  · rw [← hw₁]
    rfl
  · rw [← hw₁]
    rfl

/-- Of a buffer that nobody has taken nothing is unread, or there will be another. -/
def Cleared (p : Pipeline) (b : Nat) (w : Connection) : Prop :=
  p.Takes w.fired.length ∨ (w.heap b).readable.length ≤ p.reads w.fired.length ∨
    w.readBufferLen_ < w.recvBufAllocHandle.guess ∨
    w.readBufferLen_ = w.recvBufAllocHandle.guess ∧ (w.heap b).indices.readerIndex_ = 0 ∧
      (w.heap b).indices.writerIndex_ = (w.heap b).capacity_ ∧ (p.reads w.fired.length : Int) < (w.heap b).capacity_ / 2

/-- What is left when a message has been delivered. -/
theorem Delivering.finish (D : Delivering d es s bytes b c n xs w) (hclear : b = c → Cleared p b w)
    (e : (do fireChannelRead p fuel b; discardSomeBytes; adjustReadBuffer : Method Connection Unit) w = .ok () w') :
    Reassembling d (es ++ [.fragment s true bytes]) w' := by
  have P := D.pending
  obtain ⟨⟨⟩, w₁, e₁, e⟩ := Outcome.bind_eq_ok e
  have hout : b ∉ w.buffers := fun hin => (D.own.sole hin (P.refCnt b hin)).2.2.2.1 List.mem_cons_self
  have hown := fireChannelRead_handedOn p fuel D.own
  have hU := fireChannelRead_alone p fuel hout w (P.untouched D.own)
  rw [e₁] at hown hU
  obtain ⟨ys, hown₁, hys⟩ := hown
  have P₁ := P.congr hU.toSetAside
  have hcum : w₁.cumulation_ = some c := hU.cumulation_.trans D.cumulation
  by_cases hbc : b = c
  · subst hbc
    by_cases ht : p.Takes w.fired.length
    · refine Connection.finish hown₁ P₁ hcum (fun h1 => ?_) e
      have hcount := (hown₁.count b).refCnt
      have hpos := List.count_pos_iff.mpr (hys ht)
      simp only [owned, refs, hcum, Option.toList_some, List.count_append, List.count_cons_self, List.count_nil]
        at hcount hpos
      omega
    · obtain ⟨w₂, e₂, hlen, hhandle, hheap⟩ := fireChannelRead_reads fuel ht D.sound
      obtain ⟨-, rfl⟩ := Outcome.ok.inj (e₁.symm.trans e₂)
      have h0 := D.sound.reader_nonneg
      have hrw := D.sound.reader_le
      have hl := UnpooledHeapCharBuf.length_readable (w.heap b)
      have hsound : (w₁.heap b).Sound := by
        rw [hheap]
        exact { D.sound.withReader (by omega) (by omega) with }
      have hreader : (w₁.heap b).indices.readerIndex_ = (w.heap b).indices.readerIndex_ +
          (min (p.reads w.fired.length) (w.heap b).readable.length : Nat) := by rw [hheap]; rfl
      have hwriter : (w₁.heap b).indices.writerIndex_ = (w.heap b).indices.writerIndex_ := by rw [hheap]; rfl
      have hcap : (w₁.heap b).capacity_ = (w.heap b).capacity_ := by rw [hheap]; rfl
      rcases (hclear rfl).resolve_left ht with hread | hguess
      · refine Connection.finish hown₁ P₁ hcum (fun _ => ⟨hsound, ?_, hcap.trans_le D.capacity⟩) e
        omega
      · refine finish_outgrown hown₁ P₁ hcum hsound ?_ e
        rw [recvBufAllocHandle, hhandle, hlen]
        refine hguess.imp id fun h => ⟨h.1, ?_⟩
        obtain ⟨-, hzero, hfull, hhalf⟩ := h
        refine ⟨by rw [hwriter, hcap, hfull], ?_⟩
        rintro ⟨-, ha⟩
        have hcapacity := D.sound.capacity_pos
        change (w₁.heap b).indices.readerIndex_ = (w₁.heap b).indices.writerIndex_ ∨
          (w₁.heap b).capacity_ / 2 ≤ (w₁.heap b).indices.readerIndex_ at ha
        omega
  · obtain ⟨hread, hone⟩ := D.read hbc
    have hu := D.own.not_uses D.cumulation (Int.le_of_eq hone)
    have hc : Untouched [c] w w := by
      refine ⟨⟨fun _ _ => rfl, fun m hm => ?_, rfl⟩, fun m hm e => ?_, rfl⟩
      · obtain rfl := List.mem_singleton.mp hm
        rw [D.own.next]
        exact D.own.lt (by simp [refs, D.cumulation])
      · obtain rfl := List.mem_singleton.mp hm
        exact hu (by simp [uses, e])
    have hUc := fireChannelRead_alone p fuel (fun h => hbc (List.mem_singleton.mp h)) w hc
    rw [e₁] at hUc
    refine Connection.finish hown₁ P₁ hcum (fun _ => ?_) e
    rw [hUc.heap c List.mem_cons_self]
    exact ⟨D.sound, hread, D.capacity⟩

end Connection

/-- If the message is delivered from the read buffer, somebody takes the buffer, or it is read to its end, or the next
read gets another: a larger one, or one for this one, which is full and less than half of it read. -/
def Input.Clears (p : Pipeline) (w : Connection) : Input → Prop
  | .fragment s true bytes => w.streamMsg s = none → p.Takes w.fired.length ∨ bytes.length ≤ p.reads w.fired.length ∨
      w.readBufferLen_ < w.nextGuess bytes.length ∨ w.readBufferLen_ = w.nextGuess bytes.length ∧
        ∀ b ∈ w.cumulation_, bytes.length = (w.heap b).capacity_ ∧
          (p.reads w.fired.length : Int) < (w.heap b).capacity_ / 2
  | _ => True

/-- What a connection reads in fragments, and handlers that release what they had kept. -/
def Input.OfMessages : Input → Prop
  | .fragment .. | .release _ => True
  | _ => False

namespace Connection

variable {d : LengthFieldBasedFrameDecoder} {w w' : Connection} {s : Nat} {bytes : List UInt8} {es : List Input}
  {p : Pipeline} {fuel : Nat} {e : Input}

/-- The end of a message. -/
theorem Reassembling.whole (h : Reassembling d es w) (hen : (Input.fragment s true bytes).Enabled w)
    (hclear : (Input.fragment s true bytes).Clears p w) (e : sctpHandleRead p fuel s true bytes w = .ok () w') :
    Reassembling d (es ++ [.fragment s true bytes]) w' := by
  rw [sctpHandleRead_eor] at e
  obtain ⟨b, w₁, e₁, e⟩ := Outcome.bind_eq_ok e
  obtain ⟨c, n, xs, x, D, hf, hplace⟩ := h.delivering hen e₁
  refine D.finish (fun hbc => ?_) e
  obtain ⟨hnone, hI, hc, hx0, hxcap⟩ := hplace hbc
  have hread : (w₁.heap b).readable = bytes := by rw [D.readable, h.pending.idle s hnone, List.nil_append]
  have hheap : w₁.heap c = x.retain 1 := by rw [hI.heap, setBuf_heap_self]
  have hl := UnpooledHeapCharBuf.length_readable (w₁.heap b)
  have hs := D.sound.reader_le
  rw [Cleared, hf, hread, hI.readBufferLen_, hI.guess]
  refine (hclear hnone).imp id fun h => h.imp id fun h => h.imp id fun h => ⟨h.1, ?_⟩
  obtain ⟨hfull, hhalf⟩ := h.2 c hc
  rw [hread, hbc] at hl
  rw [hbc]
  rw [hheap] at hl hs ⊢
  refine ⟨hx0, ?_, ?_⟩
  · show x.indices.writerIndex_ = x.capacity_
    change bytes.length = (x.indices.writerIndex_ - x.indices.readerIndex_).toNat at hl
    change x.indices.readerIndex_ ≤ x.indices.writerIndex_ at hs
    omega
  · show (p.reads w.fired.length : Int) < x.capacity_ / 2
    rw [hxcap]
    exact hhalf

/-- A message that a handler had kept is neither the read buffer nor one that is not complete. -/
theorem Reassembling.release {m : Message} (h : Reassembling d es w) (hm : m ∈ w.held)
    (hs : Connection.release m.buf { w with held := w.held.erase m } = .ok () w') :
    Reassembling d (es ++ [.release m]) w' := by
  obtain ⟨n, xs, hown⟩ := h.own
  obtain ⟨c, hc, hsound, hread, h1, hcap⟩ := h.empty
  have hheld : m.buf ∈ w.held.map Message.buf := List.mem_map_of_mem hm
  have hout : m.buf ∉ w.buffers := fun hin => (hown.sole hin (h.pending.refCnt _ hin)).2.2.1 hheld
  have hne : c ≠ m.buf := fun e =>
    hown.not_uses hc (Int.le_of_eq h1) (List.mem_append_right _ (e ▸ hheld))
  obtain ⟨w₁, hw₁⟩ : ∃ w₁ : Connection, { w with held := w.held.erase m } = w₁ := ⟨_, rfl⟩
  have hown₁ : Own d n (m.buf :: xs) w₁ := hw₁ ▸ hown.move rfl rfl rfl rfl fun b => by
    have := ((List.perm_cons_erase hm).map Message.buf).count_eq b
    simp only [owned, refs, List.count_append, List.count_cons, this, List.map_cons]
    omega
  have hset : SetAside w.buffers w w₁ := (h.pending.setAside hown).congr (hw₁ ▸ rfl) (hw₁ ▸ rfl) (hw₁ ▸ rfl)
  have hheap : (w₁.setBuf m.buf ((w₁.heap m.buf).release 1)).heap c = w.heap c := by
    rw [setBuf_heap_of_ne _ _ hne, ← hw₁]
  rw [hw₁] at hs
  obtain ⟨-, rfl⟩ := Outcome.ok.inj hs
  refine ⟨⟨n, xs, hown₁.release⟩, ⟨c, ?_, ?_⟩, (h.pending.congr (hset.setBuf hout _)).of_pending fun s => ?_⟩
  · rw [← hw₁]
    exact hc
  · rw [← hheap] at hsound hread h1 hcap
    exact ⟨hsound, hread, h1, hcap⟩
  · exact sinceEor_release

theorem Reassembling.step (h : Reassembling d es w) (he : e.OfMessages) (hc : e.Clears p w) (hstep : Step p w e w') :
    Reassembling d (es ++ [e]) w' := by
  obtain ⟨henabled, fuel, hs⟩ := hstep
  cases e with
  | fragment s eor bytes =>
    cases eor with
    | false => exact h.part henabled hs
    | true => exact h.whole henabled hc hs
  | release m => exact h.release henabled hs
  | connect | read | error => exact he.elim

/-- The constructor, and the first read. -/
theorem Reassembling.started (hd : d.Becomes d) (h : Started d w) (hc : Step p w .connect w') :
    Reassembling d [.connect] w' := by
  have P : Pending [] (blank d) :=
    ⟨List.nodup_nil, List.nodup_nil, fun _ hm => absurd hm List.not_mem_nil, fun _ _ => rfl, fun _ _ hs => (nomatch hs)⟩
  have h₀ := P.adjusted (blank_own hd) (fun _ hb => nomatch hb) h
  obtain ⟨n, xs, hown⟩ := h₀.own
  obtain ⟨b, hb, hempty⟩ := h₀.empty
  obtain ⟨-, fuel, hs⟩ := hc
  have P₁ := h₀.pending.congr ((h₀.pending.setAside hown).congr rfl rfl rfl : SetAside _ _ { w with connected_ := true })
  have P₂ : Pending [.connect] { w with connected_ := true } := P₁.of_pending fun _ => rfl
  refine P₂.adjusted (hown.move rfl rfl rfl rfl fun _ => rfl) (fun b' hb' => ?_) hs
  obtain rfl : b' = b := Option.some.inj (hb'.symm.trans hb)
  exact .inl { hempty with }

/-- After every run in which each message that is delivered from the read buffer is taken or read. -/
theorem Reassembling.run {w₀ : Connection} (h : Reassembling d es w₀) {es' : List Input} (hes : ∀ e ∈ es', e.OfMessages)
    (hr : Run (fun w e w' => e.Clears p w ∧ Step p w e w') w₀ es' w) : Reassembling d (es ++ es') w := by
  induction hr with
  | nil => rwa [List.append_nil]
  | snoc _ hstep ih =>
    rw [← List.append_assoc]
    exact (ih fun e he => hes e (List.mem_append_left _ he)).step (hes _ (by simp)) hstep.1 hstep.2

end Connection

open Connection
open Buffer.UnpooledHeapCharBuf (IsInt)

/-- The buffer that is delivered at the end of a message holds the fragments of its stream since the last end of one,
whatever came of other streams and whatever handlers did with earlier messages, if of each message that was delivered
from the read buffer they left nothing unread there for the next read. -/
theorem reassembled {a b c x y : Int} (ha : IsInt a) (hb : IsInt b) {d : LengthFieldBasedFrameDecoder}
    (hd : LengthFieldBasedFrameDecoder.new a b c x y = .ok d) {p : Pipeline} {w₀ w w' : Connection} {es : List Input}
    (hes : ∀ e ∈ es, e.OfMessages) (h0 : Started d w₀)
    (hr : Run (fun w e w' => e.Clears p w ∧ Step p w e w') w₀ (.connect :: es) w) {s : Nat} {bytes : List UInt8}
    (hs : Step p w (.fragment s true bytes) w') :
    ∃ m v, deliver s bytes w = .ok m v ∧ (v.heap m).readable = sinceEor s es ++ bytes := by
  obtain ⟨w₁, ⟨-, hc⟩, hr⟩ := hr.of_cons
  have hR := (Reassembling.started (LengthFieldBasedFrameDecoder.new_becomes hd ha hb) h0 hc).run hes hr
  obtain ⟨henabled, fuel, hs⟩ := hs
  rw [Input.handle, sctpHandleRead_eor] at hs
  obtain ⟨m, v, e, -⟩ := Outcome.bind_eq_ok hs
  obtain ⟨_, _, _, _, D, -⟩ := hR.delivering henabled e
  exact ⟨m, v, e, D.readable⟩

instance (p : Pipeline) (w : Connection) (e : Input) : Decidable (e.Clears p w) :=
  match e with
  | .fragment _ true _ => inferInstanceAs (Decidable (_ → _ ∨ _ ∨ _ ∨ _ ∧ _))
  | .fragment _ false _ | .connect | .read _ | .error | .release _ => inferInstanceAs (Decidable True)

/-- A handler reads two bytes of each message: the second of stream 1 comes between the parts of one of stream 0. -/
theorem reassembled_two_streams :
    ∃ w₀ w, Started twoByteLengths w₀ ∧
      Run (Step ⟨[⟨fun _ => 2, fun _ => false⟩], false, []⟩) w₀
        [.connect, .fragment 0 false [1, 2, 3], .fragment 1 true [4, 5], .fragment 0 false [6]] w ∧
      ∃ m v, deliver 0 [7] w = .ok m v ∧ (v.heap m).readable = [1, 2, 3, 6, 7] := by
  let p : Pipeline := ⟨[⟨fun _ => 2, fun _ => false⟩], false, []⟩
  obtain ⟨w₀, w, h0, h, hen, hok⟩ := Connection.exists_run_of (d := twoByteLengths) (p := p)
    (fun w e => decide (e.Clears p w))
    [.connect, .fragment 0 false [1, 2, 3], .fragment 1 true [4, 5], .fragment 0 false [6]] 1
    (P := fun w => (Input.fragment 0 true [7]).Enabled w ∧ ((Input.fragment 0 true [7]).handle p 1 w).ok?.isSome = true)
    (by decide +kernel)
  obtain ⟨w', hok⟩ := Option.isSome_iff_exists.mp hok
  have hr : Run (fun w e w' => e.Clears p w ∧ Step p w e w') w₀ _ w :=
    h.mono fun _ _ _ h => ⟨of_decide_eq_true h.1, h.2⟩
  exact ⟨w₀, w, h0, h.mono fun _ _ _ h => h.2, reassembled (a := 64) (b := 0) (c := 2) (x := 0) (y := 0)
    ⟨by decide, by decide⟩ ⟨by decide, by decide⟩ rfl (by simp [Input.OfMessages]) h0 hr
    ⟨hen, 1, Outcome.ok?_eq_some.mp hok⟩⟩

/-- Nobody reads the first message, which is in the read buffer: it is in front of the second. -/
theorem unread_message_delivered_again :
    sinceEor 0 [.fragment 0 true [1, 2]] = [] ∧
    ∃ w₀ w m v, Started twoByteLengths w₀ ∧
      Run (Step ⟨[.adapter], false, []⟩) w₀ [.connect, .fragment 0 true [1, 2]] w ∧
      (Input.fragment 0 true [3]).Enabled w ∧ deliver 0 [3] w = .ok m v ∧ (v.heap m).readable = [1, 2, 3] := by
  obtain ⟨w₀, w, h0, h, hen, hok⟩ := Connection.exists_run (d := twoByteLengths) (p := ⟨[.adapter], false, []⟩)
    [.connect, .fragment 0 true [1, 2]] 1 (P := fun w => (Input.fragment 0 true [3]).Enabled w ∧
      ((deliver 0 [3] w).any fun m v => (v.heap m).readable = [1, 2, 3]) = true) (by decide +kernel)
  obtain ⟨m, v, e, hr⟩ := Outcome.any_eq_true.mp hok
  exact ⟨rfl, w₀, w, m, v, h0, h, hen, e, of_decide_eq_true hr⟩

end Nio.Net
