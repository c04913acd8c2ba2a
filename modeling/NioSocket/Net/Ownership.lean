import NioSocket.Net.Connection
import NioSocket.Lib.Trans

/-!
# Who owns a buffer

Every buffer of a connection counts the references to it: the connection's, the
decoder's, those of the messages put together from fragments and of the messages
handlers keep, and those that travel with an event (`Own`). Each call hands its
references on, for whatever the decoder's buffers hold and however its indices stand.
-/

namespace Nio.Net

open Buffer (UnpooledHeapCharBuf)
open Buffer.UnpooledHeapCharBuf (charBuf Counted Neutral IsInt)

/-- Handlers in front of the decoder forward what they are given. -/
def Pipeline.Forwards (p : Pipeline) : Prop :=
  p.decoder = true → ∀ h ∈ p.before, ∀ i, h.keeps i = false

/-- The references an event of a whole buffer takes along: the tail releases one, the decoder
none. -/
def Pipeline.travels (p : Pipeline) (b : Nat) : List Nat := if p.decoder then [] else [b]

namespace Connection

/-- The buffers that members of the connection and of its handlers refer to. -/
def refs (w : Connection) : List Nat :=
  w.cumulation_.toList ++ (w.decoder.cumulation_.toList ++ (w.streamMsgs_.map (·.2) ++
    (w.held.map Message.buf ++ w.dropped.map Message.buf)))

/-- The references to a buffer: those of the members, and those at hand, `xs`. -/
def owned (w : Connection) (xs : List Nat) (b : Nat) : Nat := w.refs.count b + xs.count b

/-- `n` buffers are allocated, and each counts the references to it. -/
structure Own (d : LengthFieldBasedFrameDecoder) (n : Nat) (xs : List Nat) (w : Connection) : Prop where
  next : w.next = n
  fresh : ∀ b, n ≤ b → w.owned xs b = 0
  count : ∀ b, Counted (w.owned xs b) (w.heap b)
  decoder : d.Becomes w.decoder.frameDecoder
  handle : w.recvBufAllocHandle.Ok

variable {d : LengthFieldBasedFrameDecoder} {n : Nat} {xs ys : List Nat} {w w' : Connection} {b : Nat}

namespace Own

/-- References move between the members and the hand. -/
theorem move (h : Own d n xs w) (hheap : w'.heap = w.heap) (hnext : w'.next = w.next)
    (hd : w'.decoder.frameDecoder = w.decoder.frameDecoder) (hr : w'.recvHandle = w.recvHandle)
    (ho : ∀ b, w'.owned ys b = w.owned xs b) : Own d n ys w' where
  next := hnext.trans h.next
  fresh b hb := (ho b).trans (h.fresh b hb)
  count b := by rw [ho, hheap]; exact h.count b
  decoder := hd ▸ h.decoder
  handle := by rw [recvBufAllocHandle, hr]; exact h.handle

theorem lt (h : Own d n xs w) (hb : b ∈ w.refs ++ xs) : b < n := by
  by_contra hn
  have := h.fresh b (by omega)
  rw [owned, ← List.count_append] at this
  exact (List.count_pos_iff.mpr hb).ne' this

/-- A buffer changes, but for its count. -/
theorem setBuf (h : Own d n xs w) {x : UnpooledHeapCharBuf}
    (hx : ∀ k, Counted k (w.heap b) → Counted k x) : Own d n xs (w.setBuf b x) where
  next := h.next
  fresh := h.fresh
  count c := by
    show Counted _ (Function.update w.heap b x c)
    by_cases hc : c = b
    · subst hc; rw [Function.update_self]; exact hx _ (h.count c)
    · rw [Function.update_of_ne hc]; exact h.count c
  decoder := h.decoder
  handle := h.handle

theorem retain (h : Own d n xs w) (hb : b < n) : Own d n (b :: xs) (w.setBuf b ((w.heap b).retain 1)) where
  next := h.next
  fresh c hc := by
    have := h.fresh c hc
    simp only [owned, List.count_cons, beq_iff_eq] at this ⊢
    rw [if_neg (by omega)]
    exact this
  count c := by
    show Counted (w.owned (b :: xs) c) (Function.update w.heap b _ c)
    by_cases hc : c = b
    · subst hc
      rw [Function.update_self]
      have := (h.count c).retain
      rw [owned] at this
      rwa [owned, List.count_cons_self, ← Nat.add_assoc, Int.natCast_add]
    · rw [Function.update_of_ne hc, owned, List.count_cons_of_ne (Ne.symm hc)]
      exact h.count c
  decoder := h.decoder
  handle := h.handle

theorem release (h : Own d n (b :: xs) w) : Own d n xs (w.setBuf b ((w.heap b).release 1)) where
  next := h.next
  fresh c hc := by
    have := h.fresh c hc
    rw [owned, List.count_cons] at this
    show w.refs.count c + xs.count c = 0
    omega
  count c := by
    show Counted (w.owned xs c) (Function.update w.heap b _ c)
    have hcount := h.count c
    by_cases hc : c = b
    · subst hc
      rw [Function.update_self]
      rw [owned, List.count_cons_self] at hcount
      have := hcount.release
      rwa [← Nat.add_assoc, Int.natCast_add, Int.natCast_one, Int.add_sub_cancel] at this
    · rw [Function.update_of_ne hc]
      rwa [owned, List.count_cons_of_ne (Ne.symm hc)] at hcount
  decoder := h.decoder
  handle := h.handle

theorem perm (h : Own d n xs w) (hp : List.Perm xs ys) : Own d n ys w :=
  h.move rfl rfl rfl rfl fun b => by rw [owned, owned, hp.count_eq]

/-- A new buffer, at hand. -/
theorem alloc (h : Own d n xs w) (c : Int) :
    Own d (n + 1) (w.next :: xs) { w.setBuf w.next (UnpooledHeapCharBuf.new c intMax) with next := w.next + 1 } := by
  have hn := h.next
  have h0 := h.fresh w.next (by omega)
  refine ⟨congrArg (· + 1) hn, fun c hc => ?_, fun c => ?_, h.decoder, h.handle⟩
  · rw [owned, List.count_cons]
    have := h.fresh c (by omega)
    rw [if_neg (by simp; omega)]
    exact this
  · show Counted (w.owned (w.next :: xs) c) (Function.update w.heap w.next _ c)
    by_cases hc : c = w.next
    · subst hc
      rw [Function.update_self, owned, List.count_cons_self, ← Nat.add_assoc,
        show w.refs.count w.next + xs.count w.next = 0 from h0]
      exact UnpooledHeapCharBuf.new_counted _
    · rw [Function.update_of_ne hc, owned, List.count_cons_of_ne (Ne.symm hc)]
      exact h.count c

end Own

/-! ## Buffers -/

theorem on_own {α : Type} {m : Method UnpooledHeapCharBuf α} (hm : Neutral m) (b : Nat) :
    Triple (Own d n xs) (on b m) (fun _ => Own d n xs) (Own d n xs) := by
  intro w h
  have hs : ∀ k, Counted k (w.heap b) → (m (w.heap b)).Sat (fun _ => Counted k) (Counted k) := fun k => hm k _
  unfold on
  cases e : m (w.heap b) with
  | ok a x => exact h.setBuf fun k hk => by simpa only [e, Outcome.Sat] using hs k hk
  | throw what x => exact h.setBuf fun k hk => by simpa only [e, Outcome.Sat] using hs k hk
  | ub | hang => trivial

theorem release_own (b : Nat) : Triple (Own d n (b :: xs)) (release b) (fun _ => Own d n xs) fun _ => False :=
  fun _ h => h.release

theorem deref_own (r : Option Nat) : Triple (Own d n xs) (deref r) (fun b w => Own d n xs w ∧ r = some b)
    fun _ => False := by
  intro w h
  cases r with
  | some b => exact ⟨h, rfl⟩
  | none => trivial

theorem heapBuffer_own (c : Int) :
    Triple (Own d n xs) (heapBuffer c) (fun r w => ∃ n', Own d n' (r.toList ++ xs) w) fun _ => False := by
  intro w h
  unfold heapBuffer
  split
  · exact ⟨n, h⟩
  · exact ⟨n + 1, h.alloc c⟩

theorem writeChars_own (dst src : Nat) :
    Triple (Own d n xs) (writeChars dst src) (fun _ => Own d n xs) (Own d n xs) := fun w h =>
  Outcome.Sat.bind (on_own (Neutral.writeCharsFrom _ _ _) dst w h) fun _ =>
    on_own (Neutral.setReaderIndex (i32_range _)) src

/-! ## Handlers -/

theorem readSome_own (m : Message) (k : Nat) :
    Triple (Own d n xs) (readSome m k) (fun _ => Own d n xs) fun _ => False := by
  intro w h
  cases m with
  | whole b =>
    refine h.setBuf fun k' hk => { hk with reader := ?_ }
    have hr := hk.reader
    have hw := hk.writer
    have hl := UnpooledHeapCharBuf.length_readable (w.heap b)
    show IsInt ((w.heap b).indices.readerIndex_ + (min k (w.heap b).readable.length : Nat))
    constructor <;> omega
  | slice b s => exact h

theorem invokeChannelRead_own {m : Method Connection Unit} {P : Connection → Prop}
    (h : Triple P m (fun _ => Own d n xs) (Own d n xs)) :
    Triple P (invokeChannelRead m) (fun _ => Own d n xs) fun _ => False := by
  intro w hw
  have hs := h w hw
  unfold invokeChannelRead
  cases e : m w with
  | ok a w' => rw [e] at hs; exact hs
  | throw what w' => rw [e] at hs; exact hs.move rfl rfl rfl rfl fun _ => rfl
  | ub | hang => trivial

/-- The reference a message comes with is the next handler's, or is kept. -/
theorem invokeHandlers_own {next : Message → Method Connection Unit} {m : Message}
    (h : Triple (Own d n (m.buf :: xs)) (next m) (fun _ => Own d n xs) (Own d n xs)) (i : Nat) (hs : List Handler) :
    Triple (Own d n (m.buf :: xs)) (invokeHandlers i next hs m) (fun _ => Own d n xs) fun _ => False := by
  induction hs with
  | nil => exact invokeChannelRead_own h
  | cons a hs ih =>
    refine invokeChannelRead_own (Triple.bind (Q := fun _ => Own d n (m.buf :: xs)) ?_ fun _ => ?_)
    · exact (readSome_own m _).conseq (fun _ h => h) (fun _ _ h => h) fun _ h => h.elim
    · refine Triple.ite (fun _ => ?_) fun _ => ih.conseq (fun _ h => h) (fun _ _ h => h) fun _ h => h.elim
      refine Triple.modify fun w hw => hw.move rfl rfl rfl rfl fun b => ?_
      simp only [owned, refs, List.map_append, List.count_append, List.count_cons, List.map_cons, List.map_nil,
        List.count_nil]
      omega

theorem fire_own (hs : List Handler) (m : Message) :
    Triple (Own d n (m.buf :: xs)) (fire hs m) (fun _ => Own d n xs) fun _ => False := fun _ h =>
  invokeHandlers_own ((release_own m.buf).conseq (fun _ h => h) (fun _ _ h => h) fun _ h => h.elim) _ hs _
    (h.move rfl rfl rfl rfl fun _ => rfl)

theorem fireAll_own (hs : List Handler) (ms : List Message) :
    Triple (Own d n (ms.map Message.buf ++ xs)) (fireAll hs ms) (fun _ => Own d n xs) fun _ => False := by
  induction ms with
  | nil => exact Triple.pure fun _ h => h
  | cons m ms ih => exact (fire_own hs m).bind fun _ => ih

/-! ## The decoder -/

/-- What the decoder remembers, but for its `cumulation_`, is nobody's reference. -/
theorem Own.setDecoder (h : Own d n xs w) {x : ByteToMessageDecoder} (hd : d.Becomes x.frameDecoder)
    (hc : x.cumulation_ = w.decoder.cumulation_) : Own d n xs (w.setDecoder x) where
  next := h.next
  fresh b hb := by
    have := h.fresh b hb
    rwa [owned, refs, ← hc] at this
  count b := by
    have := h.count b
    rwa [owned, refs, ← hc] at this
  decoder := hd
  handle := h.handle

/-- The decoder lets go of its `cumulation_`, or takes one. -/
theorem Own.letGo (h : Own d n xs w) {c : Nat} (hc : w.decoder.cumulation_ = some c) :
    Own d n (c :: xs) (w.setDecoder { w.decoder with cumulation_ := none }) :=
  h.move rfl rfl rfl rfl fun b => by
    simp only [owned, refs, Connection.setDecoder, hc, Option.toList, List.count_append, List.count_cons, List.count_nil]
    omega

theorem Own.take {c : Nat} (h : Own d n (c :: xs) w) (hc : w.decoder.cumulation_ = none) :
    Own d n xs (w.setDecoder { w.decoder with cumulation_ := some c }) :=
  h.move rfl rfl rfl rfl fun b => by
    simp only [owned, refs, Connection.setDecoder, hc, Option.toList, List.count_append, List.count_cons, List.count_nil]
    omega

/-- An event that `decode` returns comes with a reference of its own. -/
theorem decode_own {c : Nat} (hc : c < n) :
    Triple (fun w => Own d n xs w ∧ (w.heap c).indices.readerIndex_ ≤ (w.heap c).indices.writerIndex_) (decode c)
      (fun o => Own d n (o.toList.map Message.buf ++ xs)) (Own d n xs) := by
  rintro w ⟨h, hrw⟩
  have hd := LengthFieldBasedFrameDecoder.decode_counts (n := w.owned xs c)
    ⟨w.decoder.frameDecoder, w.heap c, []⟩ ⟨h.decoder, h.count c, hrw⟩
  have hset : ∀ (s : Decoding) (o : List Decoded), d.Becomes s.decoder → Counted (w.owned xs c) s.buf →
      Own d n xs (w.decoded c s o) := fun s o ha hs => by
    refine Own.setDecoder (h.setBuf fun k hk => ?_) ha rfl
    have : (k : Int) = w.owned xs c := hk.refCnt.symm.trans (h.count c).refCnt
    exact this ▸ hs
  unfold decode
  cases e : LengthFieldBasedFrameDecoder.decode ⟨w.decoder.frameDecoder, w.heap c, []⟩ with
  | ok o s =>
    rw [e] at hd
    cases o with
    | none => exact hset s _ hd.decoder (by simpa using hd.counted)
    | some f =>
      -- the buffer as it is, with the one reference more taken first
      have hr := h.retain hc
      refine Own.setDecoder (x := { w.decoder with frameDecoder := _, consumed := _, trace := _ }) ?_ hd.decoder rfl
      have hbuf := hr.setBuf (b := c) (x := s.buf) fun k hk => by
        have h1 := hk.refCnt
        rw [setBuf_heap_self] at h1
        have h2 := (h.count c).retain.refCnt
        have : k = w.owned xs c + 1 := h1.symm.trans h2
        subst this
        simpa using hd.counted
      refine hbuf.move ?_ rfl rfl rfl fun _ => rfl
      show Function.update w.heap c s.buf = Function.update (Function.update w.heap c _) c s.buf
      rw [Function.update_idem]
  | throw what s => rw [e] at hd; exact hset s _ hd.decoder hd.counted
  | ub | hang => trivial

theorem decode_slice (c : Nat) :
    Triple (fun _ => True) (decode c) (fun o _ => ∀ m, o = some m → ∃ s, m = .slice c s) fun _ => True := by
  intro w _
  unfold decode
  split
  · exact fun _ h => nomatch h
  · exact fun _ h => ⟨_, (Option.some.inj h).symm⟩
  all_goals trivial

/-- The slices in `out` come with the references they hold; firing them leaves the indices of
the buffer, so that they are in order when `decode` is called. -/
theorem decodeLoop_own {c : Nat} (hc : c < n) (hs : List Handler) (fuel : Nat) (ss : List Slice) (ex : String) :
    Triple (Own d n ((ss.map (Message.slice c)).map Message.buf ++ xs)) (decodeLoop hs c fuel (ss.map (.slice c)) ex)
      (fun r w => Own d n (r.1.map Message.buf ++ xs) w ∧ ∃ ss : List Slice, r.1 = ss.map (.slice c))
      fun _ => False := by
  induction fuel generalizing ss ex with
  | zero => exact fun _ _ => trivial
  | succ fuel ih =>
    intro w h
    unfold decodeLoop
    split
    · exact ⟨h, ss, rfl⟩
    rename_i hread
    have hown := fireAll_own hs _ w h
    rw [fireAll_slices] at hown ⊢
    have hle : (w.heap c).indices.readerIndex_ ≤ (w.heap c).indices.writerIndex_ := by
      rw [UnpooledHeapCharBuf.isReadable_charBuf, Bool.not_eq_true', decide_eq_false_iff_not, not_not] at hread
      exact Int.le_of_lt hread
    rw [← (handled_foldl hs (ss.map (.slice c)) w).indices c] at hle
    generalize (ss.map (.slice c)).foldl (fired1 hs) w = w at hown hle ⊢
    have hd : (decode c w).Sat _ _ := decode_own hc w ⟨hown, hle⟩
    have hslice := decode_slice c w trivial
    dsimp only [Outcome.bind_ok]
    cases e : decode c w with
    | ok o w' =>
      rw [e] at hd hslice
      cases o with
      | none =>
        dsimp only
        split
        · exact ⟨hd, [], rfl⟩
        · exact ih [] ex w' hd
      | some m =>
        obtain ⟨s, rfl⟩ := hslice m rfl
        dsimp only
        split
        · exact ih [s] _ w' hd
        split
        · exact ⟨hd, [s], rfl⟩
        · exact ih [s] ex w' hd
    | throw what w' => rw [e] at hd; exact ih [] what w' hd
    | ub | hang => trivial

theorem callDecode_own {c : Nat} (hc : c < n) (hs : List Handler) (fuel : Nat) :
    Triple (Own d n xs) (callDecode fuel hs c) (fun out => Own d n (out.map Message.buf ++ xs)) (Own d n xs) := by
  intro w h
  refine ((decodeLoop_own hc hs fuel [] "" w h).mono (fun _ _ h => h.1) fun _ h => h.elim).bind fun r => ?_
  refine Triple.ite (fun _ => ?_) fun _ => Triple.pure fun _ h => h
  refine Triple.bind (Q := fun _ => Own d n xs) (Triple.modify fun w hw => hw.move rfl rfl rfl rfl fun b => ?_)
    fun _ => Triple.throw fun _ h => h
  simp only [owned, refs, List.map_append, List.count_append]
  omega

theorem on_keeps {α τ : Type} {f : Connection → τ} (hf : ∀ w b x, f (w.setBuf b x) = f w) (b : Nat)
    (m : Method UnpooledHeapCharBuf α) : (on b m).Keeps f := by
  intro w
  unfold on
  split
  · exact hf _ _ _
  · exact hf _ _ _
  all_goals trivial

theorem writeChars_keeps {τ : Type} {f : Connection → τ} (hf : ∀ w b x, f (w.setBuf b x) = f w) (dst src : Nat) :
    (writeChars dst src).Keeps f := fun w =>
  Outcome.Sat.bind (on_keeps hf dst _ w) fun _ w' hw' =>
    (on_keeps hf src _ w').mono (fun _ _ h => h.trans hw') fun _ h => h.trans hw'

/-- A sum that wraps is not above the largest `int` there is. -/
theorem cumulate_own (c src : Nat) (x : ByteToMessageDecoder) :
    Triple (fun w => Own d n xs w ∧ w.decoder = x) (cumulate c src)
      (fun r w => (Own d n xs w ∧ w.decoder = x) ∧ r = c) (Own d n xs) := by
  intro w h
  have hm : charBuf.maxCapacity (w.heap c) = intMax := (h.1.count c).max_eq
  have hr := i32_range (charBuf.writerIndex (w.heap c) + charBuf.readableBytes (w.heap src))
  dsimp only [cumulate]
  rw [if_neg (by rw [hm]; exact Int.not_lt.mpr hr.2)]
  exact ((writeChars_own c src).frame (writeChars_keeps (fun _ _ _ => rfl) c src) x w h).bind
    fun _ => Triple.pure fun _ h => ⟨h, rfl⟩

/-- The decoder takes a reference of its own, and leaves the event's to others. -/
theorem decodeRead_own {data : Nat} (hdata : data < n) (fuel : Nat) (hs : List Handler) :
    Triple (Own d n xs) (decodeRead fuel hs data) (fun out => Own d n (out.map Message.buf ++ xs)) (Own d n xs) := by
  refine Triple.bind (Q := fun _ => Own d n xs)
    (Triple.modify fun w hw => hw.setDecoder hw.decoder rfl) fun _ => Triple.of_state fun w hw => ?_
  have hcall : Triple (Own d n xs) (do
      let c ← (← Method.get fun w : Connection => w.decoder.cumulation_) |> deref
      callDecode fuel hs c) (fun out => Own d n (out.map Message.buf ++ xs)) (Own d n xs) := by
    refine Triple.bind (Q := fun r w => Own d n xs w ∧ r = w.decoder.cumulation_)
      (Triple.get fun w hw => ⟨hw, rfl⟩) fun r => ?_
    refine Triple.bind (Q := fun c w => Own d n xs w ∧ c < n) ?_ fun c => ?_
    · rintro w ⟨hw, rfl⟩
      refine (deref_own (w.decoder.cumulation_) w hw).mono (fun c w' hw' => ⟨hw'.1, ?_⟩) fun _ h => h.elim
      refine hw.lt (b := c) ?_
      simp [refs, hw'.2]
    · exact fun w hw => callDecode_own hw.2 hs fuel w hw.1
  refine Triple.bind (Q := fun r w' => w' = w ∧ r = w.decoder.cumulation_)
    (Triple.get fun w' hw' => ⟨hw', by rw [hw']⟩) fun r => ?_
  rintro w' ⟨rfl, rfl⟩
  cases e : w'.decoder.cumulation_ with
  | none => exact hcall _ ((hw.retain hdata).take e)
  | some c =>
    refine Outcome.Sat.bind (cumulate_own c data w'.decoder w' ⟨hw, rfl⟩) fun r w'' ⟨⟨hw'', hd⟩, hr⟩ => ?_
    exact hcall _ (hw''.setDecoder (x := { w''.decoder with cumulation_ := some r }) hw''.decoder
      (by rw [hd, e, hr]))

theorem discardSomeReadBytes_own : Triple (Own d n xs) discardSomeReadBytes (fun _ => Own d n xs) (Own d n xs) := by
  intro w h
  unfold discardSomeReadBytes
  split
  · split
    · exact on_own Neutral.discardSomeReadBytes _ w h
    · exact h
  · exact h

theorem countRead_own : Triple (Own d n xs) countRead (fun _ => Own d n xs) fun _ => False := by
  intro w h
  dsimp only [countRead]
  split
  · have hd := discardSomeReadBytes_own _ (h.setDecoder (x := { w.decoder with numReads := 0 }) h.decoder rfl)
    cases e : discardSomeReadBytes (w.setDecoder { w.decoder with numReads := 0 }) with
    | ok _ w' => rw [e] at hd; exact hd
    | throw _ w' => rw [e] at hd; exact hd
    | ub | hang => trivial
  · exact h.setDecoder h.decoder rfl

theorem resetCumulation_own : Triple (Own d n xs) resetCumulation (fun _ => Own d n xs) fun _ => False := by
  intro w h
  unfold resetCumulation
  split
  · rename_i c hc
    split
    · exact countRead_own w h
    · have h' := h.setDecoder (x := { w.decoder with numReads := 0 }) h.decoder rfl
      exact (h'.letGo hc).release
  · exact countRead_own w h

/-- The message of the event is whose it was before. -/
theorem channelRead_own {data : Nat} (hdata : data < n) (fuel : Nat) (hs : List Handler) :
    Triple (Own d n xs) (channelRead fuel hs data) (fun _ => Own d n xs) (Own d n xs) := by
  intro w h
  have hd := decodeRead_own hdata fuel hs w h
  unfold channelRead
  cases e : decodeRead fuel hs data w with
  | ok out w' =>
    rw [e] at hd
    refine Outcome.Sat.bind ((resetCumulation_own w' hd).mono (fun _ _ h => h) fun _ h => h.elim) fun _ w'' h => ?_
    exact (fireAll_own hs out w'' h).mono (fun _ _ h => h) fun _ h => h.elim
  | throw what w' =>
    rw [e] at hd
    exact ((resetCumulation_own w' hd).mono (fun _ _ h => h) fun _ h => h.elim).bind fun _ =>
      Triple.throw fun _ h => h
  | ub | hang => trivial

theorem channelInactive_own : Triple (Own d n xs) channelInactive (fun _ => Own d n xs) fun _ => False := by
  intro w h
  unfold channelInactive
  split
  · rename_i c hc
    exact (h.letGo hc).release
  · exact h

/-! ## The connection -/

variable {p : Pipeline} {fuel : Nat}

theorem invokeHandlers_forward {next : Message → Method Connection Unit} {m : Message}
    (h : Triple (Own d n xs) (next m) (fun _ => Own d n xs) (Own d n xs)) {i : Nat} {hs : List Handler}
    (hk : ∀ a ∈ hs, a.keeps i = false) :
    Triple (Own d n xs) (invokeHandlers i next hs m) (fun _ => Own d n xs) fun _ => False := by
  induction hs with
  | nil => exact invokeChannelRead_own h
  | cons a hs ih =>
    refine invokeChannelRead_own (Triple.bind (Q := fun _ => Own d n xs) ?_ fun _ => ?_)
    · exact (readSome_own m _).conseq (fun _ h => h) (fun _ _ h => h) fun _ h => h.elim
    · rw [if_neg (by rw [hk a List.mem_cons_self]; decide)]
      exact (ih fun a ha => hk a (List.mem_cons_of_mem _ ha)).conseq (fun _ h => h) (fun _ _ h => h)
        fun _ h => h.elim

theorem fireChannelRead_own (hp : p.Forwards) (hb : b < n) :
    Triple (Own d n (p.travels b ++ xs)) (fireChannelRead p fuel b) (fun _ => Own d n xs) fun _ => False := by
  intro w h
  unfold Pipeline.travels at h
  unfold fireChannelRead
  split
  · rename_i hd
    rw [if_pos hd] at h
    exact invokeHandlers_forward (channelRead_own hb fuel p.after) (fun a ha => hp hd a ha _) w h
  · rename_i hd
    rw [if_neg hd] at h
    exact fire_own _ (.whole b) w h

/-- The connection lets go of its read buffer. -/
theorem Own.letGoCumulation (h : Own d n xs w) (hb : w.cumulation_ = some b) :
    Own d n (b :: xs) { w with cumulation_ := none } :=
  h.move rfl rfl rfl rfl fun c => by
    simp only [owned, refs, hb, Option.toList, List.count_append, List.count_cons, List.count_nil]
    omega

/-- And takes the one at hand. -/
theorem Own.takeCumulation {r : Option Nat} (h : Own d n (r.toList ++ xs) w) (hb : w.cumulation_ = none) :
    Own d n xs { w with cumulation_ := r } :=
  h.move rfl rfl rfl rfl fun c => by
    simp only [owned, refs, hb, Option.toList, List.count_append, List.count_nil]
    omega

theorem freeBuffer_own :
    Triple (Own d n xs) freeBuffer (fun _ w => Own d n xs w ∧ w.cumulation_ = none) fun _ => False := by
  intro w h
  unfold freeBuffer
  split
  · rename_i b hb
    exact ⟨(h.letGoCumulation hb).release, rfl⟩
  · rename_i hb
    exact ⟨h, hb⟩

theorem newReadBuffer_own (guess : Int) :
    Triple (Own d n xs) (newReadBuffer guess) (fun _ w => ∃ n', Own d n' xs w) fun _ => False := by
  refine freeBuffer_own.bind fun _ => ?_
  refine Triple.bind (Q := fun _ w => Own d n xs w ∧ w.cumulation_ = none)
    (Triple.modify fun w hw => ⟨hw.1.move rfl rfl rfl rfl fun _ => rfl, hw.2⟩) fun _ => ?_
  refine Triple.bind (Q := fun r w => (∃ n', Own d n' (r.toList ++ xs) w) ∧ w.cumulation_ = none) ?_ fun r => ?_
  · refine Triple.frame (heapBuffer_own guess) (fun w => ?_) none
    unfold heapBuffer
    split <;> rfl
  · rintro w ⟨⟨n', hw⟩, hc⟩
    exact ⟨n', hw.takeCumulation hc⟩

/-- The buffer of the connection, as a member function reads it. -/
theorem cumulation_is {α : Type} {f : Nat → Method Connection α} {P : Connection → Prop} {Q : α → Connection → Prop}
    {E : Connection → Prop} (hf : Triple (fun w => P w ∧ w.cumulation_ = some b) (f b) Q E) :
    Triple (fun w => P w ∧ w.cumulation_ = some b)
      (do let b ← (← Method.get fun w : Connection => w.cumulation_) |> deref; f b) Q E := by
  intro w h
  rw [Method.bind_apply, Method.get_apply, Outcome.bind_ok, Method.bind_apply, h.2]
  exact hf w h

theorem cumulation_own {α : Type} {f : Nat → Method Connection α} {Q : α → Connection → Prop} {E : Connection → Prop}
    (hf : ∀ b, b < n → Triple (fun w => Own d n xs w ∧ w.cumulation_ = some b) (f b) Q E) :
    Triple (Own d n xs) (do let b ← (← Method.get fun w : Connection => w.cumulation_) |> deref; f b) Q E := by
  intro w h
  cases e : w.cumulation_ with
  | none =>
    rw [Method.bind_apply, Method.get_apply, Outcome.bind_ok, Method.bind_apply, e]
    trivial
  | some b => exact cumulation_is (hf b (h.lt (by simp [refs, e]))) w ⟨h, e⟩

theorem Own.setHandle (h : Own d n xs w) {a : HandleImpl} (ha : a.Ok) : Own d n xs { w with recvHandle := some a } where
  next := h.next
  fresh := h.fresh
  count := h.count
  decoder := h.decoder
  handle := ha

theorem fitReadBuffer_own :
    Triple (Own d n xs) fitReadBuffer (fun _ w => ∃ n', Own d n' xs w) fun w => ∃ n', Own d n' xs w := by
  intro w h
  have hnew : ∀ g, (newReadBuffer g w).Sat (fun _ w => ∃ n', Own d n' xs w) fun w => ∃ n', Own d n' xs w := fun g =>
    (newReadBuffer_own g w h).mono (fun _ _ h => h) fun _ h => h.elim
  dsimp only [fitReadBuffer]
  split
  · exact hnew _
  split
  · split
    · have hg := h.handle.guess
      exact (on_own (Neutral.setCapacity ⟨by omega, by omega⟩) _ w h).mono (fun _ _ h => ⟨n, h⟩) fun _ h => ⟨n, h⟩
    · exact hnew _
  · exact ⟨n, h⟩

theorem adjustReadBuffer_own :
    Triple (Own d n xs) adjustReadBuffer (fun _ w => ∃ n', Own d n' xs w) fun w => ∃ n', Own d n' xs w := by
  refine Triple.bind (Q := fun _ => Own d n xs) (Triple.modify fun w hw => hw.setHandle hw.handle) fun _ => ?_
  refine fitReadBuffer_own.bind fun _ w ⟨n', h⟩ => ?_
  refine cumulation_own (E := fun w => ∃ n', Own d n' xs w) (Q := fun _ w => ∃ n', Own d n' xs w) (fun b _ => ?_) w h
  exact Triple.modify fun w hw => ⟨n', hw.1.setHandle (hw.1.handle.attemptedBytesRead _).reset⟩

theorem record_own (len : Int) :
    Triple (Own d n xs) (record len) (fun _ => Own d n xs) fun _ => False := by
  refine Triple.modify fun w hw => hw.setHandle (HandleImpl.Ok.readComplete ?_)
  split
  · exact hw.handle.lastBytesRead len
  · exact hw.handle

theorem discardSomeBytes_own :
    Triple (Own d n xs) discardSomeBytes (fun _ => Own d n xs) (Own d n xs) := by
  refine cumulation_own fun b hb => ?_
  refine Triple.bind (Q := fun _ => Own d n xs) (Triple.get fun w hw => hw.1) fun k => Triple.ite (fun _ => ?_) fun _ => ?_
  · exact freeBuffer_own.conseq (fun _ h => h) (fun _ _ h => h.1) fun _ h => h.elim
  · exact on_own Neutral.discardSomeReadBytes b

/-- The event takes along what is at hand for it. -/
theorem messageReceived_own (hp : p.Forwards) (len : Int) :
    Triple (fun w => Own d n (p.travels b ++ xs) w ∧ w.cumulation_ = some b) (messageReceived p fuel len)
      (fun _ => Own d n xs) (Own d n xs) := by
  have hrec : Triple (Own d n (p.travels b ++ xs)) (record len) (fun _ => Own d n (p.travels b ++ xs)) (Own d n xs) :=
    (record_own len).conseq (fun _ h => h) (fun _ _ h => h) fun _ h => h.elim
  refine Triple.bind (hrec.frame (f := Connection.cumulation_) (fun _ => rfl) (some b)) fun _ => ?_
  refine cumulation_is fun w h => ?_
  have hlt : b < n := h.1.lt (by simp [refs, h.2])
  exact ((fireChannelRead_own hp hlt w h.1).mono (fun _ _ h => h) fun _ h => h.elim).bind fun _ =>
    discardSomeBytes_own

theorem close_own : Triple (Own d n xs) close (fun _ => Own d n xs) fun _ => False := by
  intro w h
  unfold close
  split
  · exact h
  · have h' : Own d n xs { w with connected_ := false } := h.move rfl rfl rfl rfl fun _ => rfl
    refine Outcome.Sat.bind (freeBuffer_own _ h') fun _ => Triple.modify fun w hw => ?_
    exact { hw.1 with handle := HandleImpl.default_ok }

theorem handleReadError_own : Triple (Own d n xs) (handleReadError p) (fun _ => Own d n xs) fun _ => False :=
  close_own.bind fun _ w h => by
    unfold fireChannelInactive
    split
    · exact channelInactive_own w h
    · exact h

/-- The socket writes into the read buffer. -/
theorem received_own (bytes : List UInt8) :
    Triple (Own d n xs) (received bytes) (fun b w => (Own d n xs w ∧ w.cumulation_ = some b) ∧ b < n) (Own d n xs) := by
  refine cumulation_own fun b hb => ?_
  have hkeep : ∀ (w : Connection) b x, (w.setBuf b x).cumulation_ = w.cumulation_ := fun _ _ _ => rfl
  refine Triple.bind ((on_own (fun k x hx => Neutral.poke _ _ k x hx) b).frame (on_keeps hkeep b _) (some b))
    fun _ => ?_
  refine Triple.bind ((on_own (fun k x hx => Neutral.setWriterIndex (i32_range _) k x hx) b).frame
    (on_keeps hkeep b _) (some b)) fun _ => ?_
  exact Triple.pure fun w hw => ⟨hw, hb⟩

theorem tcpHandleRead_own (hp : p.Forwards) (hd : p.decoder = true) (bytes : List UInt8) :
    Triple (Own d n xs) (tcpHandleRead p fuel bytes) (fun _ w => ∃ n', Own d n' xs w) fun w => ∃ n', Own d n' xs w := by
  have ht : ∀ b, p.travels b = [] := fun b => if_pos hd
  refine Triple.bind (Q := fun _ w => ∃ b, Own d n xs w ∧ w.cumulation_ = some b) ?_ fun _ => ?_
  · exact Triple.bind ((received_own bytes).conseq (fun _ h => h) (fun _ _ h => h) fun _ h => ⟨n, h⟩)
      fun b => Triple.pure fun w hw => ⟨b, hw.1⟩
  · refine Triple.bind (Q := fun _ => Own d n xs) ?_ fun _ => adjustReadBuffer_own
    rintro w ⟨b, hw⟩
    refine (messageReceived_own (b := b) hp _ w ⟨?_, hw.2⟩).mono (fun _ _ h => h) fun _ h => ⟨n, h⟩
    rw [ht]
    exact hw.1

/-! ## Messages in fragments -/

theorem lookup_perm {l : List (Nat × Nat)} {s m : Nat} (h : l.lookup s = some m) :
    List.Perm l ((s, m) :: l.eraseP (·.1 == s)) := by
  induction l with
  | nil => cases h
  | cons a l ih =>
    rw [List.lookup_cons] at h
    by_cases hs : s = a.1
    · subst hs
      simp only [beq_self_eq_true, Option.some.injEq] at h
      subst h
      simp
    · have h1 : (s == a.1) = false := by simpa using hs
      have h2 : (a.1 == s) = false := by simpa using Ne.symm hs
      rw [h1] at h
      simp only [List.eraseP_cons, h2, cond_false]
      exact (List.Perm.cons a (ih h)).trans (List.Perm.swap _ _ _)

theorem getAndRemoveMessage_own (stream_no : Nat) :
    Triple (Own d n xs) (getAndRemoveMessage stream_no) (fun r => Own d n (r.toList ++ xs)) fun _ => False := by
  intro w h
  show Own d n ((w.streamMsg stream_no).toList ++ xs) _
  cases e : w.streamMsg stream_no with
  | none =>
    refine h.move rfl rfl rfl rfl fun b => ?_
    have hnone : ∀ a ∈ w.streamMsgs_, ¬(a.1 == stream_no) = true := fun a ha hs => by
      have := List.lookup_eq_none_iff.mp e a ha
      grind
    simp only [owned, refs, List.eraseP_of_forall_not hnone, Option.toList, List.nil_append]
  | some m =>
    refine h.move rfl rfl rfl rfl fun b => ?_
    have hp := ((lookup_perm e).map (·.2)).count_eq b
    simp only [owned, refs, Option.toList, List.count_append, List.count_cons, List.map_cons, hp, List.count_nil]
    omega

/-- The new buffer is the table's. -/
theorem appendMessage_own (stream_no : Nat) (src : Nat) :
    Triple (Own d n xs) (appendMessage stream_no src) (fun _ w => ∃ n', Own d n' xs w) fun _ => True := by
  intro w h
  unfold appendMessage
  split
  · exact (writeChars_own _ src w h).mono (fun _ _ h => ⟨n, h⟩) fun _ _ => trivial
  · refine Triple.bind (Q := fun r w => ∃ n', Own d n' (r.toList ++ xs) w) ?_ (fun r => ?_) w h
    · exact (heapBuffer_own _).conseq (fun _ h => h) (fun _ _ h => h) fun _ h => h.elim
    refine Triple.bind (Q := fun m w => ∃ n', Own d n' (m :: xs) w) (fun w ⟨n', h⟩ => ?_) fun m => ?_
    · cases r with
      | none => trivial
      | some m => exact ⟨n', h⟩
    refine Triple.bind (Q := fun _ w => ∃ n', Own d n' (m :: xs) w) (fun w ⟨n', h⟩ => ?_) fun _ => ?_
    · exact (writeChars_own m src w h).mono (fun _ _ h => ⟨n', h⟩) fun _ _ => trivial
    · refine Triple.modify fun w ⟨n', hw⟩ => ⟨n', hw.move rfl rfl rfl rfl fun c => ?_⟩
      simp only [owned, refs, List.map_cons, List.count_append, List.count_cons]
      omega

/-- An event is delivered with a reference of its own, which the tail releases. -/
theorem endOfRecord_own (hp : p.Forwards) (hd : p.decoder = false) (stream_no : Nat) {c : Nat} (len : Int) :
    Triple (fun w => Own d n xs w ∧ w.cumulation_ = some c) (endOfRecord p fuel stream_no c len)
      (fun _ => Own d n xs) fun _ => True := by
  have ht : ∀ b, p.travels b = [b] := fun b => if_neg (by simp [hd])
  refine Triple.bind (Q := fun r w => Own d n (r.toList ++ xs) w ∧ w.cumulation_ = some c) ?_ fun r => ?_
  · exact ((getAndRemoveMessage_own stream_no).frame (f := Connection.cumulation_) (fun _ => rfl) (some c)).conseq
      (fun _ h => h) (fun _ _ h => h) fun _ _ => trivial
  cases r with
  | none =>
    rintro w ⟨hw, hb⟩
    refine (messageReceived_own (b := c) hp _ (w.setBuf c ((w.heap c).retain 1)) ⟨?_, hb⟩).mono
      (fun _ _ h => h) fun _ _ => trivial
    rw [ht]
    exact hw.retain (hw.lt (by simp [refs, hb]))
  | some buf =>
    rintro w ⟨hw, -⟩
    have hbuf : buf < n := hw.lt (by simp)
    refine Outcome.Sat.bind ((writeChars_own buf c w hw).mono (fun _ _ h => h) fun _ _ => trivial) fun _ => ?_
    refine Triple.bind ((record_own _).conseq (fun _ h => h) (fun _ _ h => h) fun _ _ => trivial) fun _ => ?_
    refine Triple.bind (Q := fun _ => Own d n xs) (fun w hw => ?_) fun _ => ?_
    · refine (fireChannelRead_own hp hbuf w ?_).mono (fun _ _ h => h) fun _ h => h.elim
      rw [ht]
      exact hw
    · exact discardSomeBytes_own.conseq (fun _ h => h) (fun _ _ h => h) fun _ _ => trivial

theorem partOfRecord_own (stream_no c : Nat) (len : Int) :
    Triple (Own d n xs) (partOfRecord stream_no c len) (fun _ w => ∃ n', Own d n' xs w) fun _ => True := by
  refine Triple.bind ((record_own len).conseq (fun _ h => h) (fun _ _ h => h) fun _ _ => trivial) fun _ => ?_
  refine Triple.bind (Q := fun _ w => ∃ n', Own d n' xs w) (appendMessage_own stream_no c) fun _ w ⟨n', h⟩ => ?_
  exact (discardSomeBytes_own w h).mono (fun _ _ h => ⟨n', h⟩) fun _ _ => trivial

theorem sctpHandleRead_own (hp : p.Forwards) {eor : Bool} (hd : eor = true → p.decoder = false) (stream_no : Nat)
    (bytes : List UInt8) :
    Triple (Own d n xs) (sctpHandleRead p fuel stream_no eor bytes) (fun _ w => ∃ n', Own d n' xs w) fun _ => True := by
  refine Triple.bind ((received_own bytes).conseq (fun _ h => h) (fun _ _ h => h) fun _ _ => trivial) fun c => ?_
  refine Triple.bind (Q := fun _ w => ∃ n', Own d n' xs w) ?_ fun _ w ⟨n', h⟩ =>
    (adjustReadBuffer_own w h).mono (fun _ _ h => h) fun _ _ => trivial
  refine Triple.ite (fun he => ?_) fun _ => ?_
  · exact (endOfRecord_own hp (hd he) stream_no _).conseq (fun _ h => h.1) (fun _ _ h => ⟨n, h⟩) fun _ h => h
  · exact (partOfRecord_own stream_no c _).pre fun _ h => h.1.1

/-! ## Runs -/

theorem blank_own {d : LengthFieldBasedFrameDecoder} (hd : d.Becomes d) : Own d 0 [] (blank d) where
  next := rfl
  fresh _ _ := rfl
  count _ := ⟨rfl, rfl, UnpooledHeapCharBuf.isInt_zero, UnpooledHeapCharBuf.isInt_zero⟩
  decoder := hd
  handle := HandleImpl.default_ok

end Connection

/-- The pipeline fits what a read delivers: bytes of a TCP connection go to a decoder, messages
of an SCTP connection do not. -/
def Input.Suits (p : Pipeline) : Input → Prop
  | .read _ => p.decoder = true
  | .fragment _ eor _ => eor = true → p.decoder = false
  | _ => True

open Connection in
theorem started_own {d : LengthFieldBasedFrameDecoder} {w : Connection} (hd : d.Becomes d) (h : Started d w) :
    ∃ n, Own d n [] w := by
  have := adjustReadBuffer_own _ (blank_own hd)
  rwa [show adjustReadBuffer (blank d) = _ from h] at this

open Connection in
/-- Every input leaves each buffer with as many references as there are to it. -/
theorem step_own {p : Pipeline} {w w' : Connection} {e : Input} (hp : p.Forwards) (he : e.Suits p)
    (h : Step p w e w') : (∃ n, Own d n [] w) → ∃ n, Own d n [] w' := by
  rintro ⟨n, hw⟩
  obtain ⟨henabled, fuel, h⟩ := h
  cases e with
  | connect =>
    have hc : Own d n [] { w with connected_ := true } := hw.move rfl rfl rfl rfl fun _ => rfl
    have := adjustReadBuffer_own _ hc
    rwa [show adjustReadBuffer _ = _ from h] at this
  | read bytes =>
    have : (tcpHandleRead p fuel bytes w).Sat _ _ := tcpHandleRead_own hp he bytes w hw
    rwa [show tcpHandleRead p fuel bytes w = _ from h] at this
  | fragment stream_no eor bytes =>
    have : (sctpHandleRead p fuel stream_no eor bytes w).Sat _ _ := sctpHandleRead_own hp he stream_no bytes w hw
    rwa [show sctpHandleRead p fuel stream_no eor bytes w = _ from h] at this
  | error =>
    have := handleReadError_own (p := p) w hw
    rw [show handleReadError p w = _ from h] at this
    exact ⟨n, this⟩
  | release m =>
    have hm' : Own d n [m.buf] { w with held := w.held.erase m } := hw.move rfl rfl rfl rfl fun b => by
      have := ((List.perm_cons_erase henabled).map Message.buf).count_eq b
      simp only [owned, refs, List.count_append, List.count_cons, List.count_nil, this, List.map_cons]
      omega
    have := release_own m.buf _ hm'
    rw [show release m.buf { w with held := w.held.erase m } = _ from h] at this
    exact ⟨n, this⟩

open Buffer.UnpooledHeapCharBuf (IsInt) in
/-- The read buffer is never deallocated under the connection, and a buffer everyone has let go
of has no references. -/
theorem buffers_are_owned {a b c x y : Int} (ha : IsInt a) (hb : IsInt b) {d : LengthFieldBasedFrameDecoder}
    (hd : LengthFieldBasedFrameDecoder.new a b c x y = .ok d) {p : Pipeline} (hp : p.Forwards)
    {w₀ w : Connection} {es : List Input} (hes : ∀ e ∈ es, e.Suits p) (h0 : Started d w₀)
    (h : Run (Step p) w₀ es w) :
    (∀ b, w.cumulation_ = some b → 1 ≤ (w.heap b).refCnt_) ∧
    ∀ b, w.cumulation_ ≠ some b → w.decoder.cumulation_ ≠ some b → (∀ s, (s, b) ∉ w.streamMsgs_) →
      (∀ m ∈ w.held ++ w.dropped, m.buf ≠ b) → (w.heap b).refCnt_ = 0 := by
  obtain ⟨n, hw⟩ : ∃ n, w.Own d n [] :=
    Run.inv_mem (P := fun w => ∃ n, w.Own d n []) (started_own (LengthFieldBasedFrameDecoder.new_becomes hd ha hb) h0) h
      fun _ e _ he hw hs => step_own hp (hes e he) hs hw
  have hcount : ∀ b, (w.heap b).refCnt_ = w.refs.count b := fun b => by
    rw [(hw.count b).refCnt]; rfl
  refine ⟨fun b hc => ?_, fun b h1 h2 h3 h4 => ?_⟩
  · have : 0 < w.refs.count b := List.count_pos_iff.mpr (by simp [Connection.refs, hc])
    rw [hcount]
    omega
  · have : b ∉ w.refs := by
      simp only [Connection.refs, List.mem_append, Option.mem_toList, List.mem_map, not_or]
      refine ⟨h1, h2, fun ⟨m, hm, e⟩ => h3 m.1 (e ▸ hm), fun ⟨m, hm, e⟩ => ?_, fun ⟨m, hm, e⟩ => ?_⟩
      · exact h4 m (List.mem_append_left _ hm) e
      · exact h4 m (List.mem_append_right _ hm) e
    rw [hcount, List.count_eq_zero_of_not_mem this]
    rfl

/-- A decoder of frames of up to 64 bytes behind two bytes of length. -/
def twoByteLengths : LengthFieldBasedFrameDecoder :=
  ⟨64, 0, 2, 2, 0, 0, true, false, 0, 0⟩

theorem buffers_are_owned_one_frame :
    ∃ w₀ w, Started twoByteLengths w₀ ∧
      Run (Step ⟨[.adapter], true, [.adapter]⟩) w₀ [.connect, .read [0, 1, 7, 0, 1]] w ∧
      w.decoder.cumulation_ = some 0 ∧ ∀ b, w.cumulation_ = some b → 1 ≤ (w.heap b).refCnt_ := by
  obtain ⟨w₀, w, h0, h, hc⟩ := Connection.exists_run (d := twoByteLengths) (p := ⟨[.adapter], true, [.adapter]⟩)
    [.connect, .read [0, 1, 7, 0, 1]] 5 (P := fun w => w.decoder.cumulation_ = some 0) (by decide +kernel)
  exact ⟨w₀, w, h0, h, hc, (buffers_are_owned (a := 64) (b := 0) (c := 2) (x := 0) (y := 0) ⟨by decide, by decide⟩
    ⟨by decide, by decide⟩ rfl (by simp [Pipeline.Forwards, Handler.adapter]) (by simp [Input.Suits]) h0 h).1⟩

/-- Without a decoder, the tail releases the connection's own reference to its read buffer. -/
theorem tcp_read_buffer_deallocated :
    ∃ w₀ w, Started twoByteLengths w₀ ∧ Run (Step ⟨[], false, []⟩) w₀ [.connect, .read [7]] w ∧
      w.cumulation_ = some 0 ∧ (w.heap 0).refCnt_ = 0 :=
  Connection.exists_run _ 5 (by decide +kernel)

/-- With a decoder, nobody releases the reference an SCTP message is delivered with. -/
theorem sctp_read_buffer_leaked :
    ∃ w₀ w, Started twoByteLengths w₀ ∧ Run (Step ⟨[], true, []⟩) w₀ [.connect, .fragment 0 true [0, 1, 7]] w ∧
      0 ∉ w.refs ∧ (w.heap 0).refCnt_ = 1 :=
  Connection.exists_run _ 5 (by decide +kernel)

end Nio.Net
