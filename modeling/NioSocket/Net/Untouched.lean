import NioSocket.Net.Ownership

/-!
# What a message's way through the pipeline leaves alone

Buffers that are not the message, nor the decoder's, are what they were when the handlers and
the decoder are through with it (`Untouched`), whatever these do to the message. So are the
table of messages in fragments and the read buffer's place.
-/

namespace Nio.Net

open Buffer (UnpooledHeapCharBuf)
open Buffer.UnpooledHeapCharBuf (charBuf)

namespace Connection

/-- From `v` to `w` the buffers `M` have not changed, nor has the table of messages. -/
structure SetAside (M : List Nat) (v w : Connection) : Prop where
  heap : ∀ m ∈ M, w.heap m = v.heap m
  lt : ∀ m ∈ M, m < w.next
  streamMsgs_ : w.streamMsgs_ = v.streamMsgs_

/-- And nobody in the pipeline has come by one of them, or by the connection's read buffer. -/
structure Untouched (M : List Nat) (v w : Connection) : Prop extends SetAside M v w where
  decoder : ∀ m ∈ M, w.decoder.cumulation_ ≠ some m
  cumulation_ : w.cumulation_ = v.cumulation_

/-- A call that leaves the buffers `M` alone, whether it returns or throws. -/
def LeavesAlone {α : Type} (M : List Nat) (v : Connection) (m : Method Connection α) : Prop :=
  Triple (Untouched M v) m (fun _ => Untouched M v) (Untouched M v)

/-- The same, of a call that returns a message, or a buffer, that is none of these. -/
def LeavesOut {α : Type} (M : List Nat) (v : Connection) (P : α → Prop) (m : Method Connection α) : Prop :=
  Triple (Untouched M v) m (fun a w => Untouched M v w ∧ P a) (Untouched M v)

variable {α β : Type} {M : List Nat} {v w w' : Connection} {b c : Nat}

theorem SetAside.congr (h : SetAside M v w) (hheap : w'.heap = w.heap) (hnext : w'.next = w.next)
    (hs : w'.streamMsgs_ = w.streamMsgs_) : SetAside M v w' where
  heap m hm := by rw [hheap]; exact h.heap m hm
  lt m hm := by rw [hnext]; exact h.lt m hm
  streamMsgs_ := hs.trans h.streamMsgs_

theorem SetAside.setBuf (h : SetAside M v w) (hb : b ∉ M) (x : UnpooledHeapCharBuf) : SetAside M v (w.setBuf b x) :=
  { h with heap := fun m hm => (setBuf_heap_of_ne w x fun e : m = b => hb (e ▸ hm)).trans (h.heap m hm) }

/-- The next buffer to be allocated is none of these. -/
theorem SetAside.next_not_mem (h : SetAside M v w) : w.next ∉ M := fun hm => Nat.lt_irrefl _ (h.lt _ hm)

namespace Untouched

theorem congr (h : Untouched M v w) (hheap : w'.heap = w.heap) (hnext : w'.next = w.next)
    (hd : w'.decoder.cumulation_ = w.decoder.cumulation_) (hs : w'.streamMsgs_ = w.streamMsgs_)
    (hc : w'.cumulation_ = w.cumulation_) : Untouched M v w' where
  toSetAside := h.toSetAside.congr hheap hnext hs
  decoder m hm := by rw [hd]; exact h.decoder m hm
  cumulation_ := hc.trans h.cumulation_

theorem setBuf (h : Untouched M v w) (hb : b ∉ M) (x : UnpooledHeapCharBuf) : Untouched M v (w.setBuf b x) :=
  { h with toSetAside := h.toSetAside.setBuf hb x }

/-- The decoder comes by a buffer that is none of these, or by none. -/
theorem setDecoder (h : Untouched M v w) {x : ByteToMessageDecoder} (hx : ∀ m ∈ M, x.cumulation_ ≠ some m) :
    Untouched M v (w.setDecoder x) :=
  { h with decoder := hx }

theorem not_mem (h : Untouched M v w) (hc : w.decoder.cumulation_ = some c) : c ∉ M := fun hm => h.decoder c hm hc

end Untouched

namespace LeavesAlone

variable {m m' : Method Connection α} {f : α → Method Connection β} {P : α → Prop}

theorem bind (h : LeavesAlone M v m) (hf : ∀ a, LeavesAlone M v (f a)) : LeavesAlone M v (m >>= f) :=
  Triple.bind h hf

theorem ite {p : Prop} [Decidable p] (h : LeavesAlone M v m) (h' : LeavesAlone M v m') :
    LeavesAlone M v (if p then m else m') :=
  Triple.ite (fun _ => h) fun _ => h'

end LeavesAlone

theorem modify_alone {f : Connection → Connection} (hf : ∀ w, Untouched M v w → Untouched M v (f w)) :
    LeavesAlone M v (.modify f) :=
  Triple.modify hf

theorem on_alone (hb : b ∉ M) (m : Method UnpooledHeapCharBuf α) : LeavesAlone M v (on b m) := fun w h => by
  unfold on
  cases m (w.heap b) with
  | ok a x => exact h.setBuf hb x
  | throw what x => exact h.setBuf hb x
  | ub | hang => trivial

theorem writeChars_alone (hc : c ∉ M) (hb : b ∉ M) : LeavesAlone M v (writeChars c b) := fun w h =>
  Outcome.Sat.bind (on_alone hc _ w h) fun _ => on_alone hb _

theorem heapBuffer_out (n : Int) : LeavesOut M v (fun r => ∀ b, r = some b → b ∉ M) (heapBuffer n) := fun w h => by
  unfold heapBuffer
  split
  · exact ⟨h, fun _ e => nomatch e⟩
  · refine ⟨{ h.setBuf h.next_not_mem _ with lt := fun m hm => Nat.lt_succ_of_lt (h.lt m hm) }, fun b e => ?_⟩
    obtain rfl := Option.some.inj e
    exact h.next_not_mem

/-! ## Handlers -/

theorem invokeChannelRead_alone {m : Method Connection Unit} (h : LeavesAlone M v m) :
    LeavesAlone M v (invokeChannelRead m) := fun w hw => by
  have hs := h w hw
  unfold invokeChannelRead
  cases e : m w with
  | ok a w' => rw [e] at hs; exact hs
  | throw what w' => rw [e] at hs; exact hs.congr rfl rfl rfl rfl rfl
  | ub | hang => trivial

theorem readSome_alone {m : Message} (hm : m.buf ∉ M) (n : Nat) : LeavesAlone M v (readSome m n) := by
  cases m with
  | whole b =>
    have hb : b ∉ M := hm
    unfold readSome
    exact on_alone hb _
  | slice b s => exact Triple.pure fun _ h => h

theorem keep_alone (m : Message) : LeavesAlone M v (keep m) :=
  modify_alone fun _ h => h.congr rfl rfl rfl rfl rfl

theorem invokeHandlers_alone {next : Message → Method Connection Unit} {m : Message} (hm : m.buf ∉ M)
    (hn : LeavesAlone M v (next m)) (i : Nat) (hs : List Handler) : LeavesAlone M v (invokeHandlers i next hs m) := by
  induction hs with
  | nil => exact invokeChannelRead_alone hn
  | cons a hs ih => exact invokeChannelRead_alone ((readSome_alone hm _).bind fun _ => (keep_alone m).ite ih)

theorem tail_alone {m : Message} (hm : m.buf ∉ M) : LeavesAlone M v (tail m) := by
  unfold tail release
  exact on_alone hm _

theorem fire_alone {m : Message} (hm : m.buf ∉ M) (hs : List Handler) : LeavesAlone M v (fire hs m) := fun _ h =>
  invokeHandlers_alone hm (tail_alone hm) _ hs _ (h.congr rfl rfl rfl rfl rfl)

theorem fireAll_alone (hs : List Handler) {ms : List Message} (hm : ∀ m ∈ ms, m.buf ∉ M) :
    LeavesAlone M v (fireAll hs ms) := by
  induction ms with
  | nil => exact Triple.pure fun _ h => h
  | cons m ms ih =>
    exact (fire_alone (hm m List.mem_cons_self) hs).bind fun _ => ih fun m' hm' => hm m' (List.mem_cons_of_mem _ hm')

/-! ## The decoder -/

theorem deref_out {r : Option Nat} (hr : ∀ b, r = some b → b ∉ M) : LeavesOut M v (· ∉ M) (deref r) := fun w h => by
  cases r with
  | none => trivial
  | some b => exact ⟨h, hr b rfl⟩

theorem expandCumulation_out (hc : c ∉ M) (n : Int) : LeavesOut M v (· ∉ M) (expandCumulation c n) := by
  refine Triple.bind (Q := fun _ => Untouched M v) (Triple.get fun _ h => h) fun k => ?_
  refine Triple.bind (heapBuffer_out _) fun r => ?_
  refine Triple.bind (Q := fun b w => Untouched M v w ∧ b ∉ M) (fun w h => deref_out h.2 w h.1) fun b => ?_
  refine Triple.bind (Q := fun _ w => Untouched M v w ∧ b ∉ M) (Triple.modify fun w h => ⟨?_, h.2⟩) fun _ w h => ?_
  · exact h.1.setDecoder fun m hm e => h.2 (Option.some.inj e ▸ hm)
  have hrest : LeavesAlone M v (do writeChars b c; release c : Method Connection Unit) :=
    (writeChars_alone h.2 hc).bind fun _ => on_alone hc _
  show ((writeChars b c w).bind fun _ => _).Sat _ _
  have hs := hrest w h.1
  rw [Method.bind_apply] at hs
  cases e : writeChars b c w with
  | ok a w' =>
    rw [e, Outcome.bind_ok] at hs
    exact hs.bind fun _ => Triple.pure fun _ hw => ⟨hw, h.2⟩
  | throw what w' => rw [e] at hs; exact hs
  | ub | hang => trivial

theorem cumulate_out (hc : c ∉ M) (hb : b ∉ M) : LeavesOut M v (· ∉ M) (cumulate c b) := fun w h => by
  refine Outcome.Sat.bind (Q := fun a w => Untouched M v w ∧ a ∉ M) ?_ fun a w hw => ?_
  · split
    · exact expandCumulation_out hc _ w h
    · exact ⟨h, hc⟩
  · exact Outcome.Sat.bind (writeChars_alone hw.2 hb w hw.1) fun _ => Triple.pure fun _ h => ⟨h, hw.2⟩

theorem Untouched.decoded (h : Untouched M v w) (hc : c ∉ M) (s : Decoding) (o : List Decoded) :
    Untouched M v (w.decoded c s o) :=
  (h.setBuf hc s.buf).setDecoder h.decoder

theorem decode_out (hc : c ∉ M) : LeavesOut M v (fun o => ∀ m, o = some m → m.buf ∉ M) (decode c) := fun w h => by
  unfold decode
  split
  · exact ⟨h.decoded hc _ _, fun _ e => nomatch e⟩
  · refine ⟨h.decoded hc _ _, fun m e => ?_⟩
    obtain rfl := Option.some.inj e
    exact hc
  · exact h.decoded hc _ _
  · trivial
  · trivial

theorem decodeLoop_out (hc : c ∉ M) (hs : List Handler) (fuel : Nat) {out : List Message}
    (hout : ∀ m ∈ out, m.buf ∉ M) (ex : String) :
    LeavesOut M v (fun r => ∀ m ∈ r.1, m.buf ∉ M) (decodeLoop hs c fuel out ex) := by
  induction fuel generalizing out ex with
  | zero => exact fun _ _ => trivial
  | succ fuel ih =>
    intro w h
    unfold decodeLoop
    split
    · exact ⟨h, hout⟩
    refine Outcome.Sat.bind (fireAll_alone hs hout w h) fun _ w h => ?_
    have hd := decode_out hc w h
    have hnil : ∀ m ∈ ([] : List Message), m.buf ∉ M := fun _ hm => absurd hm List.not_mem_nil
    dsimp only
    cases e : decode c w with
    | ok o w' =>
      rw [e] at hd
      cases o with
      | none =>
        dsimp only
        split
        · exact ⟨hd.1, hnil⟩
        · exact ih hnil ex w' hd.1
      | some m =>
        have hone : ∀ m' ∈ [m], m'.buf ∉ M := fun m' hm => by
          obtain rfl := List.mem_singleton.mp hm
          exact hd.2 m' rfl
        dsimp only
        split
        · exact ih hone _ w' hd.1
        split
        · exact ⟨hd.1, hone⟩
        · exact ih hone ex w' hd.1
    | throw what w' => rw [e] at hd; exact ih hnil what w' hd
    | ub | hang => trivial

theorem callDecode_out (hc : c ∉ M) (hs : List Handler) (fuel : Nat) :
    LeavesOut M v (fun out => ∀ m ∈ out, m.buf ∉ M) (callDecode fuel hs c) := by
  refine Triple.bind (decodeLoop_out hc hs fuel (fun _ hm => absurd hm List.not_mem_nil) "") fun r => ?_
  refine Triple.ite (fun _ => ?_) fun _ => Triple.pure fun _ h => h
  refine Triple.bind (Q := fun _ => Untouched M v) (Triple.modify fun w h => h.1.congr rfl rfl rfl rfl rfl) fun _ => ?_
  exact Triple.throw fun _ h => h

theorem decodeRead_out (hb : b ∉ M) (hs : List Handler) (fuel : Nat) :
    LeavesOut M v (fun out => ∀ m ∈ out, m.buf ∉ M) (decodeRead fuel hs b) := by
  have hcall : LeavesOut M v (fun out => ∀ m ∈ out, m.buf ∉ M) (do
      let c ← (← Method.get fun w : Connection => w.decoder.cumulation_) |> deref
      callDecode fuel hs c) := by
    refine Triple.bind (Q := fun r w => Untouched M v w ∧ ∀ c, r = some c → c ∉ M)
      (Triple.get fun w hw => ⟨hw, fun c hc => hw.not_mem hc⟩) fun r => ?_
    refine Triple.bind (Q := fun c w => Untouched M v w ∧ c ∉ M) (fun w hw => deref_out hw.2 w hw.1) fun c => ?_
    exact fun w hw => callDecode_out hw.2 hs fuel w hw.1
  refine Triple.bind (Q := fun _ => Untouched M v) (Triple.modify fun w hw => hw.setDecoder hw.decoder) fun _ => ?_
  refine Triple.bind (Q := fun r w => Untouched M v w ∧ ∀ c, r = some c → c ∉ M)
    (Triple.get fun w hw => ⟨hw, fun c hc => hw.not_mem hc⟩) fun r => ?_
  cases r with
  | none =>
    refine Triple.bind (Q := fun _ => Untouched M v) (Triple.modify fun w hw => ?_) fun _ => ?_
    · exact hw.1.setDecoder fun m hm e => hb (Option.some.inj e ▸ hm)
    · exact Triple.bind (on_alone hb _) fun _ => hcall
  | some c =>
    refine Triple.bind (Q := fun r w => Untouched M v w ∧ r ∉ M)
      (fun w hw => cumulate_out (hw.2 c rfl) hb w hw.1) fun r => ?_
    refine Triple.bind (Q := fun _ => Untouched M v) (Triple.modify fun w hw => ?_) fun _ => hcall
    exact hw.1.setDecoder fun m hm e => hw.2 (Option.some.inj e ▸ hm)

theorem discardSomeReadBytes_alone : LeavesAlone M v discardSomeReadBytes := fun w h => by
  unfold discardSomeReadBytes
  split
  · rename_i c hc
    split
    · exact on_alone (h.not_mem hc) _ w h
    · exact h
  · exact h

theorem countRead_alone : LeavesAlone M v countRead := fun w h => by
  dsimp only [countRead]
  split
  · have hd := discardSomeReadBytes_alone _ (h.setDecoder (x := { w.decoder with numReads := 0 }) h.decoder)
    cases e : discardSomeReadBytes (w.setDecoder { w.decoder with numReads := 0 }) with
    | ok _ w' => rw [e] at hd; exact hd
    | throw _ w' => rw [e] at hd; exact hd
    | ub | hang => trivial
  · exact h.setDecoder h.decoder

theorem resetCumulation_alone : LeavesAlone M v resetCumulation := fun w h => by
  unfold resetCumulation
  split
  · rename_i c hc
    split
    · exact countRead_alone w h
    · refine Outcome.Sat.bind (on_alone (h.not_mem hc) _ _ (h.setDecoder h.decoder)) fun _ => ?_
      exact modify_alone fun w hw => hw.setDecoder fun _ _ e => nomatch e
  · exact countRead_alone w h

theorem channelRead_alone (hb : b ∉ M) (fuel : Nat) (hs : List Handler) :
    LeavesAlone M v (channelRead fuel hs b) := fun w h => by
  have hd := decodeRead_out hb hs fuel w h
  unfold channelRead
  cases e : decodeRead fuel hs b w with
  | ok out w' =>
    rw [e] at hd
    exact Outcome.Sat.bind (resetCumulation_alone w' hd.1) fun _ => fireAll_alone hs hd.2
  | throw what w' =>
    rw [e] at hd
    exact Outcome.Sat.bind (resetCumulation_alone w' hd) fun _ => Triple.throw fun _ h => h
  | ub | hang => trivial

/-- A message of a whole buffer goes through the pipeline. -/
theorem fireChannelRead_alone (p : Pipeline) (fuel : Nat) (hb : b ∉ M) : LeavesAlone M v (fireChannelRead p fuel b) :=
  fun w h => by
    unfold fireChannelRead
    split
    · exact invokeHandlers_alone hb (channelRead_alone hb fuel p.after) _ p.before w h
    · exact fire_alone hb _ w h

/-! ## The read buffer -/

/-- The read buffer is none of the buffers set aside. -/
def Unread (M : List Nat) (v w : Connection) : Prop := SetAside M v w ∧ ∀ m ∈ M, w.cumulation_ ≠ some m

theorem Unread.not_mem (h : Unread M v w) (hc : w.cumulation_ = some c) : c ∉ M := fun hm => h.2 c hm hc

theorem freeBuffer_unread : Triple (Unread M v) freeBuffer (fun _ w => SetAside M v w ∧ w.cumulation_ = none)
    fun _ => False := fun w h => by
  unfold freeBuffer
  split
  · rename_i b hb
    exact ⟨(h.1.setBuf (h.not_mem hb) _).congr rfl rfl rfl, rfl⟩
  · rename_i hb
    exact ⟨h.1, hb⟩

theorem newReadBuffer_unread (guess : Int) :
    Triple (Unread M v) (newReadBuffer guess) (fun _ => Unread M v) fun _ => False := by
  refine freeBuffer_unread.bind fun _ => ?_
  refine Triple.bind (Q := fun _ => SetAside M v) (Triple.modify fun w hw => hw.1.congr rfl rfl rfl) fun _ => ?_
  refine Triple.bind (Q := fun r w => SetAside M v w ∧ ∀ b, r = some b → b ∉ M) (fun w hw => ?_) fun r => ?_
  · unfold heapBuffer
    split
    · exact ⟨hw, fun _ e => nomatch e⟩
    · refine ⟨{ hw.setBuf hw.next_not_mem _ with lt := fun m hm => Nat.lt_succ_of_lt (hw.lt m hm) }, fun b e => ?_⟩
      obtain rfl := Option.some.inj e
      exact hw.next_not_mem
  · exact Triple.modify fun w hw => ⟨hw.1.congr rfl rfl rfl, fun m hm e => hw.2 m e hm⟩

theorem fitReadBuffer_unread : Triple (Unread M v) fitReadBuffer (fun _ => Unread M v) (Unread M v) := fun w h => by
  have hnew : ∀ g, (newReadBuffer g w).Sat (fun _ => Unread M v) (Unread M v) := fun g =>
    (newReadBuffer_unread g w h).mono (fun _ _ h => h) fun _ h => h.elim
  dsimp only [fitReadBuffer]
  split
  · exact hnew _
  rename_i b hb
  split
  · split
    · unfold on
      cases UnpooledHeapCharBuf.setCapacity w.recvBufAllocHandle.guess (w.heap b) with
      | ok a x => exact ⟨h.1.setBuf (h.not_mem hb) x, h.2⟩
      | throw what x => exact ⟨h.1.setBuf (h.not_mem hb) x, h.2⟩
      | ub | hang => trivial
    · exact hnew _
  · exact h

theorem adjustReadBuffer_unread : Triple (Unread M v) adjustReadBuffer (fun _ => Unread M v) (Unread M v) := by
  have hcongr : ∀ w r, Unread M v w → Unread M v { w with recvHandle := r } := fun w r h => ⟨h.1.congr rfl rfl rfl, h.2⟩
  refine Triple.bind (Q := fun _ => Unread M v) (Triple.modify fun w hw => hcongr w _ hw) fun _ => ?_
  refine fitReadBuffer_unread.bind fun _ => Triple.bind (Q := fun _ => Unread M v) (Triple.get fun _ h => h) fun r => ?_
  refine Triple.bind (Q := fun _ => Unread M v) (fun w hw => ?_) fun b => Triple.modify fun w hw => hcongr w _ hw
  cases r with
  | none => trivial
  | some b => exact hw

theorem discardSomeBytes_unread (hc : w.cumulation_ = some c) (h : Unread M v w) :
    (discardSomeBytes w).Sat (fun _ => Unread M v) (Unread M v) := by
  rw [discardSomeBytes]
  simp only [Method.bind_apply, Outcome.bind_ok, Method.get_apply, hc, deref]
  split
  · exact (freeBuffer_unread w h).mono (fun _ w hw => ⟨hw.1, fun _ _ e => by cases hw.2.symm.trans e⟩) fun _ h => h.elim
  · unfold on
    cases charBuf.discardSomeReadBytes (w.heap c) with
    | ok a x => exact ⟨h.1.setBuf (h.not_mem hc) x, h.2⟩
    | throw what x => exact ⟨h.1.setBuf (h.not_mem hc) x, h.2⟩
    | ub | hang => trivial

end Connection

end Nio.Net
