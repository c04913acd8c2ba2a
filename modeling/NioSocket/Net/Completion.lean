import NioSocket.Net.Session

/-!
# Whether a read completes

A read completes whatever the bytes, unless the decoder's buffer would have to grow
beyond what an `int` power of two can hold: then `calculateNewCapacity` never returns.
More rounds than the loop of `callDecode` takes change nothing. So a step of a session
is what `Session.read` says of it.
-/

namespace Nio.Net

open Buffer (UnpooledHeapCharBuf)
open Buffer.UnpooledHeapCharBuf (charBuf)

namespace Connection

variable {d : LengthFieldBasedFrameDecoder} {S bytes : List UInt8} {c b C p n fuel fuel' : Nat} {w w' : Connection}
  {q : Pipeline}

/-! ## Rounds -/

open Outcome (Below)
open Method (below_bind)

theorem decodeLoop_below (h : fuel ≤ fuel') (hs : List Handler) (c : Nat) (out : List Message) (ex : String)
    (w : Connection) : Below (decodeLoop hs c fuel out ex w) (decodeLoop hs c fuel' out ex w) := by
  induction fuel generalizing fuel' out ex w with
  | zero => exact .inl rfl
  | succ fuel ih =>
    obtain ⟨fuel', rfl⟩ : ∃ f, fuel' = f + 1 := ⟨fuel' - 1, by omega⟩
    have ih := fun out ex w => ih (show fuel ≤ fuel' by omega) out ex w
    dsimp only [decodeLoop]
    by_cases hread : (!charBuf.isReadable (w.heap c)) = true
    · rw [if_pos hread, if_pos hread]
      exact .refl _
    rw [if_neg hread, if_neg hread]
    refine .bind (.refl _) fun _ w => ?_
    cases decode c w with
    | ok o w' =>
      cases o with
      | none =>
        dsimp only
        split
        · exact .refl _
        · exact ih _ _ _
      | some m =>
        dsimp only
        split
        · exact ih _ _ _
        split
        · exact .refl _
        · exact ih _ _ _
    | throw what w' => exact ih _ _ _
    | ub | hang => exact .refl _

theorem decodeRead_below (h : fuel ≤ fuel') (hs : List Handler) (data : Nat) (w : Connection) :
    Below (decodeRead fuel hs data w) (decodeRead fuel' hs data w) := by
  have hcall : ∀ c w, Below (callDecode fuel hs c w) (callDecode fuel' hs c w) := fun c w =>
    below_bind (decodeLoop_below h hs c [] "" w) fun _ _ => .refl _
  have hrest : ∀ w,
      Below (((Method.get fun w : Connection => w.decoder.cumulation_) >>= fun r => deref r >>= callDecode fuel hs) w)
        (((Method.get fun w : Connection => w.decoder.cumulation_) >>= fun r => deref r >>= callDecode fuel' hs) w) :=
    fun w => below_bind (.refl _) fun _ w => below_bind (.refl _) hcall
  refine below_bind (.refl _) fun _ w => below_bind (.refl _) fun r w => ?_
  cases r with
  | none => exact below_bind (.refl _) fun _ w => below_bind (.refl _) fun _ w => hrest w
  | some c => exact below_bind (.refl _) fun _ w => below_bind (.refl _) fun _ w => hrest w

theorem channelRead_below (h : fuel ≤ fuel') (hs : List Handler) (data : Nat) (w : Connection) :
    Below (invokeChannelRead (channelRead fuel hs data) w) (invokeChannelRead (channelRead fuel' hs data) w) := by
  rcases decodeRead_below h hs data w with e | e
  · left
    rw [invokeChannelRead, channelRead, e]
  · right
    rw [invokeChannelRead, invokeChannelRead, channelRead, channelRead, e]

theorem tcpHandleRead_below (hq : q.Transparent) (h : fuel ≤ fuel') (bytes : List UInt8) (w : Connection) :
    Below (tcpHandleRead q fuel bytes w) (tcpHandleRead q fuel' bytes w) := by
  refine below_bind (.refl _) fun _ w => below_bind ?_ fun _ w => .refl _
  refine below_bind (.refl _) fun _ w => below_bind (.refl _) fun r w => below_bind (.refl _) fun b w => ?_
  refine below_bind ?_ fun _ w => .refl _
  rw [fireChannelRead_eq hq, fireChannelRead_eq hq]
  exact channelRead_below h q.after b w

/-! ## Room -/

theorem writeChars_hang (hc : (w.heap c).Sound) (hb : (w.heap b).Sound)
    (hlen : 2 ^ 30 < (w.heap c).indices.writerIndex_ + (w.heap b).readable.length)
    (hcap : (w.heap b).capacity_ ≤ 65536) : writeChars c b w = .hang := by
  have hl := UnpooledHeapCharBuf.length_readable (w.heap b)
  have hr := hb.reader_nonneg
  have hrw := hb.reader_le
  have hw := hb.writer_le
  have hcw := hc.writer_le
  have hpow := hc.capacity_le_pow
  have hread : charBuf.readableBytes (w.heap b) = (w.heap b).readable.length := by
    rw [hb.toValid.readableBytes]; omega
  dsimp only [writeChars]
  rw [hread, on, Buffer.CharBuf.writeCharsFrom, Method.bind_apply, hc.ensureWritable_hang hlen (by unfold intMax; omega)]
  rfl

/-- Without room the read never ends. -/
theorem decodeRead_hang (h : Core d S C p w) (hs : (w.heap b).Sound) (hread : (w.heap b).readable = bytes)
    (hcap : (w.heap b).capacity_ ≤ 65536) (hc : w.decoder.cumulation_ = some c)
    (hroom : 2 ^ 30 < (w.heap c).indices.writerIndex_ + bytes.length) (fuel : Nat) (hs' : List Handler) :
    decodeRead fuel hs' b w = .hang := by
  have hC : C ≠ S.length := fun e => by cases (h.none_of_done e).symm.trans hc
  obtain ⟨c', hc', hcs, -⟩ := h.reading hC
  obtain rfl : c' = c := Option.some.inj (hc'.symm.trans hc)
  have hw₀ : ∃ w₀, w.setDecoder { w.decoder with first := w.decoder.cumulation_.isNone } = w₀ := ⟨_, rfl⟩
  obtain ⟨w₀, hw₀⟩ := hw₀
  have hheap : w₀.heap = w.heap := by rw [← hw₀]; rfl
  have hcum : w₀.decoder.cumulation_ = some c' := by rw [← hw₀]; exact hc
  rw [decodeRead]
  simp only [Method.bind_apply, Method.modify_apply, Outcome.bind_ok, Method.get_apply, hw₀]
  rw [hcum]
  simp only [Method.bind_apply]
  rw [cumulate_eq c' b (by rw [hheap]; exact hcs.max_eq), writeChars_hang (by rw [hheap]; exact hcs)
    (by rw [hheap]; exact hs) (by rw [hheap, hread]; exact hroom) (by rw [hheap]; exact hcap)]
  rfl

theorem Session.read_hang (hq : q.Transparent) (h : Session d S C p w) (hen : (Input.read bytes).Enabled w)
    (hc : w.decoder.cumulation_ = some c) (hroom : 2 ^ 30 < (w.heap c).indices.writerIndex_ + bytes.length)
    (fuel : Nat) : tcpHandleRead q fuel bytes w = .hang := by
  obtain ⟨b, n, w₂, A, e⟩ := h.arrived hen
  rw [e, fireChannelRead_eq hq, invokeChannelRead, channelRead,
    decodeRead_hang A.core A.sound A.readable A.capacity (by rw [A.aside.decoder]; exact hc)
      (by rw [A.same c hc]; exact hroom)]
  rfl

/-- There is room in the decoder's buffer for what is read. -/
def Room (w : Connection) (bytes : List UInt8) : Prop :=
  ∀ c, w.decoder.cumulation_ = some c → (w.heap c).indices.writerIndex_ + bytes.length ≤ 2 ^ 30

/-! ## Steps -/

/-- A read completes if there is room. -/
theorem Session.completes (hd : d.Supported) (hq : q.Transparent) (h : Session d S C p w) (hp : p - C ≤ 2147483647)
    (hen : (Input.read bytes).Enabled w) (hroom : w.Room bytes) : ∃ w', Step q w (.read bytes) w' := by
  obtain ⟨w', _, _, _, _, e, -⟩ := h.read (loops hd hp (Nat.lt_succ_self _) q.after) hq hen hroom
  exact ⟨w', hen, _, e⟩

/-- A read that completes had room, and did what `Session.read` says, if the loop of `callDecode` ends in
enough rounds. -/
theorem Session.step_read_of (hloops : ∀ fuel, n < fuel → Loops d (S ++ bytes) C p q.after fuel) (hq : q.Transparent)
    (h : Session d S C p w) (hst : Step q w (.read bytes) w') :
    w.Room bytes ∧ ∃ C' p' t lost, Session d (S ++ bytes) C' p' w' ∧
      Delivers d (S ++ bytes) C p C' p' t lost w w' ∧ Keeps w w' := by
  obtain ⟨hen, fuel, e⟩ := hst
  have e : tcpHandleRead q fuel bytes w = .ok () w' := e
  have hroom : w.Room bytes := fun c hc => by
    by_contra hlt
    rw [h.read_hang hq hen hc (by omega) fuel] at e
    cases e
  obtain ⟨w'', C', p', t, lost, e', hs, hdel⟩ := h.read (hloops (fuel + n + 1) (by omega)) hq hen hroom
  have := (tcpHandleRead_below hq (show fuel ≤ fuel + n + 1 by omega) bytes w).eq_ok e
  obtain rfl : w'' = w' := by cases e'.symm.trans this; rfl
  exact ⟨hroom, C', p', t, lost, hs, hdel⟩

theorem Session.step_read (hd : d.Supported) (hq : q.Transparent) (h : Session d S C p w) (hp : p - C ≤ 2147483647)
    (hst : Step q w (.read bytes) w') :
    w.Room bytes ∧ ∃ C' p' t lost, Session d (S ++ bytes) C' p' w' ∧
      Delivers d (S ++ bytes) C p C' p' t lost w w' ∧ Keeps w w' :=
  h.step_read_of (fun _ hfuel => loops hd hp hfuel q.after) hq hst

end Connection

end Nio.Net
