import NioSocket.Net.Stream

/-!
# Whether `callDecode` ends

A call of `decode` on readable input moves the reader index on, or leaves the input alone
and returns nothing (`Progress`): then the loop of `callDecode` ends. This is so where
`decode` can read the length field, or the input is too short for one; otherwise it
throws and consumes nothing, and the loop never ends (`call_decode_ends_iff`).
-/

namespace Nio.Net

open Buffer (UnpooledHeapCharBuf)
open Buffer.UnpooledHeapCharBuf (IsInt charBuf)

namespace LengthFieldBasedFrameDecoder

/-- The reader index moves on, or nothing is consumed and nothing returned. -/
def Progress (b : UnpooledHeapCharBuf) : Outcome Decoding (Option Slice) → Prop
  | .ok none s => b.indices.readerIndex_ < s.buf.indices.readerIndex_ ∨ s.buf = b
  | .ok (some _) s | .throw _ s => b.indices.readerIndex_ < s.buf.indices.readerIndex_
  | .ub | .hang => False

/-- What a call of `decode` leaves of the input: there is some only if a too long frame has no more
bytes to come than an `int` holds. -/
structure Left (d : LengthFieldBasedFrameDecoder) (b : UnpooledHeapCharBuf) (s : Decoding) : Prop where
  valid : s.buf.Valid
  writer : s.buf.indices.writerIndex_ = b.indices.writerIndex_
  decoder : ∃ D T, s.decoder = d.discarding D T ∧ 0 ≤ D ∧ (D ≤ 2147483647 ∨ s.buf.readable = [])

variable {d d' : LengthFieldBasedFrameDecoder} {b : UnpooledHeapCharBuf} {fs : List Int} {D T : Int}

/-- A call that moves the reader index by `n`. -/
theorem left_of {s : Decoding} {n k : Int} (hb : b.Valid)
    (hs : s.buf = { b.withReader (b.indices.readerIndex_ + n) with refCnt_ := k }) (h0 : 0 ≤ n)
    (hn : n ≤ b.readable.length) (hd : s.decoder = d.discarding D T) (h0' : 0 ≤ D)
    (hD : D ≤ 2147483647 ∨ n = b.readable.length) : Left d b s := by
  have hl := UnpooledHeapCharBuf.length_readable b
  have hr := hb.reader_nonneg
  have hrw := hb.reader_le
  have hb' := hb.withReader (i := b.indices.readerIndex_ + n) (by omega) (by omega)
  refine ⟨by rw [hs]; exact { hb' with }, by rw [hs]; rfl, D, T, hd, h0', hD.imp_right fun e => ?_⟩
  refine List.eq_nil_of_length_eq_zero ?_
  rw [UnpooledHeapCharBuf.length_readable, hs]
  show (b.indices.writerIndex_ - (b.indices.readerIndex_ + n)).toNat = 0
  omega

/-- `decode` gets on with its input where it can read the length field. -/
theorem decode_progress (hd : d.Supported) (hb : b.Valid) (h0 : 0 ≤ D) (hD : D ≤ 2147483647) (hr : b.readable ≠ []) :
    Progress b (decode ⟨d.discarding D T, b, fs⟩) ∧
      (decode ⟨d.discarding D T, b, fs⟩).Sat (fun _ => Left d b) (Left d b) := by
  have hlen := List.length_pos_iff.mpr hr
  have hl := UnpooledHeapCharBuf.length_readable b
  have hr0 := hb.reader_nonneg
  have hrw := hb.reader_le
  rw [decode_eq hd hb h0 hD]
  dsimp only
  by_cases hDl : D ≤ b.readable.length
  · -- what is left of a too long frame is skipped, and an item taken behind it
    rw [if_pos hDl, Int.min_eq_left hDl]
    have hread : (b.withReader (b.indices.readerIndex_ + D)).readable = b.readable.drop D.toNat := by
      have := UnpooledHeapCharBuf.readable_withReader (b := b) (k := D.toNat) hr0 (by omega)
      rwa [show ((D.toNat : Nat) : Int) = D by omega] at this
    have hlen' : (b.withReader (b.indices.readerIndex_ + D)).readable.length = b.readable.length - D.toNat := by
      rw [hread, List.length_drop]
    cases hit : d.item (b.withReader (b.indices.readerIndex_ + D)).readable with
    | none =>
      refine ⟨?_, left_of hb (n := D) (k := b.refCnt_) rfl h0 hDl rfl (Int.le_refl _) (.inl (by decide))⟩
      rcases Int.lt_or_eq_of_le h0 with h | rfl
      · exact .inl (show b.indices.readerIndex_ < b.indices.readerIndex_ + D by omega)
      · exact .inr (by rw [Int.add_zero]; rfl)
    | some it =>
      obtain ⟨hpos, hend, hle⟩ := item_bounds hd hit
      have he := end_pos hd
      have hadd : ∀ n, b.indices.readerIndex_ + D + n = b.indices.readerIndex_ + (D + n) := fun n => Int.add_assoc ..
      cases it with
      | rejected n what =>
        have hle := hle fun _ h => by cases h
        simp only [Item.length] at hpos hle
        refine ⟨show b.indices.readerIndex_ < b.indices.readerIndex_ + D + n by omega,
          left_of hb (n := D + n) (k := b.refCnt_) ?_ (by omega) (by omega) rfl (Int.le_refl _) (.inl (by decide))⟩
        rw [← hadd]
        rfl
      | tooLong n =>
        simp only [Item.length] at hpos
        generalize hhere : min n ((b.withReader (b.indices.readerIndex_ + D)).readable.length : Int) = here
        simp only [taken, hhere]
        refine ⟨show b.indices.readerIndex_ < b.indices.readerIndex_ + D + here by omega,
          left_of hb (n := D + here) (k := b.refCnt_) ?_ (by omega) (by omega) rfl (by omega) (by omega)⟩
        rw [← hadd]
        rfl
      | frame n =>
        have hle := hle fun _ h => by cases h
        simp only [Item.length] at hpos hle
        refine ⟨show b.indices.readerIndex_ < b.indices.readerIndex_ + D + n by omega,
          left_of hb (n := D + n) (k := b.refCnt_ + 1) ?_ (by omega) (by omega) rfl (Int.le_refl _) (.inl (by decide))⟩
        rw [← hadd]
        rfl
  · -- all of it belongs to a too long frame
    rw [if_neg hDl, Int.min_eq_right (by omega)]
    refine ⟨.inl (show b.indices.readerIndex_ < b.indices.readerIndex_ + b.readable.length by omega),
      left_of hb (n := b.readable.length) (k := b.refCnt_) rfl (by omega) (Int.le_refl _) rfl (by omega) (.inr rfl)⟩

/-- Without a length field it can read, `decode` throws and consumes nothing. -/
theorem decode_unsupported (ha : accessor d.lengthFieldLength_ = none) (hidle : d.discardingTooLongFrame_ = false)
    (hb : b.Valid) (hl : d.lengthFieldEndOffset_ ≤ b.readable.length) :
    decode ⟨d, b, fs⟩ = .throw
      s!"unsupported lengthFieldLength: {d.lengthFieldLength_} (expected: 1, 2, 4, or 8)" ⟨d, b, fs⟩ := by
  have hlen := UnpooledHeapCharBuf.length_readable b
  have hrw := hb.reader_le
  show Outcome.bind ((if d.discardingTooLongFrame_ then discardingTooLongFrame else pure ()) ⟨d, b, fs⟩) _ = _
  rw [if_neg (by rw [hidle]; decide), Method.pure_apply, Outcome.bind_ok]
  dsimp only [decodeFrame]
  rw [if_neg (by rw [hb.readableBytes]; omega), getUnadjustedFrameLength, ha]
  rfl

theorem decode_short (hidle : d.discardingTooLongFrame_ = false) (hb : b.Valid)
    (hl : b.readable.length < d.lengthFieldEndOffset_) : decode ⟨d, b, fs⟩ = .ok none ⟨d, b, fs⟩ := by
  show Outcome.bind ((if d.discardingTooLongFrame_ then discardingTooLongFrame else pure ()) ⟨d, b, fs⟩) _ = _
  rw [if_neg (by rw [hidle]; decide), Method.pure_apply, Outcome.bind_ok, decodeFrame_short hb hl]

theorem accessor_eq_none {n : Int} (h : ¬(n = 1 ∨ n = 2 ∨ n = 4 ∨ n = 8)) : accessor n = none := by
  unfold accessor
  grind

/-- A decoder with no more bytes to discard than an `int` holds, or one that never finds a frame too
long. -/
def Tame (d' : LengthFieldBasedFrameDecoder) : Prop :=
  (∃ (d : LengthFieldBasedFrameDecoder) (D T : Int), d.Supported ∧ d' = d.discarding D T ∧ 0 ≤ D ∧ D ≤ 2147483647) ∨
    accessor d'.lengthFieldLength_ = none ∧ d'.discardingTooLongFrame_ = false

/-- `decode` can read the length field, or the bytes are too few for one. -/
def CanRead (d : LengthFieldBasedFrameDecoder) (l : List UInt8) : Prop :=
  (d.lengthFieldLength_ = 1 ∨ d.lengthFieldLength_ = 2 ∨ d.lengthFieldLength_ = 4 ∨ d.lengthFieldLength_ = 8) ∨
    l.length < d.lengthFieldEndOffset_

theorem not_canRead {l : List UInt8} (ha : accessor d.lengthFieldLength_ = none)
    (hl : d.lengthFieldEndOffset_ ≤ l.length) : ¬d.CanRead l := by
  rintro (h | h)
  · obtain ⟨t, ht, -⟩ := accessor_size h
    cases ha.symm.trans ht
  · omega

/-- A call gets on with its input if and only if it can read the length field. -/
theorem decode_progress_iff (hd : d.Tame) (hb : b.Valid) (hr : b.readable ≠ []) :
    Progress b (decode ⟨d, b, fs⟩) ↔ d.CanRead b.readable := by
  rcases hd with ⟨d, D, T, hd, rfl, h0, hD⟩ | ⟨ha, hidle⟩
  · exact iff_of_true (decode_progress hd hb h0 hD hr).1 (.inl hd.length)
  by_cases hl : b.readable.length < d.lengthFieldEndOffset_
  · refine iff_of_true ?_ (.inr hl)
    rw [decode_short hidle hb hl]
    exact .inr rfl
  · rw [decode_unsupported ha hidle hb (Int.not_lt.mp hl)]
    exact iff_of_false (Int.lt_irrefl _) (not_canRead ha (Int.not_lt.mp hl))

end LengthFieldBasedFrameDecoder

open LengthFieldBasedFrameDecoder (Left Tame CanRead Progress accessor)

namespace Connection

variable {d : LengthFieldBasedFrameDecoder} {S bytes : List UInt8} {C p k n : Nat} {v v' w w' w₀ : Connection}
  {q : Pipeline} {es : List Input} {hs : List Handler}

theorem readableBytes_eq {b : UnpooledHeapCharBuf} (hb : b.Valid) : charBuf.readableBytes b = b.readable.length := by
  have hl := UnpooledHeapCharBuf.length_readable b
  have hr := hb.reader_le
  rw [hb.readableBytes]
  omega

theorem isReadable_eq (b : UnpooledHeapCharBuf) (hb : b.Valid) :
    charBuf.isReadable b = decide (b.readable ≠ []) := by
  have hl := UnpooledHeapCharBuf.length_readable b
  have hr := hb.reader_le
  rw [UnpooledHeapCharBuf.isReadable_charBuf]
  refine decide_eq_decide.mpr ?_
  rw [← List.length_pos_iff]
  omega

/-- The loop ends if every call gets on with what the one before has left. -/
theorem decodeLoop_ends (hd : d.Supported) (hs : List Handler) {fuel : Nat} (ss : List Slice) (ex : String)
    (hb : (v.heap k).Valid) {D T : Int} (hv : v.decoder.frameDecoder = d.discarding D T) (h0 : 0 ≤ D)
    (hD : D ≤ 2147483647 ∨ (v.heap k).readable = []) (hfuel : (v.heap k).readable.length < fuel) :
    ∃ o v', decodeLoop hs k fuel (ss.map (.slice k)) ex v = .ok o v' := by
  induction fuel generalizing v ss ex D T with
  | zero => omega
  | succ fuel ih =>
    rw [decodeLoop]
    dsimp only
    rw [isReadable_eq _ hb]
    by_cases hr : (v.heap k).readable = []
    · rw [if_pos (by simp [hr])]
      exact ⟨_, _, rfl⟩
    rw [if_neg (by simp [hr]), fireAll_slices, Outcome.bind_ok]
    have hh := handled_foldl hs (ss.map (.slice k)) v
    generalize (ss.map (.slice k)).foldl (fired1 hs) v = w at hh
    obtain ⟨r, hk⟩ := hh.heap k
    obtain ⟨_, _, _, e⟩ := hh.rest
    have hw : w.decoder.frameDecoder = d.discarding D T := by rw [e, hv]
    have hb' : (w.heap k).Valid := by rw [hk]; exact { hb with }
    have hread : (w.heap k).readable = (v.heap k).readable := by rw [hk]; rfl
    rw [← hread] at hr hfuel
    -- the rounds that follow a call that gets on with the input
    have hnext : ∀ (s : Decoding) (o : List Decoded) (ss' : List Slice) (ex' : String), Left d (w.heap k) s →
        (w.heap k).indices.readerIndex_ < s.buf.indices.readerIndex_ →
        (∃ o' v', decodeLoop hs k fuel (ss'.map (.slice k)) ex' (w.decoded k s o) = .ok o' v') ∧
          charBuf.readableBytes (w.heap k) ≠ charBuf.readableBytes ((w.decoded k s o).heap k) := by
      intro s o ss' ex' hl hlt
      have hheap : (w.decoded k s o).heap k = s.buf := setBuf_heap_self w k s.buf
      have hvalid := hl.valid
      have hwr := hl.writer
      have hle := hvalid.reader_le
      have h1 := UnpooledHeapCharBuf.length_readable (w.heap k)
      have h2 := UnpooledHeapCharBuf.length_readable s.buf
      obtain ⟨D', T', hd', h0', hD'⟩ := hl.decoder
      rw [readableBytes_eq hb', hheap, readableBytes_eq hvalid]
      refine ⟨ih ss' ex' ?_ hd' h0' ?_ ?_, by omega⟩
      · rw [hheap]; exact hvalid
      · rw [hheap]; exact hD'
      · rw [hheap]; omega
    obtain ⟨hprog, hleft⟩ := @LengthFieldBasedFrameDecoder.decode_progress d (w.heap k) [] D T hd hb' h0
      (hD.resolve_right (by rwa [← hread])) hr
    rw [← hw] at hprog hleft
    unfold decode
    generalize LengthFieldBasedFrameDecoder.decode ⟨w.decoder.frameDecoder, w.heap k, []⟩ = o at hprog hleft
    cases o with
    | ok o s =>
      cases o with
      | none =>
        dsimp only
        split
        · exact ⟨_, _, rfl⟩
        · rename_i hne
          refine (hnext s [] [] ex hleft (hprog.resolve_right fun e => hne ?_)).1
          rw [show (w.decoded k s []).heap k = s.buf from setBuf_heap_self w k s.buf, e]
      | some m =>
        dsimp only
        rw [if_neg (hnext s _ [m] ex hleft hprog).2]
        split
        · exact ⟨_, _, rfl⟩
        · exact (hnext s _ [m] ex hleft hprog).1
    | throw what s => exact (hnext s _ [] what hleft hprog).1
    | ub | hang => exact hprog.elim

/-- The loop goes on for ever where `decode` cannot read the length field. -/
theorem decodeLoop_hang (ha : accessor v.decoder.frameDecoder.lengthFieldLength_ = none)
    (hidle : v.decoder.frameDecoder.discardingTooLongFrame_ = false) (hb : (v.heap k).Valid)
    (hr : (v.heap k).readable ≠ []) (hl : v.decoder.frameDecoder.lengthFieldEndOffset_ ≤ (v.heap k).readable.length)
    (hs : List Handler) (fuel : Nat) (ex : String) : decodeLoop hs k fuel [] ex v = .hang := by
  induction fuel generalizing v ex with
  | zero => rfl
  | succ fuel ih =>
    have e : LengthFieldBasedFrameDecoder.decode ⟨v.decoder.frameDecoder, v.heap k, []⟩ = _ :=
      LengthFieldBasedFrameDecoder.decode_unsupported ha hidle hb hl
    rw [decodeLoop]
    dsimp only
    rw [isReadable_eq _ hb, if_neg (by simp [hr]), fireAll, Method.pure_apply, Outcome.bind_ok, decode, e]
    dsimp only
    have hheap : ∀ o, (v.decoded k ⟨v.decoder.frameDecoder, v.heap k, []⟩ o).heap k = v.heap k := fun o =>
      setBuf_heap_self v k (v.heap k)
    refine ih (v := v.decoded k ⟨v.decoder.frameDecoder, v.heap k, []⟩ _) ha hidle ?_ ?_ ?_ _
    · rw [hheap]; exact hb
    · rw [hheap]; exact hr
    · rw [hheap]; exact hl

/-- `callDecode` returns or throws, after some number of rounds. -/
def Ends (hs : List Handler) (k : Nat) (v : Connection) : Prop :=
  ∃ fuel, (∃ out v', callDecode fuel hs k v = .ok out v') ∨ ∃ what v', callDecode fuel hs k v = .throw what v'

theorem ends_of_loop (fuel : Nat) {o : List Message × String}
    (h : ∃ v', decodeLoop hs k fuel [] "" v = .ok o v') : Ends hs k v := by
  obtain ⟨v', e⟩ := h
  refine ⟨fuel, ?_⟩
  rw [callDecode, Method.bind_apply, e, Outcome.bind_ok]
  dsimp only
  split
  · exact .inr ⟨_, _, rfl⟩
  · exact .inl ⟨_, _, rfl⟩

theorem ends_iff (hd : v.decoder.frameDecoder.Tame) (hb : (v.heap k).Valid) (hs : List Handler) :
    Ends hs k v ↔ (v.heap k).readable = [] ∨ v.decoder.frameDecoder.CanRead (v.heap k).readable := by
  by_cases hr : (v.heap k).readable = []
  · refine iff_of_true (ends_of_loop 1 (o := ([], "")) ?_) (.inl hr)
    refine ⟨v, ?_⟩
    rw [decodeLoop]
    dsimp only
    rw [isReadable_eq _ hb, if_pos (by simp [hr])]
  rcases hd with ⟨d, D, T, hd, e, h0, hD⟩ | ⟨ha, hidle⟩
  · obtain ⟨o, v', hv'⟩ := decodeLoop_ends hd hs [] "" hb e h0 (.inl hD) (Nat.lt_succ_self _)
    refine iff_of_true (ends_of_loop _ ⟨v', hv'⟩) (.inr (.inl ?_))
    rw [e]
    exact hd.length
  by_cases hl : (v.heap k).readable.length < v.decoder.frameDecoder.lengthFieldEndOffset_
  · have e : LengthFieldBasedFrameDecoder.decode ⟨v.decoder.frameDecoder, v.heap k, []⟩ = _ :=
      LengthFieldBasedFrameDecoder.decode_short hidle hb hl
    refine iff_of_true (ends_of_loop 1 (o := ([], "")) ?_)
      (.inr (.inr hl))
    refine ⟨v.decoded k ⟨v.decoder.frameDecoder, v.heap k, []⟩ [], ?_⟩
    rw [decodeLoop]
    dsimp only
    rw [isReadable_eq _ hb, if_neg (by simp [hr]), fireAll, Method.pure_apply, Outcome.bind_ok, decode, e]
    dsimp only
    rw [if_pos]
    rw [show (v.decoded k ⟨v.decoder.frameDecoder, v.heap k, []⟩ []).heap k = v.heap k from setBuf_heap_self v k _]
  · refine iff_of_false ?_ (not_or_intro hr (LengthFieldBasedFrameDecoder.not_canRead ha (Int.not_lt.mp hl)))
    rintro ⟨fuel, h⟩
    rw [callDecode, Method.bind_apply, decodeLoop_hang ha hidle hb hr (Int.not_lt.mp hl)] at h
    rcases h with ⟨_, _, h⟩ | ⟨_, _, h⟩ <;> cases h

/-! ## Runs -/

theorem run_own (hd : d.Becomes d) (hq : q.Transparent) (h0 : Started d w₀) (hrun : Run (TcpStep q) w₀ es w) :
    ∃ n, Own d n [] w := by
  refine hrun.inv (P := fun w => ∃ n, Own d n [] w) (started_own hd h0) fun w e w' hw hst => ?_
  refine step_own hq.forwards ?_ hst.step hw
  have hof := hst.ofStream
  cases e with
  | connect | release => trivial
  | read => exact hq.decoder
  | fragment | error => exact hof.elim

end Connection

open Connection in
/-- In every state that is reached without a too long frame of which more bytes are to be discarded
than an `int` holds: a call of `decode` on any input gets on with it, and `callDecode` ends, if and only if
the length field can be read or there are too few bytes for one. -/
theorem call_decode_ends_iff {a b c x y : Int} (ha : IsInt a) (hb : IsInt b) {d : LengthFieldBasedFrameDecoder}
    (hd : LengthFieldBasedFrameDecoder.new a b c x y = .ok d) {q : Pipeline} (hq : q.Transparent)
    {w₀ w : Connection} {es : List Input} (h0 : Started d w₀) (hrun : Run (TcpStep q) w₀ es w)
    (hD : w.decoder.frameDecoder.bytesToDiscard_ ≤ 2147483647) :
    (∀ (b : UnpooledHeapCharBuf) (fs : List Int), b.Valid → b.readable ≠ [] →
      (Progress b (LengthFieldBasedFrameDecoder.decode ⟨w.decoder.frameDecoder, b, fs⟩) ↔ d.CanRead b.readable)) ∧
    ∀ (hs : List Handler) (v : Connection) (k : Nat), v.decoder.frameDecoder = w.decoder.frameDecoder →
      (v.heap k).Valid → (Ends hs k v ↔ (v.heap k).readable = [] ∨ d.CanRead (v.heap k).readable) := by
  have hbec := LengthFieldBasedFrameDecoder.new_becomes hd ha hb
  obtain ⟨n, hown⟩ := run_own hbec hq h0 hrun
  obtain ⟨X, T, D, econf⟩ := hown.decoder.config
  have hidle := hown.decoder.idle
  have htame : w.decoder.frameDecoder.Tame := by
    by_cases hc : c = 1 ∨ c = 2 ∨ c = 4 ∨ c = 8
    · have hsup := LengthFieldBasedFrameDecoder.new_supported hd ha hb hc
      obtain ⟨hs₀, -, -⟩ := Session.started hbec (LengthFieldBasedFrameDecoder.new_eq hd).2.2.2.2 h0
      obtain ⟨C, p, t, h, -⟩ := hs₀.run hsup hq hrun
      obtain ⟨T, hT⟩ := h.core.decoder
      have hle := h.core.le
      rw [h.bytesToDiscard] at hD
      exact .inl ⟨d, p - C, T, hsup, hT, by omega, hD⟩
    · have hacc : LengthFieldBasedFrameDecoder.accessor w.decoder.frameDecoder.lengthFieldLength_ = none := by
        rw [econf]
        exact LengthFieldBasedFrameDecoder.accessor_eq_none (by rwa [(LengthFieldBasedFrameDecoder.new_eq hd).2.1])
      exact .inr ⟨hacc, hidle hacc⟩
  have hcan : ∀ l, w.decoder.frameDecoder.CanRead l ↔ d.CanRead l := fun l => by rw [econf]; rfl
  refine ⟨fun b fs hb hr => ?_, fun hs v k hv hb => ?_⟩
  · rw [LengthFieldBasedFrameDecoder.decode_progress_iff htame hb hr, hcan]
  · rw [ends_iff (by rw [hv]; exact htame) hb hs, hv, hcan]

theorem call_decode_ends_iff_one_read :
    ∃ w₀ w, Started twoByteLengths w₀ ∧ Run (TcpStep ⟨[], true, []⟩) w₀ [.connect, .read [0]] w ∧
      (Connection.Ends [] 0 w ↔ (w.heap 0).readable = [] ∨ twoByteLengths.CanRead (w.heap 0).readable) := by
  obtain ⟨w₀, w, h0, hrun, hD, h1, h2, h3, h4, h5, h6⟩ := Connection.exists_tcp_run (d := twoByteLengths)
    (q := ⟨[], true, []⟩) [.connect, .read [0]] 5 (P := fun w => w.decoder.frameDecoder.bytesToDiscard_ ≤ 2147483647 ∧
      0 ≤ (w.heap 0).indices.readerIndex_ ∧ (w.heap 0).indices.readerIndex_ ≤ (w.heap 0).indices.writerIndex_ ∧
      (w.heap 0).indices.writerIndex_ ≤ (w.heap 0).capacity_ ∧ 0 < (w.heap 0).capacity_ ∧
      (w.heap 0).capacity_ ≤ (w.heap 0).indices.maxCapacity_ ∧ (w.heap 0).indices.maxCapacity_ ≤ 2147483647)
    (by decide +kernel)
  exact ⟨w₀, w, h0, hrun, (call_decode_ends_iff (a := 64) (b := 0) (c := 2) (x := 0) (y := 0) ⟨by decide, by decide⟩
    ⟨by decide, by decide⟩ rfl ⟨rfl, by simp, by simp⟩ h0 hrun hD).2 [] w 0 rfl ⟨h1, h2, h3, h4, h5, h6⟩⟩

/-! ## A length field that cannot be read -/

namespace Connection

/-- Enough bytes for a length field that cannot be read. -/
theorem Session.unreadable_hang (hq : q.Transparent) (ha : accessor d.lengthFieldLength_ = none) (h : Session d S 0 0 w)
    (hen : (Input.read bytes).Enabled w) (hl : d.lengthFieldEndOffset_ ≤ (S ++ bytes).length) (fuel : Nat) :
    tcpHandleRead q fuel bytes w = .hang := by
  by_cases hroom : w.Room bytes
  swap
  · simp only [Room, Classical.not_forall] at hroom
    obtain ⟨c, hc, hlt⟩ := hroom
    exact h.read_hang hq hen hc (by omega) fuel
  obtain ⟨b, n, w', A, e⟩ := h.arrived hen
  obtain ⟨c, w₁, e₁, hacc⟩ := decodeRead_eq A.core A.not_uses A.sound A.readable A.writer (fun c hc => by
    rw [A.aside.decoder] at hc
    rw [A.same c hc]
    exact hroom c hc) fuel q.after
  obtain ⟨T, hT⟩ := hacc.reading.decoder
  have hread : (w₁.heap c).readable = S ++ bytes := by rw [hacc.reading.readable, List.drop_zero]
  have hcall : decodeRead fuel q.after b w' = .hang := by
    rw [e₁, callDecode, Method.bind_apply, decodeLoop_hang (by rw [hT]; exact ha) (by rw [hT]; rfl)
      hacc.reading.sound.toValid (by rw [hread]; simp [hen.1]) (by rw [hT, hread]; exact hl)]
    rfl
  rw [e, fireChannelRead_eq hq, invokeChannelRead, channelRead, hcall]
  rfl

end Connection

/-- A decoder of frames behind three bytes of length. -/
def threeByteLengths : LengthFieldBasedFrameDecoder :=
  ⟨64, 0, 3, 3, 0, 0, true, false, 0, 0⟩

/-- The constructor accepts it, and three bytes keep it busy for ever. -/
theorem three_byte_lengths_hang :
    LengthFieldBasedFrameDecoder.new 64 0 3 0 0 = .ok threeByteLengths ∧
    ∃ w₀ w, Started threeByteLengths w₀ ∧ Run (Step ⟨[], true, []⟩) w₀ [.connect] w ∧
      (Input.read [0, 0, 1]).Enabled w ∧ ∀ fuel, (Input.read [0, 0, 1]).handle ⟨[], true, []⟩ fuel w = .hang := by
  have hnew : LengthFieldBasedFrameDecoder.new 64 0 3 0 0 = .ok threeByteLengths := rfl
  have hbec : threeByteLengths.Becomes threeByteLengths :=
    LengthFieldBasedFrameDecoder.new_becomes hnew ⟨by decide, by decide⟩ ⟨by decide, by decide⟩
  obtain ⟨w₀, w, h0, hrun, hen⟩ := Connection.exists_run (d := threeByteLengths) (p := ⟨[], true, []⟩) [.connect] 5
    (P := fun w => (Input.read [0, 0, 1]).Enabled w) (by decide +kernel)
  obtain ⟨hs₀, -, -⟩ := Connection.Session.started hbec rfl h0
  have hq : Pipeline.Transparent ⟨[], true, []⟩ := ⟨rfl, by simp, by simp⟩
  have hs := (hs₀.connect hrun.of_one (step_own hq.forwards (show Input.Suits _ .connect from trivial) hrun.of_one hs₀.own)).1
  exact ⟨hnew, w₀, w, h0, hrun, hen, hs.unreadable_hang hq rfl hen (by decide)⟩

end Nio.Net
