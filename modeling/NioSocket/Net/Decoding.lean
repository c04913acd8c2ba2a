import NioSocket.Net.Framing
import NioSocket.Net.Ownership

/-!
# Decoding what was read

The loop of `callDecode` on a buffer that holds the rest of a stream (`Reading`): each
call of `decode` takes the item the stream has next, so the loop ends, and what it has
fired, what is left in `out` and what it throws at its end follow from the items it took
(`decodeLoop_reading`).
-/

namespace Nio.Net

open Buffer (UnpooledHeapCharBuf)
open Buffer.UnpooledHeapCharBuf (charBuf)

namespace Connection

/-- The decoder has consumed the stream `S` up to `C`, and waits for the item at `p`. -/
structure At (d : LengthFieldBasedFrameDecoder) (S : List UInt8) (C p : Nat) (w : Connection) : Prop where
  decoder : ∃ T, w.decoder.frameDecoder = d.discarding (p - C) T
  consumed : w.decoder.consumed = C
  le : C ≤ p
  le_length : C ≤ S.length

/-- The rest of the stream is what is readable in the buffer `c`. -/
structure Reading (d : LengthFieldBasedFrameDecoder) (S : List UInt8) (c C p : Nat) (w : Connection) : Prop
    extends At d S C p w where
  sound : (w.heap c).Sound
  readable : (w.heap c).readable = S.drop C
  writer : (w.heap c).indices.writerIndex_ ≤ S.length

/-- What decoding the buffer `c` leaves as it is. -/
structure Stays (c : Nat) (w w' : Connection) : Prop where
  other : ∀ b, b ≠ c → ∃ k, w'.heap b = { w.heap b with refCnt_ := k }
  buf : ∃ r k, w'.heap c = { (w.heap c).withReader r with refCnt_ := k } ∧ (w.heap c).indices.readerIndex_ ≤ r
  decoder : ∃ f n t, w'.decoder = { w.decoder with frameDecoder := f, consumed := n, trace := t }
  rest : ∃ heap decoder fired held, w' = { w with heap := heap, decoder := decoder, fired := fired, held := held }

variable {d : LengthFieldBasedFrameDecoder} {S : List UInt8} {c C p : Nat} {w w' w'' : Connection}

namespace Stays

theorem refl (c : Nat) (w : Connection) : Stays c w w :=
  ⟨fun _ _ => ⟨_, rfl⟩, ⟨_, _, rfl, Int.le_refl _⟩, ⟨_, _, _, rfl⟩, _, _, _, _, rfl⟩

theorem trans (h : Stays c w w') (h' : Stays c w' w'') : Stays c w w'' := by
  refine ⟨fun b hb => ?_, ?_, ?_, ?_⟩
  · obtain ⟨k, hk⟩ := h.other b hb
    obtain ⟨k', hk'⟩ := h'.other b hb
    exact ⟨k', by rw [hk', hk]⟩
  · obtain ⟨r, k, hk, hr⟩ := h.buf
    obtain ⟨r', k', hk', hr'⟩ := h'.buf
    rw [hk] at hk' hr'
    exact ⟨r', k', hk', Int.le_trans hr hr'⟩
  · obtain ⟨_, _, _, e⟩ := h.decoder
    obtain ⟨f, n, t, e'⟩ := h'.decoder
    exact ⟨f, n, t, by rw [e', e]⟩
  · obtain ⟨_, _, _, _, rfl⟩ := h.rest
    obtain ⟨_, _, _, _, rfl⟩ := h'.rest
    exact ⟨_, _, _, _, rfl⟩

theorem array (h : Stays c w w') (b : Nat) : (w'.heap b).array_ = (w.heap b).array_ := by
  by_cases hb : b = c
  · subst hb
    obtain ⟨_, _, e, _⟩ := h.buf
    rw [e]; rfl
  · obtain ⟨_, e⟩ := h.other b hb
    rw [e]

/-- The bytes of a slice do not change. -/
theorem readableOf_slice (h : Stays c w w') (b : Nat) (s : Slice) :
    w'.readableOf (.slice b s) = w.readableOf (.slice b s) := by
  rw [readableOf, readableOf, h.array]

theorem reader_le (h : Stays c w w') (b : Nat) :
    (w.heap b).indices.readerIndex_ ≤ (w'.heap b).indices.readerIndex_ := by
  by_cases hb : b = c
  · subst hb
    obtain ⟨_, _, e, hr⟩ := h.buf
    rw [e]
    exact hr
  · obtain ⟨_, e⟩ := h.other b hb
    exact Int.le_of_eq (by rw [e])

end Stays

theorem Handled.stays (h : Handled w w') (c : Nat) : Stays c w w' := by
  obtain ⟨_, _, _, e⟩ := h.rest
  refine ⟨fun b _ => h.heap b, ?_, ⟨_, _, _, by rw [e]⟩, _, _, _, _, e⟩
  obtain ⟨k, hk⟩ := h.heap c
  exact ⟨_, k, hk, Int.le_refl _⟩

theorem Handled.reading (h : Handled w w') (hr : Reading d S c C p w) : Reading d S c C p w' := by
  obtain ⟨_, _, _, e⟩ := h.rest
  obtain ⟨k, hk⟩ := h.heap c
  refine ⟨⟨?_, ?_, hr.le, hr.le_length⟩, ?_, ?_, ?_⟩
  · rw [e]; exact hr.decoder
  · rw [e]; exact hr.consumed
  · rw [hk]
    exact { hr.sound with }
  · rw [hk]
    exact hr.readable
  · rw [hk]
    exact hr.writer

/-! ## One call of `decode` -/

open LengthFieldBasedFrameDecoder (Item frames exceptions)

/-- What a call of `decode` returned or threw. -/
def decodedItem (d : LengthFieldBasedFrameDecoder) (S : List UInt8) (c p : Nat) :
    Option Item → Outcome Connection (Option Message) → Connection → Prop
  | none, o, w' => o = .ok none w'
  | some (.frame n), o, w' => ∃ s : Slice, o = .ok (some (.slice c s)) w' ∧ 0 ≤ s.adjustment_ ∧ 0 ≤ s.length ∧
      s.adjustment_ + s.length ≤ (w'.heap c).indices.readerIndex_ ∧
      d.outcome (S.drop p) (.frame n) = .frame (w'.readableOf (.slice c s))
  | some it, o, w' => ∃ what, o = .throw what w' ∧ what ≠ "" ∧ d.outcome (S.drop p) it = .exception what

/-- The part of a trace one call of `decode` adds. -/
def looked (d : LengthFieldBasedFrameDecoder) (S : List UInt8) (p : Nat) : Option Item → List Decoded
  | none => if (S.drop p).length < d.lengthFieldEndOffset_ then [] else [.field (p + d.lengthFieldOffset_)]
  | some it => [.field (p + d.lengthFieldOffset_), d.outcome (S.drop p) it]

/-- How far an item takes the decoder. -/
def taken (p : Nat) : Option Item → Nat
  | none => p
  | some it => p + it.length.toNat

theorem trace_looked (d : LengthFieldBasedFrameDecoder) (S : List UInt8) (p : Nat) :
    d.Trace S p (looked d S p (d.item (S.drop p))) (taken p (d.item (S.drop p))) := by
  cases hit : d.item (S.drop p) with
  | none =>
    dsimp only [looked]
    split
    · exact .nil p
    · exact .look (by omega) (fun n e => by rw [hit] at e; cases e) (.nil p)
  | some it => exact .item hit (.nil _)

theorem decoded_heap_self (w : Connection) (c : Nat) (s : Decoding) (o : List Decoded) :
    (w.decoded c s o).heap c = s.buf := setBuf_heap_self w c s.buf

/-- A call of `decode` that moves the reader index to where the stream is at `C'`. -/
theorem reading_decoded (h : Reading d S c C p w) (C' p' : Nat) {k : Int} {s : Decoding} {o : List Decoded}
    (hs : s.buf = { (w.heap c).withReader ((w.heap c).indices.readerIndex_ + (C' - C)) with refCnt_ := k })
    (hC : C ≤ C') (hC' : C' ≤ S.length) (hp : C' ≤ p') (hd : ∃ T, s.decoder = d.discarding (p' - C') T) :
    Reading d S c C' p' (w.decoded c s o) ∧ Stays c w (w.decoded c s o) := by
  have hr := h.sound.reader_nonneg
  have hrw := h.sound.reader_le
  have hl : (w.heap c).readable.length = S.length - C := by rw [h.readable, List.length_drop]
  have hl' := UnpooledHeapCharBuf.length_readable (w.heap c)
  have hheap := decoded_heap_self w c s o
  refine ⟨⟨⟨hd, ?_, hp, hC'⟩, ?_, ?_, by rw [hheap, hs]; exact h.writer⟩, ?_⟩
  · show w.decoder.consumed + (s.buf.indices.readerIndex_ - (w.heap c).indices.readerIndex_) = C'
    rw [hs, h.consumed]
    show (C : Int) + ((w.heap c).indices.readerIndex_ + (C' - C) - (w.heap c).indices.readerIndex_) = C'
    omega
  · rw [hheap, hs]
    exact { h.sound.withReader (i := (w.heap c).indices.readerIndex_ + (C' - C)) (by omega) (by omega) with }
  · rw [hheap, hs]
    have e : ((C' : Int) - C) = (C' - C : Nat) := by omega
    have := UnpooledHeapCharBuf.readable_withReader (b := w.heap c) (k := C' - C) hr (by omega)
    rw [h.readable, List.drop_drop, show C + (C' - C) = C' by omega] at this
    rw [e]
    exact this
  · refine ⟨fun b hb => ⟨_, setBuf_heap_of_ne w s.buf hb⟩, ⟨_, k, hheap.trans hs, by omega⟩, ⟨_, _, _, rfl⟩,
      _, _, _, _, rfl⟩

/-- `decode` takes the item the stream has next, or what there is of one that is too long. -/
theorem decode_reading (hd : d.Supported) (h : Reading d S c C p w) (hp : p - C ≤ 2147483647) :
    ∃ w', decodedItem d S c p (d.item (S.drop p)) (decode c w) w' ∧
      Reading d S c (min (taken p (d.item (S.drop p))) S.length) (taken p (d.item (S.drop p))) w' ∧ Stays c w w' ∧
      w'.decoder.trace = w.decoder.trace ++ looked d S p (d.item (S.drop p)) ∧ w'.fired = w.fired ∧ w'.held = w.held := by
  obtain ⟨T, hT⟩ := h.decoder
  have hC := h.le
  have hCl := h.le_length
  have hcons := h.consumed
  have he := LengthFieldBasedFrameDecoder.end_pos hd
  have hoff := hd.offset_nonneg
  have hr := h.sound.reader_nonneg
  have hl : (w.heap c).readable.length = S.length - C := by rw [h.readable, List.length_drop]
  have hdec : LengthFieldBasedFrameDecoder.decode ⟨d.discarding (p - C) T, w.heap c, []⟩ = _ :=
    LengthFieldBasedFrameDecoder.decode_eq hd h.sound.toValid (by omega) (by omega)
  generalize hr0 : (w.heap c).indices.readerIndex_ = r at *
  by_cases hlong : S.length < p
  · -- the frame that is too long goes on
    have hnil : S.drop p = [] := List.drop_eq_nil_of_le (by omega)
    rw [hnil, LengthFieldBasedFrameDecoder.item_nil hd]
    dsimp only at hdec
    rw [if_neg (by omega), hl] at hdec
    have := reading_decoded h S.length p (k := (w.heap c).refCnt_) (o := [])
      (s := ⟨d.discarding (p - C - (S.length - C : Nat)) T, (w.heap c).withReader
        (r + min (p - C : Int) (S.length - C : Nat)), []⟩)
      (by rw [hr0, show min (p - C : Int) (S.length - C : Nat) = S.length - C by omega]; rfl)
      hCl (Nat.le_refl _) (Nat.le_of_lt hlong) ⟨T, by rw [show (p - C - (S.length - C : Nat) : Int) = p - S.length by omega]⟩
    refine ⟨_, ?_, ?_, this.2, ?_⟩
    · show decode c w = _
      unfold decode
      rw [hT, hdec]
    · rw [taken, Nat.min_eq_right (Nat.le_of_lt hlong)]
      exact this.1
    · simp only [looked, hnil, List.length_nil]
      rw [if_pos (show ((0 : Nat) : Int) < _ from he)]
      exact ⟨by simp [decoded, setDecoder, fieldOffsets], rfl, rfl⟩
  -- the item at `p` is at the front of the buffer, once what is left of a too long frame is skipped
  have hmin : min (p - C : Int) (w.heap c).readable.length = p - C := by omega
  have hread := UnpooledHeapCharBuf.readable_withReader (b := w.heap c) (k := p - C) (by omega) (by omega)
  rw [hr0, h.readable, List.drop_drop, show C + (p - C) = p by omega,
    show ((p - C : Nat) : Int) = p - C by omega] at hread
  have hSp : (S.drop p).length = S.length - p := List.length_drop
  dsimp only at hdec
  rw [if_pos (by omega), hmin] at hdec
  have hfs : w.fieldOffsets r (d.fieldsRead ((w.heap c).withReader (r + (p - C))) []) =
      if (S.drop p).length < d.lengthFieldEndOffset_ then [] else [.field (p + d.lengthFieldOffset_)] := by
    unfold LengthFieldBasedFrameDecoder.fieldsRead
    rw [hread]
    split
    · rfl
    · show [Decoded.field (w.decoder.consumed + (r + (p - C) + d.lengthFieldOffset_ - r))] = _
      rw [hcons, show (C : Int) + (r + (p - C) + d.lengthFieldOffset_ - r) = p + d.lengthFieldOffset_ by omega]
  rw [hread] at hdec
  cases hit : d.item (S.drop p) with
  | none =>
    rw [hit] at hdec
    have := reading_decoded h p p (k := (w.heap c).refCnt_) (o := [])
      (s := ⟨d.discarding 0 0, (w.heap c).withReader (r + (p - C)),
        d.fieldsRead ((w.heap c).withReader (r + (p - C))) []⟩)
      (by rw [hr0]; rfl) hC (by omega) (Nat.le_refl _) ⟨0, by rw [Int.sub_self]⟩
    refine ⟨_, ?_, ?_, this.2, ?_⟩
    · show decode c w = _
      unfold decode
      rw [hT, hdec]
      rfl
    · rw [taken, Nat.min_eq_left (by omega)]
      exact this.1
    · refine ⟨?_, rfl, rfl⟩
      show w.decoder.trace ++ w.fieldOffsets (w.heap c).indices.readerIndex_ _ ++ [] = _
      rw [hr0, hfs, List.append_nil]
      rfl
  | some it =>
    rw [hit] at hdec
    obtain ⟨hpos, hend, hle⟩ := LengthFieldBasedFrameDecoder.item_bounds hd hit
    have hne := LengthFieldBasedFrameDecoder.outcome_ne hit
    have htaken : (taken p (some it) : Int) = p + it.length := by rw [taken]; omega
    -- a call that ends at `C'` with the outcome of the item
    have hend : ∀ (C' : Nat) (k : Int) (s : Decoding),
        s.buf = { (w.heap c).withReader (r + (C' - C)) with refCnt_ := k } → C' = min (taken p (some it)) S.length →
        s.fields = d.fieldsRead ((w.heap c).withReader (r + (p - C))) [] →
        (∃ T, s.decoder = d.discarding (taken p (some it) - C') T) →
        Reading d S c (min (taken p (some it)) S.length) (taken p (some it))
          (w.decoded c s [d.outcome (S.drop p) it]) ∧
        Stays c w (w.decoded c s [d.outcome (S.drop p) it]) ∧
        (w.decoded c s [d.outcome (S.drop p) it]).decoder.trace =
          w.decoder.trace ++ looked d S p (some it) ∧
        (w.decoded c s [d.outcome (S.drop p) it]).fired = w.fired ∧
        (w.decoded c s [d.outcome (S.drop p) it]).held = w.held := by
      rintro C' k s hs hC' hf hT'
      have hlooked : w.decoder.trace ++ w.fieldOffsets r s.fields ++ [d.outcome (S.drop p) it] =
          w.decoder.trace ++ looked d S p (some it) := by
        rw [hf, hfs, if_neg (by omega), List.append_assoc]
        rfl
      have := reading_decoded h C' (taken p (some it)) (k := k) (s := s)
        (o := [d.outcome (S.drop p) it]) (by rw [hr0]; exact hs) (by omega) (by omega) (by omega) hT'
      rw [hC'] at this
      refine ⟨this.1, this.2, ?_, rfl, rfl⟩
      show w.decoder.trace ++ w.fieldOffsets (w.heap c).indices.readerIndex_ s.fields ++ _ = _
      rw [hr0]
      exact hlooked
    cases it with
    | rejected n what =>
      have hle := hle fun _ h => by cases h
      simp only [LengthFieldBasedFrameDecoder.Item.length] at hpos hle htaken
      refine ⟨_, ⟨what, ?_, fun e => hne (by rw [e]; rfl), rfl⟩, hend (taken p (some (.rejected n what))) (w.heap c).refCnt_
        ⟨d.discarding 0 0, (w.heap c).withReader (r + (p - C) + n), _⟩ ?_ (by omega) rfl ⟨0, by rw [Int.sub_self]⟩⟩
      · show decode c w = _
        unfold decode
        rw [hT, hdec]
        rfl
      · rw [htaken, show r + ((p : Int) + n - C) = r + (p - C) + n by omega]
        rfl
    | tooLong n =>
      simp only [LengthFieldBasedFrameDecoder.Item.length] at hpos hle htaken
      refine ⟨_, ⟨_, ?_, fun e => hne (congrArg _ e), rfl⟩, hend (min (taken p (some (.tooLong n))) S.length) (w.heap c).refCnt_
        ⟨d.discarding (n - min n (S.drop p).length) n, (w.heap c).withReader (r + (p - C) + min n (S.drop p).length), _⟩
        ?_ rfl rfl ⟨n, ?_⟩⟩
      · show decode c w = _
        unfold decode
        rw [hT, hdec]
        simp only [LengthFieldBasedFrameDecoder.taken, hread]
        rfl
      · rw [show r + (((min (taken p (some (.tooLong n))) S.length : Nat) : Int) - C) =
          r + (p - C) + min n (S.drop p).length by omega]
        rfl
      · exact congrArg (d.discarding · n) (by omega)
    | frame n =>
      have hle := hle fun _ h => by cases h
      have hstrip := (LengthFieldBasedFrameDecoder.item_frame hit).1
      have hs0 := hd.strip_nonneg
      simp only [LengthFieldBasedFrameDecoder.Item.length] at hpos hle htaken
      have hbytes : (w.heap c).array_.read (r + (p - C) + d.initialBytesToStrip_).toNat
          (n - d.initialBytesToStrip_).toNat =
          ((S.drop p).drop d.initialBytesToStrip_.toNat).take (n - d.initialBytesToStrip_).toNat := by
        have := UnpooledHeapCharBuf.Valid.read_readable (b := (w.heap c).withReader (r + (p - C)))
          (k := d.initialBytesToStrip_.toNat) (m := (n - d.initialBytesToStrip_).toNat) (by rw [hread]; omega)
        rw [hread] at this
        rw [← this]
        refine congrArg ((w.heap c).array_.read · _) ?_
        show _ = (r + (p - C)).toNat + d.initialBytesToStrip_.toNat
        omega
      have hH := hend (taken p (some (.frame n))) ((w.heap c).refCnt_ + 1)
        ⟨d.discarding 0 0, (((w.heap c).withReader (r + (p - C))).retain 1).withReader (r + (p - C) + n), _⟩ ?_
        (by omega) rfl ⟨0, by rw [Int.sub_self]⟩
      · refine ⟨_, ⟨⟨r + (p - C) + d.initialBytesToStrip_, n - d.initialBytesToStrip_⟩, ?_, ?_, ?_, ?_, ?_⟩, hH⟩
        · show decode c w = _
          unfold decode
          rw [hT, hdec, LengthFieldBasedFrameDecoder.outcome, ← hbytes]
          rfl
        · show 0 ≤ r + (p - C) + d.initialBytesToStrip_
          omega
        · show 0 ≤ n - d.initialBytesToStrip_
          omega
        · rw [decoded_heap_self]
          show r + (p - C) + d.initialBytesToStrip_ + (n - d.initialBytesToStrip_) ≤ r + (p - C) + n
          omega
        · rw [LengthFieldBasedFrameDecoder.outcome, readableOf, decoded_heap_self, ← hbytes]
          rfl
      · rw [htaken, show r + ((p : Int) + n - C) = r + (p - C) + n by omega]
        rfl

/-! ## Events on their way -/

/-- A slice of bytes its buffer has let go of: the reader index is behind them. -/
def Safe (w : Connection) (m : Message) : Prop :=
  ∃ b s, m = .slice b s ∧ 0 ≤ s.adjustment_ ∧ 0 ≤ s.length ∧ s.adjustment_ + s.length ≤ (w.heap b).indices.readerIndex_

theorem Stays.safe (h : Stays c w w') {m : Message} (hm : w.Safe m) : w'.Safe m := by
  obtain ⟨b, s, rfl, h1, h2, h3⟩ := hm
  exact ⟨b, s, rfl, h1, h2, Int.le_trans h3 (h.reader_le b)⟩

/-- The events fired after `w`: slices of `c`, some of which handlers have kept. -/
structure Fires (c : Nat) (ss : List Slice) (w w' : Connection) : Prop where
  handled : Handled w w'
  fired : w'.fired.map (·.bytes) = w.fired.map (·.bytes) ++ ss.map fun s => w.readableOf (.slice c s)
  held : w.held <+: w'.held
  kept : ∀ m ∈ w'.held, m ∈ w.held ∨ ∃ s ∈ ss, m = .slice c s

theorem fires_fired1 (hs : List Handler) (s : Slice) (w : Connection) :
    Fires c [s] w (w.fired1 hs (.slice c s)) := by
  refine ⟨handled_fired1 hs w _, ?_, ?_, ?_⟩ <;> unfold fired1 afterSlice <;> split
  · simp
  · simp [setBuf]
  · exact List.prefix_append _ _
  · exact List.prefix_refl _
  · intro m hm
    rw [List.mem_append, List.mem_singleton] at hm
    exact hm.imp_right fun e => ⟨s, List.mem_singleton_self s, e⟩
  · exact fun m hm => .inl hm

theorem fires_foldl (hs : List Handler) (ss : List Slice) (w : Connection) :
    Fires c ss w ((ss.map (.slice c)).foldl (fired1 hs) w) := by
  induction ss generalizing w with
  | nil => exact ⟨.refl w, by simp, List.prefix_refl _, fun m hm => .inl hm⟩
  | cons s ss ih =>
    have h1 := fires_fired1 (c := c) hs s w
    have h2 := ih (w.fired1 hs (.slice c s))
    refine ⟨h1.handled.trans h2.handled, ?_, h1.held.trans h2.held, fun m hm => ?_⟩
    · rw [List.map_cons, List.foldl_cons, h2.fired, h1.fired, List.map_cons, List.append_assoc]
      refine congrArg _ (congrArg _ (List.map_congr_left fun s' _ => ?_))
      exact (h1.handled.stays c).readableOf_slice c s'
    · rcases h2.kept m hm with h | ⟨s', hs', e⟩
      · rcases h1.kept m h with h | ⟨s', hs', e⟩
        · exact .inl h
        · exact .inr ⟨s', List.mem_cons.mpr (.inl (List.mem_singleton.mp hs')), e⟩
      · exact .inr ⟨s', List.mem_cons_of_mem _ hs', e⟩

/-! ## The loop -/

theorem Reading.length (h : Reading d S c C p w) : (w.heap c).readable.length = S.length - C := by
  rw [h.readable, List.length_drop]

theorem Reading.readableBytes (h : Reading d S c C p w) :
    charBuf.readableBytes (w.heap c) = (S.length - C : Nat) := by
  have hl := UnpooledHeapCharBuf.length_readable (w.heap c)
  have hr := h.sound.reader_le
  rw [h.sound.toValid.readableBytes, ← h.length]
  omega

theorem Reading.isReadable (h : Reading d S c C p w) : charBuf.isReadable (w.heap c) = decide (C < S.length) := by
  have hl := UnpooledHeapCharBuf.length_readable (w.heap c)
  have := h.length
  rw [UnpooledHeapCharBuf.isReadable_charBuf]
  exact decide_eq_decide.mpr (by omega)

/-- The event that is still in `out` when the loop ends: one that `decode` returned as it took
the last bytes. -/
def leftOver (t : List Decoded) (done : Prop) [Decidable done] : List (List UInt8) :=
  match t.getLast? with
  | some (.frame bytes) => if done then [bytes] else []
  | _ => []

/-- The bytes of the events in `out`. -/
def bytesOf (c : Nat) (w : Connection) (ss : List Slice) : List (List UInt8) :=
  ss.map fun s => w.readableOf (.slice c s)

/-- What the loop does to a stream that was decoded up to `C`, and has then been up to `C'`: it
adds `t` to the trace. -/
structure Looped (d : LengthFieldBasedFrameDecoder) (S : List UInt8) (c : Nat) (C p C' p' : Nat) (ss ss' : List Slice)
    (ex ex' : String) (t : List Decoded) (w w' : Connection) : Prop where
  reading : Reading d S c C' p' w'
  le : C ≤ C'
  done : C' = S.length ∨ C' = p' ∧ d.item (S.drop p') = none
  trace : w'.decoder.trace = w.decoder.trace ++ t
  segment : d.Trace S p t p'
  fired : w'.fired.map (·.bytes) ++ bytesOf c w' ss' = w.fired.map (·.bytes) ++ bytesOf c w ss ++ frames t
  thrown : ex' = (exceptions t).getLast?.getD ex
  texts : "" ∉ exceptions t
  left : bytesOf c w' ss' = if C = S.length then bytesOf c w ss else leftOver t (C' = S.length)
  nothing : C = S.length → t = []
  stuck : C = p → t = [] → C' = C
  stays : Stays c w w'
  held : w.held <+: w'.held
  safe : (∀ m ∈ w.held ++ ss.map (.slice c), w.Safe m) → ∀ m ∈ w'.held ++ ss'.map (.slice c), w'.Safe m

variable {C₁ C' p₁ p' : Nat} {ss ss₁ ss' : List Slice} {ex ex₁ ex' : String} {t t₁ : List Decoded} {w₁ w₂ : Connection}

theorem leftOver_append (t₁ t : List Decoded) (done : Prop) [Decidable done] (ht : t ≠ []) :
    leftOver (t₁ ++ t) done = leftOver t done := by
  rw [leftOver, leftOver, List.getLast?_append_of_ne_nil _ ht]

theorem leftOver_of_not {done : Prop} [Decidable done] (h : ¬done) : leftOver t done = [] := by
  unfold leftOver
  split
  · exact if_neg h
  · rfl

theorem getLast?_getD_append (t₁ t : List Decoded) (ex : String) :
    (exceptions (t₁ ++ t)).getLast?.getD ex = (exceptions t).getLast?.getD ((exceptions t₁).getLast?.getD ex) := by
  rw [LengthFieldBasedFrameDecoder.exceptions_append, List.getLast?_append]
  cases (exceptions t).getLast? <;> rfl

/-- One round of the loop, and what the others do. -/
theorem Looped.round (hf : Fires c ss w w₁) (hst : Stays c w₁ w₂) (hfired : w₂.fired = w₁.fired)
    (hheld : w₂.held = w₁.held) (htr : w₂.decoder.trace = w₁.decoder.trace ++ t₁) (hbytes : bytesOf c w₂ ss₁ = frames t₁)
    (hleft : bytesOf c w₂ ss₁ = leftOver t₁ True) (hex : ex₁ = (exceptions t₁).getLast?.getD ex)
    (htexts : "" ∉ exceptions t₁) (hsafe : ∀ m ∈ ss₁.map (.slice c), w₂.Safe m) (hlt : C < C₁) (hC₁ : C₁ = min p₁ S.length)
    (ht₁ : C = p → t₁ ≠ []) (hseg : d.Trace S p t₁ p₁) (H : Looped d S c C₁ p₁ C' p' ss₁ ss' ex₁ ex' t w₂ w') :
    Looped d S c C p C' p' ss ss' ex ex' (t₁ ++ t) w w' := by
  have hle := H.reading.le_length
  have hle₁ := H.le
  have hstay : Stays c w w₂ := (hf.handled.stays c).trans hst
  refine ⟨H.reading, by omega, H.done, ?_, hseg.trans H.segment, ?_, ?_, ?_, ?_, by omega, fun e h => ?_,
    hstay.trans H.stays, ?_, fun hs => ?_⟩
  · obtain ⟨_, _, _, e⟩ := hf.handled.rest
    have hw : w₁.decoder = w.decoder := by rw [e]
    rw [H.trace, htr, hw, List.append_assoc]
  · rw [H.fired, hbytes, hfired, hf.fired, LengthFieldBasedFrameDecoder.frames_append]
    simp only [List.append_assoc, bytesOf]
  · rw [H.thrown, hex, getLast?_getD_append]
  · rw [LengthFieldBasedFrameDecoder.exceptions_append, List.mem_append, not_or]
    exact ⟨htexts, H.texts⟩
  · rw [if_neg (by omega), H.left]
    by_cases hC : C₁ = S.length
    · have hd : C' = S.length := by omega
      rw [if_pos hC, H.nothing hC, List.append_nil, hleft]
      simp only [leftOver, hd]
    · rw [if_neg hC]
      by_cases ht : t = []
      · have hd : C' ≠ S.length := by rw [H.stuck (by omega) ht]; exact hC
        rw [leftOver_of_not hd, leftOver_of_not hd]
      · rw [leftOver_append _ _ _ ht]
  · exact absurd (List.append_eq_nil_iff.mp h).1 (ht₁ e)
  · exact hf.held.trans (hheld ▸ H.held)
  · refine H.safe fun m hm => ?_
    rcases List.mem_append.mp hm with h | h
    · refine hst.safe ((hf.handled.stays c).safe ?_)
      rcases hf.kept m (hheld ▸ h) with h | ⟨s, hs', rfl⟩
      · exact hs m (List.mem_append_left _ h)
      · exact hs _ (List.mem_append_right _ (List.mem_map_of_mem hs'))
    · exact hsafe m h

theorem looked_none (d : LengthFieldBasedFrameDecoder) (S : List UInt8) (p : Nat) :
    frames (looked d S p none) = [] ∧ exceptions (looked d S p none) = [] ∧ leftOver (looked d S p none) True = [] := by
  dsimp only [looked]
  split
  · exact ⟨rfl, rfl, rfl⟩
  · exact ⟨rfl, rfl, rfl⟩

/-- The loop ends, as long as a too long frame is skipped by no more than an `int` holds. -/
theorem decodeLoop_reading (hd : d.Supported) (hs : List Handler) {fuel : Nat} (ss : List Slice) (ex : String)
    (h : Reading d S c C p w) (hp : C = S.length ∨ p - C ≤ 2147483647) (hfuel : S.length - C < fuel)
    (h1 : w.decoder.singleDecode = false) :
    ∃ C' p' ss' ex' t w', decodeLoop hs c fuel (ss.map (.slice c)) ex w = .ok (ss'.map (.slice c), ex') w' ∧
      Looped d S c C p C' p' ss ss' ex ex' t w w' := by
  induction fuel generalizing C p w ss ex with
  | zero => omega
  | succ fuel ih =>
    rw [decodeLoop]
    dsimp only
    by_cases hC : C = S.length
    · refine ⟨C, p, ss, ex, [], w, ?_, h, Nat.le_refl C, .inl hC, by simp, .nil p, by simp [frames],
        by simp [exceptions], by simp [exceptions], by rw [if_pos hC], fun _ => rfl, fun _ _ => rfl, .refl c w, List.prefix_refl _, fun h => h⟩
      rw [if_pos (by simp [h.isReadable, hC])]
    have hlt : C < S.length := Nat.lt_of_le_of_ne h.le_length hC
    rw [if_neg (by simp [h.isReadable, hlt]), fireAll_slices, Outcome.bind_ok]
    have hf := fires_foldl (c := c) hs ss w
    generalize (ss.map (.slice c)).foldl (fired1 hs) w = w₁ at hf
    have hr₁ := hf.handled.reading h
    obtain ⟨w₂, hdec, hr₂, hst, htr, hfired, hheld⟩ := decode_reading hd hr₁ (hp.resolve_left hC)
    have h1' : w₂.decoder.singleDecode = false := by
      obtain ⟨_, _, _, e⟩ := hst.decoder
      obtain ⟨_, _, _, e'⟩ := hf.handled.rest
      rw [e, e']
      exact h1
    have hlen₁ := hr₁.readableBytes
    have hlen₂ := hr₂.readableBytes
    have hpC := h.le
    -- the rounds that follow, if this one was not the last
    have hround : ∀ ss₁ ex₁, C < min (taken p (d.item (S.drop p))) S.length →
        bytesOf c w₂ ss₁ = frames (looked d S p (d.item (S.drop p))) →
        bytesOf c w₂ ss₁ = leftOver (looked d S p (d.item (S.drop p))) True →
        ex₁ = (exceptions (looked d S p (d.item (S.drop p)))).getLast?.getD ex →
        "" ∉ exceptions (looked d S p (d.item (S.drop p))) → (∀ m ∈ ss₁.map (Message.slice c), w₂.Safe m) →
        (C = p → looked d S p (d.item (S.drop p)) ≠ []) →
        ∃ C' p' ss' ex' t w', decodeLoop hs c fuel (ss₁.map (.slice c)) ex₁ w₂ = .ok (ss'.map (.slice c), ex') w' ∧
          Looped d S c C p C' p' ss ss' ex ex' t w w' := by
      intro ss₁ ex₁ hlt' hb hl he ht hs' hn
      obtain ⟨C', p', ss', ex', t, w', e, H⟩ := ih ss₁ ex₁ hr₂ (by omega) (by omega) h1'
      exact ⟨C', p', ss', ex', _, w', e, H.round hf hst hfired hheld htr hb hl he ht hs' hlt' rfl hn (trace_looked d S p)⟩
    cases hit : d.item (S.drop p) with
    | none =>
      rw [hit] at hdec hround hr₂ hlen₂ htr
      simp only [decodedItem] at hdec
      obtain ⟨hfr, hexc, hlo⟩ := looked_none d S p
      simp only [hdec]
      by_cases hpeq : C = p
      · -- nothing was read: the loop ends
        subst hpeq
        have hmin : min C S.length = C := by omega
        simp only [taken, hmin] at hr₂ hlen₂
        rw [if_pos (by rw [hlen₁, hlen₂])]
        obtain ⟨_, _, _, e⟩ := hf.handled.rest
        refine ⟨C, C, [], ex, looked d S C none, w₂, rfl, hr₂, Nat.le_refl _, .inr ⟨rfl, hit⟩, ?_, ?_, ?_, ?_, ?_, ?_,
          fun e => absurd e hC, fun _ _ => rfl, (hf.handled.stays c).trans hst, hheld ▸ hf.held, fun hs m hm => ?_⟩
        · rw [htr, e]
        · have := trace_looked d S C
          rwa [hit] at this
        · rw [hfired, hf.fired, hfr]
          rfl
        · rw [hexc]; rfl
        · rw [hexc]; simp
        · rw [if_neg hC, leftOver_of_not hC]; rfl
        · rw [List.map_nil, List.append_nil] at hm
          refine hst.safe ((hf.handled.stays c).safe ?_)
          rcases hf.kept m (hheld ▸ hm) with h | ⟨s, hs', rfl⟩
          · exact hs m (List.mem_append_left _ h)
          · exact hs _ (List.mem_append_right _ (List.mem_map_of_mem hs'))
      · simp only [taken] at hlen₂
        rw [if_neg (by rw [hlen₁, hlen₂]; omega)]
        refine hround [] ex (by simp only [taken]; omega) (by rw [hfr]; rfl) (by rw [hlo]; rfl) (by rw [hexc]; rfl)
          (by rw [hexc]; simp) (by simp) fun e => absurd e hpeq
    | some it =>
      rw [hit] at hdec hround hr₂ hlen₂
      obtain ⟨hpos, -, -⟩ := LengthFieldBasedFrameDecoder.item_bounds hd hit
      have hadv : C < min (taken p (some it)) S.length := by simp only [taken]; omega
      have hne : charBuf.readableBytes (w₁.heap c) ≠ charBuf.readableBytes (w₂.heap c) := by
        rw [hlen₁, hlen₂]
        omega
      have hthrow : ∀ what, d.outcome (S.drop p) it = .exception what → what ≠ "" →
          ∃ C' p' ss' ex' t w', decodeLoop hs c fuel (([] : List Slice).map (.slice c)) what w₂ =
            .ok (ss'.map (.slice c), ex') w' ∧ Looped d S c C p C' p' ss ss' ex ex' t w w' := by
        intro what hout hwhat
        refine hround [] what hadv ?_ ?_ ?_ ?_ ?_ fun _ => ?_
        · simp [bytesOf, looked, hout, frames]
        · simp [bytesOf, looked, hout, leftOver]
        · simp [looked, hout, exceptions]
        · simpa [looked, hout, exceptions] using hwhat.symm
        · simp
        · simp [looked]
      cases it with
      | frame n =>
        obtain ⟨s, hdec, h0, h0', hle, hout⟩ := hdec
        simp only [hdec, if_neg hne, h1']
        refine hround [s] ex hadv ?_ ?_ ?_ ?_ ?_ fun _ => ?_
        · simp [bytesOf, looked, hout, frames]
        · simp [bytesOf, looked, hout, leftOver]
        · simp [looked, hout, exceptions]
        · simp [looked, hout, exceptions]
        · simpa using ⟨c, s, rfl, h0, h0', hle⟩
        · simp [looked]
      | rejected n what =>
        obtain ⟨what', hdec, hwhat, hout⟩ := hdec
        simp only [hdec]
        exact hthrow what' hout hwhat
      | tooLong n =>
        obtain ⟨what', hdec, hwhat, hout⟩ := hdec
        simp only [hdec]
        exact hthrow what' hout hwhat

end Connection

end Nio.Net
