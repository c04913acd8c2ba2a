import NioSocket.Buffer.Appending
import NioSocket.Net.Decoding

/-!
# Frames that are written, and decoded

A list of payloads, each written with its length before it, and the buffer given to a
`LengthFieldBasedFrameDecoder` that expects just that. The decoder reads a length of two or of four
bytes as the number it is, and one of a single byte as a `char`: what has 128 bytes or more is not
delivered (`roundTrip_iff`).
-/

namespace Nio.Net

open Buffer (UnpooledHeapCharBuf CharBuf)
open Buffer.UnpooledHeapCharBuf (charBuf store IsInt)
open Buffer.CharBuf (Ty)

/-! ## Writing -/

/-- The type of a length of `k` bytes: it is written by `writeChar`, `writeUShort` or `writeUInt`. -/
def lengthType (k : Int) : Ty := if k = 1 then .char else if k = 2 then .ushort else .uint

/-- A payload behind its length, as `ClientMessageHandler::sendAck` writes one. -/
def writeFrame (t : Ty) (payload : List UInt8) : Method UnpooledHeapCharBuf Unit := do
  charBuf.writeTyped t payload.length
  charBuf.writeString payload

/-- One frame after another is written. -/
def writeFrames (t : Ty) : List (List UInt8) → Method UnpooledHeapCharBuf Unit
  | [] => pure ()
  | p :: ps => do
    writeFrame t p
    writeFrames t ps

/-- The bytes of a payload behind its length. -/
def framed (t : Ty) (payload : List UInt8) : List UInt8 := t.encode payload.length ++ payload

variable {t : Ty} {p rest : List UInt8} {ps : List (List UInt8)} {k : Int}

theorem length_framed (t : Ty) (p : List UInt8) : (framed t p).length = t.size + p.length := by
  rw [framed, List.length_append, Ty.length_encode]

theorem writeFrames_writes (hp : ∀ p ∈ ps, (p.length : Int) ≤ intMax) :
    store.Writes (writeFrames t ps) (ps.flatMap (framed t)) := by
  induction ps with
  | nil => exact .nil
  | cons p ps ih =>
    refine CharBuf.Store.Writes.seq ?_ (ih fun q hq => hp q (List.mem_cons_of_mem _ hq))
    exact .seq (.value _) (.string (hp p List.mem_cons_self))

/-! ## Reading the length -/

/-- The length is read as it was written. -/
def Readable (k : Int) (p : List UInt8) : Prop := k ≠ 1 ∨ p.length ≤ 127

instance (k : Int) (p : List UInt8) : Decidable (Readable k p) := inferInstanceAs (Decidable (_ ∨ _))

theorem size_lengthType (hk : k = 1 ∨ k = 2 ∨ k = 4) : ((lengthType k).size : Int) = k := by
  rcases hk with rfl | rfl | rfl <;> rfl

theorem accessor_lengthType (hk : k = 1 ∨ k = 2 ∨ k = 4) :
    LengthFieldBasedFrameDecoder.accessor k = some (lengthType k) := by
  rcases hk with rfl | rfl | rfl <;> rfl

theorem decode_length (hk : k = 1 ∨ k = 2 ∨ k = 4) (hp : p.length < 2 ^ (8 * k.toNat)) :
    (lengthType k).decode ((lengthType k).encode p.length) = if Readable k p then (p.length : Int) else p.length - 256 := by
  rcases hk with rfl | rfl | rfl
  · have hp : p.length < 256 := hp
    show Ty.char.decode (Ty.char.encode p.length) = _
    have hr : Readable 1 p ↔ p.length ≤ 127 := or_iff_right (not_not.mpr rfl)
    simp only [hr, Ty.decode, Ty.encode, Ty.size, beVal_beBytes, signed]
    omega
  · have hp : p.length < 65536 := hp
    show Ty.ushort.decode (Ty.ushort.encode p.length) = _
    rw [if_pos (.inl (by decide))]
    simp only [Ty.decode, Ty.encode, Ty.size, beVal_beBytes]
    omega
  · have hp : p.length < 4294967296 := hp
    show Ty.uint.decode (Ty.uint.encode p.length) = _
    rw [if_pos (.inl (by decide))]
    simp only [Ty.decode, Ty.encode, Ty.size, beVal_beBytes]
    omega

/-! ## Items -/

namespace LengthFieldBasedFrameDecoder

/-- The decoder of frames that begin with a length of `k` bytes, which it takes off. -/
structure Plain (d : LengthFieldBasedFrameDecoder) (k : Int) : Prop extends Supported d where
  width : k = 1 ∨ k = 2 ∨ k = 4
  lengthFieldLength_ : d.lengthFieldLength_ = k
  lengthFieldOffset_ : d.lengthFieldOffset_ = 0
  lengthAdjustment_ : d.lengthAdjustment_ = 0
  initialBytesToStrip_ : d.initialBytesToStrip_ = k
  between : d.discarding 0 0 = d

variable {d : LengthFieldBasedFrameDecoder}

theorem new_plain {m : Int} (h : new m 0 k 0 k = .ok d) (hm : IsInt m) (hk : k = 1 ∨ k = 2 ∨ k = 4) : d.Plain k := by
  have hs := new_supported h hm Buffer.UnpooledHeapCharBuf.isInt_zero (by omega)
  obtain ⟨-, hl, ha, hi, hb⟩ := new_eq h
  refine ⟨hs, hk, hl, ?_, ha, hi, hb⟩
  unfold new init at h
  split at h
  · cases h
  split at h
  · cases h
  split at h
  · cases h
  split at h
  · cases h
  cases h
  rfl

namespace Plain

variable (hd : d.Plain k)
include hd

theorem lengthFieldEndOffset_ : d.lengthFieldEndOffset_ = k := by
  rw [hd.end_eq, hd.lengthFieldOffset_, hd.lengthFieldLength_, Int.zero_add]

theorem lengthField_framed (hp : p.length < 2 ^ (8 * k.toNat)) :
    d.lengthField (framed (lengthType k) p ++ rest) = if Readable k p then (p.length : Int) else p.length - 256 := by
  rw [← decode_length hd.width hp, lengthField, hd.lengthFieldLength_, accessor_lengthType hd.width, hd.lengthFieldOffset_]
  refine congrArg (lengthType k).decode ?_
  rw [framed, List.append_assoc, Int.toNat_zero, List.drop_zero, ← Ty.length_encode (lengthType k) p.length,
    List.take_left]

/-- What a payload is to the decoder. -/
theorem item_framed (hp : p.length < 2 ^ (8 * k.toNat)) (hm : p.length + k ≤ d.maxFrameLength_) :
    d.item (framed (lengthType k) p ++ rest) = some (if Readable k p then .frame (p.length + k)
      else .rejected k s!"negative pre-adjustment length field: {((p.length : Int) - 256)}") := by
  have hmax := hd.max_le
  have hw := hd.width
  have hlen : ((framed (lengthType k) p ++ rest).length : Int) = k + p.length + rest.length := by
    have := size_lengthType hw
    rw [List.length_append, length_framed]
    omega
  have hfield : d.lengthField (framed (lengthType k) p ++ rest) = _ := hd.lengthField_framed hp
  rw [item, hd.lengthFieldEndOffset_, if_neg (by omega), hfield]
  by_cases hr : Readable k p
  · have hframe : d.frameLength (framed (lengthType k) p ++ rest) = p.length + k := by
      rw [frameLength, hfield, if_pos hr, hd.lengthAdjustment_, hd.lengthFieldEndOffset_, Int.zero_add,
        i32_eq (by omega) (by omega), i64_eq (by omega) (by omega)]
    rw [if_pos hr, if_pos hr, if_neg (by omega), hframe, if_neg (by omega), if_neg (by omega), if_neg (by omega),
      hd.initialBytesToStrip_, if_neg (by omega)]
  · have hk : k = 1 := by
      by_contra hk
      exact hr (.inl hk)
    subst hk
    have hp : p.length < 256 := hp
    rw [if_neg hr, if_neg hr, if_pos (by omega)]

theorem outcome_framed (p rest : List UInt8) :
    d.outcome (framed (lengthType k) p ++ rest) (.frame (p.length + k)) = .frame p := by
  have hw := hd.width
  have hs : k.toNat = ((lengthType k).encode p.length).length := by
    rw [Ty.length_encode]
    have := size_lengthType hw
    omega
  rw [outcome, hd.initialBytesToStrip_, framed, List.append_assoc, hs, List.drop_left,
    show ((p.length : Int) + k - k).toNat = p.length by omega, List.take_left]

end Plain

end LengthFieldBasedFrameDecoder

/-! ## Decoding -/

namespace Connection

open LengthFieldBasedFrameDecoder (Plain Item)

variable {d : LengthFieldBasedFrameDecoder} {c : Nat} {w w' : Connection}

/-- The buffer `c` is in order, and the decoder between two frames or in a too long one. -/
structure Ready (d : LengthFieldBasedFrameDecoder) (c : Nat) (w : Connection) : Prop where
  valid : (w.heap c).Valid
  decoder : ∃ D T, 0 ≤ D ∧ D ≤ 2147483647 ∧ w.decoder.frameDecoder = d.discarding D T

theorem Handled.ready (h : Handled w w') (hr : Ready d c w) : Ready d c w' := by
  obtain ⟨_, _, _, e⟩ := h.rest
  obtain ⟨k, hk⟩ := h.heap c
  refine ⟨?_, ?_⟩
  · rw [hk]
    exact { hr.valid with }
  · rw [e]
    exact hr.decoder

theorem decoded_ready {s : Decoding} {o : List Decoded} {D T : Int} (hb : s.buf.Valid) (h0 : 0 ≤ D) (hD : D ≤ 2147483647)
    (hs : s.decoder = d.discarding D T) : Ready d c (w.decoded c s o) :=
  ⟨by rw [decoded_heap_self]; exact hb, D, T, h0, hD, hs⟩

/-- A length of one byte is no more than 127. -/
theorem lengthField_le (hd : d.Plain 1) (l : List UInt8) : d.lengthField l ≤ 127 := by
  rw [LengthFieldBasedFrameDecoder.lengthField, hd.lengthFieldLength_, accessor_lengthType hd.width]
  have h := beVal_lt (((l.drop d.lengthFieldOffset_.toNat).take (lengthType 1).size))
  have hle : (((l.drop d.lengthFieldOffset_.toNat).take (lengthType 1).size)).length ≤ 1 := List.length_take_le _ _
  have hpow : 256 ^ (((l.drop d.lengthFieldOffset_.toNat).take (lengthType 1).size)).length ≤ 256 ^ 1 :=
    Nat.pow_le_pow_right (by decide) hle
  show signed 8 _ ≤ 127
  unfold signed
  split <;> omega

theorem frameLength_le (hd : d.Plain 1) (l : List UInt8) : d.frameLength l ≤ 128 ∨ d.lengthField l < 0 := by
  have h := lengthField_le hd l
  rw [or_iff_not_imp_right]
  intro h0
  rw [LengthFieldBasedFrameDecoder.frameLength, hd.lengthAdjustment_, hd.lengthFieldEndOffset_, i64_eq] <;>
    rw [show i32 (0 + 1) = 1 from rfl] <;> omega

/-- A frame that is too long is so by its length field. -/
theorem item_tooLong_le (hd : d.Plain 1) {l : List UInt8} {n : Int} (h : d.item l = some (.tooLong n)) : n ≤ 128 := by
  rw [LengthFieldBasedFrameDecoder.item] at h
  split at h
  · cases h
  split at h
  · cases h
  rename_i h0
  split at h
  · cases h
  split at h
  · cases h
    exact (frameLength_le hd l).resolve_right h0
  split at h
  · cases h
  split at h <;> cases h

section

variable {s : Decoding}

theorem decode_of_none (h : LengthFieldBasedFrameDecoder.decode ⟨w.decoder.frameDecoder, w.heap c, []⟩ = .ok none s) :
    decode c w = .ok none (w.decoded c s []) := by
  rw [decode, h]

theorem decode_of_frame {f : Slice}
    (h : LengthFieldBasedFrameDecoder.decode ⟨w.decoder.frameDecoder, w.heap c, []⟩ = .ok (some f) s) :
    decode c w = .ok (some (.slice c f))
      (w.decoded c s [.frame (s.buf.array_.read f.adjustment_.toNat f.length.toNat)]) := by
  rw [decode, h]

theorem decode_of_throw {what : String}
    (h : LengthFieldBasedFrameDecoder.decode ⟨w.decoder.frameDecoder, w.heap c, []⟩ = .throw what s) :
    decode c w = .throw what (w.decoded c s [.exception what]) := by
  rw [decode, h]

end

/-- A call of `decode` that throws says why. -/
theorem decode_ready (hd : d.Plain 1) (h : Ready d c w) : ∃ w', Ready d c w' ∧
    (decode c w = .ok none w' ∨ (∃ s, decode c w = .ok (some (.slice c s)) w') ∨
      ∃ what, what ≠ "" ∧ decode c w = .throw what w') := by
  obtain ⟨D, T, h0, hD, e⟩ := h.decoder
  have hdec : LengthFieldBasedFrameDecoder.decode ⟨d.discarding D T, w.heap c, []⟩ = _ :=
    LengthFieldBasedFrameDecoder.decode_eq hd.toSupported h.valid h0 hD
  have hlen := UnpooledHeapCharBuf.length_readable (w.heap c)
  have hr0 := h.valid.reader_nonneg
  have hrw := h.valid.reader_le
  dsimp only at hdec
  rw [← e] at hdec
  have hb' := h.valid.withReader (i := (w.heap c).indices.readerIndex_ + min D (w.heap c).readable.length)
    (by omega) (by omega)
  split at hdec
  · generalize (w.heap c).withReader ((w.heap c).indices.readerIndex_ + min D (w.heap c).readable.length) = b at hdec hb'
    have hl := UnpooledHeapCharBuf.length_readable b
    have hbr := hb'.reader_nonneg
    have hbw := hb'.reader_le
    cases hit : d.item b.readable with
    | none =>
      rw [hit] at hdec
      exact ⟨_, decoded_ready (s := ⟨d.discarding 0 0, b, _⟩) hb' (Int.le_refl 0) (by decide) rfl,
        .inl (decode_of_none hdec)⟩
    | some it =>
      rw [hit] at hdec
      obtain ⟨hpos, -, hle⟩ := LengthFieldBasedFrameDecoder.item_bounds hd.toSupported hit
      have hne := LengthFieldBasedFrameDecoder.outcome_ne hit
      cases it with
      | rejected n what =>
        have hle : n ≤ b.readable.length := hle fun _ h => nomatch h
        have hpos : 0 < n := hpos
        exact ⟨_, decoded_ready (s := ⟨d.discarding 0 0, b.withReader (b.indices.readerIndex_ + n), _⟩)
          (hb'.withReader (by omega) (by omega)) (Int.le_refl 0) (by decide) rfl,
          .inr (.inr ⟨what, fun h => hne (by rw [h]; rfl), decode_of_throw hdec⟩)⟩
      | tooLong n =>
        have hpos : 0 < n := hpos
        have hn : n ≤ 128 := item_tooLong_le hd hit
        exact ⟨_, decoded_ready (T := n)
          (s := ⟨d.discarding (n - min n b.readable.length) n, b.withReader (b.indices.readerIndex_ + min n b.readable.length), _⟩)
          (hb'.withReader (by omega) (by omega)) (by omega) (by omega) rfl,
          .inr (.inr ⟨_, fun h => hne (congrArg _ h), decode_of_throw hdec⟩)⟩
      | frame n =>
        have hle : n ≤ b.readable.length := hle fun _ h => nomatch h
        have hpos : 0 < n := hpos
        have hb'' : ((b.retain 1).withReader (b.indices.readerIndex_ + n)).Valid :=
          { hb'.withReader (i := b.indices.readerIndex_ + n) (by omega) (by omega) with }
        exact ⟨_, decoded_ready (s := ⟨d.discarding 0 0, (b.retain 1).withReader (b.indices.readerIndex_ + n), _⟩) hb''
          (Int.le_refl 0) (by decide) rfl, .inr (.inl ⟨_, decode_of_frame hdec⟩)⟩
  · exact ⟨_, decoded_ready (s := ⟨d.discarding (D - (w.heap c).readable.length) T, _, []⟩) hb' (by omega) (by omega) rfl,
      .inl (decode_of_none hdec)⟩

/-- The buffer `c` is in order, and what is readable in it is `l`; the decoder is between two frames. -/
structure Fed (d : LengthFieldBasedFrameDecoder) (c : Nat) (l : List UInt8) (w : Connection) : Prop where
  valid : (w.heap c).Valid
  frameDecoder : w.decoder.frameDecoder = d
  singleDecode : w.decoder.singleDecode = false
  cumulation_ : w.decoder.cumulation_ = some c
  readable : (w.heap c).readable = l

variable {l : List UInt8} {p rest : List UInt8} {ps : List (List UInt8)} {k : Int}

namespace Fed

theorem handled (h : Fed d c l w) (hw : Handled w w') : Fed d c l w' := by
  obtain ⟨_, _, _, e⟩ := hw.rest
  obtain ⟨k, hk⟩ := hw.heap c
  refine ⟨?_, ?_, ?_, ?_, ?_⟩
  · rw [hk]
    exact { h.valid with }
  · rw [e]
    exact h.frameDecoder
  · rw [e]
    exact h.singleDecode
  · rw [e]
    exact h.cumulation_
  · rw [hk]
    exact h.readable

theorem ready (hd : d.discarding 0 0 = d) (h : Fed d c l w) : Ready d c w :=
  ⟨h.valid, 0, 0, Int.le_refl 0, by decide, by rw [hd]; exact h.frameDecoder⟩

theorem readableBytes (h : Fed d c l w) : charBuf.readableBytes (w.heap c) = l.length := by
  have hl := UnpooledHeapCharBuf.length_readable (w.heap c)
  have hr := h.valid.reader_le
  rw [h.valid.readableBytes, ← h.readable]
  omega

theorem isReadable (h : Fed d c l w) : charBuf.isReadable (w.heap c) = decide (l ≠ []) := by
  have hl := UnpooledHeapCharBuf.length_readable (w.heap c)
  rw [h.readable] at hl
  rw [UnpooledHeapCharBuf.isReadable_charBuf]
  refine decide_eq_decide.mpr ?_
  rw [← List.length_pos_iff]
  omega

end Fed

theorem length_framed_pos (hd : d.Plain k) (p : List UInt8) : 0 < (framed (lengthType k) p).length := by
  have := size_lengthType hd.width
  have := hd.width
  rw [length_framed]
  omega

theorem framed_ne_nil (hd : d.Plain k) (p : List UInt8) : framed (lengthType k) p ++ rest ≠ [] := by
  have := length_framed_pos hd p
  rw [← List.length_pos_iff, List.length_append]
  omega

theorem Fed.decode_eq (hd : d.Plain k) (h : Fed d c l w) :
    LengthFieldBasedFrameDecoder.decode ⟨w.decoder.frameDecoder, w.heap c, []⟩ =
      d.taken (w.heap c) (d.fieldsRead (w.heap c) []) (d.item l) := by
  rw [← h.readable]
  refine (congrArg (fun f => LengthFieldBasedFrameDecoder.decode ⟨f, w.heap c, []⟩)
    (h.frameDecoder.trans hd.between.symm)).trans ?_
  exact LengthFieldBasedFrameDecoder.decodeFrame_eq hd.toSupported h.valid

/-- A payload whose length is read as it was written. -/
theorem decode_fed (hd : d.Plain k) (h : Fed d c (framed (lengthType k) p ++ rest) w) (hp : p.length < 2 ^ (8 * k.toNat))
    (hm : p.length + k ≤ d.maxFrameLength_) (hr : Readable k p) : ∃ s w', decode c w = .ok (some (.slice c s)) w' ∧
      Fed d c rest w' ∧ w'.readableOf (.slice c s) = p ∧ w'.fired = w.fired := by
  have hdec := h.decode_eq hd
  rw [hd.item_framed hp hm, if_pos hr] at hdec
  have hlen := UnpooledHeapCharBuf.length_readable (w.heap c)
  have hr0 := h.valid.reader_nonneg
  have hrw := h.valid.reader_le
  have hk := hd.width
  have hsize : ((framed (lengthType k) p).length : Int) = k + p.length := by
    have := size_lengthType hk
    rw [length_framed]
    omega
  have hall : (w.heap c).readable.length = (framed (lengthType k) p).length + rest.length := by
    rw [h.readable, List.length_append]
  have hin : (w.heap c).indices.readerIndex_ + (p.length + k) ≤ (w.heap c).indices.writerIndex_ := by omega
  have hread := UnpooledHeapCharBuf.readable_withReader (b := w.heap c) (k := (framed (lengthType k) p).length) hr0 (by omega)
  rw [h.readable, List.drop_left, show ((framed (lengthType k) p).length : Int) = p.length + k by omega] at hread
  have hb : (((w.heap c).retain 1).withReader ((w.heap c).indices.readerIndex_ + (p.length + k))).Valid :=
    { h.valid.withReader (i := (w.heap c).indices.readerIndex_ + (p.length + k)) (by omega) hin with }
  refine ⟨_, _, decode_of_frame hdec, ⟨?_, hd.between, h.singleDecode, h.cumulation_, ?_⟩, ?_, rfl⟩
  · rw [decoded_heap_self]
    exact hb
  · rw [decoded_heap_self]
    exact hread
  · rw [readableOf, decoded_heap_self]
    have hbytes := UnpooledHeapCharBuf.Valid.read_readable (b := w.heap c) (k := k.toNat) (m := p.length) (by omega)
    have hout := hd.outcome_framed p rest
    rw [LengthFieldBasedFrameDecoder.outcome, hd.initialBytesToStrip_,
      show ((p.length : Int) + k - k).toNat = p.length by omega] at hout
    rw [h.readable, Decoded.frame.inj hout] at hbytes
    refine Eq.trans ?_ hbytes
    show (w.heap c).array_.read ((w.heap c).indices.readerIndex_ + d.initialBytesToStrip_).toNat
      (p.length + k - d.initialBytesToStrip_).toNat = _
    rw [hd.initialBytesToStrip_]
    exact congrArg₂ (w.heap c).array_.read (by omega) (by omega)

/-- One that is not. -/
theorem decode_bad (hd : d.Plain 1) (h : Fed d c (framed (lengthType 1) p ++ rest) w) (hp : p.length < 2 ^ 8)
    (hm : p.length + 1 ≤ d.maxFrameLength_) (hr : ¬Readable 1 p) : ∃ what w', what ≠ "" ∧ decode c w = .throw what w' ∧
      Ready d c w' := by
  have hdec := h.decode_eq hd
  have hit : d.item (framed (lengthType 1) p ++ rest) = _ := hd.item_framed hp hm
  rw [if_neg hr] at hit
  rw [hit] at hdec
  have hne := LengthFieldBasedFrameDecoder.outcome_ne hit
  have hlen := UnpooledHeapCharBuf.length_readable (w.heap c)
  rw [h.readable, List.length_append, length_framed] at hlen
  have hs : (lengthType 1).size = 1 := rfl
  have hr0 := h.valid.reader_nonneg
  exact ⟨_, _, fun e => hne (by rw [e]; rfl), decode_of_throw hdec,
    decoded_ready (s := ⟨d.discarding 0 0, (w.heap c).withReader ((w.heap c).indices.readerIndex_ + 1), _⟩)
      (h.valid.withReader (by omega) (by omega)) (Int.le_refl 0) (by decide) rfl⟩

theorem didNotRead_ne : didNotRead ≠ "" := by decide

/-- An exception is not forgotten in the rounds that follow. -/
theorem decodeLoop_thrown (hd : d.Plain 1) (hs : List Handler) {fuel : Nat} (ss : List Slice) {ex ex' : String}
    {out : List Message} (hex : ex ≠ "") (h : Ready d c w)
    (e : decodeLoop hs c fuel (ss.map (.slice c)) ex w = .ok (out, ex') w') : ex' ≠ "" := by
  induction fuel generalizing ss ex w with
  | zero => cases e
  | succ fuel ih =>
    rw [decodeLoop] at e
    dsimp only at e
    split at e
    · cases e
      exact hex
    rw [fireAll_slices, Outcome.bind_ok] at e
    have h₁ := (handled_foldl hs (ss.map (.slice c)) w).ready h
    generalize (ss.map (.slice c)).foldl (fired1 hs) w = w₁ at h₁ e
    obtain ⟨w₂, h₂, hdec | ⟨s, hdec⟩ | ⟨what, hwhat, hdec⟩⟩ := decode_ready hd h₁
    · simp only [hdec] at e
      split at e
      · cases e
        exact hex
      · exact ih [] hex h₂ e
    · simp only [hdec] at e
      split at e
      · exact ih [s] didNotRead_ne h₂ e
      · split at e
        · cases e
          exact hex
        · exact ih [s] hex h₂ e
    · simp only [hdec] at e
      exact ih [] hwhat h₂ e

/-- All payloads are taken, and nothing is thrown. -/
theorem decodeLoop_fed (hd : d.Plain k) (hs : List Handler) {fuel : Nat} (ss : List Slice)
    (h : Fed d c (ps.flatMap (framed (lengthType k))) w) (hfuel : ps.length < fuel)
    (hp : ∀ p ∈ ps, p.length < 2 ^ (8 * k.toNat) ∧ p.length + k ≤ d.maxFrameLength_ ∧ Readable k p) :
    ∃ ss' w', decodeLoop hs c fuel (ss.map (.slice c)) "" w = .ok (ss'.map (.slice c), "") w' ∧ Fed d c [] w' ∧
      w'.fired.map (·.bytes) ++ bytesOf c w' ss' = w.fired.map (·.bytes) ++ bytesOf c w ss ++ ps := by
  induction fuel generalizing ss ps w with
  | zero => omega
  | succ fuel ih =>
    rw [decodeLoop]
    dsimp only
    cases ps with
    | nil =>
      have hn : charBuf.isReadable (w.heap c) = false := by
        rw [h.isReadable]
        rfl
      rw [hn]
      exact ⟨ss, w, rfl, h, (List.append_nil _).symm⟩
    | cons p ps =>
      rw [List.flatMap_cons] at h
      obtain ⟨hlt, hm, hr⟩ := hp p List.mem_cons_self
      have hn : charBuf.isReadable (w.heap c) = true := by
        rw [h.isReadable]
        exact decide_eq_true (framed_ne_nil hd p)
      have hf := fires_foldl (c := c) hs ss w
      rw [hn, fireAll_slices, Outcome.bind_ok]
      generalize (ss.map (.slice c)).foldl (fired1 hs) w = w₁ at hf
      have h₁ := h.handled hf.handled
      obtain ⟨s, w₂, hdec, h₂, hbytes, hfired⟩ := decode_fed hd h₁ hlt hm hr
      have hpos := length_framed_pos hd p
      have hne : ¬charBuf.readableBytes (w₁.heap c) = charBuf.readableBytes (w₂.heap c) := by
        rw [h₁.readableBytes, h₂.readableBytes, List.length_append]
        omega
      obtain ⟨ss', w', e, h', hfired'⟩ := ih [s] h₂ (by simpa using hfuel) fun q hq => hp q (List.mem_cons_of_mem _ hq)
      simp only [hdec, hne, h₂.singleDecode]
      refine ⟨ss', w', e, h', ?_⟩
      rw [hfired', hfired, hf.fired]
      simp only [bytesOf, List.map_cons, List.map_nil, hbytes, List.append_assoc, List.singleton_append]

/-- A payload whose length is read as a negative one is not taken, and leaves an exception. -/
theorem decodeLoop_bad (hd : d.Plain 1) (hs : List Handler) {fuel : Nat} (ss : List Slice) {ex' : String}
    {out : List Message} (h : Fed d c (ps.flatMap (framed (lengthType 1))) w)
    (hp : ∀ p ∈ ps, p.length < 2 ^ 8 ∧ p.length + 1 ≤ d.maxFrameLength_) (hbad : ∃ p ∈ ps, ¬Readable 1 p)
    (e : decodeLoop hs c fuel (ss.map (.slice c)) "" w = .ok (out, ex') w') : ex' ≠ "" := by
  induction fuel generalizing ss ps w with
  | zero => cases e
  | succ fuel ih =>
    rw [decodeLoop] at e
    dsimp only at e
    obtain ⟨q, hq, hqbad⟩ := hbad
    cases ps with
    | nil => cases hq
    | cons p ps =>
      rw [List.flatMap_cons] at h
      obtain ⟨hlt, hm⟩ := hp p List.mem_cons_self
      have hn : charBuf.isReadable (w.heap c) = true := by
        rw [h.isReadable]
        exact decide_eq_true (framed_ne_nil hd p)
      rw [hn, fireAll_slices, Outcome.bind_ok] at e
      have h₁ := h.handled (handled_foldl hs (ss.map (.slice c)) w)
      generalize (ss.map (.slice c)).foldl (fired1 hs) w = w₁ at h₁ e
      by_cases hr : Readable 1 p
      · obtain ⟨s, w₂, hdec, h₂, -, -⟩ := decode_fed hd h₁ hlt hm hr
        have hpos := length_framed_pos hd p
        have hne : ¬charBuf.readableBytes (w₁.heap c) = charBuf.readableBytes (w₂.heap c) := by
          rw [h₁.readableBytes, h₂.readableBytes, List.length_append]
          omega
        simp only [hdec, hne, h₂.singleDecode] at e
        refine ih [s] h₂ (fun q hq => hp q (List.mem_cons_of_mem _ hq)) ⟨q, ?_, hqbad⟩ e
        refine (List.mem_cons.mp hq).resolve_left fun h => ?_
        exact hqbad (h ▸ hr)
      · obtain ⟨what, w₂, hwhat, hdec, h₂⟩ := decode_bad hd h₁ hlt hm hr
        simp only [hdec] at e
        exact decodeLoop_thrown hd hs [] hwhat h₂ e

/-! ## The round trip -/

/-- The connection in the loop of `callDecode`, for the first buffer. -/
def feeding (c : Nat) (w : Connection) : Connection :=
  (w.setDecoder { w.decoder with first := true, cumulation_ := some c }).setBuf c ((w.heap c).retain 1)

theorem decodeRead_first (hc : w.decoder.cumulation_ = none) (fuel : Nat) (hs : List Handler) :
    decodeRead fuel hs c w = callDecode fuel hs c (w.feeding c) := by
  simp only [decodeRead, Method.bind_apply, Method.modify_apply, Method.get_apply, Outcome.bind_ok, setDecoder, hc]
  rfl

theorem fed_feeding (hv : (w.heap c).Valid) (hw : w.decoder = .new d) : Fed d c (w.heap c).readable (w.feeding c) := by
  refine ⟨?_, by show w.decoder.frameDecoder = d; rw [hw]; rfl, by show w.decoder.singleDecode = false; rw [hw]; rfl,
    rfl, ?_⟩
  · rw [feeding, setBuf_heap_self]
    exact { hv with }
  · rw [feeding, setBuf_heap_self]
    rfl

/-- All of the buffer was read: it is let go of. -/
theorem resetCumulation_fed (h : Fed d c [] w) : ∃ w', resetCumulation w = .ok () w' ∧ w'.fired = w.fired ∧
    ∀ ss, bytesOf c w' ss = bytesOf c w ss := by
  have hn : charBuf.isReadable (w.heap c) = false := by
    rw [h.isReadable]
    rfl
  simp only [resetCumulation, h.cumulation_, hn]
  refine ⟨_, rfl, rfl, fun ss => List.map_congr_left fun s _ => ?_⟩
  show ((setBuf _ c _).heap c).array_.read _ _ = _
  rw [setBuf_heap_self]
  rfl

/-- A buffer given to a decoder that has had none delivers the payloads, and nothing is thrown. -/
def Yields (d : LengthFieldBasedFrameDecoder) (b : UnpooledHeapCharBuf) (ps : List (List UInt8)) : Prop :=
  ∀ (w : Connection) (c fuel : Nat) (hs : List Handler), w.heap c = b → w.decoder = .new d → ps.length < fuel →
    ∃ w', channelRead fuel hs c w = .ok () w' ∧ w'.fired.map (·.bytes) = w.fired.map (·.bytes) ++ ps

variable {b : UnpooledHeapCharBuf}

theorem yields (hd : d.Plain k) (hb : b.Valid) (hr : b.readable = ps.flatMap (framed (lengthType k)))
    (hp : ∀ p ∈ ps, p.length < 2 ^ (8 * k.toNat) ∧ p.length + k ≤ d.maxFrameLength_ ∧ Readable k p) : Yields d b ps := by
  rintro w c fuel hs rfl hw hfuel
  have h := fed_feeding hb hw
  rw [hr] at h
  obtain ⟨ss, w₁, e, h₁, hfired⟩ := decodeLoop_fed hd hs [] h hfuel hp
  obtain ⟨w₂, e₂, hfired₂, hbytes⟩ := resetCumulation_fed h₁
  have hcall : callDecode fuel hs c (w.feeding c) = .ok (ss.map (.slice c)) w₁ := by
    rw [callDecode, Method.bind_apply]
    show Outcome.bind (decodeLoop hs c fuel (([] : List Slice).map (.slice c)) "" (w.feeding c)) _ = _
    rw [e]
    rfl
  have hf := fires_foldl (c := c) hs ss w₂
  refine ⟨_, ?_, hf.fired.trans ?_⟩
  · simp only [channelRead, decodeRead_first (w := w) (c := c) (by rw [hw]; rfl), hcall, e₂, Outcome.bind_ok]
    exact fireAll_slices hs ss c w₂
  · rw [hfired₂]
    show _ ++ bytesOf c w₂ ss = _
    rw [hbytes, hfired]
    exact congrArg (· ++ ps) (List.append_nil _)

theorem not_yields (hd : d.Plain 1) (hb : b.Valid) (hr : b.readable = ps.flatMap (framed (lengthType 1)))
    (hp : ∀ p ∈ ps, p.length < 2 ^ 8 ∧ p.length + 1 ≤ d.maxFrameLength_) (hbad : ∃ p ∈ ps, ¬Readable 1 p) :
    ¬Yields d b ps := fun H => by
  let w : Connection := { blank d with heap := fun _ => b }
  obtain ⟨w', e, -⟩ := H w 0 (ps.length + 1) [] rfl rfl (Nat.lt_succ_self _)
  have h : Fed d 0 (ps.flatMap (framed (lengthType 1))) (w.feeding 0) := hr ▸ fed_feeding (w := w) (c := 0) hb rfl
  have hcall : ∀ out w₁, callDecode (ps.length + 1) [] 0 (w.feeding 0) ≠ .ok out w₁ := fun out w₁ e => by
    obtain ⟨⟨out', ex⟩, w₂, hloop, e⟩ := Outcome.bind_eq_ok e
    have hex := decodeLoop_bad hd [] [] h hp hbad hloop
    dsimp only at e
    rw [if_pos hex] at e
    cases e
  rw [channelRead, decodeRead_first rfl] at e
  split at e
  · exact hcall _ _ ‹_›
  · obtain ⟨_, _, -, e⟩ := Outcome.bind_eq_ok e
    cases e
  · cases e
  · cases e

/-- The payloads are written into an empty buffer, and delivered from it. -/
def RoundTrips (k : Int) (d : LengthFieldBasedFrameDecoder) (b : UnpooledHeapCharBuf) (ps : List (List UInt8)) : Prop :=
  ∃ b', writeFrames (lengthType k) ps b = .ok () b' ∧ Yields d b' ps

theorem appended_readable {bs : List UInt8} {b' : UnpooledHeapCharBuf} (hb : b.Valid) (hr : b.readable = [])
    (h : store.Appended b bs b') : b'.Valid ∧ b'.readable = bs := by
  have h0 := hb.reader_nonneg
  have hrw := hb.reader_le
  have hl := UnpooledHeapCharBuf.length_readable b
  rw [hr, List.length_nil] at hl
  have hi := h.indices
  have hri : b'.indices.readerIndex_ = b.indices.readerIndex_ := congrArg (·.readerIndex_) hi
  have hwi : b'.indices.writerIndex_ = b.indices.writerIndex_ + bs.length := congrArg (·.writerIndex_) hi
  have hmi : b'.indices.maxCapacity_ = b.indices.maxCapacity_ := congrArg (·.maxCapacity_) hi
  have hfits : b.indices.writerIndex_ + bs.length ≤ b'.capacity_ := h.fits
  have hgrown : b.capacity_ ≤ b'.capacity_ := h.grown
  have hmax : b'.capacity_ ≤ b.indices.maxCapacity_ := h.max_le
  have hpos := hb.capacity_pos
  have hm := hb.max_le
  refine ⟨⟨by omega, by omega, by omega, by omega, by omega, by omega⟩, ?_⟩
  rw [UnpooledHeapCharBuf.readable, hri, hwi, show b.indices.readerIndex_ = b.indices.writerIndex_ by omega]
  refine Eq.trans ?_ h.written
  exact congrArg (b'.array_.read _) (by omega)

theorem roundTrips_of_plain (hd : d.Plain k) (hb : b.Valid) (hr : b.readable = [])
    (hp : ∀ p ∈ ps, p.length < 2 ^ (8 * k.toNat) ∧ p.length + k ≤ d.maxFrameLength_) :
    RoundTrips k d b ps ↔
      charBuf.Room b (ps.flatMap (framed (lengthType k))).length ∧ ∀ p ∈ ps, Readable k p := by
  have hm := hd.max_le
  have hw := hd.width
  have hW : store.Writes (writeFrames (lengthType k) ps) _ := writeFrames_writes fun p h => by
    have := (hp p h).2
    unfold intMax
    omega
  have hbm := hb.max_le
  have hbc := hb.capacity_le
  have hpos := hb.capacity_pos
  have hbw := hb.writer_le
  have hb0 := hb.reader_nonneg
  have hbr := hb.reader_le
  obtain ⟨hok, hA⟩ := hW b ⟨⟨by omega, by unfold intMax; omega⟩, by show 0 ≤ b.indices.writerIndex_; omega, hbw, hbc, hbm⟩
  constructor
  · rintro ⟨b', e, hD⟩
    obtain ⟨hroom, h⟩ := hA b' e
    obtain ⟨hv, hread⟩ := appended_readable hb hr h
    refine ⟨hroom, ?_⟩
    by_contra hbad
    push Not at hbad
    obtain ⟨p, hmem, hbadp⟩ := hbad
    obtain rfl : k = 1 := by
      by_contra hk
      exact hbadp (.inl hk)
    exact not_yields hd hv hread hp ⟨p, hmem, hbadp⟩ hD
  · rintro ⟨hroom, hgood⟩
    obtain ⟨b', e⟩ := hok hroom
    obtain ⟨hv, hread⟩ := appended_readable hb hr (hA b' e).2
    exact ⟨b', e, yields hd hv hread fun p h => ⟨(hp p h).1, (hp p h).2, hgood p h⟩⟩

open LengthFieldBasedFrameDecoder (new new_plain new_eq)

/-- Payloads written into an empty buffer are delivered if there is room to write them, and no length
in a single byte is one that a `char` cannot hold. -/
theorem roundTrip_iff {m : Int} (hk : k = 1 ∨ k = 2 ∨ k = 4) (hm : IsInt m) (hd : new m 0 k 0 k = .ok d)
    (hb : b.Valid) (hr : b.readable = []) (hp : ∀ p ∈ ps, p.length < 2 ^ (8 * k.toNat) ∧ p.length + k ≤ m) :
    RoundTrips k d b ps ↔
      charBuf.Room b (ps.flatMap (framed (lengthType k))).length ∧ ∀ p ∈ ps, k ≠ 1 ∨ p.length ≤ 127 :=
  roundTrips_of_plain (new_plain hd hm hk) hb hr fun p h => by
    rw [(new_eq hd).1]
    exact hp p h

theorem roundTrip_iff_two : ∃ d, new 1024 0 2 0 2 = .ok d ∧
    (RoundTrips 2 d (.new 4 100) [[1, 2, 3], []] ↔
      charBuf.Room (.new 4 100) ([[1, 2, 3], []].flatMap (framed (lengthType 2))).length ∧
        ∀ p ∈ [[1, 2, 3], ([] : List UInt8)], (2 : Int) ≠ 1 ∨ p.length ≤ 127) :=
  ⟨_, rfl, roundTrip_iff (m := 1024) (.inr (.inl rfl)) ⟨by decide, by decide⟩ rfl
    (UnpooledHeapCharBuf.new_valid (by decide) (by decide) (by decide)) rfl (by decide)⟩

/-- A payload of 200 bytes, behind a length of a single byte. -/
theorem roundTrip_long_byte : ∃ d, new 1024 0 1 0 1 = .ok d ∧
    charBuf.Room (.new 1024 intMax) ([List.replicate 200 0].flatMap (framed (lengthType 1))).length ∧
      ¬RoundTrips 1 d (.new 1024 intMax) [List.replicate 200 0] := by
  have hl : (List.replicate 200 (0 : UInt8)).length = 200 := List.length_replicate
  refine ⟨_, rfl, .inl ?_, fun H => ?_⟩
  · rw [List.flatMap_singleton, length_framed, hl]
    decide
  · have hd : LengthFieldBasedFrameDecoder.Plain _ 1 := new_plain (m := 1024) rfl ⟨by decide, by decide⟩ (.inl rfl)
    have hp : ∀ p ∈ [List.replicate 200 (0 : UInt8)], p.length < 2 ^ (8 * Int.toNat 1) ∧ (p.length : Int) + 1 ≤ 1024 :=
      List.forall_mem_singleton.mpr (by rw [hl]; decide)
    have h := (roundTrips_of_plain hd (UnpooledHeapCharBuf.new_valid (by decide) (by decide) (by decide)) rfl hp).mp H
    have hr := h.2 _ List.mem_cons_self
    rw [Readable, hl] at hr
    exact absurd hr (by decide)

end Connection

end Nio.Net
