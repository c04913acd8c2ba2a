import NioSocket.Net.Rejection

/-!
# Frames that are too long

A frame longer than `maxFrameLength_` is reported once and skipped, however the reads cut
it: `bytesToDiscard_` counts what is still to come of it, and the next length field is
read behind its last byte (`too_long_frame_is_skipped`).
-/

namespace Nio.Net

open Buffer (UnpooledHeapCharBuf)
open Buffer.UnpooledHeapCharBuf (IsInt)

namespace LengthFieldBasedFrameDecoder

/-- From an item that begins at `p` the decoder comes to one at `q`. -/
inductive Reaches (d : LengthFieldBasedFrameDecoder) (S : List UInt8) : Nat → Nat → Prop
  | refl (p : Nat) : Reaches d S p p
  | item {p q : Nat} {it : Item} : d.item (S.drop p) = some it → Reaches d S (p + it.length.toNat) q → Reaches d S p q

variable {d : LengthFieldBasedFrameDecoder} {l S : List UInt8} {t : List Decoded} {p p' q : Nat} {L : Int}

/-- The length field of `l` tells of a frame of more than `maxFrameLength_` bytes, and neither `int` nor
`long` overflows. -/
structure IsTooLong (d : LengthFieldBasedFrameDecoder) (l : List UInt8) (L : Int) : Prop where
  end_le : d.lengthFieldEndOffset_ ≤ l.length
  field_nonneg : 0 ≤ d.lengthField l
  length_eq : d.lengthField l + d.lengthAdjustment_ + d.lengthFieldEndOffset_ = L
  isInt : IsInt (d.lengthAdjustment_ + d.lengthFieldEndOffset_)
  gt_max : d.maxFrameLength_ < L
  isLong : L ≤ 9223372036854775807

theorem IsTooLong.item (hd : d.Supported) (h : d.IsTooLong l L) : d.item l = some (.tooLong L) := by
  have h0 := h.field_nonneg
  have hend := h.end_le
  have hlen := h.length_eq
  have hmax := h.gt_max
  have hmax' := hd.end_le
  have hlong := h.isLong
  have hpos := end_pos hd
  have hfl : d.frameLength l = L := by
    show i64 (d.lengthField l + i32 (d.lengthAdjustment_ + d.lengthFieldEndOffset_)) = _
    rw [i32_eq h.isInt.1 h.isInt.2, i64_eq (by omega) (by omega)]
    omega
  rw [LengthFieldBasedFrameDecoder.item, if_neg (by omega), if_neg (by omega), hfl, if_neg (by omega), if_pos hmax]

theorem Reaches.le (h : d.Reaches S p q) : p ≤ q := by
  induction h with
  | refl => exact Nat.le_refl _
  | item _ _ ih => omega

/-- The text of the exception that reports a frame of `L` bytes. -/
def report (d : LengthFieldBasedFrameDecoder) (L : Int) : String :=
  s!"Adjusted frame length exceeds {d.maxFrameLength_} : {L} - discarded"

/-- A trace reads the length field of a too long frame once, reports the frame, and goes on behind it. -/
theorem Trace.tooLong (hd : d.Supported) (h : Trace d S p t p') (hq : d.Reaches S p q)
    (hit : d.item (S.drop q) = some (.tooLong L)) (hnone : d.item (S.drop p') = none) :
    ∃ pre post, t = pre ++ [.field (q + d.lengthFieldOffset_), .exception (d.report L)] ++ post ∧
      (∀ o, .field o ∈ pre → o < q + d.lengthFieldOffset_) ∧ Trace d S (q + L.toNat) post p' := by
  induction h with
  | nil p =>
    cases hq with
    | refl => cases hit.symm.trans hnone
    | item h => cases h.symm.trans hnone
  | @look t p p' _ hn _ ih =>
    obtain ⟨pre, post, rfl, hpre, htr⟩ := ih hq hnone
    have hlt : p < q := by
      cases hq with
      | refl => exact absurd hit (hn L)
      | item h hr =>
        have := (item_bounds hd h).1
        have := hr.le
        omega
    refine ⟨.field (p + d.lengthFieldOffset_) :: pre, post, rfl, fun o ho => ?_, htr⟩
    rcases List.mem_cons.mp ho with h | h
    · rw [Decoded.field.inj h]
      omega
    · exact hpre o h
  | @item t p p' it hit' htr ih =>
    cases hq with
    | refl =>
      obtain rfl := Option.some.inj (hit'.symm.trans hit)
      exact ⟨[], t, rfl, by simp, htr⟩
    | item h hr =>
      obtain rfl := Option.some.inj (h.symm.trans hit')
      have hpos := (item_bounds hd hit').1
      have hle := hr.le
      obtain ⟨pre, post, rfl, hpre, htr⟩ := ih hr hnone
      refine ⟨.field (p + d.lengthFieldOffset_) :: d.outcome (S.drop p) _ :: pre, post, rfl, fun o ho => ?_, htr⟩
      rcases List.mem_cons.mp ho with h | h
      · rw [Decoded.field.inj h]
        omega
      rcases List.mem_cons.mp h with h | h
      · exact absurd h.symm (outcome_ne_field o)
      · exact hpre o h

/-- A trace that goes on begins with a length field. -/
theorem Trace.head (h : Trace d S p t p') (ht : t ≠ []) (hd : d.Supported) :
    (∃ t', t = .field (p + d.lengthFieldOffset_) :: t') ∧ p ≤ S.length := by
  have hpos := end_pos hd
  cases h with
  | nil => exact absurd rfl ht
  | look hl _ _ =>
    rw [List.length_drop] at hl
    exact ⟨⟨_, rfl⟩, by omega⟩
  | item hit _ =>
    have hl := (item_bounds hd hit).2.1
    rw [List.length_drop] at hl
    exact ⟨⟨_, rfl⟩, by omega⟩

end LengthFieldBasedFrameDecoder

namespace Connection

variable {d : LengthFieldBasedFrameDecoder} {S : List UInt8} {C p start : Nat} {L : Int} {w : Connection}

/-- The decoder has reported the too long frame that begins at `start`, and skips it, or has done so. -/
structure Skips (d : LengthFieldBasedFrameDecoder) (S : List UInt8) (start : Nat) (L : Int) (w : Connection)
    (pre post : List Decoded) : Prop where
  trace : w.decoder.trace = pre ++ [.field (start + d.lengthFieldOffset_), .exception (d.report L)] ++ post
  before : ∀ o, .field o ∈ pre → o < start + d.lengthFieldOffset_
  /-- As long as no other length field is read, this frame is skipped up to its end. -/
  skipping : post = [] → w.decoder.consumed + w.decoder.frameDecoder.bytesToDiscard_ = start + L ∧
    w.decoder.consumed = min (start + L) S.length ∧
    w.decoder.frameDecoder.discardingTooLongFrame_ = decide (w.decoder.consumed ≠ start + L)
  /-- The next one is read behind its end. -/
  next : post ≠ [] → start + L ≤ w.decoder.consumed ∧
    ∃ t, post = .field (start + L + d.lengthFieldOffset_) :: t

theorem Session.skips (hd : d.Supported) (h : Session d S C p w)
    (ht : d.Trace S 0 w.decoder.trace p) (hstart : d.Reaches S 0 start)
    (hL : d.IsTooLong (S.drop start) L) : ∃ pre post, Skips d S start L w pre post := by
  have hmax := hd.max_le
  have hpos := LengthFieldBasedFrameDecoder.end_pos hd
  have hend := hd.end_le
  have hgt := hL.gt_max
  have hle := h.core.le
  have hleC := h.core.le_length
  have hcons := h.core.consumed
  obtain ⟨T, hdec⟩ := h.core.decoder
  have hnone := h.item_none hd
  obtain ⟨pre, post, ht, hpre, htr⟩ := ht.tooLong hd hstart (hL.item hd) hnone
  refine ⟨pre, post, ht, hpre, fun hpost => ?_, fun hpost => ?_⟩
  · subst hpost
    cases htr
    have hC : C = min (start + L.toNat) S.length := by
      rcases h.core.done with hC | ⟨hC, -⟩ <;> omega
    rw [hcons, hdec]
    refine ⟨show (C : Int) + ((start + L.toNat : Nat) - C) = start + L by omega, by omega, ?_⟩
    exact decide_eq_decide.mpr (show ((start + L.toNat : Nat) - C : Int) ≠ 0 ↔ (C : Int) ≠ start + L by omega)
  · obtain ⟨⟨t', ht'⟩, hlen⟩ := htr.head hpost hd
    have hle' := htr.le
    refine ⟨?_, t', ?_⟩
    · rw [hcons]
      rcases h.core.done with hC | ⟨hC, -⟩ <;> omega
    · rw [ht', show ((start + L.toNat : Nat) : Int) = start + L by omega]

end Connection

open Connection in
/-- A frame that is too long is reported once and skipped to its last byte, the reader index moving
forward only, whatever the reads. -/
theorem too_long_frame_is_skipped {a b c x y : Int} (ha : IsInt a) (hb : IsInt b)
    (hc : c = 1 ∨ c = 2 ∨ c = 4 ∨ c = 8) {d : LengthFieldBasedFrameDecoder}
    (hd : LengthFieldBasedFrameDecoder.new a b c x y = .ok d) {q : Pipeline} (hq : q.Transparent)
    {w₀ w₁ w : Connection} {es₁ es₂ : List Input} (h0 : Started d w₀) (h₁ : Run (TcpStep q) w₀ es₁ w₁)
    (h₂ : Run (TcpStep q) w₁ es₂ w) {start : Nat} {L : Int}
    (hstart : d.Reaches (stream (es₁ ++ es₂)) 0 start) (hL : d.IsTooLong ((stream (es₁ ++ es₂)).drop start) L) :
    (∃ pre post, Skips d (stream (es₁ ++ es₂)) start L w pre post) ∧
    w₁.decoder.consumed ≤ w.decoder.consumed ∧
    (w.decoder.trace = w₁.decoder.trace →
      w.decoder.frameDecoder.bytesToDiscard_ ≤ w₁.decoder.frameDecoder.bytesToDiscard_) ∧
    ∀ (buf : UnpooledHeapCharBuf) (fs : List Int) (D T : Int), buf.Valid → 0 < D → D ≤ 2147483647 →
      LengthFieldBasedFrameDecoder.discardingTooLongFrame ⟨d.discarding D T, buf, fs⟩ =
        .ok () ⟨d.discarding (D - min D buf.readable.length) T,
          buf.withReader (buf.indices.readerIndex_ + min D buf.readable.length), fs⟩ := by
  have hsup := LengthFieldBasedFrameDecoder.new_supported hd ha hb hc
  have hbec := LengthFieldBasedFrameDecoder.new_becomes hd ha hb
  obtain ⟨hs₀, -, ht₀⟩ := Session.started hbec (LengthFieldBasedFrameDecoder.new_eq hd).2.2.2.2 h0
  obtain ⟨C₁, p₁, t₁, hs₁, D₁⟩ := hs₀.run hsup hq h₁
  obtain ⟨C, p, t, hs, D⟩ := hs₁.run hsup hq h₂
  have htrace : d.Trace (stream es₁ ++ stream es₂) 0 w.decoder.trace p := by
    rw [D.trace, D₁.trace, ht₀]
    exact (D₁.segment.append hsup _).trans D.segment
  rw [List.nil_append] at hs D
  have hle := D.le
  rw [stream_append] at hstart hL ⊢
  refine ⟨hs.skips hsup htrace hstart hL, ?_, fun htr => ?_, fun buf fs D T hbuf h0 hD =>
    LengthFieldBasedFrameDecoder.discardingTooLongFrame_eq hsup hbuf h0 hD⟩
  · rw [hs₁.core.consumed, hs.core.consumed]
    omega
  · have ht : t = [] := by
      rw [D.trace] at htr
      exact List.append_right_eq_self.mp htr
    have hseg := D.segment
    rw [ht] at hseg
    rw [hs₁.bytesToDiscard, hs.bytesToDiscard]
    cases hseg
    omega

/-- The rest of a frame that is too long, and the next one. -/
def restAndNext : List UInt8 := List.replicate 63 0 ++ [1, 9]

/-- A second read ends the frame, and the one behind it is fired. -/
theorem too_long_frame_is_skipped_two_reads :
    ∃ w₀ w₁ w, Started oneByteLengths w₀ ∧ Run (TcpStep ⟨[], true, []⟩) w₀ [.connect, .read [64, 7]] w₁ ∧
      w₁.decoder.frameDecoder.bytesToDiscard_ = 63 ∧ Run (TcpStep ⟨[], true, []⟩) w₁ [.read restAndNext] w ∧
      w.fired.map (·.bytes) = [[1, 9]] ∧
      (∃ pre post, Connection.Skips oneByteLengths ([64, 7] ++ restAndNext) 0 65 w pre post) ∧
      w₁.decoder.consumed ≤ w.decoder.consumed := by
  obtain ⟨w₀, w₁, h0, h₁, hdiscard, he⟩ := Connection.exists_tcp_run (d := oneByteLengths) (q := ⟨[], true, []⟩)
    [.connect, .read [64, 7]] 5 (P := fun w₁ => w₁.decoder.frameDecoder.bytesToDiscard_ = 63 ∧
      ((Connection.run Connection.tcpCheck ⟨[], true, []⟩ 5 [.read restAndNext] w₁).any fun w =>
        w.fired.map (·.bytes) = [[1, 9]]) = true) (by decide +kernel)
  obtain ⟨w, hw, hfired⟩ := (Option.any_eq_true _ _).mp he
  have h₂ : Run (TcpStep ⟨[], true, []⟩) w₁ [.read restAndNext] w :=
    (Connection.run_sound hw).mono fun _ _ _ => Connection.tcpStep_of_check
  have hL : oneByteLengths.IsTooLong ([64, 7] ++ restAndNext) 65 :=
    ⟨by decide, by decide, by decide, ⟨by decide, by decide⟩, by decide, by decide⟩
  obtain ⟨hskips, hle, -⟩ := too_long_frame_is_skipped (a := 64) (b := 0) (c := 1) (x := 0) (y := 0) (L := 65)
    ⟨by decide, by decide⟩ ⟨by decide, by decide⟩ (.inl rfl) rfl ⟨rfl, by simp, by simp⟩ h0 h₁ h₂ (.refl 0) hL
  exact ⟨w₀, w₁, w, h0, h₁, hdiscard, h₂, of_decide_eq_true hfired, hskips, hle⟩

/-- A decoder of frames of up to 64 bytes behind eight bytes of length. -/
def eightByteLengths : LengthFieldBasedFrameDecoder :=
  ⟨64, 0, 8, 8, 0, 0, true, false, 0, 0⟩

/-- Of a frame of `2 ^ 32 + 8` bytes nothing is skipped behind the first read: a length field is read in the
middle of it. -/
theorem too_long_frame_not_skipped :
    LengthFieldBasedFrameDecoder.new 64 0 8 0 0 = .ok eightByteLengths ∧
    eightByteLengths.IsTooLong [0, 0, 0, 1, 0, 0, 0, 0] 4294967304 ∧
    ∃ w₀ w, Started eightByteLengths w₀ ∧
      Run (Step ⟨[], true, []⟩) w₀ [.connect, .read [0, 0, 0, 1, 0, 0, 0, 0], .read [0, 0, 0, 0, 0, 0, 0, 0]] w ∧
      w.decoder.trace = [.field 0, .exception (eightByteLengths.report 4294967304), .field 8,
        .frame [0, 0, 0, 0, 0, 0, 0, 0]] :=
  ⟨rfl, ⟨by decide, by decide, by decide, ⟨by decide, by decide⟩, by decide, by decide⟩,
    Connection.exists_run _ 5 (by decide +kernel)⟩

end Nio.Net
