import NioSocket.Net.Decoding

/-!
# A connection with a decoder

What a read completion does to a TCP connection whose pipeline has a decoder, by stages:
what the socket brings goes into the read buffer, from there to the decoder's
`cumulation_`, and is decoded; the read buffer is cleared, or left to the decoder and to
the handlers that hold frames of it. Between two reads the connection is a `Session`.
-/

namespace Nio.Net

open Buffer (UnpooledHeapCharBuf)
open Buffer.UnpooledHeapCharBuf (charBuf Appended Discarded Resized)
open LengthFieldBasedFrameDecoder (frames exceptions)

namespace Connection

/-- The buffers whose bytes matter to the decoder and to the handlers. -/
def uses (w : Connection) : List Nat := w.decoder.cumulation_.toList ++ w.held.map Message.buf

/-- The decoder has been through `S` up to `C`, where nothing is left to decode, and no bytes of
the frames that handlers hold are in anyone's way. -/
structure Core (d : LengthFieldBasedFrameDecoder) (S : List UInt8) (C p : Nat) (w : Connection) : Prop
    extends At d S C p w where
  done : C = S.length ∨ C = p ∧ d.item (S.drop p) = none
  none_of_done : C = S.length → w.decoder.cumulation_ = none
  reading : C ≠ S.length → ∃ c, w.decoder.cumulation_ = some c ∧ (w.heap c).Sound ∧
    (w.heap c).readable = S.drop C ∧ (w.heap c).indices.writerIndex_ ≤ S.length
  single : w.decoder.singleDecode = false
  safe : ∀ m ∈ w.held, w.Safe m

/-- The bytes of the frames that handlers hold stay what they are. -/
structure Keeps (w w' : Connection) : Prop where
  held : w.held <+: w'.held
  bytes : ∀ m ∈ w.held, w'.readableOf m = w.readableOf m

/-- What a read leaves alone until the connection turns to its read buffer again. -/
def SameEnd (w w' : Connection) : Prop :=
  ∃ heap decoder fired held dropped caught, w' = { w with
    heap := heap, decoder := decoder, fired := fired, held := held, dropped := dropped, caught := caught }

variable {d : LengthFieldBasedFrameDecoder} {S bytes : List UInt8} {c b C p n : Nat} {w w' w'' : Connection}
  {xs : List Nat}

theorem Keeps.refl (w : Connection) : Keeps w w := ⟨List.prefix_refl _, fun _ _ => rfl⟩

theorem Keeps.trans (h : Keeps w w') (h' : Keeps w' w'') : Keeps w w'' :=
  ⟨h.held.trans h'.held, fun m hm => (h'.bytes m (h.held.subset hm)).trans (h.bytes m hm)⟩

theorem SameEnd.refl (w : Connection) : SameEnd w w := ⟨_, _, _, _, _, _, rfl⟩

theorem SameEnd.trans (h : SameEnd w w') (h' : SameEnd w' w'') : SameEnd w w'' := by
  obtain ⟨_, _, _, _, _, _, rfl⟩ := h
  obtain ⟨_, _, _, _, _, _, rfl⟩ := h'
  exact ⟨_, _, _, _, _, _, rfl⟩

theorem Stays.sameEnd (h : Stays c w w') : SameEnd w w' := by
  obtain ⟨_, _, _, _, rfl⟩ := h.rest
  exact ⟨_, _, _, _, _, _, rfl⟩

/-- Of the buffers that matter only the counts change. -/
theorem Core.congr (h : Core d S C p w) (hd : w'.decoder = w.decoder) (hh : w'.held = w.held)
    (hb : ∀ b ∈ w.uses, ∃ k, w'.heap b = { w.heap b with refCnt_ := k }) : Core d S C p w' := by
  refine ⟨⟨hd ▸ h.decoder, hd ▸ h.consumed, h.le, h.le_length⟩, h.done, hd ▸ h.none_of_done,
    fun hC => ?_, hd ▸ h.single, fun m hm => ?_⟩
  · obtain ⟨c, hc, hs, hr, hw⟩ := h.reading hC
    obtain ⟨k, hk⟩ := hb c (by simp [uses, hc])
    refine ⟨c, hd ▸ hc, ?_, ?_, ?_⟩ <;> rw [hk]
    · exact { hs with }
    · exact hr
    · exact hw
  · rw [hh] at hm
    obtain ⟨b, s, rfl, h1, h2, h3⟩ := h.safe m hm
    obtain ⟨k, hk⟩ := hb b (List.mem_append_right _ (List.mem_map_of_mem hm))
    exact ⟨b, s, rfl, h1, h2, by rw [hk]; exact h3⟩

theorem Keeps.congr (hh : w'.held = w.held)
    (hb : ∀ b ∈ w.uses, ∃ k, w'.heap b = { w.heap b with refCnt_ := k }) : Keeps w w' := by
  refine ⟨hh ▸ List.prefix_refl _, fun m hm => ?_⟩
  obtain ⟨k, hk⟩ := hb m.buf (List.mem_append_right _ (List.mem_map_of_mem hm))
  cases m with
  | whole b => rw [readableOf, readableOf, show w'.heap b = _ from hk]; rfl
  | slice b s => rw [readableOf, readableOf, show w'.heap b = _ from hk]; rfl

/-- A buffer that matters to the decoder or to a handler has their reference. -/
theorem Own.uses_lt (h : Own d n xs w) (hb : b ∈ w.uses) : b < n :=
  h.lt (by
    rw [uses, List.mem_append] at hb
    simp only [refs, List.mem_append]
    tauto)

/-- The read buffer of which nobody else has a reference matters to nobody else. -/
theorem Own.not_uses (h : Own d n xs w) (hb : w.cumulation_ = some b) (h1 : (w.heap b).refCnt_ ≤ 1) : b ∉ w.uses := by
  intro hu
  have hc := (h.count b).refCnt
  have : 0 < w.uses.count b := List.count_pos_iff.mpr hu
  simp only [uses, List.count_append] at this
  simp only [owned, refs, hb, Option.toList_some, List.count_append, List.count_cons_self, List.count_nil] at hc
  omega

/-- A buffer only the decoder has a reference to is not one a handler holds. -/
theorem Own.not_held (h : Own d n xs w) (hc : w.decoder.cumulation_ = some c) (h1 : (w.heap c).refCnt_ = 1) :
    c ∉ w.held.map Message.buf := by
  intro hu
  have hcount := (h.count c).refCnt
  have := List.count_pos_iff.mpr hu
  simp only [owned, refs, hc, Option.toList_some, List.count_append, List.count_cons_self, List.count_nil] at hcount
  omega

/-! ## What the socket brings -/

/-- Bytes behind the writer index of the read buffer, all of whose others have been read. -/
theorem received_eq (hb : w.cumulation_ = some b) (hs : (w.heap b).Sound)
    (hrw : (w.heap b).indices.readerIndex_ = (w.heap b).indices.writerIndex_)
    (hlen : bytes.length ≤ charBuf.writableBytes (w.heap b)) :
    ∃ x, received bytes w = .ok b (w.setBuf b x) ∧ x.Sound ∧ x.readable = bytes ∧
      x.capacity_ = (w.heap b).capacity_ ∧
      x.indices.writerIndex_ = (w.heap b).indices.writerIndex_ + bytes.length := by
  obtain ⟨x, e, ha, hc⟩ := received_appended hb hs hlen
  have hempty : (w.heap b).readable = [] := by
    rw [UnpooledHeapCharBuf.readable, hrw, Int.sub_self]
    rfl
  exact ⟨x, e, ha.sound, by rw [ha.readable hs, hempty, List.nil_append], hc, ha.writer⟩

/-! ## Accumulating -/

/-- The bytes of `src` move to the end of `dst`. -/
theorem writeChars_eq (hne : c ≠ b) (hc : (w.heap c).Sound) (hb : (w.heap b).Sound)
    (hlen : (w.heap c).indices.writerIndex_ + (w.heap b).readable.length ≤ 2 ^ 30) :
    ∃ x, writeChars c b w =
        .ok () ((w.setBuf c x).setBuf b ((w.heap b).withReader (w.heap b).indices.writerIndex_)) ∧
      Appended (w.heap c) (w.heap b).readable x := by
  have hr := hb.reader_nonneg
  have hrw := hb.reader_le
  have hw := hb.writer_le
  have hpow := hb.capacity_le_pow
  have hl := UnpooledHeapCharBuf.length_readable (w.heap b)
  have hget : UnpooledHeapCharBuf.getChars (w.heap b).indices.readerIndex_ (w.heap b).readable.length (w.heap b) =
      .ok (w.heap b).readable (w.heap b) := by
    have := hb.toValid.getChars (i := (w.heap b).indices.readerIndex_) (n := (w.heap b).readable.length)
      hr (by omega) (by omega)
    rw [show UnpooledHeapCharBuf.getChars _ _ (w.heap b) = _ from this, UnpooledHeapCharBuf.readable,
      show ((((w.heap b).array_.read (w.heap b).indices.readerIndex_.toNat
        ((w.heap b).indices.writerIndex_ - (w.heap b).indices.readerIndex_).toNat).length : Nat) : Int).toNat =
        ((w.heap b).indices.writerIndex_ - (w.heap b).indices.readerIndex_).toNat by rw [Mem.length_read]; rfl]
  obtain ⟨x, hx, happ⟩ := hc.writeCharsFrom
    (show source (w.heap b) (w.heap b).indices.readerIndex_ _ = .ok (w.heap b).readable () by rw [source, hget]) hlen
  refine ⟨x, ?_, happ⟩
  have hread : charBuf.readableBytes (w.heap b) = (w.heap b).readable.length := by
    rw [hb.toValid.readableBytes]; omega
  have hset := hb.toValid.setReaderIndex (i := (w.heap b).indices.writerIndex_) (by omega) (Int.le_refl _)
  dsimp only [writeChars]
  rw [hread, UnpooledHeapCharBuf.readerIndex_charBuf, on, hx, Outcome.bind_ok,
    i32_eq (by omega) (by omega), show (w.heap b).indices.readerIndex_ + (w.heap b).readable.length =
      (w.heap b).indices.writerIndex_ by omega, on, setBuf_heap_of_ne _ _ hne.symm, hset]

/-- No sum that an `int` holds is more than the buffer can. -/
theorem cumulate_eq (c src : Nat) (h : (w.heap c).indices.maxCapacity_ = intMax) :
    cumulate c src w = (writeChars c src w).bind fun _ => pure c := by
  have hr := i32_range (charBuf.writerIndex (w.heap c) + charBuf.readableBytes (w.heap src))
  dsimp only [cumulate]
  rw [if_neg (by rw [UnpooledHeapCharBuf.maxCapacity_charBuf, h]; exact Int.not_lt.mpr hr.2)]
  rfl

/-- The bytes of the read buffer are accumulated: what is left to decode is in one buffer. -/
structure Accumulated (d : LengthFieldBasedFrameDecoder) (S : List UInt8) (C p b c : Nat) (w w' : Connection) :
    Prop where
  reading : Reading d S c C p w'
  cumulation : w'.decoder.cumulation_ = some c
  single : w'.decoder.singleDecode = false
  trace : w'.decoder.trace = w.decoder.trace
  fired : w'.fired = w.fired
  held : w'.held = w.held
  rest : ∃ heap decoder, w' = { w with heap := heap, decoder := decoder }
  keeps : Keeps w w'
  safe : ∀ m ∈ w'.held, w'.Safe m
  /-- The read buffer is the decoder's, or it has been read. -/
  read : c = b ∨ (w'.heap b).Sound ∧ (w'.heap b).indices.readerIndex_ = (w'.heap b).indices.writerIndex_
  capacity : (w'.heap b).capacity_ = (w.heap b).capacity_

theorem Core.setDecoder (h : Core d S C p w) {x : ByteToMessageDecoder} (hx : ∃ a b c, x = { w.decoder with
    first := a, discardAfterReads := b, numReads := c }) : Core d S C p (w.setDecoder x) := by
  obtain ⟨_, _, _, rfl⟩ := hx
  exact ⟨⟨h.decoder, h.consumed, h.le, h.le_length⟩, h.done, h.none_of_done, h.reading, h.single, h.safe⟩

theorem Core.appended (h : Core d S C p w) (R : List UInt8) : At d (S ++ R) C p w :=
  ⟨h.decoder, h.consumed, h.le, h.le_length.trans (by simp)⟩

/-- A buffer of an event that becomes the decoder's. -/
theorem accumulated_first (h : Core d S C p w) (hC : C = S.length) (hb : b ∉ w.uses)
    (hs : (w.heap b).Sound) (hread : (w.heap b).readable = bytes)
    (hwr : (w.heap b).indices.writerIndex_ ≤ bytes.length) :
    Accumulated d (S ++ bytes) C p b b w
      ((w.setDecoder { w.decoder with cumulation_ := some b }).setBuf b ((w.heap b).retain 1)) := by
  have hat := h.appended bytes
  generalize hw' : Connection.setBuf _ b _ = w'
  have hother : ∀ a, a ≠ b → w'.heap a = w.heap a := fun a ha => by rw [← hw', setBuf_heap_of_ne _ _ ha]; rfl
  have hself : w'.heap b = (w.heap b).retain 1 := by rw [← hw', setBuf_heap_self]
  have hheld : ∀ m ∈ w.held, m.buf ≠ b := fun m hm e => hb (List.mem_append_right _ (e ▸ List.mem_map_of_mem hm))
  have hdec : w'.decoder = { w.decoder with cumulation_ := some b } := by rw [← hw']; rfl
  have hh : w'.held = w.held := by rw [← hw']; rfl
  refine ⟨⟨⟨hdec ▸ hat.decoder, hdec ▸ hat.consumed, hat.le, hat.le_length⟩, ?_, ?_, ?_⟩, by rw [hdec],
    by rw [hdec]; exact h.single, by rw [hdec], by rw [← hw']; rfl, hh, ⟨_, _, hw'.symm⟩,
    ⟨hh ▸ List.prefix_refl _, fun m hm => ?_⟩, fun m hm => ?_, .inl rfl, by rw [hself]; rfl⟩
  · rw [hself]
    exact { hs with }
  · rw [hself, hC, List.drop_left]
    exact hread
  · rw [hself, List.length_append]
    exact Int.le_trans hwr (by omega)
  · obtain ⟨a, s, rfl, h1, h2, h3⟩ := h.safe m hm
    rw [readableOf, readableOf, hother a (hheld _ hm)]
  · obtain ⟨a, s, rfl, h1, h2, h3⟩ := h.safe m (hh ▸ hm)
    have ha : a ≠ b := hheld (.slice a s) (hh ▸ hm)
    exact ⟨a, s, rfl, h1, h2, by rw [hother a ha]; exact h3⟩

/-- A buffer of an event whose bytes are appended to what the decoder has. -/
theorem accumulated_more (h : Core d S C p w) (hC : C ≠ S.length)
    (hc : w.decoder.cumulation_ = some c) (hb : b ∉ w.uses) (hs : (w.heap b).Sound)
    {x : UnpooledHeapCharBuf} (hx : Appended (w.heap c) bytes x) :
    Accumulated d (S ++ bytes) C p b c w
      ((w.setBuf c x).setBuf b ((w.heap b).withReader (w.heap b).indices.writerIndex_)) := by
  have hat := h.appended bytes
  obtain ⟨c', hc', hcs, hcr, hcw⟩ := h.reading hC
  obtain rfl : c' = c := Option.some.inj (hc'.symm.trans hc)
  have hne : c' ≠ b := fun e => hb (by rw [← e]; simp [uses, hc])
  generalize hw' : Connection.setBuf _ b _ = w'
  have hheapc : w'.heap c' = x := by rw [← hw', setBuf_heap_of_ne _ _ hne, setBuf_heap_self]
  have hheapb : w'.heap b = (w.heap b).withReader (w.heap b).indices.writerIndex_ := by rw [← hw', setBuf_heap_self]
  have hother : ∀ a, a ≠ b → a ≠ c' → w'.heap a = w.heap a := fun a ha ha' => by
    rw [← hw', setBuf_heap_of_ne _ _ ha, setBuf_heap_of_ne _ _ ha']
  have hheld : ∀ m ∈ w.held, m.buf ≠ b := fun m hm e => hb (List.mem_append_right _ (e ▸ List.mem_map_of_mem hm))
  have hdec : w'.decoder = w.decoder := by rw [← hw']; rfl
  have hh : w'.held = w.held := by rw [← hw']; rfl
  have hrw := hcs.reader_le
  refine ⟨⟨⟨hdec ▸ hat.decoder, hdec ▸ hat.consumed, hat.le, hat.le_length⟩, ?_, ?_, ?_⟩, hdec ▸ hc,
    hdec ▸ h.single, by rw [hdec], by rw [← hw']; rfl, hh, ⟨_, _, hw'.symm⟩,
    ⟨hh ▸ List.prefix_refl _, fun m hm => ?_⟩, fun m hm => ?_, .inr ⟨?_, ?_⟩, by rw [hheapb]; rfl⟩
  · rw [hheapc]
    exact hx.sound
  · rw [hheapc, hx.readable hcs, hcr, List.drop_append_of_le_length h.le_length]
  · rw [hheapc, hx.writer, List.length_append]
    omega
  · obtain ⟨a, s, rfl, h1, h2, h3⟩ := h.safe m hm
    have ha := hheld _ hm
    by_cases hac : a = c'
    · subst hac
      rw [readableOf, readableOf, hheapc]
      exact Mem.read_congr fun k hk => hx.array _ (by omega)
    · rw [readableOf, readableOf, hother a ha hac]
  · obtain ⟨a, s, rfl, h1, h2, h3⟩ := h.safe m (hh ▸ hm)
    have ha := hheld _ (hh ▸ hm)
    refine ⟨a, s, rfl, h1, h2, ?_⟩
    by_cases hac : a = c'
    · subst hac
      rw [hheapc, hx.reader]
      exact h3
    · rw [hother a ha hac]
      exact h3
  · rw [hheapb]
    exact hs.withReader (by have := hs.reader_nonneg; have := hs.reader_le; omega) (Int.le_refl _)
  · rw [hheapb]
    rfl

theorem decodeRead_eq (h : Core d S C p w) (hb : b ∉ w.uses) (hs : (w.heap b).Sound)
    (hread : (w.heap b).readable = bytes) (hwr : (w.heap b).indices.writerIndex_ ≤ bytes.length)
    (hroom : ∀ c, w.decoder.cumulation_ = some c → (w.heap c).indices.writerIndex_ + bytes.length ≤ 2 ^ 30)
    (fuel : Nat) (hs' : List Handler) :
    ∃ c w', decodeRead fuel hs' b w = callDecode fuel hs' c w' ∧ Accumulated d (S ++ bytes) C p b c w w' := by
  have hw₀ : ∃ w₀, w.setDecoder { w.decoder with first := w.decoder.cumulation_.isNone } = w₀ := ⟨_, rfl⟩
  obtain ⟨w₀, hw₀⟩ := hw₀
  have h₀ : Core d S C p w₀ := hw₀ ▸ h.setDecoder ⟨_, _, _, rfl⟩
  have hacc : ∀ {c w'}, Accumulated d (S ++ bytes) C p b c w₀ w' → Accumulated d (S ++ bytes) C p b c w w' := by
    intro c w' H
    subst hw₀
    obtain ⟨heap, decoder, e⟩ := H.rest
    exact ⟨H.reading, H.cumulation, H.single, H.trace, H.fired, H.held, ⟨heap, decoder, e⟩,
      ⟨H.keeps.held, H.keeps.bytes⟩, H.safe, H.read, H.capacity⟩
  have hb₀ : b ∉ w₀.uses := hw₀ ▸ hb
  have hs₀ : (w₀.heap b).Sound := hw₀ ▸ hs
  have hread₀ : (w₀.heap b).readable = bytes := hw₀ ▸ hread
  rw [decodeRead]
  simp only [Method.bind_apply, Method.modify_apply, Outcome.bind_ok, Method.get_apply, hw₀]
  by_cases hC : C = S.length
  · rw [h₀.none_of_done hC]
    exact ⟨b, _, rfl, hacc (accumulated_first h₀ hC hb₀ hs₀ hread₀ (hw₀ ▸ hwr))⟩
  · obtain ⟨c, hc, hcs, -⟩ := h₀.reading hC
    have hne : c ≠ b := fun e => hb₀ (by rw [← e]; simp [uses, hc])
    obtain ⟨x, hx, happ⟩ := writeChars_eq hne hcs hs₀ (by rw [hread₀]; subst hw₀; exact hroom c hc)
    rw [hread₀] at happ
    have H := accumulated_more h₀ hC hc hb₀ hs₀ happ
    rw [hc]
    simp only [Method.bind_apply]
    rw [cumulate_eq c b hcs.max_eq, hx]
    simp only [Outcome.bind_ok, Method.pure_apply]
    refine ⟨c, _, rfl, hacc ?_⟩
    generalize Connection.setBuf _ b _ = w' at H ⊢
    have e : w'.setDecoder { w'.decoder with cumulation_ := some c } = w' := by
      rw [← H.cumulation]; rfl
    exact e.symm ▸ H

/-! ## After decoding -/

/-- The decoder's buffer is released, or its read bytes are discarded where nobody holds them. -/
structure Reset (d : LengthFieldBasedFrameDecoder) (S : List UInt8) (C p c : Nat) (w w' : Connection) : Prop where
  core : Core d S C p w'
  trace : w'.decoder.trace = w.decoder.trace
  rest : ∃ heap decoder, w' = { w with heap := heap, decoder := decoder }
  keeps : Keeps w w'
  other : ∀ b, b ≠ c → w'.heap b = w.heap b
  released : C = S.length → w'.heap c = (w.heap c).release 1
  kept : C ≠ S.length → w'.decoder.cumulation_ = some c

theorem reset_done (h : Reading d S c C p w) (hC : C = S.length) (h1 : w.decoder.singleDecode = false)
    (hsafe : ∀ m ∈ w.held, w.Safe m) (k : Int) :
    Reset d S C p c w ((w.setBuf c ((w.heap c).release 1)).setDecoder
      { w.decoder with numReads := k, cumulation_ := none }) := by
  have hheap : ∀ a, a ≠ c → (w.setBuf c ((w.heap c).release 1)).heap a = w.heap a := fun a ha =>
    setBuf_heap_of_ne _ _ ha
  have hcnt := setBuf_release_heap w c
  have hk : Keeps w ((w.setBuf c ((w.heap c).release 1)).setDecoder
    { w.decoder with numReads := k, cumulation_ := none }) := Keeps.congr rfl fun a _ => hcnt a
  refine ⟨⟨⟨h.decoder, h.consumed, h.le, h.le_length⟩, .inl hC, fun _ => rfl, fun e => absurd hC e, h1,
    fun m hm => ?_⟩, rfl, ⟨_, _, rfl⟩, hk, hheap, fun _ => setBuf_heap_self _ _ _,
    fun e => absurd hC e⟩
  obtain ⟨a, s, rfl, h1, h2, h3⟩ := hsafe m hm
  obtain ⟨k', hk'⟩ := hcnt a
  refine ⟨a, s, rfl, h1, h2, ?_⟩
  show _ ≤ ((w.setBuf c ((w.heap c).release 1)).heap a).indices.readerIndex_
  rw [hk']
  exact h3

theorem reset_compact (h : Reading d S c C p w) (hC : C ≠ S.length) (hdone : C = p ∧ d.item (S.drop p) = none)
    (hc : w.decoder.cumulation_ = some c) (h1 : w.decoder.singleDecode = false) (hsafe : ∀ m ∈ w.held, w.Safe m)
    (hown : Own d n xs w) (h1' : (w.heap c).refCnt_ = 1) {x : UnpooledHeapCharBuf} (hx : Discarded (w.heap c) x) (k : Int) :
    Reset d S C p c w ((w.setDecoder { w.decoder with numReads := k }).setBuf c x) := by
  have hheld := hown.not_held hc h1'
  have hother : ∀ a, a ≠ c → ((w.setDecoder { w.decoder with numReads := k }).setBuf c x).heap a = w.heap a :=
    fun a ha => setBuf_heap_of_ne _ _ ha
  have hself : ((w.setDecoder { w.decoder with numReads := k }).setBuf c x).heap c = x := setBuf_heap_self _ _ _
  have hne : ∀ m ∈ w.held, m.buf ≠ c := fun m hm e => hheld (e ▸ List.mem_map_of_mem hm)
  generalize hw' : Connection.setBuf _ c x = w' at hother hself
  have hdec : w'.decoder = { w.decoder with numReads := k } := by rw [← hw']; rfl
  have hh : w'.held = w.held := by rw [← hw']; rfl
  refine ⟨⟨⟨hdec ▸ h.decoder, hdec ▸ h.consumed, h.le, h.le_length⟩, .inr hdone, fun e => absurd e hC,
    fun _ => ⟨c, hdec ▸ hc, ?_, ?_, ?_⟩, hdec ▸ h1, fun m hm => ?_⟩, by rw [hdec], ⟨_, _, hw'.symm⟩,
    ⟨hh ▸ List.prefix_refl _, fun m hm => ?_⟩, hother, fun e => absurd e hC, fun _ => hdec ▸ hc⟩
  · rw [hself]; exact hx.sound
  · rw [hself, hx.readable]; exact h.readable
  · have hl := congrArg List.length hx.readable
    rw [UnpooledHeapCharBuf.length_readable, UnpooledHeapCharBuf.length_readable] at hl
    have hr := hx.reader
    have hw := h.writer
    have hrw := h.sound.reader_le
    have hrw' := hx.sound.reader_le
    rw [hself]
    omega
  · obtain ⟨a, s, rfl, h1, h2, h3⟩ := hsafe m (hh ▸ hm)
    have ha : a ≠ c := hne (.slice a s) (hh ▸ hm)
    exact ⟨a, s, rfl, h1, h2, by rw [hother a ha]; exact h3⟩
  · obtain ⟨a, s, rfl, h1, h2, h3⟩ := hsafe m hm
    have ha : a ≠ c := hne _ hm
    rw [readableOf, readableOf, hother a ha]

theorem reset_counted (h : Reading d S c C p w) (hC : C ≠ S.length) (hdone : C = p ∧ d.item (S.drop p) = none)
    (hc : w.decoder.cumulation_ = some c) (h1 : w.decoder.singleDecode = false) (hsafe : ∀ m ∈ w.held, w.Safe m)
    (k : Int) : Reset d S C p c w (w.setDecoder { w.decoder with numReads := k }) :=
  ⟨⟨⟨h.decoder, h.consumed, h.le, h.le_length⟩, .inr hdone, fun e => absurd e hC,
    fun _ => ⟨c, hc, h.sound, h.readable, h.writer⟩, h1, hsafe⟩, rfl, ⟨_, _, rfl⟩, ⟨List.prefix_refl _, fun _ _ => rfl⟩,
    fun _ _ => rfl, fun e => absurd e hC, fun _ => hc⟩

/-- The decoder's buffer is compacted only where it has no other references. -/
theorem discardSomeReadBytes_eq (hc : w.decoder.cumulation_ = some c) (hs : (w.heap c).Sound) :
    ∃ w', discardSomeReadBytes w = .ok () w' ∧
      (w' = w ∨ (w.heap c).refCnt_ = 1 ∧ ∃ x, Discarded (w.heap c) x ∧ w' = w.setBuf c x) := by
  unfold discardSomeReadBytes
  split
  · rename_i c' hc'
    obtain rfl : c' = c := Option.some.inj (hc'.symm.trans hc)
    by_cases hone : !w.decoder.first ∧ (w.heap c').refCnt_ = 1
    · obtain ⟨x, hx, hdis⟩ := hs.discardSomeReadBytes
      rw [if_pos hone, on, hx]
      exact ⟨_, rfl, .inr ⟨hone.2, x, hdis, rfl⟩⟩
    · rw [if_neg hone]
      exact ⟨w, rfl, .inl rfl⟩
  · rename_i hc'
    cases hc'.symm.trans hc

theorem countRead_eq (h : Reading d S c C p w) (hC : C ≠ S.length) (hdone : C = p ∧ d.item (S.drop p) = none)
    (hc : w.decoder.cumulation_ = some c) (h1 : w.decoder.singleDecode = false) (hsafe : ∀ m ∈ w.held, w.Safe m)
    (hown : Own d n xs w) : ∃ w', countRead w = .ok () w' ∧ Reset d S C p c w w' := by
  dsimp only [countRead]
  split
  · obtain ⟨w', e, hw'⟩ := discardSomeReadBytes_eq (w := w.setDecoder { w.decoder with numReads := 0 }) hc h.sound
    refine ⟨w', by rw [e], ?_⟩
    rcases hw' with rfl | ⟨hone, x, hx, rfl⟩
    · exact reset_counted h hC hdone hc h1 hsafe 0
    · exact reset_compact h hC hdone hc h1 hsafe hown hone hx 0
  · exact ⟨_, rfl, reset_counted h hC hdone hc h1 hsafe _⟩

theorem resetCumulation_eq (h : Reading d S c C p w) (hdone : C = S.length ∨ C = p ∧ d.item (S.drop p) = none)
    (hc : w.decoder.cumulation_ = some c) (h1 : w.decoder.singleDecode = false) (hsafe : ∀ m ∈ w.held, w.Safe m)
    (hown : Own d n xs w) : ∃ w', resetCumulation w = .ok () w' ∧ Reset d S C p c w w' := by
  have hle := h.le_length
  unfold resetCumulation
  split
  · rename_i c' hc'
    obtain rfl : c' = c := Option.some.inj (hc'.symm.trans hc)
    rw [h.isReadable]
    by_cases hC : C = S.length
    · rw [if_neg (by simp [hC])]
      exact ⟨_, rfl, reset_done h hC h1 hsafe 0⟩
    · rw [if_pos (by simp; omega)]
      exact countRead_eq h hC (hdone.resolve_left hC) hc h1 hsafe hown
  · rename_i hc'
    cases hc'.symm.trans hc

/-! ## Reading into the decoder -/

theorem Core.fires {ss : List Slice} (h : Core d S C p w) (H : Fires c ss w w')
    (hs : ∀ s ∈ ss, w.Safe (.slice c s)) : Core d S C p w' := by
  have hst := H.handled.stays c
  obtain ⟨_, _, _, e⟩ := H.handled.rest
  have hdec : w'.decoder = w.decoder := by rw [e]
  refine ⟨⟨hdec ▸ h.decoder, hdec ▸ h.consumed, h.le, h.le_length⟩, h.done, hdec ▸ h.none_of_done,
    fun hC => ?_, hdec ▸ h.single, fun m hm => ?_⟩
  · obtain ⟨a, ha, hs, hr, hw⟩ := h.reading hC
    obtain ⟨k, hk⟩ := H.handled.heap a
    refine ⟨a, hdec ▸ ha, ?_, ?_, ?_⟩ <;> rw [hk]
    · exact { hs with }
    · exact hr
    · exact hw
  · rcases H.kept m hm with h' | ⟨s, hs', rfl⟩
    · exact hst.safe (h.safe m h')
    · exact hst.safe (hs s hs')

theorem Stays.keeps (h : Stays c w w') (hh : w.held <+: w'.held) (hs : ∀ m ∈ w.held, w.Safe m) : Keeps w w' := by
  refine ⟨hh, fun m hm => ?_⟩
  obtain ⟨b, s, rfl, -⟩ := hs m hm
  exact h.readableOf_slice b s

/-- What an event with more bytes of the stream does: the trace grows by `t`, and of the frames in
it all are fired but those that are `lost`. -/
structure Read (d : LengthFieldBasedFrameDecoder) (S : List UInt8) (C p C' p' b : Nat) (t : List Decoded)
    (lost : List (List UInt8)) (w w' : Connection) : Prop where
  core : Core d S C' p' w'
  le : C ≤ C'
  trace : w'.decoder.trace = w.decoder.trace ++ t
  segment : d.Trace S p t p'
  fired : w'.fired.map (·.bytes) ++ lost = w.fired.map (·.bytes) ++ frames t
  keeps : Keeps w w'
  sameEnd : SameEnd w w'
  sound : (w'.heap b).Sound
  read : w'.decoder.cumulation_ ≠ some b →
    (w'.heap b).indices.readerIndex_ = (w'.heap b).indices.writerIndex_ ∧ (w'.heap b).capacity_ = (w.heap b).capacity_

variable {C' p' : Nat} {t : List Decoded} {lost : List (List UInt8)} {ss : List Slice} {ex : String}
  {w₁ w₂ w₃ : Connection}

/-- The loop of `callDecode` and the reset that follows it; what is in `out` is not fired yet. -/
theorem read_of_reset (hacc : Accumulated d S C p b c w w₁) (L : Looped d S c C p C' p' [] ss "" ex t w₁ w₂)
    {x : List Message} (R : Reset d S C' p' c { w₂ with dropped := x } w₃) :
    Read d S C p C' p' b t (bytesOf c w₂ ss) w w₃ := by
  have hk : Keeps w w₂ := hacc.keeps.trans (L.stays.keeps L.held hacc.safe)
  obtain ⟨_, _, e₁⟩ := hacc.rest
  obtain ⟨_, _, e₃⟩ := R.rest
  obtain ⟨_, _, _, _, e₂⟩ := L.stays.rest
  refine ⟨R.core, L.le, ?_, L.segment, ?_, hk.trans ⟨R.keeps.held, R.keeps.bytes⟩, ?_, ?_, fun hne => ?_⟩
  · rw [R.trace, ← hacc.trace]
    exact L.trace
  · have := L.fired
    rw [hacc.fired] at this
    rw [show w₃.fired = w₂.fired by rw [e₃]]
    simpa [bytesOf] using this
  · rw [e₃, e₂, e₁]
    exact ⟨_, _, _, _, _, _, rfl⟩
  · by_cases hbc : b = c
    · subst hbc
      by_cases hC : C' = S.length
      · rw [R.released hC]
        exact { L.reading.sound with }
      · obtain ⟨c', hc', hs, -⟩ := R.core.reading hC
        rwa [← Option.some.inj ((R.kept hC).symm.trans hc')] at hs
    · rw [R.other b hbc]
      obtain ⟨k, hk⟩ := L.stays.other b hbc
      rw [show Connection.heap { w₂ with dropped := x } b = _ from hk]
      obtain ⟨hs, -⟩ := hacc.read.resolve_left (Ne.symm hbc)
      exact { hs with }
  · by_cases hbc : b = c
    · subst hbc
      have hC : C' = S.length := by
        by_contra hC
        exact hne (R.kept hC)
      have hr := L.reading.length
      have hl := UnpooledHeapCharBuf.length_readable (w₂.heap b)
      have hle := L.reading.sound.reader_le
      rw [R.released hC, ← hacc.capacity]
      refine ⟨show (w₂.heap b).indices.readerIndex_ = (w₂.heap b).indices.writerIndex_ by omega, ?_⟩
      obtain ⟨_, _, e, -⟩ := L.stays.buf
      show (w₂.heap b).capacity_ = _
      rw [e]
      rfl
    · rw [R.other b hbc, ← hacc.capacity]
      obtain ⟨k, hk⟩ := L.stays.other b hbc
      rw [show Connection.heap { w₂ with dropped := x } b = _ from hk]
      exact ⟨(hacc.read.resolve_left (Ne.symm hbc)).2, rfl⟩

/-- The events left in `out` are fired. -/
theorem Read.fires (h : Read d S C p C' p' b t (bytesOf c w₂ ss) w w₂) (H : Fires c ss w₂ w₃)
    (hs : ∀ s ∈ ss, w₂.Safe (.slice c s)) : Read d S C p C' p' b t [] w w₃ := by
  obtain ⟨_, _, _, e⟩ := H.handled.rest
  obtain ⟨k, hk⟩ := H.handled.heap b
  have hdec : w₃.decoder = w₂.decoder := by rw [e]
  refine ⟨h.core.fires H hs, h.le, hdec ▸ h.trace, h.segment, ?_, h.keeps.trans ((H.handled.stays c).keeps H.held h.core.safe),
    h.sameEnd.trans (H.handled.stays c).sameEnd, ?_, fun hne => ?_⟩
  · rw [List.append_nil, ← h.fired, H.fired]
    rfl
  · rw [hk]; exact { h.sound with }
  · rw [hk]; exact h.read (hdec ▸ hne)

/-- The loop of `callDecode` ends on what the decoder has accumulated, in `fuel` rounds. -/
def Loops (d : LengthFieldBasedFrameDecoder) (S : List UInt8) (C p : Nat) (hs : List Handler) (fuel : Nat) : Prop :=
  ∀ c w, Reading d S c C p w → w.decoder.singleDecode = false → ∃ C' p' ss ex t w',
    decodeLoop hs c fuel [] "" w = .ok (ss.map (.slice c), ex) w' ∧ Looped d S c C p C' p' [] ss "" ex t w w'

theorem loops (hd : d.Supported) (hp : p - C ≤ 2147483647) {fuel : Nat} (hfuel : S.length < fuel) (hs : List Handler) :
    Loops d S C p hs fuel := fun _ _ h h1 => decodeLoop_reading hd hs [] "" h (.inr hp) (by omega) h1

/-- An event with more bytes of the stream, which the decoder deals with whatever they are. -/
theorem channelRead_eq {fuel : Nat} {hs' : List Handler} (hloops : Loops d (S ++ bytes) C p hs' fuel)
    (h : Core d S C p w) (hown : Own d n xs w)
    (hb : b ∉ w.uses) (hbn : b < n) (hs : (w.heap b).Sound) (hread : (w.heap b).readable = bytes)
    (hwr : (w.heap b).indices.writerIndex_ ≤ bytes.length) (hbytes : bytes ≠ [])
    (hroom : ∀ c, w.decoder.cumulation_ = some c → (w.heap c).indices.writerIndex_ + bytes.length ≤ 2 ^ 30) :
    ∃ w' C' p' t lost, invokeChannelRead (channelRead fuel hs' b) w = .ok () w' ∧
      Read d (S ++ bytes) C p C' p' b t lost w w' ∧
      (lost = if exceptions t = [] then [] else leftOver t (C' = (S ++ bytes).length)) ∧
      w'.caught = w.caught ++ (exceptions t).getLast?.toList := by
  obtain ⟨c, w₁, e₁, hacc⟩ := decodeRead_eq h hb hs hread hwr hroom fuel hs'
  obtain ⟨C', p', ss, ex, t, w₂, e₂, L⟩ := hloops c w₁ hacc.reading hacc.single
  have hdecode := decodeRead_own hbn fuel hs' w hown
  have hne : C ≠ (S ++ bytes).length := by
    have := h.le_length
    have := List.length_pos_iff.mpr hbytes
    rw [List.length_append]
    omega
  have hcum : w₂.decoder.cumulation_ = some c := by
    obtain ⟨_, _, _, e⟩ := L.stays.decoder
    rw [e]; exact hacc.cumulation
  have hsingle : w₂.decoder.singleDecode = false := by
    obtain ⟨_, _, _, e⟩ := L.stays.decoder
    rw [e]; exact hacc.single
  have hsafe := L.safe (by simpa using hacc.safe)
  have hleft := L.left
  rw [if_neg hne] at hleft
  have hcaught : w₂.caught = w.caught := by
    obtain ⟨_, _, e⟩ := hacc.rest
    obtain ⟨_, _, _, _, e'⟩ := L.stays.rest
    rw [e', e]
  have hcall : decodeRead fuel hs' b w =
      (if ex ≠ "" then .throw ex { w₂ with dropped := w₂.dropped ++ ss.map (.slice c) } else .ok (ss.map (.slice c)) w₂) := by
    rw [e₁, callDecode, Method.bind_apply, e₂, Outcome.bind_ok]
    dsimp only
    split <;> rfl
  by_cases hexc : exceptions t = []
  · -- nothing was rejected: the last frame is fired too
    have hex : ex = "" := by rw [L.thrown, hexc]; rfl
    rw [if_neg (by simp [hex])] at hcall
    rw [hcall] at hdecode
    obtain ⟨w₃, e₃, R⟩ := resetCumulation_eq L.reading L.done hcum hsingle
      (fun m hm => hsafe m (List.mem_append_left _ hm)) hdecode
    have hR := read_of_reset hacc L (x := w₂.dropped) R
    have hb₂ : bytesOf c w₂ ss = bytesOf c w₃ ss := by
      by_cases hC : C' = (S ++ bytes).length
      · refine List.map_congr_left fun s _ => ?_
        rw [readableOf, readableOf, R.released hC]
        rfl
      · rw [leftOver_of_not hC, bytesOf, List.map_eq_nil_iff] at hleft
        rw [hleft]; rfl
    rw [hb₂] at hR
    refine ⟨_, C', p', t, [], ?_, hR.fires (fires_foldl hs' ss w₃) fun s hs => ?_, by rw [if_pos hexc], ?_⟩
    · rw [invokeChannelRead, channelRead, hcall]
      simp only [e₃, Outcome.bind_ok, fireAll_slices]
    · by_cases hC : C' = (S ++ bytes).length
      · obtain ⟨a, s', e, h1, h2, h3⟩ := hsafe _ (List.mem_append_right _ (List.mem_map_of_mem hs))
        obtain ⟨rfl, rfl⟩ := Message.slice.inj e
        exact ⟨_, _, rfl, h1, h2, by rw [R.released hC]; exact h3⟩
      · rw [leftOver_of_not hC, bytesOf, List.map_eq_nil_iff] at hleft
        rw [hleft] at hs
        cases hs
    · obtain ⟨_, _, _, e⟩ := (handled_foldl hs' (ss.map (.slice c)) w₃).rest
      obtain ⟨_, _, e'⟩ := R.rest
      rw [e, e', hexc, List.getLast?_nil, Option.toList_none, List.append_nil]
      exact hcaught
  · -- the last exception is thrown, and what is in `out` is lost
    have hex : ex ≠ "" := by
      intro e
      rw [L.thrown, List.getLast?_eq_some_getLast hexc, Option.getD_some] at e
      exact L.texts (by rw [← e]; exact List.getLast_mem hexc)
    rw [if_pos hex] at hcall
    rw [hcall] at hdecode
    obtain ⟨w₃, e₃, R⟩ := resetCumulation_eq (w := { w₂ with dropped := w₂.dropped ++ ss.map (.slice c) })
      ⟨⟨L.reading.decoder, L.reading.consumed, L.reading.le, L.reading.le_length⟩, L.reading.sound,
        L.reading.readable, L.reading.writer⟩ L.done hcum hsingle (fun m hm => hsafe m (List.mem_append_left _ hm)) hdecode
    have hR := read_of_reset hacc L R
    refine ⟨{ w₃ with caught := w₃.caught ++ [ex] }, C', p', t, _, ?_, ⟨?_, hR.le, hR.trace, hR.segment, hR.fired,
      ⟨hR.keeps.held, hR.keeps.bytes⟩, ?_, hR.sound, hR.read⟩, ?_, ?_⟩
    · rw [invokeChannelRead, channelRead, hcall]
      dsimp only
      rw [e₃]
      rfl
    · exact hR.core.congr rfl rfl fun _ _ => ⟨_, rfl⟩
    · exact hR.sameEnd.trans ⟨_, _, _, _, _, _, rfl⟩
    · rw [if_neg hexc]
      exact hleft
    · obtain ⟨_, _, e⟩ := R.rest
      have hlast := L.thrown
      rw [List.getLast?_eq_some_getLast hexc, Option.getD_some] at hlast
      rw [List.getLast?_eq_some_getLast hexc, ← hlast, e]
      exact congrArg (· ++ [ex]) hcaught

/-! ## The read buffer -/

/-- A buffer of some size the handle has guessed, as the allocator hands it out. -/
structure EmptyAt (w : Connection) (b : Nat) : Prop where
  sound : (w.heap b).Sound
  writer : (w.heap b).indices.writerIndex_ = 0
  refCnt : (w.heap b).refCnt_ = 1
  capacity : (w.heap b).capacity_ ≤ 65536

/-- The read buffer is empty, and nobody else's. -/
def Empty (w : Connection) : Prop :=
  ∃ b, w.cumulation_ = some b ∧ w.EmptyAt b

/-- What the connection does to its read buffer matters to nobody else. -/
structure Aside (w w' : Connection) : Prop where
  decoder : w'.decoder = w.decoder
  held : w'.held = w.held
  fired : w'.fired = w.fired
  caught : w'.caught = w.caught
  connected : w'.connected_ = w.connected_
  heap : ∀ a ∈ w.uses, ∃ k, w'.heap a = { w.heap a with refCnt_ := k }

theorem Aside.refl (w : Connection) : Aside w w := ⟨rfl, rfl, rfl, rfl, rfl, fun _ _ => ⟨_, rfl⟩⟩

theorem Aside.trans (h : Aside w w') (h' : Aside w' w'') : Aside w w'' := by
  refine ⟨h'.decoder.trans h.decoder, h'.held.trans h.held, h'.fired.trans h.fired, h'.caught.trans h.caught,
    h'.connected.trans h.connected, fun a ha => ?_⟩
  obtain ⟨k, hk⟩ := h.heap a ha
  obtain ⟨k', hk'⟩ := h'.heap a (by rw [uses, h.decoder, h.held]; exact ha)
  exact ⟨k', by rw [hk', hk]⟩

theorem aside_setBuf (hb : b ∉ w.uses) (x : UnpooledHeapCharBuf) : Aside w (w.setBuf b x) :=
  ⟨rfl, rfl, rfl, rfl, rfl, fun _ ha => ⟨_, setBuf_heap_of_ne _ _ fun e => hb (e ▸ ha)⟩⟩

theorem aside_release (b : Nat) : Aside w (w.setBuf b ((w.heap b).release 1)) :=
  ⟨rfl, rfl, rfl, rfl, rfl, fun a _ => setBuf_release_heap w b a⟩

theorem freeBuffer_eq : ∃ w', freeBuffer w = .ok () w' ∧ w'.cumulation_ = none ∧ w'.recvHandle = w.recvHandle ∧
    w'.next = w.next ∧ Aside w w' := by
  unfold freeBuffer
  split
  · rename_i b hb
    have := aside_release (w := w) b
    exact ⟨_, rfl, rfl, rfl, rfl, this.decoder, this.held, this.fired, this.caught, this.connected, this.heap⟩
  · rename_i hb
    exact ⟨w, rfl, hb, rfl, rfl, .refl w⟩

theorem newReadBuffer_eq {g : Int} (hg : 1024 ≤ g ∧ g ≤ 65536 ∧ 2 ∣ g) (hnext : ∀ a ∈ w.uses, a < w.next) :
    ∃ w', newReadBuffer g w = .ok () w' ∧ w'.Empty ∧ Aside w w' := by
  obtain ⟨w₁, e₁, hc₁, -, hn₁, ha₁⟩ := freeBuffer_eq (w := w)
  have hb : w₁.next ∉ w₁.uses := fun hu => by
    rw [uses, ha₁.decoder, ha₁.held] at hu
    have := hnext _ hu
    omega
  rw [newReadBuffer]
  simp only [Method.bind_apply, e₁, Outcome.bind_ok, Method.modify_apply, heapBuffer]
  rw [if_neg (by unfold intMax; omega)]
  have hself : ((w₁.setBuf w₁.next (UnpooledHeapCharBuf.new g intMax)).heap w₁.next) =
      UnpooledHeapCharBuf.new g intMax := setBuf_heap_self _ _ _
  refine ⟨_, rfl, ⟨w₁.next, rfl, ?_, ?_, ?_, ?_⟩, ha₁.trans ?_⟩
  · show ((w₁.setBuf w₁.next (UnpooledHeapCharBuf.new g intMax)).heap w₁.next).Sound
    rw [hself]
    exact UnpooledHeapCharBuf.new_sound (by omega) hg.2.2 (by omega)
  · show ((w₁.setBuf w₁.next (UnpooledHeapCharBuf.new g intMax)).heap w₁.next).indices.writerIndex_ = 0
    rw [hself]; rfl
  · show ((w₁.setBuf w₁.next (UnpooledHeapCharBuf.new g intMax)).heap w₁.next).refCnt_ = 1
    rw [hself]; rfl
  · show ((w₁.setBuf w₁.next (UnpooledHeapCharBuf.new g intMax)).heap w₁.next).capacity_ ≤ 65536
    rw [hself]
    exact hg.2.1
  · have := aside_setBuf hb (UnpooledHeapCharBuf.new g intMax)
    exact ⟨this.decoder, this.held, this.fired, this.caught, this.connected, this.heap⟩

/-- An empty read buffer, or none, is fitted to the guess. -/
theorem fitReadBuffer_eq (hown : Own d n xs w)
    (hcum : ∀ b, w.cumulation_ = some b → w.EmptyAt b) :
    ∃ w', fitReadBuffer w = .ok () w' ∧ w'.Empty ∧ Aside w w' := by
  have hg := hown.handle.guess
  have hnew := newReadBuffer_eq (w := w) hg fun a ha => by
    rw [hown.next]; exact hown.uses_lt ha
  dsimp only [fitReadBuffer]
  split
  · exact hnew
  rename_i b hb
  have hb' := hcum b hb
  split
  · split
    · obtain ⟨x, hx, hr⟩ := hb'.sound.setCapacity (n := w.recvBufAllocHandle.guess) (by omega) hg.2.2 (by omega)
      have hself : (w.setBuf b x).heap b = x := setBuf_heap_self w b x
      rw [on, hx]
      have h0 := hb'.writer
      refine ⟨_, rfl, ⟨b, hb, by rw [hself]; exact hr.sound, ?_, ?_, ?_⟩,
        aside_setBuf (hown.not_uses hb (Int.le_of_eq hb'.refCnt)) x⟩
      · rw [hself, hr.indices (by omega)]
        exact h0
      · rw [hself, hr.refCnt]
        exact hb'.refCnt
      · rw [hself, hr.capacity]
        exact hg.2.1
    · exact hnew
  · exact ⟨w, rfl, ⟨b, hb, hb'⟩, .refl w⟩

/-- A read buffer that fits is what the next read gets. -/
theorem adjustReadBuffer_fitted {w₁ : Connection}
    (e : fitReadBuffer { w with recvHandle := some w.recvBufAllocHandle } = .ok () w₁) (hempty : w₁.Empty)
    (ha : Aside { w with recvHandle := some w.recvBufAllocHandle } w₁) :
    ∃ w', adjustReadBuffer w = .ok () w' ∧ w'.Empty ∧ Aside w w' := by
  obtain ⟨b, hb, hb'⟩ := hempty
  rw [adjustReadBuffer]
  simp only [Method.bind_apply, Method.modify_apply, Outcome.bind_ok, e, Method.get_apply, hb, deref]
  exact ⟨_, rfl, ⟨b, rfl, { hb' with }⟩, ha.decoder, ha.held, ha.fired, ha.caught, ha.connected, ha.heap⟩

/-- The connection has an empty read buffer for the next read. -/
theorem adjustReadBuffer_eq (hown : Own d n xs w)
    (hcum : ∀ b, w.cumulation_ = some b → w.EmptyAt b) :
    ∃ w', adjustReadBuffer w = .ok () w' ∧ w'.Empty ∧ Aside w w' := by
  obtain ⟨w₁, e, hempty, ha⟩ := fitReadBuffer_eq (hown.setHandle hown.handle) fun b hb =>
    { hcum b hb with }
  exact adjustReadBuffer_fitted e hempty ha

/-- The read buffer is left to those who still need it, or cleared. -/
theorem discardSomeBytes_eq (hown : Own d n xs w) (hb : w.cumulation_ = some b)
    (hread : (w.heap b).refCnt_ ≤ 1 → (w.heap b).Sound ∧
      (w.heap b).indices.readerIndex_ = (w.heap b).indices.writerIndex_ ∧ (w.heap b).capacity_ ≤ 65536) :
    ∃ w', discardSomeBytes w = .ok () w' ∧ Aside w w' ∧ ∀ b, w'.cumulation_ = some b → w'.EmptyAt b := by
  rw [discardSomeBytes]
  simp only [Method.bind_apply, Outcome.bind_ok, Method.get_apply, hb, deref]
  by_cases h1 : (w.heap b).refCnt_ > 1
  · rw [if_pos h1]
    obtain ⟨w₁, e₁, hc₁, -, -, ha₁⟩ := freeBuffer_eq (w := w)
    exact ⟨w₁, e₁, ha₁, fun b' h => by rw [hc₁] at h; cases h⟩
  · have hu := hown.not_uses hb (by omega)
    obtain ⟨hs, hrw, hcap⟩ := hread (by omega)
    obtain ⟨x, hx, hd⟩ := hs.discardSomeReadBytes
    have hself : (w.setBuf b x).heap b = x := setBuf_heap_self w b x
    rw [if_neg h1, on, hx]
    refine ⟨_, rfl, aside_setBuf hu x, fun b' hb' => ?_⟩
    obtain rfl : b' = b := Option.some.inj (hb'.symm.trans hb)
    have hcount := (hown.count b').refCnt
    have : 0 < w.refs.count b' := List.count_pos_iff.mpr (by simp [refs, hb])
    unfold owned at hcount
    refine ⟨?_, ?_, ?_, ?_⟩ <;> rw [hself]
    · exact hd.sound
    · exact hd.empty hrw
    · rw [hd.refCnt]; omega
    · rw [hd.capacity]; exact hcap

/-! ## A read completion -/

theorem readSome_zero (m : Message) : readSome m 0 w = .ok () w := by
  cases m with
  | slice => rfl
  | whole b =>
    have e : (w.heap b).withReader ((w.heap b).indices.readerIndex_ + (min 0 (w.heap b).readable.length : Nat)) =
        w.heap b := by
      rw [Nat.zero_min]
      show { w.heap b with indices := { (w.heap b).indices with
        readerIndex_ := (w.heap b).indices.readerIndex_ + 0 } } = w.heap b
      rw [Int.add_zero]
    show Outcome.ok () (w.setBuf b _) = .ok () w
    dsimp only
    rw [e]
    exact congrArg _ (congrArg (fun h => { w with heap := h }) (Function.update_eq_self ..))

end Connection

/-- What reaches the decoder is what was read: handlers in front of it forward a buffer as it is. -/
structure Pipeline.Transparent (p : Pipeline) : Prop where
  decoder : p.decoder = true
  reads : ∀ h ∈ p.before, ∀ i, h.reads i = 0
  keeps : ∀ h ∈ p.before, ∀ i, h.keeps i = false

theorem Pipeline.Transparent.forwards {p : Pipeline} (h : p.Transparent) : p.Forwards := fun _ => h.keeps

namespace Connection

theorem invokeChannelRead_twice (m : Method Connection Unit) :
    invokeChannelRead (invokeChannelRead m) w = invokeChannelRead m w := by
  cases e : m w <;> simp [invokeChannelRead, e]

theorem invokeHandlers_transparent {next : Message → Method Connection Unit} {i : Nat} {hs : List Handler}
    (hr : ∀ h ∈ hs, h.reads i = 0) (hk : ∀ h ∈ hs, h.keeps i = false) (m : Message) :
    invokeHandlers i next hs m w = invokeChannelRead (next m) w := by
  induction hs generalizing w with
  | nil => rfl
  | cons a hs ih =>
    have e : (do readSome m (a.reads i); if a.keeps i then keep m else invokeHandlers i next hs m :
        Method Connection Unit) w = invokeChannelRead (next m) w := by
      rw [Method.bind_apply, hr a List.mem_cons_self, readSome_zero, Outcome.bind_ok,
        if_neg (by rw [hk a List.mem_cons_self]; decide)]
      exact ih (fun h hh => hr h (List.mem_cons_of_mem _ hh)) fun h hh => hk h (List.mem_cons_of_mem _ hh)
    rw [← invokeChannelRead_twice]
    show invokeChannelRead _ w = _
    unfold invokeChannelRead
    rw [e]
    rfl

variable {q : Pipeline}

theorem fireChannelRead_eq (hq : q.Transparent) (fuel b : Nat) :
    fireChannelRead q fuel b w = invokeChannelRead (channelRead fuel q.after b) w := by
  rw [fireChannelRead, if_pos hq.decoder]
  exact invokeHandlers_transparent (fun h hh => hq.reads h hh _) (fun h hh => hq.keeps h hh _) _

/-- Between two reads: `S` has come so far, and the decoder has been through it up to `C`. -/
structure Session (d : LengthFieldBasedFrameDecoder) (S : List UInt8) (C p : Nat) (w : Connection) : Prop where
  core : Core d S C p w
  own : ∃ n, Own d n [] w
  empty : w.Empty

/-- Between two reads the next item is not there as a whole. -/
theorem Session.item_none (hd : d.Supported) (h : Session d S C p w) : d.item (S.drop p) = none := by
  have hle := h.core.le
  rcases h.core.done with hC | ⟨-, hnone⟩
  · rw [List.drop_eq_nil_of_le (by omega), LengthFieldBasedFrameDecoder.item_nil hd]
  · exact hnone

/-- How far the decoder has come is where the next item begins, or the end of what there is. -/
theorem Core.consumed_eq (h : Core d S C p w) : C = min p S.length := by
  have h1 := h.le
  have h2 := h.le_length
  rcases h.done with hC | ⟨hC, -⟩ <;> omega

/-- What a read completion does to the stream. -/
structure Delivers (d : LengthFieldBasedFrameDecoder) (S : List UInt8) (C p C' p' : Nat) (t : List Decoded)
    (lost : List (List UInt8)) (w w' : Connection) : Prop where
  le : C ≤ C'
  trace : w'.decoder.trace = w.decoder.trace ++ t
  segment : d.Trace S p t p'
  fired : w'.fired.map (·.bytes) ++ lost = w.fired.map (·.bytes) ++ frames t
  lost_eq : lost = if exceptions t = [] then [] else leftOver t (C' = S.length)
  caught : w'.caught = w.caught ++ (exceptions t).getLast?.toList
  connected : w.connected_ = true → w'.connected_ = true

theorem Aside.keeps (h : Aside w w') : Keeps w w' := Keeps.congr h.held h.heap

/-- What was read is in the read buffer, and about to be fired. -/
structure Arrived (d : LengthFieldBasedFrameDecoder) (S : List UInt8) (C p : Nat) (bytes : List UInt8) (b n : Nat)
    (w w' : Connection) : Prop where
  core : Core d S C p w'
  own : Own d n [] w'
  aside : Aside w w'
  cumulation : w'.cumulation_ = some b
  lt : b < n
  not_uses : b ∉ w'.uses
  sound : (w'.heap b).Sound
  readable : (w'.heap b).readable = bytes
  capacity : (w'.heap b).capacity_ ≤ 65536
  writer : (w'.heap b).indices.writerIndex_ ≤ bytes.length
  same : ∀ c, w.decoder.cumulation_ = some c → w'.heap c = w.heap c

theorem Session.arrived (h : Session d S C p w) (hen : (Input.read bytes).Enabled w) :
    ∃ b n w', Arrived d S C p bytes b n w w' ∧ ∀ q fuel, tcpHandleRead q fuel bytes w =
      ((fireChannelRead q fuel b w').bind fun _ => discardSomeBytes).bind fun _ => adjustReadBuffer := by
  obtain ⟨n, hown⟩ := h.own
  obtain ⟨b, hb, hs, h0, h1, hcap⟩ := h.empty
  obtain ⟨-, -, b', hb', hlen⟩ := hen
  obtain rfl : b' = b := Option.some.inj (hb'.symm.trans hb)
  have hu := hown.not_uses hb (Int.le_of_eq h1)
  have hr0 := hs.reader_nonneg
  have hrw := hs.reader_le
  obtain ⟨x, e₁, hx, hxr, hxcap, hxw⟩ := received_eq hb hs (by omega) hlen
  have hself : (w.setBuf b' x).heap b' = x := setBuf_heap_self w b' x
  have hsame : ∀ c, w.decoder.cumulation_ = some c → (w.setBuf b' x).heap c = w.heap c := fun c hc =>
    setBuf_heap_of_ne w x fun e : c = b' => hu (by rw [← e]; simp [uses, hc])
  have ha₁ := aside_setBuf hu x
  have hown₁ : Own d n [] (w.setBuf b' x) := by
    have := received_own bytes w hown
    rw [e₁] at this
    exact this.1.1
  have hcum₁ : (w.setBuf b' x).cumulation_ = some b' := hb
  generalize w.setBuf b' x = w₁ at e₁ hself ha₁ hown₁ hcum₁ hsame
  obtain ⟨w₂, e₂, ha₂, hcum₂, hheap₂⟩ : ∃ w₂, record (bytes.length : Int) w₁ = .ok () w₂ ∧ Aside w₁ w₂ ∧
      w₂.cumulation_ = w₁.cumulation_ ∧ w₂.heap = w₁.heap :=
    ⟨_, rfl, ⟨rfl, rfl, rfl, rfl, rfl, fun _ _ => ⟨_, rfl⟩⟩, rfl, rfl⟩
  have hown₂ : Own d n [] w₂ := by
    have := record_own bytes.length w₁ hown₁
    rwa [e₂] at this
  have ha₁₂ := ha₁.trans ha₂
  refine ⟨b', n, w₂, ⟨h.core.congr ha₁₂.decoder ha₁₂.held ha₁₂.heap, hown₂, ha₁₂, hcum₂.trans hcum₁,
    hown.lt (by simp [refs, hb]), ?_, ?_, ?_, ?_, ?_, fun c hc => ?_⟩, fun q fuel => ?_⟩
  · rw [uses, ha₁₂.decoder, ha₁₂.held]
    exact hu
  · rw [hheap₂, hself]; exact hx
  · rw [hheap₂, hself]; exact hxr
  · rw [hheap₂, hself, hxcap]; exact hcap
  · exact Int.le_of_eq (by rw [hheap₂, hself, hxw, h0, Int.zero_add])
  · rw [hheap₂]; exact hsame c hc
  · rw [tcpHandleRead, Method.bind_apply, show discard (received bytes) w = Outcome.ok () w₁ by
      show (received bytes w).bind _ = _
      rw [e₁]; rfl]
    rw [Outcome.bind_ok, Method.bind_apply, messageReceived]
    simp only [Method.bind_apply, e₂, Outcome.bind_ok, Method.get_apply, hcum₂, hcum₁, deref]

/-- The stream goes on, however the reads cut it. -/
theorem Session.read {fuel : Nat} (hloops : Loops d (S ++ bytes) C p q.after fuel) (hq : q.Transparent)
    (h : Session d S C p w) (hen : (Input.read bytes).Enabled w)
    (hroom : ∀ c, w.decoder.cumulation_ = some c → (w.heap c).indices.writerIndex_ + bytes.length ≤ 2 ^ 30) :
    ∃ w' C' p' t lost, tcpHandleRead q fuel bytes w = .ok () w' ∧ Session d (S ++ bytes) C' p' w' ∧
      Delivers d (S ++ bytes) C p C' p' t lost w w' ∧ Keeps w w' := by
  obtain ⟨b, n, w₂, A, e⟩ := h.arrived hen
  -- the decoder
  obtain ⟨w₃, C', p', t, lost, e₃, R, hlost, hcaught⟩ := channelRead_eq hloops A.core A.own A.not_uses A.lt A.sound
    A.readable A.writer hen.1 fun c hc => by
      rw [A.aside.decoder] at hc
      rw [A.same c hc]
      exact hroom c hc
  have hown₃ : Own d n [] w₃ := by
    have hfire : (fireChannelRead q fuel b w₂).Sat (fun _ => Own d n []) fun _ => False :=
      fireChannelRead_own hq.forwards A.lt w₂ (by rw [Pipeline.travels, if_pos hq.decoder]; exact A.own)
    rw [fireChannelRead_eq hq, e₃] at hfire
    exact hfire
  have hcum₃ : w₃.cumulation_ = some b := by
    obtain ⟨_, _, _, _, _, _, e⟩ := R.sameEnd
    rw [e]
    exact A.cumulation
  -- the read buffer
  obtain ⟨w₄, e₄, ha₄, hc₄⟩ := discardSomeBytes_eq hown₃ hcum₃ fun h1 => by
    have hne : w₃.decoder.cumulation_ ≠ some b := fun e => hown₃.not_uses hcum₃ h1 (by simp [uses, e])
    exact ⟨R.sound, (R.read hne).1, by rw [(R.read hne).2]; exact A.capacity⟩
  have hown₄ : Own d n [] w₄ := by
    have := discardSomeBytes_own w₃ hown₃
    rwa [e₄] at this
  obtain ⟨w₅, e₅, hempty, ha₅⟩ := adjustReadBuffer_eq hown₄ hc₄
  have hown₅ : ∃ n, Own d n [] w₅ := by
    have := adjustReadBuffer_own w₄ hown₄
    rwa [e₅] at this
  have ha₃₅ := ha₄.trans ha₅
  refine ⟨w₅, C', p', t, lost, ?_, ⟨R.core.congr ha₃₅.decoder ha₃₅.held ha₃₅.heap, hown₅, hempty⟩, ⟨R.le, ?_, R.segment, ?_, hlost, ?_, fun hc => ?_⟩, ?_⟩
  · rw [e, fireChannelRead_eq hq, e₃, Outcome.bind_ok, e₄, Outcome.bind_ok, e₅]
  · rw [ha₃₅.decoder, R.trace, A.aside.decoder]
  · rw [ha₃₅.fired, R.fired, A.aside.fired]
  · rw [ha₃₅.caught, hcaught, A.aside.caught]
  · obtain ⟨_, _, _, _, _, _, e⟩ := R.sameEnd
    rw [ha₃₅.connected, e]
    exact A.aside.connected.trans hc
  · exact (A.aside.keeps.trans R.keeps).trans ha₃₅.keeps

end Connection

end Nio.Net
