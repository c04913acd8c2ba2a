import NioSocket.Net.Untouched
import NioSocket.Net.Completion
import NioSocket.Buffer.Discarding
import Mathlib.Data.List.Nodup

/-!
# Messages in fragments

`SctpConnection::handleRead` puts the fragments of a message together in a buffer of its
stream. Between two reads each of these buffers holds the fragments of its stream since the last
message of it, nobody else has a reference to one, and the read buffer is empty (`Reassembling`).
A fragment that does not end a message keeps this so (`Reassembling.part`).
-/

namespace Nio.Net

open Buffer (UnpooledHeapCharBuf)
open Buffer.UnpooledHeapCharBuf (charBuf)

/-- The fragments of stream `s` that have come since the last end of a message. -/
def sinceEor (s : Nat) (es : List Input) : List UInt8 :=
  es.foldl (fun bs e =>
    match e with
    | .fragment stream_no eor bytes => if stream_no = s then if eor then [] else bs ++ bytes else bs
    | _ => bs) []

section

variable {s s' : Nat} {es : List Input} {bytes : List UInt8}

theorem sinceEor_eor : sinceEor s (es ++ [.fragment s true bytes]) = [] := by
  rw [sinceEor, List.foldl_append]
  simp

theorem sinceEor_part : sinceEor s (es ++ [.fragment s false bytes]) = sinceEor s es ++ bytes := by
  rw [sinceEor, List.foldl_append]
  simp [sinceEor]

theorem sinceEor_of_ne {eor : Bool} (h : s' ≠ s) :
    sinceEor s' (es ++ [.fragment s eor bytes]) = sinceEor s' es := by
  rw [sinceEor, List.foldl_append]
  simp [sinceEor, Ne.symm h]

theorem sinceEor_release {m : Message} : sinceEor s (es ++ [.release m]) = sinceEor s es := by
  rw [sinceEor, List.foldl_append]
  rfl

end

/-! ## The table of messages -/

section

variable {l : List (Nat × Nat)} {s s' m : Nat}

theorem lookup_eraseP_of_ne (h : s' ≠ s) : (l.eraseP (·.1 == s)).lookup s' = l.lookup s' := by
  induction l with
  | nil => rfl
  | cons a l ih =>
    rw [List.eraseP_cons]
    by_cases ha : a.1 = s
    · have h' : (s' == a.1) = false := by simpa [ha] using h
      rw [beq_iff_eq.mpr ha, cond_true, List.lookup_cons, h']
    · rw [beq_eq_false_iff_ne.mpr ha, cond_false, List.lookup_cons, List.lookup_cons, ih]

theorem lookup_eraseP_self (h : (l.map (·.1)).Nodup) : (l.eraseP (·.1 == s)).lookup s = none := by
  induction l with
  | nil => rfl
  | cons a l ih =>
    rw [List.map_cons, List.nodup_cons] at h
    rw [List.eraseP_cons]
    by_cases ha : a.1 = s
    · rw [beq_iff_eq.mpr ha, cond_true]
      refine List.lookup_eq_none_iff.mpr fun x hx => ?_
      have hne : x.1 ≠ a.1 := fun e => h.1 (e ▸ List.mem_map_of_mem hx)
      simpa [← ha] using Ne.symm hne
    · have ha' : (s == a.1) = false := by simpa using Ne.symm ha
      rw [beq_eq_false_iff_ne.mpr ha, cond_false, List.lookup_cons, ha']
      exact ih h.2

theorem mem_of_lookup (h : l.lookup s = some m) : (s, m) ∈ l :=
  (Connection.lookup_perm h).mem_iff.mpr List.mem_cons_self

theorem not_mem_of_lookup (h : l.lookup s = none) : s ∉ l.map (·.1) := fun hm => by
  obtain ⟨x, hx, rfl⟩ := List.mem_map.mp hm
  have := List.lookup_eq_none_iff.mp h x hx
  simp at this

end

namespace Connection

variable {d : LengthFieldBasedFrameDecoder} {n b c m s fuel : Nat} {xs : List Nat} {w w' v : Connection}
  {es : List Input} {bytes : List UInt8} {p : Pipeline}

/-- The buffers of the messages that are not complete. -/
def buffers (w : Connection) : List Nat := w.streamMsgs_.map (·.2)

/-- What has come of the messages that are not complete is in buffers of which nobody else has a reference. -/
structure Pending (es : List Input) (w : Connection) : Prop where
  keys : (w.streamMsgs_.map (·.1)).Nodup
  values : w.buffers.Nodup
  refCnt : ∀ m ∈ w.buffers, (w.heap m).refCnt_ = 1
  idle : ∀ s, w.streamMsg s = none → sinceEor s es = []
  filled : ∀ s m, w.streamMsg s = some m → (w.heap m).Sound ∧ (w.heap m).readable = sinceEor s es

/-- A buffer with one reference, a message's, is nobody else's. -/
theorem Own.sole (h : Own d n xs w) (hm : m ∈ w.buffers) (h1 : (w.heap m).refCnt_ = 1) :
    w.cumulation_ ≠ some m ∧ w.decoder.cumulation_ ≠ some m ∧ m ∉ w.held.map Message.buf ∧ m ∉ xs ∧ m < n := by
  have hcount := (h.count m).refCnt
  have hpos : 0 < (w.streamMsgs_.map (·.2)).count m := List.count_pos_iff.mpr hm
  simp only [owned, refs, List.count_append] at hcount
  refine ⟨fun e => ?_, fun e => ?_, fun e => ?_, fun e => ?_, ?_⟩
  · rw [e, Option.toList_some, List.count_cons_self] at hcount
    omega
  · rw [e, Option.toList_some, List.count_cons_self] at hcount
    omega
  · have := List.count_pos_iff.mpr e
    omega
  · have := List.count_pos_iff.mpr e
    omega
  · exact h.lt (by simp only [refs, List.mem_append]; exact .inl (.inr (.inr (.inl hm))))

namespace Pending

variable (P : Pending es w)
include P

omit P in
theorem mem (h : w.streamMsg s = some m) : m ∈ w.buffers := List.mem_map_of_mem (f := Prod.snd) (mem_of_lookup h)

/-- The message of a stream is no other stream's. -/
theorem inj {s' : Nat} (h : w.streamMsg s = some m) (h' : w.streamMsg s' = some m) : s = s' :=
  congrArg Prod.fst (List.inj_on_of_nodup_map P.values (mem_of_lookup h) (mem_of_lookup h') rfl)

theorem congr (H : SetAside w.buffers w w') : Pending es w' := by
  have hb : w'.buffers = w.buffers := congrArg (List.map _) H.streamMsgs_
  have hs : w'.streamMsg = w.streamMsg := by
    funext s
    rw [streamMsg, H.streamMsgs_]
    rfl
  refine ⟨by rw [H.streamMsgs_]; exact P.keys, hb ▸ P.values, fun m hm => ?_, fun s h => ?_, fun s m h => ?_⟩
  · rw [hb] at hm
    rw [H.heap m hm]
    exact P.refCnt m hm
  · rw [hs] at h
    exact P.idle s h
  · rw [hs] at h
    rw [H.heap m (Pending.mem h)]
    exact P.filled s m h

/-- An input that is no fragment. -/
theorem of_pending {es' : List Input} (h : ∀ s, sinceEor s es' = sinceEor s es) : Pending es' w :=
  { P with
    idle := fun s hs => (h s).trans (P.idle s hs)
    filled := fun s m hs => by rw [h]; exact P.filled s m hs }

theorem setAside (h : Own d n xs w) : SetAside w.buffers w w where
  heap _ _ := rfl
  lt m hm := by rw [h.next]; exact (h.sole hm (P.refCnt m hm)).2.2.2.2
  streamMsgs_ := rfl

theorem untouched (h : Own d n xs w) : Untouched w.buffers w w where
  toSetAside := P.setAside h
  decoder m hm := (h.sole hm (P.refCnt m hm)).2.1
  cumulation_ := rfl

theorem unread (h : Own d n xs w) : Unread w.buffers w w :=
  ⟨P.setAside h, fun m hm => (h.sole hm (P.refCnt m hm)).1⟩

end Pending

/-- Between two reads: the read buffer is empty, and what is pending is as it came. -/
structure Reassembling (d : LengthFieldBasedFrameDecoder) (es : List Input) (w : Connection) : Prop where
  own : ∃ n xs, Own d n xs w
  empty : w.Empty
  pending : Pending es w

/-! ## The end of a read -/

/-- The read buffer is smaller than the guess, or is full: `adjustReadBuffer()` allocates another. -/
def Outgrown (w : Connection) (b : Nat) : Prop :=
  w.readBufferLen_ < w.recvBufAllocHandle.guess ∨
    w.readBufferLen_ = w.recvBufAllocHandle.guess ∧ charBuf.isWritable (w.heap b) = false

theorem fitReadBuffer_outgrown (hown : Own d n xs w) (hb : w.cumulation_ = some b) (h : w.Outgrown b) :
    ∃ w', fitReadBuffer w = .ok () w' ∧ w'.Empty ∧ Aside w w' := by
  have hnew := newReadBuffer_eq (w := w) hown.handle.guess fun a ha => by
    rw [hown.next]
    exact hown.uses_lt ha
  dsimp only [fitReadBuffer]
  rw [hb]
  dsimp only
  rw [if_pos (h.imp Int.ne_of_lt fun h => by rw [h.2]; rfl)]
  rw [if_neg (by rcases h with h | h <;> omega)]
  exact hnew

/-- The next read has an empty read buffer. -/
theorem Pending.adjusted (P : Pending es w) (hown : Own d n xs w)
    (hc : ∀ b, w.cumulation_ = some b → w.EmptyAt b ∨ w.Outgrown b) (e : adjustReadBuffer w = .ok () w') :
    Reassembling d es w' := by
  have hnext : ∃ w₁, adjustReadBuffer w = .ok () w₁ ∧ w₁.Empty ∧ Aside w w₁ := by
    by_cases hout : ∃ b, w.cumulation_ = some b ∧ w.Outgrown b
    · obtain ⟨b, hb, hout⟩ := hout
      obtain ⟨w₁, e₁, hempty, ha⟩ := fitReadBuffer_outgrown (hown.setHandle hown.handle) hb hout
      exact adjustReadBuffer_fitted e₁ hempty ha
    · exact adjustReadBuffer_eq hown fun b hb => (hc b hb).resolve_right fun h => hout ⟨b, hb, h⟩
  obtain ⟨w₁, e₁, hempty, -⟩ := hnext
  have hown₁ := adjustReadBuffer_own w hown
  have hU₁ := adjustReadBuffer_unread w (P.unread hown)
  rw [e] at hown₁ hU₁
  obtain ⟨-, rfl⟩ := Outcome.ok.inj (e.symm.trans e₁)
  obtain ⟨n', hown₁⟩ := hown₁
  exact ⟨⟨n', xs, hown₁⟩, hempty, P.congr hU₁.1⟩

/-- A read ends with a read buffer that is empty, if the one there was is someone else's too, or has been read. -/
theorem finish (hown : Own d n xs w) (P : Pending es w) (hc : w.cumulation_ = some c)
    (hread : (w.heap c).refCnt_ ≤ 1 → (w.heap c).Sound ∧
      (w.heap c).indices.readerIndex_ = (w.heap c).indices.writerIndex_ ∧ (w.heap c).capacity_ ≤ 65536)
    (e : (do discardSomeBytes; adjustReadBuffer : Method Connection Unit) w = .ok () w') : Reassembling d es w' := by
  obtain ⟨w₁, e₁, -, hc₁⟩ := discardSomeBytes_eq hown hc hread
  have hown₁ := discardSomeBytes_own w hown
  have hU := discardSomeBytes_unread hc (P.unread hown)
  rw [e₁] at hown₁ hU
  rw [Method.bind_apply, e₁, Outcome.bind_ok] at e
  have P₁ := P.congr hU.1
  exact P₁.adjusted hown₁ (fun b hb => .inl (hc₁ b hb)) e

/-- Or a read buffer that is replaced, whatever is unread in it. -/
theorem finish_outgrown (hown : Own d n xs w) (P : Pending es w) (hc : w.cumulation_ = some c) (hs : (w.heap c).Sound)
    (h : w.readBufferLen_ < w.recvBufAllocHandle.guess ∨ w.readBufferLen_ = w.recvBufAllocHandle.guess ∧
      (w.heap c).indices.writerIndex_ = (w.heap c).capacity_ ∧ ¬Buffer.CharBuf.Store.Acts charBuf (w.heap c))
    (e : (do discardSomeBytes; adjustReadBuffer : Method Connection Unit) w = .ok () w') : Reassembling d es w' := by
  obtain ⟨⟨⟩, w₁, e₁, e⟩ := Outcome.bind_eq_ok e
  have hown₁ := discardSomeBytes_own w hown
  have hU := discardSomeBytes_unread hc (P.unread hown)
  rw [e₁] at hown₁ hU
  refine (P.congr hU.1).adjusted hown₁ (fun b hb => .inr ?_) e
  rw [discardSomeBytes] at e₁
  simp only [Method.bind_apply, Outcome.bind_ok, Method.get_apply, hc, deref] at e₁
  by_cases h1 : (w.heap c).refCnt_ > 1
  · rw [if_pos h1] at e₁
    obtain ⟨w₂, e₂, hnone, -⟩ := freeBuffer_eq (w := w)
    obtain ⟨-, rfl⟩ := Outcome.ok.inj (e₁.symm.trans e₂)
    cases hnone.symm.trans hb
  · obtain ⟨x, hx, -⟩ := hs.discardSomeReadBytes
    rw [if_neg h1, on, hx] at e₁
    obtain ⟨-, rfl⟩ := Outcome.ok.inj e₁
    obtain rfl : b = c := Option.some.inj (hb.symm.trans hc)
    refine h.imp id fun h => ⟨h.1, ?_⟩
    obtain ⟨-, hfull, hidle⟩ := h
    obtain ⟨-, rfl⟩ := Outcome.ok.inj (hx.symm.trans (Buffer.CharBuf.Store.discardSomeReadBytes_idle hidle))
    rw [setBuf_heap_self]
    exact decide_eq_false (Int.not_lt.mpr (Int.le_of_eq hfull.symm))

/-! ## What the socket brings -/

/-- A fragment is in the read buffer, and nothing else is. -/
structure Arriving (d : LengthFieldBasedFrameDecoder) (es : List Input) (bytes : List UInt8) (c n : Nat) (xs : List Nat)
    (w : Connection) : Prop where
  own : Own d n xs w
  pending : Pending es w
  cumulation : w.cumulation_ = some c
  sound : (w.heap c).Sound
  readable : (w.heap c).readable = bytes
  refCnt : (w.heap c).refCnt_ = 1
  capacity : (w.heap c).capacity_ ≤ 65536

theorem Arriving.not_mem (A : Arriving d es bytes c n xs w) : c ∉ w.buffers :=
  (A.pending.unread A.own).not_mem A.cumulation

/-- What was guessed does not matter. -/
theorem Arriving.recorded (A : Arriving d es bytes c n xs w) (len : Int) : ∃ w', record len w = .ok () w' ∧
    Arriving d es bytes c n xs w' ∧ w'.streamMsgs_ = w.streamMsgs_ ∧ w'.fired = w.fired := by
  have hown := record_own len w A.own
  exact ⟨_, rfl, ⟨hown, A.pending.congr ((A.pending.setAside A.own).congr rfl rfl rfl), A.cumulation, A.sound, A.readable,
    A.refCnt, A.capacity⟩, rfl, rfl⟩

theorem Arriving.length_le (A : Arriving d es bytes c n xs w) : bytes.length ≤ 65536 := by
  have hl := UnpooledHeapCharBuf.length_readable (w.heap c)
  have h0 := A.sound.reader_nonneg
  have hw := A.sound.writer_le
  have hc := A.capacity
  rw [A.readable] at hl
  omega

theorem Reassembling.arrives {eor : Bool} (h : Reassembling d es w) (hen : (Input.fragment s eor bytes).Enabled w) :
    ∃ c n xs x, received bytes w = .ok c (w.setBuf c x) ∧ Arriving d es bytes c n xs (w.setBuf c x) ∧
      w.cumulation_ = some c ∧ x.indices.readerIndex_ = 0 ∧ x.capacity_ = (w.heap c).capacity_ := by
  obtain ⟨n, xs, hown⟩ := h.own
  obtain ⟨c, hc, hs, h0, h1, hcap⟩ := h.empty
  obtain ⟨-, -, c', hc', hlen⟩ := hen
  obtain rfl : c' = c := Option.some.inj (hc'.symm.trans hc)
  have hr0 := hs.reader_nonneg
  have hrw := hs.reader_le
  obtain ⟨x, e, hx, hxr, hxcap, hxw⟩ := received_eq hc hs (by omega) hlen
  have hself : (w.setBuf c' x).heap c' = x := setBuf_heap_self w c' x
  have hown' : Own d n xs (w.setBuf c' x) := by
    have := received_own bytes w hown
    rw [e] at this
    exact this.1.1
  have hnot : c' ∉ w.buffers := (h.pending.unread hown).not_mem hc
  refine ⟨c', n, xs, x, e, ⟨hown', h.pending.congr ((h.pending.setAside hown).setBuf hnot x), hc, ?_, ?_, ?_, ?_⟩, hc, ?_,
    hxcap⟩
  · rw [hself]
    exact hx
  · rw [hself]
    exact hxr
  · exact ((hown'.count c').refCnt.trans (hown.count c').refCnt.symm).trans h1
  · rw [hself, hxcap]
    exact hcap
  · have hl := UnpooledHeapCharBuf.length_readable x
    have hx0 := hx.reader_nonneg
    have hxrw := hx.reader_le
    rw [hxr] at hl
    omega

/-! ## A part of a message -/

/-- The message of stream `s`, in buffer `m`, has become longer. -/
theorem Pending.fill (P : Pending es w) (hkeys : (w'.streamMsgs_.map (·.1)).Nodup) (hvalues : w'.buffers.Nodup)
    (hs : w'.streamMsg s = some m) (hother : ∀ s', s' ≠ s → w'.streamMsg s' = w.streamMsg s')
    (hmem : ∀ m' ∈ w'.buffers, m' = m ∨ m' ∈ w.buffers)
    (hheap : ∀ m' ∈ w.buffers, m' ≠ m → w'.heap m' = w.heap m') (hsound : (w'.heap m).Sound)
    (hread : (w'.heap m).readable = sinceEor s es ++ bytes) (h1 : (w'.heap m).refCnt_ = 1) :
    Pending (es ++ [.fragment s false bytes]) w' where
  keys := hkeys
  values := hvalues
  refCnt m' hm' := by
    by_cases he : m' = m
    · rw [he]
      exact h1
    · have hin := (hmem m' hm').resolve_left he
      rw [hheap m' hin he]
      exact P.refCnt m' hin
  idle s' h' := by
    have hne : s' ≠ s := fun e => by
      rw [e, hs] at h'
      cases h'
    rw [sinceEor_of_ne hne]
    exact P.idle s' ((hother s' hne).symm.trans h')
  filled s' m' h' := by
    by_cases hne : s' = s
    · subst hne
      obtain rfl := Option.some.inj (hs.symm.trans h')
      rw [sinceEor_part]
      exact ⟨hsound, hread⟩
    · have hm : m' ≠ m := by
        rintro rfl
        exact hne (congrArg Prod.fst (List.inj_on_of_nodup_map hvalues (mem_of_lookup h') (mem_of_lookup hs) rfl))
      rw [hother s' hne] at h'
      rw [sinceEor_of_ne hne, hheap m' (Pending.mem h') hm]
      exact P.filled s' m' h'

/-- The fragment is in the message of its stream, and the read buffer has been read. -/
structure Filed (es : List Input) (s : Nat) (bytes : List UInt8) (c : Nat) (w : Connection) : Prop where
  pending : Pending (es ++ [.fragment s false bytes]) w
  cumulation : w.cumulation_ = some c
  sound : (w.heap c).Sound
  read : (w.heap c).indices.readerIndex_ = (w.heap c).indices.writerIndex_
  capacity : (w.heap c).capacity_ ≤ 65536

theorem Arriving.read_sound (A : Arriving d es bytes c n xs w) :
    ((w.heap c).withReader (w.heap c).indices.writerIndex_).Sound :=
  A.sound.withReader (by have := A.sound.reader_nonneg; have := A.sound.reader_le; omega) (Int.le_refl _)

/-- A message that has begun. -/
theorem Arriving.append_more (A : Arriving d es bytes c n xs w) (hm : w.streamMsg s = some m)
    (e : appendMessage s c w = .ok () w') : Filed es s bytes c w' := by
  have P := A.pending
  obtain ⟨hms, hmr⟩ := P.filled s m hm
  have hmem := Pending.mem hm
  have hne : m ≠ c := fun h => A.not_mem (h ▸ hmem)
  simp only [appendMessage, hm] at e
  by_cases hroom : (w.heap m).indices.writerIndex_ + (w.heap c).readable.length ≤ 2 ^ 30
  · obtain ⟨x, ex, hx⟩ := writeChars_eq hne hms A.sound hroom
    obtain ⟨-, rfl⟩ := Outcome.ok.inj (ex.symm.trans e)
    have hself : ((w.setBuf m x).setBuf c ((w.heap c).withReader (w.heap c).indices.writerIndex_)).heap m = x := by
      rw [setBuf_heap_of_ne _ _ hne, setBuf_heap_self]
    refine ⟨P.fill P.keys P.values hm (fun _ _ => rfl) (fun _ h => .inr h) (fun m' hm' hne' => ?_) ?_ ?_ ?_,
      A.cumulation, ?_, ?_, ?_⟩
    · rw [setBuf_heap_of_ne _ _ (fun h : m' = c => A.not_mem (h ▸ hm')), setBuf_heap_of_ne _ _ hne']
    · rw [hself]
      exact hx.sound
    · rw [hself, hx.readable hms, hmr, A.readable]
    · rw [hself, hx.refCnt]
      exact P.refCnt m hmem
    · rw [setBuf_heap_self]
      exact A.read_sound
    · rw [setBuf_heap_self]
      rfl
    · rw [setBuf_heap_self]
      exact A.capacity
  · cases (writeChars_hang hms A.sound (Int.not_le.mp hroom) A.capacity).symm.trans e

/-- The first fragment of a message, in a new buffer. -/
theorem Arriving.append_new (A : Arriving d es bytes c n xs w) (hb : bytes ≠ []) (hm : w.streamMsg s = none)
    (e : appendMessage s c w = .ok () w') : Filed es s bytes c w' := by
  have P := A.pending
  have hlen := A.length_le
  have hpos : 0 < bytes.length := List.length_pos_iff.mpr hb
  have hbytes : charBuf.readableBytes (w.heap c) = bytes.length := by
    have hl := UnpooledHeapCharBuf.length_readable (w.heap c)
    have hrl := A.sound.reader_le
    rw [A.readable] at hl
    rw [A.sound.toValid.readableBytes]
    omega
  obtain ⟨w₁, hw₁⟩ : ∃ w₁, { w.setBuf w.next (UnpooledHeapCharBuf.new (bytes.length * 2 : Int) intMax) with
    next := w.next + 1 } = w₁ := ⟨_, rfl⟩
  have hfresh := A.own.next
  have hnotin : w.next ∉ w.buffers := (P.setAside A.own).next_not_mem
  have hne : w.next ≠ c := fun h => by
    have := A.own.lt (b := c) (by simp [refs, A.cumulation])
    omega
  have hself₁ : w₁.heap w.next = UnpooledHeapCharBuf.new (bytes.length * 2 : Int) intMax := by
    rw [← hw₁]
    exact setBuf_heap_self ..
  have hother₁ : ∀ a, a ≠ w.next → w₁.heap a = w.heap a := fun a ha => by
    rw [← hw₁]
    exact setBuf_heap_of_ne w _ ha
  have hstreams₁ : w₁.streamMsgs_ = w.streamMsgs_ := by rw [← hw₁]; rfl
  have hcum₁ : w₁.cumulation_ = some c := by rw [← hw₁]; exact A.cumulation
  have hheap : heapBuffer (i32 (bytes.length * 2)) w = .ok (some w.next) w₁ := by
    rw [heapBuffer, i32_eq (by omega) (by omega), if_neg (by unfold intMax; omega), hw₁]
  have hnew : (w₁.heap w.next).Sound := by
    rw [hself₁]
    exact UnpooledHeapCharBuf.new_sound (by omega) ⟨bytes.length, by omega⟩ (by omega)
  have hempty : (w₁.heap w.next).readable = [] := by
    rw [hself₁]
    rfl
  obtain ⟨x, ex, hx⟩ := writeChars_eq hne hnew (by rw [hother₁ c (Ne.symm hne)]; exact A.sound) (by
    rw [hother₁ c (Ne.symm hne), A.readable, hself₁]
    show (0 : Int) + _ ≤ _
    omega)
  rw [hother₁ c (Ne.symm hne)] at ex hx
  obtain ⟨w₂, hw₂⟩ : ∃ w₂, (w₁.setBuf w.next x).setBuf c ((w.heap c).withReader (w.heap c).indices.writerIndex_) = w₂ :=
    ⟨_, rfl⟩
  have hself₂ : w₂.heap w.next = x := by rw [← hw₂, setBuf_heap_of_ne _ _ hne, setBuf_heap_self]
  have hc₂ : w₂.heap c = (w.heap c).withReader (w.heap c).indices.writerIndex_ := by rw [← hw₂, setBuf_heap_self]
  have hother₂ : ∀ a, a ≠ c → a ≠ w.next → w₂.heap a = w.heap a := fun a ha ha' => by
    rw [← hw₂, setBuf_heap_of_ne _ _ ha, setBuf_heap_of_ne _ _ ha', hother₁ a ha']
  have hstreams₂ : w₂.streamMsgs_ = w.streamMsgs_ := by rw [← hw₂]; exact hstreams₁
  have hcum₂ : w₂.cumulation_ = some c := by rw [← hw₂]; exact hcum₁
  simp only [appendMessage, hm, hbytes, Method.bind_apply, hheap, Outcome.bind_ok, deref, ex, hw₂, Method.modify_apply,
    hstreams₂] at e
  obtain ⟨-, rfl⟩ := Outcome.ok.inj e
  have hsame : ∀ s', s' ≠ s → List.lookup s' ((s, w.next) :: w.streamMsgs_) = w.streamMsg s' := fun s' hs' => by
    rw [List.lookup_cons, beq_eq_false_iff_ne.mpr hs']
    rfl
  refine ⟨P.fill (m := w.next) ?_ ?_ ?_ hsame ?_ (fun m' hm' _ => ?_) ?_ ?_ ?_, hcum₂, ?_, ?_, ?_⟩
  · exact List.nodup_cons.mpr ⟨not_mem_of_lookup hm, P.keys⟩
  · exact List.nodup_cons.mpr ⟨hnotin, P.values⟩
  · exact (List.lookup_cons ..).trans (by rw [beq_self_eq_true])
  · intro m' hm'
    exact List.mem_cons.mp hm'
  · exact hother₂ m' (fun h => A.not_mem (h ▸ hm')) fun h => hnotin (h ▸ hm')
  · show (w₂.heap w.next).Sound
    rw [hself₂]
    exact hx.sound
  · show (w₂.heap w.next).readable = _
    rw [hself₂, hx.readable hnew, hempty, A.readable, P.idle s hm]
  · show (w₂.heap w.next).refCnt_ = 1
    rw [hself₂, hx.refCnt, hself₁]
    rfl
  · show (w₂.heap c).Sound
    rw [hc₂]
    exact A.read_sound
  · show (w₂.heap c).indices.readerIndex_ = (w₂.heap c).indices.writerIndex_
    rw [hc₂]
    rfl
  · show (w₂.heap c).capacity_ ≤ 65536
    rw [hc₂]
    exact A.capacity

/-- A fragment that does not end its message. -/
theorem Reassembling.part (h : Reassembling d es w) (hen : (Input.fragment s false bytes).Enabled w)
    (e : sctpHandleRead p fuel s false bytes w = .ok () w') : Reassembling d (es ++ [.fragment s false bytes]) w' := by
  obtain ⟨c, n, xs, x, e₁, A₁, -⟩ := h.arrives hen
  obtain ⟨w₂, e₂, A₂, -, -⟩ := A₁.recorded bytes.length
  rw [sctpHandleRead, Method.bind_apply, e₁, Outcome.bind_ok] at e
  simp only [Bool.false_eq_true, if_false, Method.bind_apply, partOfRecord, e₂, Outcome.bind_ok] at e
  obtain ⟨⟨⟩, w₃, e₃, e⟩ := Outcome.bind_eq_ok e
  obtain ⟨⟨⟩, w₄, e₄, e₃⟩ := Outcome.bind_eq_ok e₃
  have F : Filed es s bytes c w₄ := by
    cases hm : w₂.streamMsg s with
    | some m => exact A₂.append_more hm e₄
    | none => exact A₂.append_new hen.1 hm e₄
  have hown := appendMessage_own s c w₂ A₂.own
  rw [e₄] at hown
  obtain ⟨n', hown⟩ := hown
  have e' : (do discardSomeBytes; adjustReadBuffer : Method Connection Unit) w₄ = .ok () w' := by
    rw [Method.bind_apply, e₃, Outcome.bind_ok, e]
  exact finish hown F.pending F.cumulation (fun _ => ⟨F.sound, F.read, F.capacity⟩) e'

end Connection

end Nio.Net
