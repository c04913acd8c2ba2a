import NioSocket.Buffer.Discarding
import NioSocket.Lib.Triple

/-!
# The calls that move the indices

Reading, writing, skipping, discarding and giving another capacity (`Move`), with whatever
arguments, on a buffer whose indices are in order (`InOrder`). What the virtual functions do
where nothing is known of the range is `Store.Guarded`; all but a few of the calls then keep
the order, and a call that throws leaves the indices as they were (`Store.Moves`).
-/

namespace Nio.Buffer

open CharBuf (Ty)

/-- The calls, with their arguments. -/
inductive Move
  | readerIndex (index : Int)
  | writerIndex (index : Int)
  | markReaderIndex
  | resetReaderIndex
  | markWriterIndex
  | resetWriterIndex
  | skipBytes (n : Int)
  | read (g : Get)
  | write (p : Put)
  | capacity (newCapacity : Int)
  | discardReadBytes
  | discardSomeReadBytes

/-- The arguments are `int`s, and another buffer gives as many bytes as it is asked for. -/
def Move.Proper : Move → Prop
  | readerIndex i | writerIndex i | skipBytes i | capacity i => i32 i = i
  | read g => i32 g.size = g.size
  | write (.chars _ length) => i32 length = length
  | write (.buf src srcIndex length) =>
    i32 srcIndex = srcIndex ∧ i32 length = length ∧ ∀ bs, src srcIndex length = .ok bs () → (bs.length : Int) = length
  | _ => True

namespace CharBuf

section

variable {σ : Type} (c : CharBuf σ)

/-- `readChar` and the like, `readString` and `readChars`. -/
def read (g : Get) : Method σ Result :=
  match g with
  | .typed t => do pure (.int (← c.readTyped t))
  | .bool => do pure (.bool (← c.readBool))
  | .float => do pure (.int (← c.readFloat))
  | .double => do pure (.int (← c.readDouble))
  | .string len => do pure (.bytes (← c.readString len))
  | .chars length => do pure (.bytes (← c.readChars length))

def move (m : Move) : Method σ Unit :=
  match m with
  | .readerIndex index => c.setReaderIndex index
  | .writerIndex index => c.setWriterIndex index
  | .markReaderIndex => c.markReaderIndex
  | .resetReaderIndex => c.resetReaderIndex
  | .markWriterIndex => c.markWriterIndex
  | .resetWriterIndex => c.resetWriterIndex
  | .skipBytes n => c.skipBytes n
  | .read g => do let _ ← c.read g
  | .write p => c.write p
  | .capacity newCapacity => c.setCapacity newCapacity
  | .discardReadBytes => c.discardReadBytes
  | .discardSomeReadBytes => c.discardSomeReadBytes

/-- `0 ≤ readerIndex_ ≤ writerIndex_ ≤ capacity() ≤ maxCapacity()`. -/
structure InOrder (s : σ) : Prop where
  reader_nonneg : 0 ≤ c.readerIndex s
  reader_le : c.readerIndex s ≤ c.writerIndex s
  writer_le : c.writerIndex s ≤ c.capacity s
  capacity_le : c.capacity s ≤ c.maxCapacity s

end

namespace Store

variable {σ α : Type} {c : CharBuf σ} (B : Store c) {s s' : σ} {n : Int}

/-- A buffer in use with its indices in order. -/
structure Sound (s : σ) : Prop extends InOrder c s where
  live : B.Live s
  max_le : c.maxCapacity s ≤ intMax

/-- A call returns with the indices in order, or throws and leaves them as they were. -/
def Moves (s : σ) (o : Outcome σ α) : Prop :=
  o.Sat (fun _ => B.Sound) fun s' => B.Sound s' ∧ c.indices s' = c.indices s

/-- `n` bytes are fetched from the reader index on: what is fetched is in memory, and nothing changes. -/
def Fetches (c : CharBuf σ) (s : σ) (n : Int) (o : Outcome σ α) : Prop :=
  o.Sat (fun _ s' => s' = s ∧ 0 ≤ n ∧ c.readerIndex s + n ≤ intMax) (· = s)

/-- What the virtual functions do whatever the range and the length. -/
structure Guarded : Prop where
  _get {n : Nat} {s : σ} : B.Sound s → Fetches c s n (c._get (c.readerIndex s) n s)
  _getString {s : σ} (n : Int) : B.Sound s → Fetches c s n (c._getString (c.readerIndex s) n s)
  getChars {s : σ} (n : Int) : B.Sound s → Fetches c s n (c.getChars (c.readerIndex s) n s)
  _setChars (i n : Int) (src : List UInt8) (s : σ) :
    c._setChars i src n s = if 0 ≤ n ∧ n ≤ src.length then c._set i (src.take n.toNat) s else .ub
  setCharsFrom (i : Int) (src : Source) (j n : Int) (s : σ) :
    c.setCharsFrom i src j n s =
      match src j n with
      | .ok bs _ => c._set i bs s
      | .throw e _ => .throw e s
      | .ub => .ub
      | .hang => .hang

theorem capacity_setIndex0 (B : Store c) (r w : Int) (s : σ) : c.capacity (c.setIndex0 r w s) = c.capacity s :=
  B.capacity_setIndices rfl

variable {B} (hs : B.Sound s)
include hs

theorem Sound.writer_le_intMax : c.writerIndex s ≤ intMax := by
  have := hs.writer_le
  have := hs.capacity_le
  have := hs.max_le
  omega

theorem Sound.setIndices {i : Indices} (hm : i.maxCapacity_ = c.maxCapacity s) (h0 : 0 ≤ i.readerIndex_)
    (hr : i.readerIndex_ ≤ i.writerIndex_) (hw : i.writerIndex_ ≤ c.capacity s) : B.Sound (c.setIndices i s) := by
  have hi := B.indices_setIndices i s
  have hc := B.capacity_setIndices (s := s) hm
  refine ⟨⟨?_, ?_, ?_, ?_⟩, B.live_setIndices hm hs.live, ?_⟩
  · rwa [readerIndex, hi]
  · rwa [readerIndex, writerIndex, hi]
  · rwa [writerIndex, hi, hc]
  · rw [maxCapacity, hi, hc, hm]
    exact hs.capacity_le
  · rw [maxCapacity, hi, hm]
    exact hs.max_le

theorem Sound.setIndex0 {r w : Int} (h0 : 0 ≤ r) (hr : r ≤ w) (hw : w ≤ c.capacity s) :
    B.Sound (c.setIndex0 r w s) :=
  hs.setIndices rfl h0 hr hw

/-- With the same indices, and no less room. -/
theorem Sound.of_indices (hi : c.indices s' = c.indices s) (hl : B.Live s') (hw : c.writerIndex s ≤ c.capacity s')
    (hm : c.capacity s' ≤ c.maxCapacity s) : B.Sound s' := by
  have hr : c.readerIndex s' = c.readerIndex s := congrArg (·.readerIndex_) hi
  have hw' : c.writerIndex s' = c.writerIndex s := congrArg (·.writerIndex_) hi
  have hm' : c.maxCapacity s' = c.maxCapacity s := congrArg (·.maxCapacity_) hi
  exact ⟨⟨hr ▸ hs.reader_nonneg, by rw [hr, hw']; exact hs.reader_le, hw' ▸ hw, hm' ▸ hm⟩, hl, hm' ▸ hs.max_le⟩

theorem Sound.put {i : Nat} {bs : List UInt8} (h : (i + bs.length : Nat) ≤ c.capacity s) : B.Sound (B.put i bs s) :=
  hs.of_indices (B.indices_put i bs s) (B.live_put hs.live h) (by rw [B.capacity_put]; exact hs.writer_le)
    (by rw [B.capacity_put]; exact hs.capacity_le)

/-! ## Indices -/

theorem checkIndexBounds_moves {r w m : Int} {f : σ → σ}
    (hf : 0 ≤ r → r ≤ w → w ≤ m → B.Sound (f s)) :
    B.Moves s ((checkIndexBounds r w m s).bind fun _ => .modify f) := by
  by_cases h : r < 0 ∨ r > w ∨ w > m
  · rw [checkIndexBounds, if_pos h]
    exact ⟨hs, rfl⟩
  · rw [checkIndexBounds, if_neg h]
    exact hf (by omega) (by omega) (by omega)

theorem setReaderIndex_moves (index : Int) : B.Moves s (c.setReaderIndex index s) :=
  checkIndexBounds_moves hs fun h0 hr _ => hs.setIndex0 h0 hr hs.writer_le

theorem setWriterIndex_moves {index : Int} (hi : index ≤ c.capacity s ∨ c.maxCapacity s < index) :
    B.Moves s (c.setWriterIndex index s) :=
  checkIndexBounds_moves hs fun h0 hr hw => hs.setIndex0 h0 hr (by omega)

/-- An index between the capacity and the maximum is accepted. -/
theorem setWriterIndex_breaks {index : Int} (hi : ¬(index ≤ c.capacity s ∨ c.maxCapacity s < index)) :
    ∃ s', c.setWriterIndex index s = .ok () s' ∧ ¬InOrder c s' := by
  have hr := hs.reader_le
  have hw := hs.writer_le
  refine ⟨c.setIndex0 (c.readerIndex s) index s, ?_, fun h => ?_⟩
  · rw [setWriterIndex, checkIndexBounds_ok hs.reader_nonneg (by omega) (by omega)]
    rfl
  · have h' := h.writer_le
    rw [B.writerIndex_setIndex0, B.capacity_setIndex0] at h'
    omega

omit hs in
theorem skipBytes_eq (c : CharBuf σ) (s : σ) (n : Int) : c.skipBytes n s =
    if i32 (c.readerIndex s + n) > c.writerIndex s then .throw "readerIndex + length exceeds writerIndex" s
    else .ok () (c.setIndex0 (i32 (c.readerIndex s + n)) (c.writerIndex s) s) := by
  rw [skipBytes, Method.bind_apply, checkReadable]
  split <;> rfl

theorem skipBytes_moves (h0 : 0 ≤ i32 (c.readerIndex s + n)) : B.Moves s (c.skipBytes n s) := by
  rw [skipBytes_eq]
  split
  · exact ⟨hs, rfl⟩
  · exact hs.setIndex0 h0 (by omega) hs.writer_le

theorem skipBytes_breaks (h0 : ¬0 ≤ i32 (c.readerIndex s + n)) :
    ∃ s', c.skipBytes n s = .ok () s' ∧ ¬InOrder c s' := by
  have hr := hs.reader_nonneg
  have hw := hs.reader_le
  rw [skipBytes_eq, if_neg (by omega)]
  refine ⟨_, rfl, fun h => h0 ?_⟩
  have h' := h.reader_nonneg
  rwa [B.readerIndex_setIndex0] at h'

/-! ## Reading -/

theorem advanceReader_moves {a : α} (h0 : 0 ≤ n) (hn : c.readerIndex s + n ≤ c.writerIndex s) :
    B.Moves s ((c.advanceReader n s).bind fun _ => .ok a) := by
  have hr := hs.reader_nonneg
  have hw : c.writerIndex s ≤ 2147483647 := hs.writer_le_intMax
  show B.Sound (c.setIndex0 (i32 (c.readerIndex s + n)) (c.writerIndex s) s)
  rw [i32_eq (by omega) (by omega)]
  exact hs.setIndex0 (by omega) hn hs.writer_le

/-- A read of `n` bytes: of a length whose sum with the reader index wraps nothing is fetched. -/
theorem fetch_moves {f : Method σ α} (hf : Fetches c s n (f s)) :
    B.Moves s ((do c.checkReadable n; let x ← f; c.advanceReader n; pure x : Method σ α) s) := by
  have hr := hs.reader_nonneg
  simp only [Method.bind_apply, checkReadable]
  split
  · exact ⟨hs, rfl⟩
  rename_i hle
  rw [Outcome.bind_ok, Method.bind_apply]
  cases e : f s with
  | ok x s' =>
    rw [e] at hf
    obtain ⟨rfl, h0, hn⟩ := hf
    have hn : c.readerIndex s' + n ≤ 2147483647 := hn
    rw [i32_eq (by omega) hn] at hle
    exact advanceReader_moves hs h0 (by omega)
  | throw what s' =>
    rw [e] at hf
    obtain rfl : s' = s := hf
    exact ⟨hs, rfl⟩
  | ub | hang => trivial

omit hs in
/-- What is made of the value that a call returns. -/
theorem Moves.map {β : Type} {o : Outcome σ α} (h : B.Moves s o) (f : α → β) :
    B.Moves s (o.bind fun x => .ok (f x)) := by
  cases o with
  | ok x s' => exact h
  | throw what s' => exact h
  | ub | hang => trivial

omit hs in
/-- What holds of the call that fetches the bytes, and of whatever is made of its value, holds of the read. -/
theorem read_of {P : ∀ {α : Type}, Outcome σ α → Prop}
    (hmap : ∀ {α β : Type} {o : Outcome σ α}, P o → ∀ f : α → β, P (o.bind fun x => .ok (f x)))
    (hvalue : ∀ k, P (c.readValue k s)) (hstring : ∀ n, P (c.readString n s)) (hchars : ∀ n, P (c.readChars n s))
    (g : Get) : P (c.read g s) := by
  cases g with
  | typed t => exact hmap (hmap (hvalue t.size) t.decode) Result.int
  | bool => exact hmap (hmap (hmap (hvalue 1) (Ty.decode .char)) (· != 0)) Result.bool
  | float => exact hmap (hmap (hvalue 4) (Ty.decode .int)) Result.int
  | double => exact hmap (hmap (hvalue 8) (Ty.decode .long)) Result.int
  | string len => exact hmap (hstring len) Result.bytes
  | chars length => exact hmap (hchars length) Result.bytes

theorem read_moves (G : B.Guarded) (g : Get) : B.Moves s (c.read g s) :=
  read_of (P := fun o => B.Moves s o) (fun h f => h.map f) (fun _ => fetch_moves hs (G._get hs))
    (fun n => fetch_moves hs (G._getString n hs)) (fun n => fetch_moves hs (G.getChars n hs)) g

/-! ## Writing -/

/-- Room is made: of the buffer the capacity alone changes. -/
theorem ensureWritable_roomy (m : Int) : (c.ensureWritable m s).Sat
    (fun _ g => B.Sound g ∧ c.indices g = c.indices s ∧ c.writerIndex s + m ≤ c.capacity g) (· = s) := by
  have h0 := hs.reader_nonneg
  have hr := hs.reader_le
  have hw := hs.writer_le
  have hc := hs.capacity_le
  have hmax : c.maxCapacity s ≤ 2147483647 := hs.max_le
  rw [ensureWritable, writableBytes, i32_eq (by omega) (by omega)]
  by_cases hfits : m ≤ c.capacity s - c.writerIndex s
  · rw [if_neg (by omega)]
    exact ⟨hs, rfl, by omega⟩
  rw [if_pos (by omega), i32_eq (by omega) (by omega)]
  by_cases hm : m ≤ c.maxCapacity s - c.writerIndex s
  · rw [if_neg (by omega), i32_eq (by omega) (by omega)]
    have hcalc := calculateNewCapacity_eq (c := c) (s := s) (m := c.writerIndex s + m) (by omega) (by omega)
      (by omega) hmax
    split at hcalc
    · obtain ⟨n, hn, hn', -, e⟩ := hcalc
      obtain ⟨s', e', hl, hi, hcap, -⟩ := B.grow_ok hs.live (by omega) hn' (by unfold intMax; omega)
      rw [e, Outcome.bind_ok, e']
      exact ⟨hs.of_indices hi hl (by omega) (by omega), hi, by omega⟩
    · rw [hcalc]
      trivial
  · rw [if_pos (by omega)]
    exact rfl

omit hs in
/-- `n` bytes are put behind the writer index of `s`, and the indices are still those of `s`. -/
def Puts (B : Store c) (s : σ) (n : Int) (o : Outcome σ Unit) : Prop :=
  o.Sat (fun _ g => B.Sound g ∧ c.indices g = c.indices s ∧ c.writerIndex s + n ≤ c.capacity g ∧ 0 ≤ n)
    fun g => B.Sound g ∧ c.indices g = c.indices s

/-- A write of `n` bytes. -/
theorem append_moves {f : Method σ Unit}
    (hf : ∀ g, B.Sound g → c.indices g = c.indices s → c.writerIndex s + n ≤ c.capacity g → B.Puts s n (f g)) :
    B.Moves s ((do c.ensureWritable n; f; c.advanceWriter n : Method σ Unit) s) := by
  have hthrow : ∀ s', s' = s → B.Sound s' ∧ c.indices s' = c.indices s := fun s' h => by
    subst h
    exact ⟨hs, rfl⟩
  refine ((ensureWritable_roomy hs n).mono (fun _ _ h => h) hthrow).bind fun _ g ⟨hg, hi, hc⟩ => ?_
  refine (hf g hg hi hc).bind fun _ p ⟨hp, hi, hc, h0⟩ => ?_
  have hr : c.readerIndex p = c.readerIndex s := congrArg (·.readerIndex_) hi
  have hw : c.writerIndex p = c.writerIndex s := congrArg (·.writerIndex_) hi
  have hmax : c.capacity p ≤ 2147483647 := B.capacity_le hp.live
  have hr0 := hs.reader_nonneg
  have hrw := hs.reader_le
  show B.Sound (c.setIndex0 (c.readerIndex p) (i32 (c.writerIndex p + n)) p)
  rw [hr, hw, i32_eq (by omega) (by omega)]
  exact hp.setIndex0 hr0 (by omega) hc

theorem _set_puts {g : σ} {bs : List UInt8} (hg : B.Sound g) (hi : c.indices g = c.indices s)
    (hc : c.writerIndex s + bs.length ≤ c.capacity g) : B.Puts s bs.length (c._set (c.writerIndex g) bs g) := by
  have hw : c.writerIndex g = c.writerIndex s := congrArg (·.writerIndex_) hi
  obtain ⟨k, hk⟩ : ∃ k : Nat, c.writerIndex s = k := ⟨(c.writerIndex s).toNat, by
    have := hs.reader_nonneg
    have := hs.reader_le
    omega⟩
  have hfit : (k + bs.length : Nat) ≤ c.capacity g := by omega
  rw [hw, hk, B.set_ok hg.live hfit]
  exact ⟨hg.put hfit, (B.indices_put ..).trans hi, by rw [B.capacity_put]; exact hc, by omega⟩

theorem writeChars_moves (G : B.Guarded) (src : List UInt8) (n : Int) : B.Moves s (c.writeChars src n s) := by
  refine append_moves hs fun g hg hi hc => ?_
  show B.Puts s n (c._setChars (c.writerIndex g) src n g)
  rw [G._setChars]
  split
  · rename_i hn
    have hlen : ((src.take n.toNat).length : Int) = n := by
      rw [List.length_take]
      omega
    have hput : B.Puts s (src.take n.toNat).length _ := _set_puts hs hg hi (by rw [hlen]; exact hc)
    rwa [hlen] at hput
  · trivial

theorem writeCharsFrom_moves (G : B.Guarded) {src : Source} {j n : Int}
    (hsrc : ∀ bs, src j n = .ok bs () → (bs.length : Int) = n) : B.Moves s (c.writeCharsFrom src j n s) := by
  refine append_moves hs fun g hg hi hc => ?_
  show B.Puts s n (c.setCharsFrom (c.writerIndex g) src j n g)
  rw [G.setCharsFrom]
  split
  · rename_i bs _ e
    have hlen := hsrc bs e
    rw [← hlen] at hc ⊢
    exact _set_puts hs hg hi hc
  · exact ⟨hg, hi⟩
  · trivial
  · trivial

theorem write_moves (G : B.Guarded) {p : Put} (hp : (Move.write p).Proper) : B.Moves s (c.write p s) := by
  have hvalue : ∀ bs, B.Moves s (c.writeValue bs s) := fun bs =>
    append_moves hs fun g hg hi hc => _set_puts hs hg hi hc
  cases p with
  | typed | bool | float | double => exact hvalue _
  | string v => exact writeChars_moves hs G v _
  | chars src length => exact writeChars_moves hs G src length
  | buf src srcIndex length => exact writeCharsFrom_moves hs G hp.2.2

/-! ## Discarding -/

omit hs in
/-- From `s` to `t`, the indices alone have changed, in whatever way. -/
structure Reindexed (B : Store c) (s t : σ) : Prop where
  live : B.Live t
  capacity : c.capacity t = c.capacity s
  maxCapacity : c.maxCapacity t = c.maxCapacity s

omit hs in
theorem Reindexed.setIndices {t : σ} (h : B.Reindexed s t) {i : Indices} (hm : i.maxCapacity_ = c.maxCapacity t) :
    B.Reindexed s (c.setIndices i t) where
  live := B.live_setIndices hm h.live
  capacity := (B.capacity_setIndices hm).trans h.capacity
  maxCapacity := by
    rw [CharBuf.maxCapacity, B.indices_setIndices, hm]
    exact h.maxCapacity

omit hs in
theorem Reindexed.adjustMarkers {t : σ} (h : B.Reindexed s t) (d : Int) : B.Reindexed s (c.adjustMarkers d t) :=
  h.setIndices (Indices.adjustMarkers_maxCapacity_ _ _)

theorem Reindexed.sound {t : σ} {w : Int} (h : B.Reindexed s t) (h0 : 0 ≤ w) (hw : w ≤ c.writerIndex s) :
    B.Sound (c.setIndex0 0 w t) := by
  have hcap := hs.writer_le
  have hmax := hs.max_le
  have hcm := hs.capacity_le
  obtain ⟨hl, hc, hm⟩ := h.setIndices (i := { c.indices t with readerIndex_ := 0, writerIndex_ := w }) rfl
  refine ⟨⟨?_, ?_, ?_, ?_⟩, hl, ?_⟩
  · rw [B.readerIndex_setIndex0]
  · rw [B.readerIndex_setIndex0, B.writerIndex_setIndex0]
    exact h0
  · rw [B.writerIndex_setIndex0, B.capacity_setIndex0, h.capacity]
    omega
  · rw [setIndex0, hc, hm]
    exact hcm
  · rw [setIndex0, hm]
    exact hmax

theorem dropRead_moves : B.Sound (c.dropRead s) := by
  have h0 := hs.reader_nonneg
  have hr := hs.reader_le
  exact Reindexed.sound hs (Reindexed.adjustMarkers ⟨hs.live, rfl, rfl⟩ _) (Int.le_refl 0) (by omega)

theorem moveUnread_moves : B.Moves s (c.moveUnread s) := by
  have h0 := hs.reader_nonneg
  have hr := hs.reader_le
  have hw := hs.writer_le
  have hmax : c.capacity s ≤ 2147483647 := B.capacity_le hs.live
  obtain ⟨r, hr'⟩ : ∃ r : Nat, c.readerIndex s = r := ⟨(c.readerIndex s).toNat, by omega⟩
  obtain ⟨n, hn⟩ : ∃ n : Nat, i32 (c.writerIndex s - c.readerIndex s) = n :=
    ⟨(c.writerIndex s - c.readerIndex s).toNat, by rw [i32_eq (by omega) (by omega)]; omega⟩
  have hn' : c.writerIndex s - c.readerIndex s = n := by
    rwa [i32_eq (by omega) (by omega)] at hn
  have hcopy := B.setCharsSelf_eq hs.live (i := 0) (j := r) (n := n) (by omega) (by omega)
  rw [moveUnread_eq, hn, hr', show (0 : Int) = (0 : Nat) from rfl, hcopy]
  split
  · have hi := B.indices_put 0 ((B.byte s).read r n) s
    have hp : B.Sound (B.put 0 ((B.byte s).read r n) s) := hs.put (by rw [Mem.length_read]; omega)
    have hc := B.capacity_put 0 ((B.byte s).read r n) s
    generalize B.put 0 ((B.byte s).read r n) s = p at hi hp hc
    have hpr : c.readerIndex p = c.readerIndex s := congrArg (·.readerIndex_) hi
    have hpw : c.writerIndex p = c.writerIndex s := congrArg (·.writerIndex_) hi
    show B.Sound (c.setIndex0 0 _ (c.adjustMarkers _ (c.setIndex0 _ _ p)))
    rw [B.writerIndex_adjustMarkers, B.writerIndex_setIndex0, hpr, hpw, hn]
    have R : B.Reindexed s (c.setIndex0 (c.readerIndex s) n p) :=
      Reindexed.setIndices ⟨hp.live, hc, congrArg (·.maxCapacity_) hi⟩ rfl
    exact (R.adjustMarkers _).sound hs (by omega) (by omega)
  · trivial

theorem discardReadBytes_moves : B.Moves s (c.discardReadBytes s) := by
  unfold discardReadBytes
  split
  · exact hs
  split
  · exact moveUnread_moves hs
  · exact dropRead_moves hs

theorem discardSomeReadBytes_moves : B.Moves s (c.discardSomeReadBytes s) := by
  unfold discardSomeReadBytes
  split
  · exact hs
  split
  · exact dropRead_moves hs
  split
  · exact moveUnread_moves hs
  · exact hs

/-! ## All of them -/

theorem mark_moves {i : Indices} (hr : i.readerIndex_ = c.readerIndex s) (hw : i.writerIndex_ = c.writerIndex s)
    (hm : i.maxCapacity_ = c.maxCapacity s) : B.Sound (c.setIndices i s) :=
  hs.setIndices hm (hr ▸ hs.reader_nonneg) (by rw [hr, hw]; exact hs.reader_le) (hw ▸ hs.writer_le)

/-- The calls that no class does in a way of its own. -/
theorem move_moves (G : B.Guarded) {m : Move} (hp : m.Proper)
    (hskip : ∀ n, m = .skipBytes n → 0 ≤ i32 (c.readerIndex s + n))
    (hwriter : ∀ i, m = .writerIndex i ∨ m = .resetWriterIndex ∧ i = (c.indices s).markedWriterIndex_ →
      i ≤ c.capacity s ∨ c.maxCapacity s < i)
    (hcap : ∀ n, m = .capacity n → B.Moves s (c.setCapacity n s)) : B.Moves s (c.move m s) := by
  cases m with
  | readerIndex index => exact setReaderIndex_moves hs index
  | writerIndex index => exact setWriterIndex_moves hs (hwriter index (.inl rfl))
  | markReaderIndex => exact mark_moves hs rfl rfl rfl
  | resetReaderIndex => exact setReaderIndex_moves hs _
  | markWriterIndex => exact mark_moves hs rfl rfl rfl
  | resetWriterIndex => exact setWriterIndex_moves hs (hwriter _ (.inr ⟨rfl, rfl⟩))
  | skipBytes n => exact skipBytes_moves hs (hskip n rfl)
  | read g => exact (read_moves hs G g).map fun _ => ()
  | write p => exact write_moves hs G hp
  | capacity n => exact hcap n rfl
  | discardReadBytes => exact discardReadBytes_moves hs
  | discardSomeReadBytes => exact discardSomeReadBytes_moves hs

end Store

end CharBuf

end Nio.Buffer
