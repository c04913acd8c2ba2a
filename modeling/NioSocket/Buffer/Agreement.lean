import NioSocket.Buffer.Moving

/-!
# Buffers that agree

Two buffers of whatever kinds match if they have the same indices and the same capacity, and the
same bytes below the writer index (`Store.Matched`). A call that reads nothing but what was written
(`Use.Fair`) has the same answer on both, and they still match behind it (`Store.Matched.use`).
-/

namespace Nio.Buffer

open CharBuf (Ty)

/-- What is left of the indices when the capacity is `n`. -/
def Indices.cut (n : Int) (i : Indices) : Indices :=
  if i.writerIndex_ > n then { i with readerIndex_ := min i.readerIndex_ n, writerIndex_ := n } else i

@[simp] theorem Indices.cut_maxCapacity_ (n : Int) (i : Indices) : (i.cut n).maxCapacity_ = i.maxCapacity_ := by
  unfold cut
  split <;> rfl

/-- The calls on a buffer: those that move the indices, and those that take an index. -/
inductive Use
  | move (m : Move)
  | read (g : Get)
  | getAt (g : Get) (index : Int)
  | setAt (p : Put) (index : Int)

/-- The call is no misuse of a buffer with these indices: what is read was written, what is written is
there, ranges that are copied do not overlap, and no sum of an index and a length wraps around. -/
def Use.Fair (i : Indices) (capacity : Int) : Use → Prop
  | move (.writerIndex index) => index ≤ i.writerIndex_ ∨ i.maxCapacity_ < index
  | move .resetWriterIndex => i.markedWriterIndex_ ≤ i.writerIndex_ ∨ i.maxCapacity_ < i.markedWriterIndex_
  | move (.skipBytes n) => 0 ≤ i.readerIndex_ + n ∧ i.readerIndex_ + n ≤ intMax
  | move (.read g) | read g => 0 ≤ g.size ∧ i.readerIndex_ + g.size ≤ intMax
  | move (.write p) => ∃ bs, p.Gives bs
  | move (.capacity n) => 0 ≤ n ∧ n ≤ i.maxCapacity_
  | move .discardReadBytes | move .discardSomeReadBytes => i.readerIndex_ = 0 ∨ i.writerIndex_ ≤ 2 * i.readerIndex_
  | move _ => True
  | getAt g index => Within index g.size i.writerIndex_
  | setAt p index => ∃ bs, p.Gives bs ∧ Within index bs.length capacity

/-- The call has to make room up to a capacity that the loop of `calculateNewCapacity` does not reach:
one above `2 ^ 30`, or any when it starts at `0`. -/
def Use.Endless (i : Indices) (capacity : Int) : Use → Prop
  | move (.write p) => capacity < i.writerIndex_ + p.size ∧ i.writerIndex_ + p.size ≤ i.maxCapacity_ ∧
      ¬(0 < capacity ∧ i.writerIndex_ + p.size ≤ 2 ^ 30)
  | _ => False

namespace CharBuf

variable {σ τ α : Type} {c : CharBuf σ} {d : CharBuf τ}

/-- The call, and what it returns. -/
def use (c : CharBuf σ) (u : Use) : Method σ (Option Result) :=
  match u with
  | .move m => do c.move m; pure none
  | .read g => do pure (some (← c.read g))
  | .getAt g index => do pure (some (← c.getAt g index))
  | .setAt p index => do c.setAt p index; pure none

namespace Store

/-- A capacity in range is accepted: the indices are cut, and the bytes that fit are kept. -/
structure Resizes (B : Store c) : Prop where
  setCapacity_ok {s : σ} {n : Int} : B.Sound s → 0 ≤ n → n ≤ c.maxCapacity s →
    ∃ s', c.setCapacity n s = .ok () s' ∧ B.Live s' ∧ c.indices s' = (c.indices s).cut n ∧ c.capacity s' = n ∧
      ∀ k : Nat, (k : Int) < c.capacity s → (k : Int) < n → B.byte s' k = B.byte s k

/-- Nothing tells the buffers apart below `m`. -/
structure Agree (B : Store c) (D : Store d) (m : Int) (s : σ) (t : τ) : Prop where
  live : B.Live s
  live' : D.Live t
  indices : c.indices s = d.indices t
  capacity : c.capacity s = d.capacity t
  byte : ∀ k : Nat, (k : Int) < m → B.byte s k = D.byte t k

variable {B : Store c} {D : Store d} {s : σ} {t : τ} {m n : Int} {i j k : Nat} {bs : List UInt8}

namespace Agree

variable (h : B.Agree D m s t)
include h

theorem readerIndex : d.readerIndex t = c.readerIndex s := congrArg (·.readerIndex_) h.indices.symm
theorem writerIndex : d.writerIndex t = c.writerIndex s := congrArg (·.writerIndex_) h.indices.symm
theorem maxCapacity : d.maxCapacity t = c.maxCapacity s := congrArg (·.maxCapacity_) h.indices.symm

theorem mono (hn : n ≤ m) : B.Agree D n s t :=
  { h with byte := fun k hk => h.byte k (by omega) }

theorem setIndices {x : Indices} (hx : x.maxCapacity_ = c.maxCapacity s) :
    B.Agree D m (c.setIndices x s) (d.setIndices x t) where
  live := B.live_setIndices hx h.live
  live' := D.live_setIndices (hx.trans h.maxCapacity.symm) h.live'
  indices := by rw [B.indices_setIndices, D.indices_setIndices]
  capacity := by rw [B.capacity_setIndices hx, D.capacity_setIndices (hx.trans h.maxCapacity.symm), h.capacity]
  byte := by rw [B.byte_setIndices, D.byte_setIndices]; exact h.byte

theorem setIndex0 (r w : Int) : B.Agree D m (c.setIndex0 r w s) (d.setIndex0 r w t) := by
  rw [CharBuf.setIndex0, CharBuf.setIndex0, ← h.indices]
  exact h.setIndices rfl

theorem adjustMarkers (x : Int) : B.Agree D m (c.adjustMarkers x s) (d.adjustMarkers x t) := by
  rw [CharBuf.adjustMarkers, CharBuf.adjustMarkers, ← h.indices]
  exact h.setIndices (Indices.adjustMarkers_maxCapacity_ ..)

theorem put (hi : (i + bs.length : Nat) ≤ c.capacity s) : B.Agree D m (B.put i bs s) (D.put i bs t) where
  live := B.live_put h.live hi
  live' := D.live_put h.live' (h.capacity ▸ hi)
  indices := by rw [B.indices_put, D.indices_put, h.indices]
  capacity := by rw [B.capacity_put, D.capacity_put, h.capacity]
  byte k hk := by
    rw [B.byte_put h.live hi, D.byte_put h.live' (h.capacity ▸ hi)]
    rcases Nat.lt_or_ge k i with hki | hki
    · rw [Mem.write_of_lt hki, Mem.write_of_lt hki, h.byte k hk]
    obtain ⟨e, rfl⟩ := Nat.exists_eq_add_of_le hki
    rcases Nat.lt_or_ge e bs.length with he | he
    · rw [Mem.write_add he, Mem.write_add he]
    · rw [Mem.write_of_ge (by omega), Mem.write_of_ge (by omega), h.byte _ hk]

/-- What is put where the agreement ends extends it. -/
theorem append (hm : m = i) (hi : (i + bs.length : Nat) ≤ c.capacity s) :
    B.Agree D (m + bs.length) (B.put i bs s) (D.put i bs t) := by
  refine { h.put hi with byte := fun k hk => ?_ }
  by_cases hkm : (k : Int) < m
  · exact (h.put hi).byte k hkm
  obtain ⟨e, rfl⟩ := Nat.exists_eq_add_of_le (show i ≤ k by omega)
  rw [B.byte_put h.live hi, D.byte_put h.live' (h.capacity ▸ hi), Mem.write_add (by omega), Mem.write_add (by omega)]

theorem read (hi : (i + k : Nat) ≤ m) : (B.byte s).read i k = (D.byte t).read i k :=
  Mem.read_congr fun e _ => h.byte (i + e) (by omega)

end Agree

/-- The buffers match: their indices are in order, and below the writer index nothing tells them apart. -/
structure Matched (B : Store c) (D : Store d) (s : σ) (t : τ) : Prop extends InOrder c s where
  agree : B.Agree D (c.writerIndex s) s t
  max_le : c.maxCapacity s ≤ intMax

/-- Two calls that match the buffers again, with the same answer. -/
abbrev Answers (B : Store c) (D : Store d) (o : Outcome σ α) (o' : Outcome τ α) : Prop := o.Rel (B.Matched D) o'

/-- Two calls that match the buffers again, with the same answer, or both do not end, which they do only if `P`. -/
abbrev AnswersUnless (B : Store c) (D : Store d) (P : Prop) (o : Outcome σ α) (o' : Outcome τ α) : Prop :=
  o.Alike (B.Matched D) P o'

theorem Agree.matched (h : B.Agree D m s t) (hs : B.Sound s) (hm : c.writerIndex s ≤ m) : B.Matched D s t :=
  ⟨hs.toInOrder, h.mono hm, hs.max_le⟩

namespace Matched

variable (h : B.Matched D s t)
include h

theorem sound : B.Sound s := ⟨h.toInOrder, h.agree.live, h.max_le⟩

theorem sound' : D.Sound t := by
  have hr := h.agree.readerIndex
  have hw := h.agree.writerIndex
  have hm := h.agree.maxCapacity
  have hc := h.agree.capacity
  exact ⟨⟨hr ▸ h.reader_nonneg, hr ▸ hw ▸ h.reader_le, hw ▸ hc ▸ h.writer_le, hm ▸ hc ▸ h.capacity_le⟩, h.agree.live',
    hm ▸ h.max_le⟩

theorem writer_nonneg : 0 ≤ c.writerIndex s := Int.le_trans h.reader_nonneg h.reader_le

theorem bounds : c.writerIndex s ≤ 2147483647 ∧ c.maxCapacity s ≤ 2147483647 :=
  ⟨h.sound.writer_le_intMax, h.max_le⟩

/-! ### Indices -/

theorem setIndex0 {r w : Int} (h0 : 0 ≤ r) (hr : r ≤ w) (hw : w ≤ c.writerIndex s) :
    B.Matched D (c.setIndex0 r w s) (d.setIndex0 r w t) := by
  have hcap := h.writer_le
  exact (h.agree.setIndex0 r w).matched (h.sound.setIndex0 h0 hr (by omega)) (by rw [B.writerIndex_setIndex0]; exact hw)

theorem check {r w x : Int} {f : σ → σ} {g : τ → τ} (hf : 0 ≤ r → r ≤ w → w ≤ x → B.Matched D (f s) (g t)) :
    B.Answers D ((checkIndexBounds r w x s).bind fun _ => .modify f)
      ((checkIndexBounds r w x t).bind fun _ => .modify g) := by
  by_cases hx : r < 0 ∨ r > w ∨ w > x
  · rw [checkIndexBounds, checkIndexBounds, if_pos hx, if_pos hx]
    exact .throw _ h
  · rw [checkIndexBounds, checkIndexBounds, if_neg hx, if_neg hx]
    exact .ok () (hf (by omega) (by omega) (by omega))

theorem setReaderIndex (index : Int) : B.Answers D (c.setReaderIndex index s) (d.setReaderIndex index t) := by
  rw [CharBuf.setReaderIndex, CharBuf.setReaderIndex, h.agree.writerIndex, h.agree.maxCapacity]
  exact h.check fun h0 hr _ => h.setIndex0 h0 hr (Int.le_refl _)

theorem setWriterIndex {index : Int} (hi : index ≤ c.writerIndex s ∨ c.maxCapacity s < index) :
    B.Answers D (c.setWriterIndex index s) (d.setWriterIndex index t) := by
  rw [CharBuf.setWriterIndex, CharBuf.setWriterIndex, h.agree.readerIndex, h.agree.maxCapacity]
  exact h.check fun h0 hr hm => h.setIndex0 h0 hr (by omega)

/-- Setting a mark. -/
theorem mark {x : Indices} (hr : x.readerIndex_ = c.readerIndex s) (hw : x.writerIndex_ = c.writerIndex s)
    (hx : x.maxCapacity_ = c.maxCapacity s) : B.Matched D (c.setIndices x s) (d.setIndices x t) := by
  refine (h.agree.setIndices hx).matched (mark_moves h.sound hr hw hx) ?_
  rw [CharBuf.writerIndex, B.indices_setIndices, hw]

theorem skipBytes (h0 : 0 ≤ c.readerIndex s + n) (hn : c.readerIndex s + n ≤ intMax) :
    B.Answers D (c.skipBytes n s) (d.skipBytes n t) := by
  unfold intMax at hn
  rw [skipBytes_eq, skipBytes_eq, h.agree.readerIndex, h.agree.writerIndex, i32_eq (by omega) hn]
  split
  · exact .throw _ h
  · exact .ok () (h.setIndex0 h0 (by omega) (Int.le_refl _))

/-! ### Reading -/

/-- A read, when what is fetched is the same. -/
theorem fetch {f : Method σ α} {g : Method τ α} (h0 : 0 ≤ n) (hn : c.readerIndex s + n ≤ intMax)
    (hf : c.readerIndex s + n ≤ c.writerIndex s → ∃ x, f s = .ok x s ∧ g t = .ok x t) :
    B.Answers D ((do c.checkReadable n; let x ← f; c.advanceReader n; pure x : Method σ α) s)
      ((do d.checkReadable n; let x ← g; d.advanceReader n; pure x : Method τ α) t) := by
  have hr := h.reader_nonneg
  unfold intMax at hn
  simp only [Method.bind_apply, checkReadable, h.agree.readerIndex, h.agree.writerIndex, i32_eq (show _ ≤ _ by omega) hn]
  by_cases hle : c.readerIndex s + n > c.writerIndex s
  · rw [if_pos hle, if_pos hle]
    exact .throw _ h
  obtain ⟨x, hx, hx'⟩ := hf (by omega)
  rw [if_neg hle, if_neg hle]
  simp only [Outcome.bind_ok, Method.bind_apply, hx, hx', advanceReader, h.agree.readerIndex, h.agree.writerIndex,
    i32_eq (show _ ≤ _ by omega) hn]
  exact .ok x (h.setIndex0 (by omega) (by omega) (Int.le_refl _))

/-- A range below the writer index is in both buffers, with the same bytes. -/
theorem range {index : Int} (hi : Within index n (c.writerIndex s)) : ∃ i k : Nat, index = i ∧ n = k ∧
    (i + k : Nat) ≤ c.capacity s ∧ (i + k : Nat) ≤ d.capacity t ∧ (B.byte s).read i k = (D.byte t).read i k := by
  obtain ⟨h0, hn, hle⟩ := hi
  have hcap := h.writer_le
  have hc := h.agree.capacity
  refine ⟨index.toNat, n.toNat, by omega, by omega, by omega, by omega, h.agree.read (by omega)⟩

theorem read {g : Get} (h0 : 0 ≤ g.size) (hn : c.readerIndex s + g.size ≤ intMax) :
    B.Answers D (c.read g s) (d.read g t) := by
  have hr := h.reader_nonneg
  have hin : ∀ {n : Int}, 0 ≤ n → c.readerIndex s + n ≤ c.writerIndex s → Within (c.readerIndex s) n (c.writerIndex s) :=
    fun h0 hle => ⟨hr, h0, hle⟩
  have hvalue : ∀ k : Nat, c.readerIndex s + k ≤ intMax →
      B.Answers D (c.readValue k s) (d.readValue k t) := fun k hk => by
    refine h.fetch (by omega) hk fun hle => ?_
    obtain ⟨i, k, hi, hk, hc, hd, e⟩ := h.range (hin (by omega) hle)
    rw [Int.ofNat.inj hk]
    refine ⟨(B.byte s).read i k, ?_, ?_⟩
    · rw [hi]
      exact B.get_ok h.agree.live hc
    · rw [h.agree.readerIndex, hi, e]
      exact D.get_ok h.agree.live' hd
  cases g with
  | typed x => exact ((hvalue x.size hn).map x.decode).map Result.int
  | bool => exact (((hvalue 1 hn).map (Ty.decode .char)).map (· != 0)).map Result.bool
  | float => exact ((hvalue 4 hn).map (Ty.decode .int)).map Result.int
  | double => exact ((hvalue 8 hn).map (Ty.decode .long)).map Result.int
  | string len =>
    refine (h.fetch (n := len) h0 hn fun hle => ?_ : B.Answers D (c.readString len s) (d.readString len t)).map Result.bytes
    obtain ⟨i, k, hi, rfl, hc, hd, e⟩ := h.range (hin h0 hle)
    refine ⟨(B.byte s).read i k, ?_, ?_⟩
    · rw [hi]
      exact B._getString_ok h.agree.live hc
    · rw [h.agree.readerIndex, hi, e]
      exact D._getString_ok h.agree.live' hd
  | chars len =>
    refine (h.fetch (n := len) h0 hn fun hle => ?_ : B.Answers D (c.readChars len s) (d.readChars len t)).map Result.bytes
    obtain ⟨i, k, hi, rfl, hc, hd, e⟩ := h.range (hin h0 hle)
    refine ⟨(B.byte s).read i k, ?_, ?_⟩
    · rw [hi]
      exact B.getChars_ok h.agree.live hc
    · rw [h.agree.readerIndex, hi, e]
      exact D.getChars_ok h.agree.live' hd

theorem getAt {g : Get} {index : Int} (hi : Within index g.size (c.writerIndex s)) :
    B.Answers D (c.getAt g index s) (d.getAt g index t) := by
  obtain ⟨i, k, rfl, hk, hc, hd, e⟩ := h.range hi
  rw [B.getAt_ok h.agree.live (by rw [hk]; exact ⟨by omega, by omega, by omega⟩),
    D.getAt_ok h.agree.live' (by rw [hk]; exact ⟨by omega, by omega, by omega⟩), hk, Int.toNat_natCast, e]
  exact .ok _ h

theorem setAt {p : Put} {index : Int} (hp : p.Gives bs) (hi : Within index bs.length (c.capacity s)) :
    B.Answers D (c.setAt p index s) (d.setAt p index t) := by
  obtain ⟨h0, -, hle⟩ := hi
  obtain ⟨i, rfl⟩ : ∃ i : Nat, index = i := ⟨index.toNat, by omega⟩
  have hle : (i + bs.length : Nat) ≤ c.capacity s := by omega
  rw [B.setAt_ok h.agree.live hp hle, D.setAt_ok h.agree.live' hp (h.agree.capacity ▸ hle)]
  refine .ok () ((h.agree.put hle).matched (h.sound.put hle) ?_)
  rw [CharBuf.writerIndex, B.indices_put]
  exact Int.le_refl _

/-! ### Discarding -/

/-- Behind whatever happened to the indices, the reader index is 0 and the writer index `w`. -/
theorem reindexed {s' : σ} {t' : τ} {w : Int} (ha : B.Agree D (c.writerIndex s) s' t') (hc : c.capacity s' = c.capacity s)
    (hm : c.maxCapacity s' = c.maxCapacity s) (h0 : 0 ≤ w) (hw : w ≤ c.writerIndex s) :
    B.Matched D (c.setIndex0 0 w s') (d.setIndex0 0 w t') := by
  have hr : B.Reindexed s s' := ⟨ha.live, hc, hm⟩
  exact (ha.setIndex0 0 w).matched (hr.sound h.sound h0 hw) (by rw [B.writerIndex_setIndex0]; exact hw)

theorem dropRead : B.Matched D (c.dropRead s) (d.dropRead t) := by
  have hr : B.Reindexed s (c.adjustMarkers (c.readerIndex s) s) := Reindexed.adjustMarkers ⟨h.agree.live, rfl, rfl⟩ _
  rw [CharBuf.dropRead, CharBuf.dropRead, h.agree.readerIndex]
  exact h.reindexed (h.agree.adjustMarkers _) hr.capacity hr.maxCapacity (Int.le_refl 0) h.writer_nonneg

theorem moveUnread (ho : c.writerIndex s ≤ 2 * c.readerIndex s) : B.Answers D (c.moveUnread s) (d.moveUnread t) := by
  have h0 := h.reader_nonneg
  have hr := h.reader_le
  have hw := h.writer_le
  have hcap := h.agree.capacity
  obtain ⟨hmax, -⟩ := h.bounds
  obtain ⟨r, hr'⟩ : ∃ r : Nat, c.readerIndex s = r := ⟨(c.readerIndex s).toNat, by omega⟩
  obtain ⟨k, hk⟩ : ∃ k : Nat, c.writerIndex s - c.readerIndex s = k :=
    ⟨(c.writerIndex s - c.readerIndex s).toNat, by omega⟩
  have hi : i32 (c.writerIndex s - c.readerIndex s) = k := by rw [i32_eq (by omega) (by omega), hk]
  have hput : (0 + ((B.byte s).read r k).length : Nat) ≤ c.capacity s := by rw [Mem.length_read]; omega
  have hcopy := B.setCharsSelf_eq h.agree.live (i := 0) (j := r) (n := k) (by omega) (by omega)
  have hcopy' := D.setCharsSelf_eq h.agree.live' (i := 0) (j := r) (n := k) (by omega) (by omega)
  rw [if_pos (by omega)] at hcopy hcopy'
  rw [← h.agree.read (show (r + k : Nat) ≤ c.writerIndex s by omega)] at hcopy'
  rw [moveUnread_eq, moveUnread_eq, h.agree.readerIndex, h.agree.writerIndex, hi, hr', show (0 : Int) = (0 : Nat) from rfl,
    hcopy, hcopy', Outcome.bind_ok, Outcome.bind_ok]
  have ha := h.agree.put hput
  have hp : c.indices (B.put 0 ((B.byte s).read r k) s) = c.indices s := B.indices_put ..
  have hc : c.capacity (B.put 0 ((B.byte s).read r k) s) = c.capacity s := B.capacity_put ..
  generalize B.put 0 ((B.byte s).read r k) s = p at ha hp hc ⊢
  generalize D.put 0 ((B.byte s).read r k) t = q at ha ⊢
  have hpr : c.readerIndex p = c.readerIndex s := congrArg (·.readerIndex_) hp
  have hpw : c.writerIndex p = c.writerIndex s := congrArg (·.writerIndex_) hp
  dsimp only
  rw [B.writerIndex_adjustMarkers, D.writerIndex_adjustMarkers, B.writerIndex_setIndex0, D.writerIndex_setIndex0,
    B.readerIndex_setIndex0, D.readerIndex_setIndex0, ha.readerIndex, ha.writerIndex, hpr, hpw, hi]
  have hx : B.Reindexed s (c.setIndex0 (c.readerIndex s) k p) :=
    Reindexed.setIndices ⟨ha.live, hc, congrArg (·.maxCapacity_) hp⟩ rfl
  have hR := hx.adjustMarkers (c.readerIndex s)
  exact .ok () (h.reindexed ((ha.setIndex0 _ _).adjustMarkers _) hR.capacity hR.maxCapacity (by omega) (by omega))

theorem discardReadBytes (ho : c.readerIndex s = 0 ∨ c.writerIndex s ≤ 2 * c.readerIndex s) :
    B.Answers D (c.discardReadBytes s) (d.discardReadBytes t) := by
  rw [CharBuf.discardReadBytes, CharBuf.discardReadBytes, h.agree.readerIndex, h.agree.writerIndex]
  split
  · exact .ok () h
  split
  · exact h.moveUnread (by omega)
  · exact .ok () h.dropRead

theorem discardSomeReadBytes (ho : c.readerIndex s = 0 ∨ c.writerIndex s ≤ 2 * c.readerIndex s) :
    B.Answers D (c.discardSomeReadBytes s) (d.discardSomeReadBytes t) := by
  rw [CharBuf.discardSomeReadBytes, CharBuf.discardSomeReadBytes, h.agree.readerIndex, h.agree.writerIndex,
    ← h.agree.capacity]
  split
  · exact .ok () h
  split
  · exact .ok () h.dropRead
  split
  · exact h.moveUnread (by omega)
  · exact .ok () h

/-! ### Writing -/

variable (hB : B.Resizes) (hD : D.Resizes)
include hB hD

theorem setCapacity (h0 : 0 ≤ n) (hn : n ≤ c.maxCapacity s) : ∃ s' t', c.setCapacity n s = .ok () s' ∧
    d.setCapacity n t = .ok () t' ∧ B.Matched D s' t' ∧ c.indices s' = (c.indices s).cut n ∧ c.capacity s' = n := by
  obtain ⟨s', e, hl, hi, hc, hb⟩ := hB.setCapacity_ok h.sound h0 hn
  obtain ⟨t', e', hl', hi', hc', hb'⟩ := hD.setCapacity_ok h.sound' h0 (by rw [h.agree.maxCapacity]; exact hn)
  have hr := h.reader_nonneg
  have hrw := h.reader_le
  have hw := h.writer_le
  have hcap := h.agree.capacity
  have hmax := h.max_le
  -- the indices are cut where they do not fit
  have hcut : 0 ≤ c.readerIndex s' ∧ c.readerIndex s' ≤ c.writerIndex s' ∧ c.writerIndex s' ≤ n ∧
      c.writerIndex s' ≤ c.writerIndex s := by
    unfold CharBuf.readerIndex CharBuf.writerIndex at *
    rw [hi, Indices.cut]
    split
    · exact ⟨by dsimp only; omega, by dsimp only; omega, Int.le_refl n, by dsimp only; omega⟩
    · exact ⟨hr, hrw, by omega, Int.le_refl _⟩
  have hm : c.maxCapacity s' = c.maxCapacity s := by rw [CharBuf.maxCapacity, hi, Indices.cut_maxCapacity_]; rfl
  refine ⟨s', t', e, e', ⟨⟨hcut.1, hcut.2.1, by omega, by omega⟩, ⟨hl, hl', ?_, by omega, fun k hk => ?_⟩, by omega⟩, hi, hc⟩
  · rw [hi, hi', h.agree.indices]
  · rw [hb k (by omega) (by omega), hb' k (by omega) (by omega), h.agree.byte k (by omega)]

omit h hB hD in
theorem calculateNewCapacity_cases (hc : d.capacity t = c.capacity s) (m x : Int) :
    (∃ e, c.calculateNewCapacity m x s = .throw e s ∧ d.calculateNewCapacity m x t = .throw e t) ∨
    (c.calculateNewCapacity m x s = .hang ∧ d.calculateNewCapacity m x t = .hang) ∨
    ∃ n, c.calculateNewCapacity m x s = .ok n s ∧ d.calculateNewCapacity m x t = .ok n t := by
  simp only [calculateNewCapacity, hc]
  split
  · exact .inl ⟨_, rfl, rfl⟩
  cases growLoop 34 (i32 (roundUpPower2 (c.capacity s % 2 ^ 64).toNat)) m with
  | some n => exact .inr (.inr ⟨_, rfl, rfl⟩)
  | none => exact .inr (.inl ⟨rfl, rfl⟩)

/-- Both throw, or loop, or have made room. -/
theorem ensureWritable_cases (h0 : 0 ≤ n) :
    (∃ e, c.ensureWritable n s = .throw e s ∧ d.ensureWritable n t = .throw e t) ∨
    (c.Endless s n ∧ c.ensureWritable n s = .hang ∧ d.ensureWritable n t = .hang) ∨
    ∃ s' t', c.ensureWritable n s = .ok () s' ∧ d.ensureWritable n t = .ok () t' ∧ B.Matched D s' t' ∧
      c.writerIndex s' = c.writerIndex s ∧ c.writerIndex s + n ≤ c.capacity s' := by
  have hw0 := h.writer_nonneg
  have hw := h.writer_le
  have hcm := h.capacity_le
  obtain ⟨hwm, hmax⟩ := h.bounds
  simp only [ensureWritable, writableBytes, h.agree.writerIndex, h.agree.maxCapacity, ← h.agree.capacity,
    i32_eq (show -2147483648 ≤ c.capacity s - c.writerIndex s by omega) (by omega),
    i32_eq (show -2147483648 ≤ c.maxCapacity s - c.writerIndex s by omega) (by omega)]
  by_cases hgrow : n > c.capacity s - c.writerIndex s
  case neg =>
    simp only [if_neg hgrow]
    exact .inr (.inr ⟨s, t, rfl, rfl, h, rfl, by omega⟩)
  simp only [if_pos hgrow]
  by_cases hm : n > c.maxCapacity s - c.writerIndex s
  · simp only [if_pos hm]
    exact .inl ⟨_, rfl, rfl⟩
  · simp only [if_neg hm, i32_eq (show -2147483648 ≤ c.writerIndex s + n by omega) (by omega)]
    have hcalc := calculateNewCapacity_eq (c := c) (s := s) (m := c.writerIndex s + n) (by omega) (by omega) (by omega) hmax
    rcases calculateNewCapacity_cases (c := c) (d := d) (s := s) (t := t) h.agree.capacity.symm (c.writerIndex s + n)
      (c.maxCapacity s) with ⟨e, e₁, e₂⟩ | ⟨e₁, e₂⟩ | ⟨k, e₁, e₂⟩
    · rw [e₁, e₂]
      exact .inl ⟨e, rfl, rfl⟩
    · split at hcalc
      · obtain ⟨k', -, -, -, e₃⟩ := hcalc
        cases e₁.symm.trans e₃
      · rw [e₁, e₂]
        exact .inr (.inl ⟨⟨by omega, by omega, ‹_›⟩, rfl, rfl⟩)
    · split at hcalc
      · obtain ⟨k', hk, hk', -, e₃⟩ := hcalc
        obtain ⟨rfl, -⟩ := Outcome.ok.inj (e₁.symm.trans e₃)
        obtain ⟨s', t', es, et, hM, hi, hc⟩ := h.setCapacity hB hD (n := k) (by omega) hk'
        rw [e₁, e₂]
        refine .inr (.inr ⟨s', t', es, et, hM, ?_, by omega⟩)
        rw [CharBuf.writerIndex, hi, Indices.cut, if_neg (by show ¬c.writerIndex s > k; omega)]
        rfl
      · cases e₁.symm.trans hcalc

/-- A write, when the same bytes are put behind the writer index. -/
theorem append {f : Method σ Unit} {g : Method τ Unit} (hn : n = bs.length)
    (hf : ∀ s' k, c.writerIndex s' = (k : Nat) → B.Live s' → (k + bs.length : Nat) ≤ c.capacity s' →
      f s' = .ok () (B.put k bs s'))
    (hg : ∀ t' k, d.writerIndex t' = (k : Nat) → D.Live t' → (k + bs.length : Nat) ≤ d.capacity t' →
      g t' = .ok () (D.put k bs t')) :
    B.AnswersUnless D (c.Endless s n) ((do c.ensureWritable n; f; c.advanceWriter n : Method σ Unit) s)
      ((do d.ensureWritable n; g; d.advanceWriter n : Method τ Unit) t) := by
  have hw0 := h.writer_nonneg
  simp only [Method.bind_apply]
  rcases h.ensureWritable_cases hB hD (n := n) (by omega) with ⟨e, e₁, e₂⟩ | ⟨hE, e₁, e₂⟩ |
    ⟨s', t', e₁, e₂, hM, hw, hroom⟩
  · rw [e₁, e₂]
    exact .throw e h
  · rw [e₁, e₂]
    exact .hang hE
  have hr := hM.reader_nonneg
  have hrw := hM.reader_le
  have hcm := hM.capacity_le
  have hcap := hM.agree.capacity
  obtain ⟨-, hmax⟩ := hM.bounds
  obtain ⟨k, hk⟩ : ∃ k : Nat, c.writerIndex s' = k := ⟨(c.writerIndex s').toNat, by omega⟩
  have hput : (k + bs.length : Nat) ≤ c.capacity s' := by omega
  rw [e₁, e₂, Outcome.bind_ok, Outcome.bind_ok, Method.bind_apply, Method.bind_apply, hf s' k hk hM.agree.live hput,
    hg t' k (by rw [hM.agree.writerIndex, hk]) hM.agree.live' (by omega), Outcome.bind_ok, Outcome.bind_ok]
  have ha := hM.agree.append hk hput
  have hsound := hM.sound.put hput
  have hi : c.indices (B.put k bs s') = c.indices s' := B.indices_put ..
  have hc : c.capacity (B.put k bs s') = c.capacity s' := B.capacity_put ..
  generalize B.put k bs s' = p at ha hi hc hsound ⊢
  generalize D.put k bs t' = q at ha ⊢
  have hpr : c.readerIndex p = c.readerIndex s' := congrArg (·.readerIndex_) hi
  have hpw : c.writerIndex p = c.writerIndex s' := congrArg (·.writerIndex_) hi
  rw [advanceWriter, advanceWriter, ha.readerIndex, ha.writerIndex, hpr, hpw, i32_eq (by omega) (by omega)]
  refine .ok () ((ha.setIndex0 _ _).matched (hsound.setIndex0 hr (by omega) (by omega)) ?_)
  rw [B.writerIndex_setIndex0]
  omega

theorem write {p : Put} (hp : p.Gives bs) : B.AnswersUnless D (c.Endless s p.size) (c.write p s) (d.write p t) := by
  have hlen := hp.length
  have hvalue : ∀ bs : List UInt8, (bs.length : Int) = p.size →
      B.AnswersUnless D (c.Endless s p.size) (c.writeValue bs s) (d.writeValue bs t) := fun bs hbs => by
    rw [← hbs]
    exact h.append hB hD rfl (fun s' k hk hl hle => by rw [hk]; exact B.set_ok hl hle)
      fun t' k hk hl hle => by rw [hk]; exact D.set_ok hl hle
  have hchars : ∀ (src : List UInt8) (k : Nat), k ≤ src.length →
      B.AnswersUnless D (c.Endless s k) (c.writeChars src k s) (d.writeChars src k t) := fun src k hk => by
    have hlen : (src.take k).length = k := List.length_take_of_le hk
    refine h.append hB hD (show (k : Int) = (src.take k).length by rw [hlen]) (fun s' i hi hl hle => ?_)
      fun t' i hi hl hle => ?_
    · rw [hi]
      exact B._setChars_ok hl (by rw [hlen] at hle; exact hle) hk
    · rw [hi]
      exact D._setChars_ok hl (by rw [hlen] at hle; exact hle) hk
  cases p with
  | typed | bool | float | double =>
    obtain rfl := hp
    exact hvalue _ hlen
  | string v =>
    obtain ⟨rfl, hv⟩ := hp
    have hv : ((bs.length : Nat) : Int) ≤ 2147483647 := hv
    have e := hchars bs bs.length (Nat.le_refl _)
    have hi := i32_eq (show -2147483648 ≤ (bs.length : Int) by omega) hv
    show B.AnswersUnless D (c.Endless s bs.length) (c.writeChars bs (i32 bs.length) s) (d.writeChars bs (i32 bs.length) t)
    rw [hi]
    exact e
  | chars src length =>
    obtain ⟨h0, hl, -⟩ := hp
    obtain ⟨k, rfl⟩ : ∃ k : Nat, length = k := ⟨length.toNat, by omega⟩
    exact hchars src k (by omega)
  | buf src j length =>
    obtain ⟨hsrc, rfl⟩ := hp
    exact h.append hB hD rfl (fun s' k hk hl hle => by rw [hk]; exact B.setCharsFrom_ok hl hle hsrc)
      fun t' k hk hl hle => by rw [hk]; exact D.setCharsFrom_ok hl hle hsrc

/-! ### All of them -/

theorem move {m : Move} (hm : (Use.move m).Fair (c.indices s) (c.capacity s)) :
    B.AnswersUnless D ((Use.move m).Endless (c.indices s) (c.capacity s)) (c.move m s) (d.move m t) := by
  cases m with
  | readerIndex index => exact (h.setReaderIndex index).alike
  | writerIndex index => exact (h.setWriterIndex hm).alike
  | markReaderIndex =>
    rw [CharBuf.move, CharBuf.move, markReaderIndex, markReaderIndex, h.agree.readerIndex, ← h.agree.indices]
    exact .ok () (h.mark rfl rfl rfl)
  | resetReaderIndex =>
    rw [CharBuf.move, CharBuf.move, resetReaderIndex, resetReaderIndex, ← h.agree.indices]
    exact (h.setReaderIndex _).alike
  | markWriterIndex =>
    rw [CharBuf.move, CharBuf.move, markWriterIndex, markWriterIndex, h.agree.writerIndex, ← h.agree.indices]
    exact .ok () (h.mark rfl rfl rfl)
  | resetWriterIndex =>
    rw [CharBuf.move, CharBuf.move, resetWriterIndex, resetWriterIndex, ← h.agree.indices]
    exact (h.setWriterIndex hm).alike
  | skipBytes n => exact (h.skipBytes hm.1 hm.2).alike
  | read g => exact ((h.read hm.1 hm.2).map fun _ => ()).alike
  | write p =>
    obtain ⟨bs, hp⟩ := hm
    refine (h.write hB hD hp).mono fun hE => ?_
    have h1 : c.capacity s - (c.indices s).writerIndex_ < p.size := hE.1
    have h2 : p.size ≤ (c.indices s).maxCapacity_ - (c.indices s).writerIndex_ := hE.2.1
    exact ⟨by omega, by omega, hE.2.2⟩
  | capacity n =>
    obtain ⟨s', t', e, e', hM, -⟩ := h.setCapacity hB hD hm.1 hm.2
    rw [CharBuf.move, CharBuf.move, e, e']
    exact .ok () hM
  | discardReadBytes => exact (h.discardReadBytes hm).alike
  | discardSomeReadBytes => exact (h.discardSomeReadBytes hm).alike

/-- A fair call has the same answer on both buffers. -/
theorem use {u : Use} (hu : u.Fair (c.indices s) (c.capacity s)) :
    B.AnswersUnless D (u.Endless (c.indices s) (c.capacity s)) (c.use u s) (d.use u t) := by
  cases u with
  | move m => exact (h.move hB hD hu).map fun _ => none
  | read g => exact ((h.read hu.1 hu.2).map some).alike
  | getAt g index => exact ((h.getAt hu).map some).alike
  | setAt p index =>
    obtain ⟨bs, hp, hi⟩ := hu
    exact ((h.setAt hp hi).map fun _ => none).alike

end Matched

/-! ## Buffers of which more is known -/

/-- A buffer of which more is known, if the calls keep it. -/
def restrict (B : Store c) (Q : σ → Prop)
    (hi : ∀ {i s}, i.maxCapacity_ = c.maxCapacity s → Q s → Q (c.setIndices i s))
    (hp : ∀ {i : Nat} {bs : List UInt8} {s}, (i + bs.length : Nat) ≤ c.capacity s → Q s → Q (B.put i bs s))
    (hc : ∀ {n s s'}, 0 ≤ n → n ≤ intMax → c.setCapacity n s = .ok () s' → Q s → Q s') : Store c where
  Live s := B.Live s ∧ Q s
  byte := B.byte
  put := B.put
  capacity_nonneg h := B.capacity_nonneg h.1
  capacity_le h := B.capacity_le h.1
  indices_setIndices := B.indices_setIndices
  capacity_setIndices := B.capacity_setIndices
  byte_setIndices := B.byte_setIndices
  live_setIndices hm h := ⟨B.live_setIndices hm h.1, hi hm h.2⟩
  indices_put := B.indices_put
  capacity_put := B.capacity_put
  byte_put h := B.byte_put h.1
  live_put h hn := ⟨B.live_put h.1 hn, hp hn h.2⟩
  set_ok h := B.set_ok h.1
  get_ok h := B.get_ok h.1
  _setChars_ok h := B._setChars_ok h.1
  _getString_ok h := B._getString_ok h.1
  setChars_ok h := B.setChars_ok h.1
  getChars_ok h := B.getChars_ok h.1
  setCharsFrom_ok h := B.setCharsFrom_ok h.1
  setCharsSelf_eq h := B.setCharsSelf_eq h.1
  grow_ok h hn hm hmax := by
    obtain ⟨s', e, hl, hs⟩ := B.grow_ok h.1 hn hm hmax
    have h0 := B.capacity_nonneg h.1
    exact ⟨s', e, ⟨hl, hc (by omega) hmax e h.2⟩, hs⟩

section

variable {Q : σ → Prop} {hi : ∀ {i s}, i.maxCapacity_ = c.maxCapacity s → Q s → Q (c.setIndices i s)}
  {hp : ∀ {i : Nat} {bs : List UInt8} {s}, (i + bs.length : Nat) ≤ c.capacity s → Q s → Q (B.put i bs s)}
  {hc : ∀ {n s s'}, 0 ≤ n → n ≤ intMax → c.setCapacity n s = .ok () s' → Q s → Q s'}

theorem Resizes.restrict (h : B.Resizes) : (B.restrict Q hi hp hc).Resizes where
  setCapacity_ok hs h0 hn := by
    obtain ⟨s', e, hl, hk⟩ := h.setCapacity_ok ⟨hs.toInOrder, hs.live.1, hs.max_le⟩ h0 hn
    exact ⟨s', e, ⟨hl, hc h0 (hn.trans hs.max_le) e hs.live.2⟩, hk⟩

theorem Matched.restrict (h : B.Matched D s t) (hq : Q s) : (B.restrict Q hi hp hc).Matched D s t :=
  ⟨h.toInOrder, { h.agree with live := ⟨h.agree.live, hq⟩ }, h.max_le⟩

theorem Matched.of_restrict (h : (B.restrict Q hi hp hc).Matched D s t) : B.Matched D s t ∧ Q s :=
  ⟨⟨h.toInOrder, { h.agree with live := h.agree.live.1 }, h.max_le⟩, h.agree.live.2⟩

end

end Store

end CharBuf

end Nio.Buffer
