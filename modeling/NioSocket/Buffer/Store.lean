import NioSocket.Buffer.UnpooledHeap

/-!
# Buffers as arrays of bytes

`CharBuf.Store` is what the virtual functions of a buffer do within its capacity, whatever
the buffer keeps its bytes in: there is a memory, and putting bytes at an index changes
nothing else. `Sliced` is a buffer that is a range of another, `AbstractUnpooledSlicedCharBuf`
and `PooledSlicedCharBuf`; a slice within the capacity of a buffer that is a `Store` is one
again (`Store.sliced`).
-/

namespace Nio.Buffer

variable {σ : Type}

/-- The range of `length` bytes at `index` is in a buffer of `capacity` bytes. -/
def Within (index length capacity : Int) : Prop := 0 ≤ index ∧ 0 ≤ length ∧ index + length ≤ capacity

instance (index length capacity : Int) : Decidable (Within index length capacity) :=
  inferInstanceAs (Decidable (_ ∧ _ ∧ _))

namespace CharBuf

/-- The bytes of a buffer, of which `byte s k` is byte `k`, and what its functions do to them
within its capacity. -/
structure Store (c : CharBuf σ) where
  /-- The buffer is in use. -/
  Live : σ → Prop
  byte : σ → Mem
  /-- The buffer with the bytes `bs` at an index. -/
  put : Nat → List UInt8 → σ → σ
  capacity_nonneg {s : σ} : Live s → 0 ≤ c.capacity s
  capacity_le {s : σ} : Live s → c.capacity s ≤ intMax
  indices_setIndices (i : Indices) (s : σ) : c.indices (c.setIndices i s) = i
  capacity_setIndices {i : Indices} {s : σ} : i.maxCapacity_ = c.maxCapacity s →
    c.capacity (c.setIndices i s) = c.capacity s
  byte_setIndices (i : Indices) (s : σ) : byte (c.setIndices i s) = byte s
  live_setIndices {i : Indices} {s : σ} : i.maxCapacity_ = c.maxCapacity s → Live s → Live (c.setIndices i s)
  indices_put (i : Nat) (bs : List UInt8) (s : σ) : c.indices (put i bs s) = c.indices s
  capacity_put (i : Nat) (bs : List UInt8) (s : σ) : c.capacity (put i bs s) = c.capacity s
  byte_put {i : Nat} {bs : List UInt8} {s : σ} : Live s → (i + bs.length : Nat) ≤ c.capacity s →
    byte (put i bs s) = (byte s).write i bs
  live_put {i : Nat} {bs : List UInt8} {s : σ} : Live s → (i + bs.length : Nat) ≤ c.capacity s →
    Live (put i bs s)
  set_ok {i : Nat} {bs : List UInt8} {s : σ} : Live s → (i + bs.length : Nat) ≤ c.capacity s →
    c._set i bs s = .ok () (put i bs s)
  get_ok {i n : Nat} {s : σ} : Live s → (i + n : Nat) ≤ c.capacity s →
    c._get i n s = .ok ((byte s).read i n) s
  _setChars_ok {i n : Nat} {src : List UInt8} {s : σ} : Live s → (i + n : Nat) ≤ c.capacity s → n ≤ src.length →
    c._setChars i src n s = .ok () (put i (src.take n) s)
  _getString_ok {i n : Nat} {s : σ} : Live s → (i + n : Nat) ≤ c.capacity s →
    c._getString i n s = .ok ((byte s).read i n) s
  setChars_ok {i n : Nat} {src : List UInt8} {s : σ} : Live s → (i + n : Nat) ≤ c.capacity s → n ≤ src.length →
    c.setChars i src n s = .ok () (put i (src.take n) s)
  getChars_ok {i n : Nat} {s : σ} : Live s → (i + n : Nat) ≤ c.capacity s →
    c.getChars i n s = .ok ((byte s).read i n) s
  setCharsFrom_ok {i : Nat} {bs : List UInt8} {src : Source} {srcIndex : Int} {s : σ} : Live s →
    (i + bs.length : Nat) ≤ c.capacity s → src srcIndex bs.length = .ok bs () →
    c.setCharsFrom i src srcIndex bs.length s = .ok () (put i bs s)
  /-- A range of the buffer is copied to one that it does not overlap. -/
  setCharsSelf_eq {i j n : Nat} {s : σ} : Live s → (i + n : Nat) ≤ c.capacity s → (j + n : Nat) ≤ c.capacity s →
    c.setCharsSelf i j n s = if i + n ≤ j ∨ j + n ≤ i then .ok () (put i ((byte s).read j n) s) else .ub
  grow_ok {n : Int} {s : σ} : Live s → c.capacity s < n → n ≤ c.maxCapacity s → n ≤ intMax →
    ∃ s', c.setCapacity n s = .ok () s' ∧ Live s' ∧ c.indices s' = c.indices s ∧ c.capacity s' = n ∧
      ∀ k : Nat, (k : Int) < c.capacity s → byte s' k = byte s k

theorem checkRangeBounds_within {index length capacity : Int} (hi : i32 index = index) (hl : i32 length = length)
    (hc : 0 ≤ capacity) (hc' : capacity ≤ intMax) (s : σ) : checkRangeBounds index length capacity s =
      if Within index length capacity then .ok () s else .throw "checkRangeBounds failed" s := by
  unfold intMax at hc'
  rw [checkRangeBounds_eq hi hl (i32_eq (by omega) hc') hc]
  rfl

end CharBuf

/-! ## A buffer with an array of its own -/

namespace UnpooledHeapCharBuf

variable {b : UnpooledHeapCharBuf} {i n : Nat} {bs : List UInt8}

theorem poke_ok (h : (i + bs.length : Nat) ≤ b.capacity_) :
    poke i bs b = .ok () { b with array_ := b.array_.write i bs } := by
  rw [poke, if_pos (by omega)]
  rfl

theorem peek_ok (h : (i + n : Nat) ≤ b.capacity_) : peek i n b = .ok (b.array_.read i n) b := by
  rw [peek, if_pos (by omega)]
  rfl

theorem pokeSome_ok {src : List UInt8} (h : (i + n : Nat) ≤ b.capacity_) (hn : n ≤ src.length) :
    pokeSome i src n b = .ok () { b with array_ := b.array_.write i (src.take n) } := by
  rw [pokeSome, if_pos (by omega), Int.toNat_natCast, poke_ok (by rw [List.length_take]; omega)]

theorem checkIndex_eq {index length : Int} (hc : 0 ≤ b.capacity_) (hc' : b.capacity_ ≤ intMax)
    (hi : i32 index = index) (hl : i32 length = length) : checkIndex index length b =
      if Within index length b.capacity_ then .ok () b else .throw "checkRangeBounds failed" b :=
  CharBuf.checkRangeBounds_within hi hl hc hc' b

theorem checkIndex_ok (hc' : b.capacity_ ≤ intMax) (h : (i + n : Nat) ≤ b.capacity_) :
    checkIndex i n b = .ok () b := by
  unfold intMax at hc'
  rw [checkIndex_eq (by omega) hc' (i32_eq (by omega) (by omega)) (i32_eq (by omega) (by omega)),
    if_pos ⟨by omega, by omega, by omega⟩]

theorem getString_ok (h : (i + n : Nat) ≤ b.capacity_) :
    charBuf._getString i n b = .ok (b.array_.read i n) b := by
  show (if (n : Int) < 0 then .throw "basic_string::assign" b else peek i n b) = _
  rw [if_neg (by omega), peek_ok h]

theorem setChars_ok {src : List UInt8} (hc' : b.capacity_ ≤ intMax) (h : (i + n : Nat) ≤ b.capacity_)
    (hn : n ≤ src.length) :
    charBuf.setChars i src n b = .ok () { b with array_ := b.array_.write i (src.take n) } := by
  show (checkIndex _ _ _).bind _ = _
  rw [checkIndex_ok hc' h]
  exact pokeSome_ok h hn

theorem getChars_ok (hc' : b.capacity_ ≤ intMax) (h : (i + n : Nat) ≤ b.capacity_) :
    charBuf.getChars i n b = .ok (b.array_.read i n) b := by
  show (checkIndex _ _ _).bind _ = _
  rw [checkIndex_ok hc' h]
  exact peek_ok h

theorem setCharsFrom_ok {src : Source} {srcIndex : Int} {u : Unit} (h : (i + bs.length : Nat) ≤ b.capacity_)
    (e : src srcIndex bs.length = .ok bs u) :
    charBuf.setCharsFrom i src srcIndex bs.length b = .ok () { b with array_ := b.array_.write i bs } := by
  show setCharsFrom _ _ _ _ _ = _
  simp only [setCharsFrom, e]
  exact poke_ok h

theorem setCharsSelf_eq {j : Nat} (hc' : b.capacity_ ≤ intMax) (h : (i + n : Nat) ≤ b.capacity_)
    (h' : (j + n : Nat) ≤ b.capacity_) : charBuf.setCharsSelf i j n b =
      if i + n ≤ j ∨ j + n ≤ i then .ok () { b with array_ := b.array_.write i (b.array_.read j n) } else .ub := by
  show ((checkIndex j n b).bind fun _ => peek j n).bind _ = _
  rw [checkIndex_ok hc' h', Outcome.bind_ok, peek_ok h', Outcome.bind_ok]
  by_cases hd : i + n ≤ j ∨ j + n ≤ i
  · rw [if_pos hd, if_pos (by omega)]
    exact poke_ok (by rw [Mem.length_read]; exact h)
  · rw [if_neg hd, if_neg (by omega)]

theorem grow_ok {n : Int} (hc : 0 ≤ b.capacity_) (h : b.capacity_ < n) (hn : n ≤ intMax) :
    ∃ b', charBuf.setCapacity n b = .ok () b' ∧ (0 ≤ b'.capacity_ ∧ b'.capacity_ ≤ intMax) ∧
      charBuf.indices b' = charBuf.indices b ∧ charBuf.capacity b' = n ∧
      ∀ k : Nat, (k : Int) < b.capacity_ → b'.array_ k = b.array_ k := by
  refine ⟨_, Sound.setCapacity_grow h, ⟨by show (0 : Int) ≤ n; omega, hn⟩, rfl, rfl, fun k hk => ?_⟩
  exact if_pos (by omega)

/-- The array is the memory. -/
def store : CharBuf.Store charBuf where
  Live b := 0 ≤ b.capacity_ ∧ b.capacity_ ≤ intMax
  byte b := b.array_
  put i bs b := { b with array_ := b.array_.write i bs }
  capacity_nonneg h := h.1
  capacity_le h := h.2
  indices_setIndices _ _ := rfl
  capacity_setIndices _ := rfl
  byte_setIndices _ _ := rfl
  live_setIndices _ h := h
  indices_put _ _ _ := rfl
  capacity_put _ _ _ := rfl
  byte_put _ _ := rfl
  live_put h _ := h
  set_ok _ h := poke_ok h
  get_ok _ h := peek_ok h
  _setChars_ok _ h hn := pokeSome_ok h hn
  _getString_ok _ h := getString_ok h
  setChars_ok hL h hn := setChars_ok hL.2 h hn
  getChars_ok hL h := getChars_ok hL.2 h
  setCharsFrom_ok _ h e := setCharsFrom_ok h e
  setCharsSelf_eq hL h h' := setCharsSelf_eq hL.2 h h'
  grow_ok hL h _ hn := grow_ok hL.1 h hn

end UnpooledHeapCharBuf

end Nio.Buffer
