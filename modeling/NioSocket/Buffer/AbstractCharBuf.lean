import NioSocket.Lib.Outcome
import NioSocket.Lib.MachineInt
import NioSocket.Lib.Mem

/-!
# The member functions every buffer shares

`AbstractCharBuf`, over the virtual functions a concrete buffer supplies
(`CharBuf`). Indices and lengths are `int`s, and wrap as they do in the compiled
code. A typed value travels as its big-endian bytes, which is what `_setShort`,
`_getShort` and the like put into and take out of the memory of a heap buffer; a
`float` or a `double` is its bit pattern.
-/

namespace Nio.Buffer

/-- The data members of `AbstractCharBuf`. -/
structure Indices where
  readerIndex_ : Int
  writerIndex_ : Int
  markedReaderIndex_ : Int
  markedWriterIndex_ : Int
  maxCapacity_ : Int
  deriving DecidableEq, Repr

namespace Indices

/-- `AbstractCharBuf(maxCapacity)`. -/
def init (maxCapacity : Int) : Indices := ⟨0, 0, 0, 0, maxCapacity⟩

/-- `adjustMarkers(decrement)`. -/
def adjustMarkers (i : Indices) (decrement : Int) : Indices :=
  if i.markedReaderIndex_ ≤ decrement then
    { i with
      markedReaderIndex_ := 0
      markedWriterIndex_ :=
        if i.markedWriterIndex_ ≤ decrement then 0 else i32 (i.markedWriterIndex_ - decrement) }
  else
    { i with
      markedReaderIndex_ := i32 (i.markedReaderIndex_ - decrement)
      markedWriterIndex_ := i32 (i.markedWriterIndex_ - decrement) }

@[simp] theorem adjustMarkers_readerIndex_ (i : Indices) (d : Int) :
    (i.adjustMarkers d).readerIndex_ = i.readerIndex_ := by
  unfold adjustMarkers; split <;> rfl

@[simp] theorem adjustMarkers_writerIndex_ (i : Indices) (d : Int) :
    (i.adjustMarkers d).writerIndex_ = i.writerIndex_ := by
  unfold adjustMarkers; split <;> rfl

@[simp] theorem adjustMarkers_maxCapacity_ (i : Indices) (d : Int) :
    (i.adjustMarkers d).maxCapacity_ = i.maxCapacity_ := by
  unfold adjustMarkers; split <;> rfl

end Indices

/-- Another buffer a call copies from: what its `getChars` does. -/
abbrev Source := Int → Int → Outcome Unit (List UInt8)

/-- The virtual functions of a buffer in state `σ`. -/
structure CharBuf (σ : Type) where
  indices : σ → Indices
  setIndices : Indices → σ → σ
  capacity : σ → Int
  setCapacity : Int → Method σ Unit
  /-- `_setChar`, `_setShort`, …: the bytes of a value, at an index. -/
  _set : Int → List UInt8 → Method σ Unit
  /-- `_getChar`, `_getShort`, …: the bytes of a value of some size. -/
  _get : Int → Nat → Method σ (List UInt8)
  /-- `_setChars(index, src, len)`, `src` the bytes at the pointer. -/
  _setChars : Int → List UInt8 → Int → Method σ Unit
  _getString : Int → Int → Method σ (List UInt8)
  /-- `setChars(index, src, srcIndex, length)`, `src` the bytes from `srcIndex` on. -/
  setChars : Int → List UInt8 → Int → Method σ Unit
  /-- `setChars(index, src, srcIndex, length)` from another buffer. -/
  setCharsFrom : Int → Source → Int → Int → Method σ Unit
  /-- `setChars(index, *this, srcIndex, length)`. -/
  setCharsSelf : Int → Int → Int → Method σ Unit
  getChars : Int → Int → Method σ (List UInt8)

namespace CharBuf

variable {σ : Type} (c : CharBuf σ)

/-- `readerIndex()`. -/
def readerIndex (s : σ) : Int := (c.indices s).readerIndex_

/-- `writerIndex()`. -/
def writerIndex (s : σ) : Int := (c.indices s).writerIndex_

/-- `maxCapacity()`. -/
def maxCapacity (s : σ) : Int := (c.indices s).maxCapacity_

/-- `isReadable()`. -/
def isReadable (s : σ) : Bool := c.readerIndex s < c.writerIndex s

/-- `isWritable()`. -/
def isWritable (s : σ) : Bool := c.writerIndex s < c.capacity s

/-- `readableBytes()`. -/
def readableBytes (s : σ) : Int := i32 (c.writerIndex s - c.readerIndex s)

/-- `writableBytes()`. -/
def writableBytes (s : σ) : Int := i32 (c.capacity s - c.writerIndex s)

/-- `setIndex0(readerIndex, writerIndex)`. -/
def setIndex0 (r w : Int) (s : σ) : σ :=
  c.setIndices { c.indices s with readerIndex_ := r, writerIndex_ := w } s

/-! ## Checks -/

/-- `checkIndexBounds(readerIndex, writerIndex, capacity)`. -/
def checkIndexBounds (readerIndex writerIndex capacity : Int) : Method σ Unit :=
  if readerIndex < 0 ∨ readerIndex > writerIndex ∨ writerIndex > capacity then
    .throw "checkIndexBounds failed" else pure ()

theorem checkIndexBounds_ok {readerIndex writerIndex capacity : Int} (h0 : 0 ≤ readerIndex)
    (h : readerIndex ≤ writerIndex) (h' : writerIndex ≤ capacity) (s : σ) :
    checkIndexBounds readerIndex writerIndex capacity s = .ok () s := by
  rw [checkIndexBounds, if_neg (by omega), Method.pure_apply]

/-- `checkRangeBounds`: the sign of the `or` of four words. -/
def checkRangeBounds (index fieldLength capacity : Int) : Method σ Unit :=
  let bits := fun x : Int => BitVec.ofInt 32 x
  if (bits index ||| bits fieldLength ||| bits (index + fieldLength) |||
      bits (capacity - i32 (index + fieldLength))).toInt < 0 then
    .throw "checkRangeBounds failed" else pure ()

theorem i32_lt_zero_iff (x : Int) : (BitVec.ofInt 32 x).msb = decide (i32 x < 0) := by
  rw [BitVec.msb_eq_toInt, BitVec.toInt_ofInt]
  refine decide_eq_decide.mpr ?_
  simp only [Int.bmod, i32]
  omega

/-- What the test of the signs comes to. -/
theorem checkRangeBounds_eq {index fieldLength capacity : Int} (hi : i32 index = index)
    (hf : i32 fieldLength = fieldLength) (hc : i32 capacity = capacity) (hc0 : 0 ≤ capacity) (s : σ) :
    checkRangeBounds index fieldLength capacity s =
      if 0 ≤ index ∧ 0 ≤ fieldLength ∧ index + fieldLength ≤ capacity then .ok () s
      else .throw "checkRangeBounds failed" s := by
  have hneg : ∀ x : BitVec 32, x.toInt < 0 ↔ x.msb = true := fun x => by
    rw [BitVec.msb_eq_toInt, decide_eq_true_eq]
  simp only [checkRangeBounds, hneg, BitVec.msb_or, Bool.or_eq_true, i32_lt_zero_iff, decide_eq_true_eq,
    hi, hf]
  rw [Method.ite_apply]
  by_cases h : 0 ≤ index ∧ 0 ≤ fieldLength ∧ index + fieldLength ≤ capacity
  · rw [if_pos h, if_neg, Method.pure_apply]
    unfold i32 at *
    omega
  · rw [if_neg h, if_pos, Method.throw_apply]
    unfold i32 at *
    omega

/-- Of an index that may be anything, the test accepts none that is negative. -/
theorem checkRangeBounds_nonneg (index fieldLength capacity : Int) (s : σ) :
    checkRangeBounds index fieldLength capacity s = .throw "checkRangeBounds failed" s ∨
      checkRangeBounds index fieldLength capacity s = .ok () s ∧ 0 ≤ i32 index := by
  have hneg : ∀ x : BitVec 32, x.toInt < 0 ↔ x.msb = true := fun x => by
    rw [BitVec.msb_eq_toInt, decide_eq_true_eq]
  simp only [checkRangeBounds, hneg, BitVec.msb_or, Bool.or_eq_true, i32_lt_zero_iff, decide_eq_true_eq]
  rw [Method.ite_apply]
  split
  · exact .inl rfl
  · exact .inr ⟨rfl, by omega⟩

/-- `checkIndex(index, fieldLength)`: against the capacity. -/
def checkIndex (index fieldLength : Int) : Method σ Unit := fun s =>
  checkRangeBounds index fieldLength (c.capacity s) s

/-- `checkReadable(minimumReadableBytes)`. The sum wraps, and a negative length passes. -/
def checkReadable (minimumReadableBytes : Int) : Method σ Unit := fun s =>
  if i32 (c.readerIndex s + minimumReadableBytes) > c.writerIndex s then
    .throw "readerIndex + length exceeds writerIndex" s else .ok () s

/-! ## Growing -/

/-- `CommUtil::roundUpPower2`, in `size_t`; `MAXIMUM_CAPACITY` is the `int` `1 << 31`. -/
def roundUpPower2 (cap : Nat) : Nat :=
  let n := smear ((cap + (2 ^ 64 - 1)) % 2 ^ 64)
  if n ≤ 0 then 1 else if n ≥ 2 ^ 64 - 2 ^ 31 then 2 ^ 64 - 2 ^ 31 else (n + 1) % 2 ^ 64

/-- `for(; newCapacity < minNewCapacity; newCapacity <<= 1);` in `fuel` rounds. An
`int` is `0` after 32 shifts, and stays so. -/
def growLoop : Nat → Int → Int → Option Int
  | 0, _, _ => none
  | fuel + 1, newCapacity, minNewCapacity =>
    if newCapacity < minNewCapacity then growLoop fuel (i32 (newCapacity * 2)) minNewCapacity
    else some newCapacity

/-- Doubling from a power of two reaches any capacity an `int` power of two can hold. -/
theorem growLoop_pow {k d : Nat} (hk : k + d = 30) {fuel : Nat} (hf : d < fuel) {m : Int}
    (hm : m ≤ 2 ^ 30) : ∃ j, k ≤ j ∧ j ≤ 30 ∧ m ≤ 2 ^ j ∧ growLoop fuel (2 ^ k) m = some (2 ^ j) := by
  induction d generalizing k fuel with
  | zero =>
    obtain ⟨f, rfl⟩ : ∃ f, fuel = f + 1 := ⟨fuel - 1, by omega⟩
    obtain rfl : k = 30 := hk
    exact ⟨30, le_refl _, le_refl _, hm, by rw [growLoop, if_neg (by omega)]⟩
  | succ d ih =>
    obtain ⟨f, rfl⟩ : ∃ f, fuel = f + 1 := ⟨fuel - 1, by omega⟩
    rw [growLoop]
    split
    · have hle : (2 : Int) ^ (k + 1) ≤ 2 ^ 30 := mod_cast Nat.pow_le_pow_right (by decide) (by omega)
      have hpos : (0 : Int) < 2 ^ (k + 1) := Int.pow_pos (by decide)
      rw [← Int.pow_succ, i32_eq (by omega) (by omega)]
      obtain ⟨j, h1, h2, h3, h4⟩ := ih (k := k + 1) (by omega) (show d < f by omega)
      exact ⟨j, by omega, h2, h3, h4⟩
    · exact ⟨k, le_refl _, by omega, by omega, rfl⟩

theorem growLoop_zero (fuel : Nat) {m : Int} (hm : 0 < m) : growLoop fuel 0 m = none := by
  induction fuel with
  | zero => rfl
  | succ f ih => rw [growLoop, if_pos hm]; exact ih

/-- From the least `int`, the loop ends at `0`. -/
theorem growLoop_min (fuel : Nat) {m : Int} (hm : 0 < m) : growLoop fuel (-2 ^ 31) m = none := by
  cases fuel with
  | zero => rfl
  | succ f =>
    have h : i32 (-2 ^ 31 * 2) = 0 := by decide
    rw [growLoop, if_pos (by omega), h]
    exact growLoop_zero f hm

/-- A capacity no `int` power of two holds is never reached. -/
theorem growLoop_hang {k d : Nat} (hk : k + d = 30) (fuel : Nat) {m : Int} (hm : 2 ^ 30 < m) :
    growLoop fuel (2 ^ k) m = none := by
  induction d generalizing k fuel with
  | zero =>
    obtain rfl : k = 30 := hk
    cases fuel with
    | zero => rfl
    | succ f =>
      have h : i32 (2 ^ 30 * 2) = -2 ^ 31 := by decide
      rw [growLoop, if_pos (by omega), h]
      exact growLoop_min f (by omega)
  | succ d ih =>
    cases fuel with
    | zero => rfl
    | succ f =>
      have hle : (2 : Int) ^ (k + 1) ≤ 2 ^ 30 := mod_cast Nat.pow_le_pow_right (by decide) (by omega)
      have hpos : (0 : Int) < 2 ^ (k + 1) := Int.pow_pos (by decide)
      rw [growLoop, if_pos (by rw [Int.pow_succ] at hle; omega), ← Int.pow_succ,
        i32_eq (by omega) (by omega)]
      exact ih (by omega) f

theorem roundUpPower2_eq {cap : Nat} (h1 : 1 ≤ cap) (h : cap ≤ 2 ^ 31) :
    roundUpPower2 cap = roundUp cap := by
  have hle := roundUp_le h
  have hs := smear_succ h1 (by omega : cap ≤ 2 ^ 32)
  have e : (cap + (2 ^ 64 - 1)) % 2 ^ 64 = cap - 1 := by omega
  simp only [roundUpPower2, e]
  split <;> [skip; split] <;> omega

/-- The loop of `calculateNewCapacity` starts at a power of two. -/
theorem roundUpPower2_int {capacity : Int} (h0 : 0 < capacity) (h : capacity ≤ 2 ^ 30) :
    ∃ k : Nat, k ≤ 30 ∧ capacity ≤ 2 ^ k ∧ i32 (roundUpPower2 (capacity % 2 ^ 64).toNat) = 2 ^ k := by
  obtain ⟨c, rfl⟩ : ∃ c : Nat, capacity = c := ⟨capacity.toNat, by omega⟩
  have e : ((c : Int) % 2 ^ 64).toNat = c := by omega
  have hr : roundUp c ≤ 2 ^ 30 := roundUp_le (by omega)
  have hcr := le_roundUp c
  have hs : (c - 1).size ≤ 30 := Nat.size_le.mpr (by omega)
  have hcc : (c : Int) ≤ 2 ^ (c - 1).size := mod_cast hcr
  refine ⟨(c - 1).size, hs, by omega, ?_⟩
  rw [e, roundUpPower2_eq (by omega) (by omega), i32_eq (by omega) (by omega), roundUp]
  push_cast
  rfl

/-- No capacity, or one above the largest power of two that is an `int`, is rounded to the
least `int`. -/
theorem roundUpPower2_min {capacity : Int} (h : capacity = 0 ∨ 2 ^ 30 < capacity ∧ capacity ≤ intMax) :
    i32 (roundUpPower2 (capacity % 2 ^ 64).toNat) = -2 ^ 31 := by
  rcases h with rfl | ⟨h1, h2⟩
  · decide
  · unfold intMax at h2
    obtain ⟨c, rfl⟩ : ∃ c : Nat, capacity = c := ⟨capacity.toNat, by omega⟩
    have e : ((c : Int) % 2 ^ 64).toNat = c := by omega
    have hlt : 2 ^ 30 < roundUp c := Nat.lt_of_lt_of_le (by omega) (le_roundUp c)
    have hpow : roundUp c = 2 ^ 31 := by
      refine roundUp_eq_of_le (by omega) ?_
      exact Nat.pow_le_pow_right (by decide) ((Nat.pow_lt_pow_iff_right (by decide)).mp hlt)
    rw [e, roundUpPower2_eq (by omega) (by omega), hpow]
    decide

/-- `calculateNewCapacity(minNewCapacity, maxCapacity)`. The loop may not end. -/
def calculateNewCapacity (minNewCapacity maxCapacity : Int) : Method σ Int := fun s =>
  if minNewCapacity > maxCapacity then
    .throw "minNewCapacity expected: not greater than maxCapacity" s
  else
    match growLoop 34 (i32 (roundUpPower2 (c.capacity s % 2 ^ 64).toNat)) minNewCapacity with
    | some newCapacity => .ok (min newCapacity maxCapacity) s
    | none => .hang

/-- `ensureWritable(minWritableBytes)`. -/
def ensureWritable (minWritableBytes : Int) : Method σ Unit := fun s =>
  if minWritableBytes > c.writableBytes s then
    if minWritableBytes > i32 (c.maxCapacity s - c.writerIndex s) then
      .throw "writerIndex exceeds maxCapacity" s
    else (c.calculateNewCapacity (i32 (c.writerIndex s + minWritableBytes)) (c.maxCapacity s) s).bind
      c.setCapacity
  else .ok () s

/-! ## Indices -/

/-- `readerIndex(index)`, which is checked against `maxCapacity()`. -/
def setReaderIndex (index : Int) : Method σ Unit := fun s =>
  (checkIndexBounds index (c.writerIndex s) (c.maxCapacity s) s).bind
    fun _ => .modify (c.setIndex0 index (c.writerIndex s))

/-- `writerIndex(index)`, which is too. -/
def setWriterIndex (index : Int) : Method σ Unit := fun s =>
  (checkIndexBounds (c.readerIndex s) index (c.maxCapacity s) s).bind
    fun _ => .modify (c.setIndex0 (c.readerIndex s) index)

/-- `readerIndex_ += n`. -/
def advanceReader (n : Int) : Method σ Unit := fun s =>
  .ok () (c.setIndex0 (i32 (c.readerIndex s + n)) (c.writerIndex s) s)

/-- `writerIndex_ += n`. -/
def advanceWriter (n : Int) : Method σ Unit := fun s =>
  .ok () (c.setIndex0 (c.readerIndex s) (i32 (c.writerIndex s + n)) s)

/-- `skipBytes(n)`. -/
def skipBytes (n : Int) : Method σ Unit := do
  c.checkReadable n
  c.advanceReader n

/-- `markReaderIndex()`. -/
def markReaderIndex : Method σ Unit := fun s =>
  .ok () (c.setIndices { c.indices s with markedReaderIndex_ := c.readerIndex s } s)

/-- `resetReaderIndex()`. -/
def resetReaderIndex : Method σ Unit := fun s => c.setReaderIndex (c.indices s).markedReaderIndex_ s

/-- `markWriterIndex()`. -/
def markWriterIndex : Method σ Unit := fun s =>
  .ok () (c.setIndices { c.indices s with markedWriterIndex_ := c.writerIndex s } s)

/-- `resetWriterIndex()`. -/
def resetWriterIndex : Method σ Unit := fun s => c.setWriterIndex (c.indices s).markedWriterIndex_ s

/-! ## Typed values -/

/-- A typed write of the value with bytes `bs`. -/
def writeValue (bs : List UInt8) : Method σ Unit := do
  c.ensureWritable bs.length
  fun s => c._set (c.writerIndex s) bs s
  c.advanceWriter bs.length

/-- A typed read of `n` bytes. -/
def readValue (n : Nat) : Method σ (List UInt8) := do
  c.checkReadable n
  let bs ← fun s => c._get (c.readerIndex s) n s
  c.advanceReader n
  pure bs

/-- A typed `set` at an index that is checked. -/
def setValue (index : Int) (bs : List UInt8) : Method σ Unit := do
  c.checkIndex index bs.length
  c._set index bs

/-- A typed `get` of `n` bytes, at an index that is checked. -/
def getValue (index : Int) (n : Nat) : Method σ (List UInt8) := do
  c.checkIndex index n
  c._get index n

/-- The types of the typed accessors. -/
inductive Ty
  | char | short | ushort | int | uint | long | ulong
  deriving DecidableEq, Repr

/-- `sizeof`. -/
def Ty.size : Ty → Nat
  | .char => 1 | .short => 2 | .ushort => 2 | .int => 4 | .uint => 4 | .long => 8 | .ulong => 8

/-- The bytes of a value, as `HeapCharBufUtil::setShort` and the like store them. -/
def Ty.encode (t : Ty) (v : Int) : List UInt8 := beBytes t.size (v % 256 ^ t.size).toNat

/-- The value of some bytes, as `HeapCharBufUtil::getShort` and the like give it. -/
def Ty.decode : Ty → List UInt8 → Int
  | .ushort, bs | .uint, bs | .ulong, bs => beVal bs
  | t, bs => signed (8 * t.size) (beVal bs)

theorem Ty.length_encode (t : Ty) (v : Int) : (t.encode v).length = t.size := length_beBytes _ _

/-- The `write` of a type. -/
def writeTyped (t : Ty) (v : Int) : Method σ Unit := c.writeValue (t.encode v)

/-- The `read` of a type. -/
def readTyped (t : Ty) : Method σ Int := do pure (t.decode (← c.readValue t.size))

/-- The `set` of a type. -/
def setTyped (t : Ty) (index v : Int) : Method σ Unit := c.setValue index (t.encode v)

/-- The `get` of a type. -/
def getTyped (t : Ty) (index : Int) : Method σ Int := do pure (t.decode (← c.getValue index t.size))

/-- `writeChar(v)`. -/
def writeChar := c.writeTyped .char

/-- `writeShort(value)`. -/
def writeShort := c.writeTyped .short

/-- `writeUShort(value)`. -/
def writeUShort := c.writeTyped .ushort

/-- `writeInt(value)`. -/
def writeInt := c.writeTyped .int

/-- `writeUInt(value)`. -/
def writeUInt := c.writeTyped .uint

/-- `writeLong(value)`. -/
def writeLong := c.writeTyped .long

/-- `writeULong(value)`. -/
def writeULong := c.writeTyped .ulong

/-- `writeBool(v)`: a `char`. -/
def writeBool (v : Bool) : Method σ Unit := c.writeChar (if v then 1 else 0)

/-- `writeFloat(value)`: the bits as an `int32_t`. -/
def writeFloat (bits : Int) : Method σ Unit := c.writeInt bits

/-- `writeDouble(value)`: the bits as an `int64_t`. -/
def writeDouble (bits : Int) : Method σ Unit := c.writeLong bits

/-- `readChar()`. -/
def readChar := c.readTyped .char

/-- `readShort()`. -/
def readShort := c.readTyped .short

/-- `readUShort()`. -/
def readUShort := c.readTyped .ushort

/-- `readInt()`. -/
def readInt := c.readTyped .int

/-- `readUInt()`. -/
def readUInt := c.readTyped .uint

/-- `readLong()`. -/
def readLong := c.readTyped .long

/-- `readULong()`. -/
def readULong := c.readTyped .ulong

/-- `readBool()`: a `char` that is not zero. -/
def readBool : Method σ Bool := do pure ((← c.readChar) != 0)

/-- `readFloat()`, as bits. -/
def readFloat : Method σ Int := c.readInt

/-- `readDouble()`, as bits. -/
def readDouble : Method σ Int := c.readLong

/-- `setChar(index, value)`. -/
def setChar := c.setTyped .char

/-- `setShort(index, value)`. -/
def setShort := c.setTyped .short

/-- `setUShort(index, value)`. -/
def setUShort := c.setTyped .ushort

/-- `setInt(index, value)`. -/
def setInt := c.setTyped .int

/-- `setUInt(index, value)`. -/
def setUInt := c.setTyped .uint

/-- `setLong(index, value)`. -/
def setLong := c.setTyped .long

/-- `setULong(index, value)`. -/
def setULong := c.setTyped .ulong

/-- `setBool(index, value)`: a `char`. -/
def setBool (index : Int) (v : Bool) : Method σ Unit := c.setChar index (if v then 1 else 0)

/-- `setFloat(index, value)`: the bits as an `int32_t`. -/
def setFloat (index bits : Int) : Method σ Unit := c.setInt index bits

/-- `setDouble(index, value)`: the bits as an `int64_t`. -/
def setDouble (index bits : Int) : Method σ Unit := c.setLong index bits

/-- `getChar(index)`. -/
def getChar := c.getTyped .char

/-- `getShort(index)`. -/
def getShort := c.getTyped .short

/-- `getUShort(index)`. -/
def getUShort := c.getTyped .ushort

/-- `getInt(index)`. -/
def getInt := c.getTyped .int

/-- `getUInt(index)`. -/
def getUInt := c.getTyped .uint

/-- `getLong(index)`. -/
def getLong := c.getTyped .long

/-- `getULong(index)`. -/
def getULong := c.getTyped .ulong

/-- `getBool(index)`: a `char` that is not zero. -/
def getBool (index : Int) : Method σ Bool := do pure ((← c.getChar index) != 0)

/-- `getFloat` and `getDouble` take their bytes from `_getInt` and `_getLong`,
which check nothing. -/
def getFloat (index : Int) : Method σ Int := do pure (Ty.int.decode (← c._get index 4))

/-- `getDouble(index)`, which checks nothing either. -/
def getDouble (index : Int) : Method σ Int := do pure (Ty.long.decode (← c._get index 8))

/-! ## Bytes and strings -/

/-- `writeChars(src, length)`, `src` the bytes at the pointer. -/
def writeChars (src : List UInt8) (length : Int) : Method σ Unit := do
  c.ensureWritable length
  fun s => c._setChars (c.writerIndex s) src length s
  c.advanceWriter length

/-- `writeString(value)`: the length is narrowed to an `int`. -/
def writeString (v : List UInt8) : Method σ Unit := c.writeChars v (i32 v.length)

/-- `writeChars(src, srcIndex, length)` from another buffer. -/
def writeCharsFrom (src : Source) (srcIndex length : Int) : Method σ Unit := do
  c.ensureWritable length
  fun s => c.setCharsFrom (c.writerIndex s) src srcIndex length s
  c.advanceWriter length

/-- `readChars(dst, dstIndex, length)`: the bytes put into `dst`. -/
def readChars (length : Int) : Method σ (List UInt8) := do
  c.checkReadable length
  let bs ← fun s => c.getChars (c.readerIndex s) length s
  c.advanceReader length
  pure bs

/-- `readString(dst, len)`: the bytes put into `dst`. -/
def readString (len : Int) : Method σ (List UInt8) := do
  c.checkReadable len
  let bs ← fun s => c._getString (c.readerIndex s) len s
  c.advanceReader len
  pure bs

/-- `setString(index, value)`. -/
def setString (index : Int) (v : List UInt8) : Method σ Unit := c.setChars index v (i32 v.length)

/-- `getString(index, dst, len)`: the bytes put into `dst`. -/
def getString (index len : Int) : Method σ (List UInt8) := do
  c.checkIndex index len
  c._getString index len

/-! ## Discarding what was read -/

/-- `adjustMarkers(decrement)`, of the buffer. -/
def adjustMarkers (decrement : Int) (s : σ) : σ := c.setIndices ((c.indices s).adjustMarkers decrement) s

/-- Moving the unread bytes to the front. -/
def moveUnread : Method σ Unit := do
  fun s => c.setCharsSelf 0 (c.readerIndex s) (i32 (c.writerIndex s - c.readerIndex s)) s
  .modify fun s => c.setIndex0 (c.readerIndex s) (i32 (c.writerIndex s - c.readerIndex s)) s
  .modify fun s => c.adjustMarkers (c.readerIndex s) s
  .modify fun s => c.setIndex0 0 (c.writerIndex s) s

/-- What remains when everything was read. -/
def dropRead (s : σ) : σ := c.setIndex0 0 0 (c.adjustMarkers (c.readerIndex s) s)

/-- `discardReadBytes()`. -/
def discardReadBytes : Method σ Unit := fun s =>
  if c.readerIndex s = 0 then .ok () s
  else if c.readerIndex s ≠ c.writerIndex s then c.moveUnread s
  else .ok () (c.dropRead s)

/-- `discardSomeReadBytes()`: only if half of the capacity was read, or all there is. -/
def discardSomeReadBytes : Method σ Unit := fun s =>
  if c.readerIndex s = 0 then .ok () s
  else if c.readerIndex s = c.writerIndex s then .ok () (c.dropRead s)
  else if c.readerIndex s ≥ c.capacity s / 2 then c.moveUnread s
  else .ok () s

end CharBuf

end Nio.Buffer
