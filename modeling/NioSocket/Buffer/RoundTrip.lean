import NioSocket.Buffer.UnpooledHeap
import NioSocket.Buffer.HeapCharBufUtil

/-!
# Writing values and reading them back

A sequence of typed values written into an `UnpooledHeapCharBuf` and read back
(`write_read`). Each write appends the bytes of its value (`Wrote`), and grows the
buffer where it must.
-/

namespace Nio.Buffer

open CharBuf (Ty)

/-- The values of a type. -/
def CharBuf.Ty.InRange : Ty → Int → Prop
  | .ushort, v => 0 ≤ v ∧ v < 2 ^ 16
  | .uint, v => 0 ≤ v ∧ v < 2 ^ 32
  | .ulong, v => 0 ≤ v ∧ v < 2 ^ 64
  | .char, v => -2 ^ 7 ≤ v ∧ v < 2 ^ 7
  | .short, v => -2 ^ 15 ≤ v ∧ v < 2 ^ 15
  | .int, v => -2 ^ 31 ≤ v ∧ v < 2 ^ 31
  | .long, v => -2 ^ 63 ≤ v ∧ v < 2 ^ 63

theorem CharBuf.Ty.decode_encode {t : Ty} {v : Int} (h : t.InRange v) : t.decode (t.encode v) = v := by
  cases t <;> simp only [InRange] at h <;>
    simp only [decode, encode, size, beVal_beBytes, signed] <;> omega

/-- What the typed functions write and read. A `float` or a `double` is its bits. -/
inductive Value
  | bool (v : Bool)
  | typed (t : Ty) (v : Int)
  | float (bits : Int)
  | double (bits : Int)
  | string (v : List UInt8)
  | chars (v : List UInt8)
  deriving DecidableEq, Repr

namespace Value

/-- The value is one of its type; the length of raw bytes is an `int`. -/
def WellFormed : Value → Prop
  | typed t v => t.InRange v
  | float bits => Ty.int.InRange bits
  | double bits => Ty.long.InRange bits
  | chars v => v.length ≤ 2147483647
  | bool _ | string _ => True

/-- What is written of a value. -/
def bytes : Value → List UInt8
  | bool v => Ty.char.encode (if v then 1 else 0)
  | typed t v => t.encode v
  | float bits => Ty.int.encode bits
  | double bits => Ty.long.encode bits
  | string v | chars v => v

/-- How many bytes that is. -/
def size (v : Value) : Nat := v.bytes.length

/-- The size as the `int` that `ensureWritable` is given. -/
def intSize : Value → Int
  | string v => i32 v.length
  | v => v.size

variable {σ : Type} (c : CharBuf σ)

/-- The `write` of a value. -/
def write : Value → Method σ Unit
  | bool v => c.writeBool v
  | typed t v => c.writeTyped t v
  | float bits => c.writeFloat bits
  | double bits => c.writeDouble bits
  | string v => c.writeString v
  | chars v => c.writeChars v v.length

/-- The read that matches the write of a value. -/
def read : Value → Method σ Value
  | bool _ => do pure (.bool (← c.readBool))
  | typed t _ => do pure (.typed t (← c.readTyped t))
  | float _ => do pure (.float (← c.readFloat))
  | double _ => do pure (.double (← c.readDouble))
  | string v => do pure (.string (← c.readString v.length))
  | chars v => do pure (.chars (← c.readChars v.length))

/-- One value after another is written. -/
def writeAll : List Value → Method σ Unit
  | [] => pure ()
  | v :: vs => do
    v.write c
    writeAll vs

/-- One value after another is read. -/
def readAll : List Value → Method σ (List Value)
  | [] => pure []
  | v :: vs => do
    let x ← v.read c
    let xs ← readAll vs
    pure (x :: xs)

/-- How many bytes the values have. -/
def totalSize (vs : List Value) : Nat := (vs.flatMap bytes).length

end Value

namespace UnpooledHeapCharBuf

/-- The indices are in order, and no capacity above `2 ^ 30` will be asked for. -/
structure Roomy (b : UnpooledHeapCharBuf) : Prop extends b.Valid where
  max_le_pow : b.indices.maxCapacity_ ≤ 2 ^ 30

/-- The bytes `bs` are behind what was written before. -/
structure Wrote (b : UnpooledHeapCharBuf) (bs : List UInt8) (b' : UnpooledHeapCharBuf) : Prop where
  roomy : b'.Roomy
  reader : b'.indices.readerIndex_ = b.indices.readerIndex_
  writer : b'.indices.writerIndex_ = b.indices.writerIndex_ + bs.length
  maxCapacity : b'.indices.maxCapacity_ = b.indices.maxCapacity_
  array : ∀ k : Nat, (k : Int) < b.indices.writerIndex_ → b'.array_ k = b.array_ k
  written : b'.array_.read b.indices.writerIndex_.toNat bs.length = bs

variable {b b' : UnpooledHeapCharBuf} {n : Int} {bs : List UInt8}

theorem new_roomy {c m : Int} (h0 : 1 ≤ c) (h : c ≤ m) (hm : m ≤ 2 ^ 30) : (new c m).Roomy :=
  ⟨new_valid (by omega) h (by omega), hm⟩

namespace Roomy

variable (h : b.Roomy)
include h

theorem ensureWritable (hn : n ≤ b.indices.maxCapacity_ - b.indices.writerIndex_) (hint : -2147483648 ≤ n) :
    ∃ b', charBuf.ensureWritable n b = .ok () b' ∧ b'.Roomy ∧ b'.indices = b.indices ∧
      (∀ k : Nat, (k : Int) < b.capacity_ → b'.array_ k = b.array_ k) ∧ b.indices.writerIndex_ + n ≤ b'.capacity_ := by
  obtain ⟨⟨hr, hrw, hw, hpos, hcap, hmax⟩, hpow⟩ := h
  have hv : b.Valid := ⟨hr, hrw, hw, hpos, hcap, hmax⟩
  rw [CharBuf.ensureWritable, hv.writableBytes]
  split
  case isFalse hle => exact ⟨b, rfl, ⟨hv, hpow⟩, rfl, fun _ _ => rfl, by omega⟩
  case isTrue hgt =>
    obtain ⟨k, hk, hle, e⟩ := CharBuf.roundUpPower2_int hpos (by omega)
    obtain ⟨j, h1, h2, h3, h4⟩ := CharBuf.growLoop_pow (k := k) (d := 30 - k) (by omega) (show 30 - k < 34 by omega)
      (m := b.indices.writerIndex_ + n) (by omega)
    have hcalc : charBuf.calculateNewCapacity (b.indices.writerIndex_ + n) b.indices.maxCapacity_ b =
        .ok (min (2 ^ j) b.indices.maxCapacity_) b := by
      simp only [CharBuf.calculateNewCapacity, capacity_charBuf, e, h4]
      rw [if_neg (by omega)]
    rw [maxCapacity_charBuf, writerIndex_charBuf, if_neg (by rw [i32_eq (by omega) (by omega)]; omega),
      i32_eq (by omega) (by omega), hcalc, Outcome.bind_ok]
    refine ⟨_, Sound.setCapacity_grow (by omega), ⟨⟨hr, hrw, ?_, ?_, ?_, hmax⟩, hpow⟩, rfl, fun k hk => ?_, ?_⟩
    · show b.indices.writerIndex_ ≤ min (2 ^ j) b.indices.maxCapacity_; omega
    · show 0 < min (2 ^ j) b.indices.maxCapacity_; omega
    · show min (2 ^ j) b.indices.maxCapacity_ ≤ b.indices.maxCapacity_; omega
    · show (if (k : Int) < min b.capacity_ (min (2 ^ j) b.indices.maxCapacity_) then b.array_ k else 0) = b.array_ k
      rw [if_pos (by omega)]
    · show _ ≤ min (2 ^ j) b.indices.maxCapacity_; omega

/-- What does not fit below the maximum is refused, and nothing has changed. -/
theorem ensureWritable_throw (hn : b.indices.maxCapacity_ - b.indices.writerIndex_ < n) :
    charBuf.ensureWritable n b = .throw "writerIndex exceeds maxCapacity" b := by
  obtain ⟨⟨hr, hrw, hw, hpos, hcap, hmax⟩, hpow⟩ := h
  have hv : b.Valid := ⟨hr, hrw, hw, hpos, hcap, hmax⟩
  rw [CharBuf.ensureWritable, hv.writableBytes, if_pos (by omega), maxCapacity_charBuf, writerIndex_charBuf,
    if_pos (by rw [i32_eq (by omega) (by omega)]; omega)]

/-- Putting bytes behind what was written, and advancing. -/
theorem append {g : UnpooledHeapCharBuf} (hg : g.Roomy) (hi : g.indices = b.indices)
    (ha : ∀ k : Nat, (k : Int) < b.capacity_ → g.array_ k = b.array_ k)
    (hc : b.indices.writerIndex_ + bs.length ≤ g.capacity_) :
    Wrote b bs (UnpooledHeapCharBuf.withWriter { g with array_ := g.array_.write b.indices.writerIndex_.toNat bs }
      (b.indices.writerIndex_ + bs.length)) := by
  obtain ⟨⟨hr, hrw, hw, hpos, hcap, hmax⟩, hpow⟩ := hg
  have hb := h.writer_le
  have hr0 := h.reader_nonneg
  have hrw0 := h.reader_le
  rw [hi] at hr hrw hw hcap hmax hpow
  have hri : g.indices.readerIndex_ = b.indices.readerIndex_ := congrArg _ hi
  have hmi : g.indices.maxCapacity_ = b.indices.maxCapacity_ := congrArg _ hi
  refine ⟨⟨⟨?_, ?_, hc, hpos, ?_, ?_⟩, ?_⟩, hri, rfl, hmi, fun k hk => ?_, Mem.read_write_self _ _ _⟩
  · show 0 ≤ g.indices.readerIndex_; omega
  · show g.indices.readerIndex_ ≤ b.indices.writerIndex_ + bs.length; omega
  · show g.capacity_ ≤ g.indices.maxCapacity_; omega
  · show g.indices.maxCapacity_ ≤ _; omega
  · show g.indices.maxCapacity_ ≤ _; omega
  · exact (Mem.write_of_lt (by omega)).trans (ha k (by omega))

/-- The end of every write. -/
theorem advanceWriter {g : UnpooledHeapCharBuf} (hi : g.indices = b.indices)
    (hc : b.indices.writerIndex_ + bs.length ≤ 2147483647) :
    charBuf.advanceWriter bs.length { g with array_ := g.array_.write b.indices.writerIndex_.toNat bs } =
      .ok () (UnpooledHeapCharBuf.withWriter { g with array_ := g.array_.write b.indices.writerIndex_.toNat bs }
        (b.indices.writerIndex_ + bs.length)) := by
  have hr := h.reader_nonneg
  have hrw := h.reader_le
  have e : i32 (g.indices.writerIndex_ + bs.length) = b.indices.writerIndex_ + bs.length := by
    rw [hi]
    exact i32_eq (by omega) (by omega)
  show Outcome.ok () (charBuf.setIndex0 g.indices.readerIndex_ (i32 (g.indices.writerIndex_ + bs.length)) _) = _
  rw [e]
  rfl

theorem writeValue (hn : b.indices.writerIndex_ + bs.length ≤ b.indices.maxCapacity_) :
    ∃ b', charBuf.writeValue bs b = .ok () b' ∧ Wrote b bs b' := by
  obtain ⟨g, e, hg, hi, ha, hc⟩ := h.ensureWritable (n := bs.length) (by omega) (by omega)
  have hr := h.reader_nonneg
  have hrw := h.reader_le
  have hpow := h.max_le_pow
  have hset : charBuf._set (charBuf.writerIndex g) bs g =
      .ok () { g with array_ := g.array_.write b.indices.writerIndex_.toNat bs } := by
    rw [writerIndex_charBuf, show g.indices.writerIndex_ = b.indices.writerIndex_ from congrArg _ hi]
    show poke _ _ _ = _
    rw [poke, if_pos ⟨by omega, hc⟩]
  refine ⟨_, ?_, h.append hg hi ha hc⟩
  simp only [CharBuf.writeValue, Method.bind_apply, e, Outcome.bind_ok, hset]
  exact h.advanceWriter hi (by omega)

theorem writeChars (hn : b.indices.writerIndex_ + bs.length ≤ b.indices.maxCapacity_) :
    ∃ b', charBuf.writeChars bs bs.length b = .ok () b' ∧ Wrote b bs b' := by
  obtain ⟨g, e, hg, hi, ha, hc⟩ := h.ensureWritable (n := bs.length) (by omega) (by omega)
  have hr := h.reader_nonneg
  have hrw := h.reader_le
  have hpow := h.max_le_pow
  have hset : charBuf._setChars (charBuf.writerIndex g) bs bs.length g =
      .ok () { g with array_ := g.array_.write b.indices.writerIndex_.toNat bs } := by
    rw [writerIndex_charBuf, show g.indices.writerIndex_ = b.indices.writerIndex_ from congrArg _ hi]
    show UnpooledHeapCharBuf.pokeSome _ _ _ _ = _
    rw [UnpooledHeapCharBuf.pokeSome, if_pos ⟨by omega, Int.le_refl _⟩, Int.toNat_natCast, List.take_length, poke, if_pos ⟨by omega, hc⟩]
  refine ⟨_, ?_, h.append hg hi ha hc⟩
  simp only [CharBuf.writeChars, Method.bind_apply, e, Outcome.bind_ok, hset]
  exact h.advanceWriter hi (by omega)

/-! ## Reading -/

/-- Every read checks that the bytes are there, takes them, and skips them. -/
theorem read_eq {α : Type} (get : Int → Method UnpooledHeapCharBuf α) {x : α} {k : Nat}
    (hk : b.indices.readerIndex_ + k ≤ b.indices.writerIndex_) (hget : get b.indices.readerIndex_ b = .ok x b) :
    (do charBuf.checkReadable k
        let x ← fun b => get (charBuf.readerIndex b) b
        charBuf.advanceReader k
        pure x) b = .ok x (b.withReader (b.indices.readerIndex_ + k)) := by
  obtain ⟨⟨hr, hrw, hw, hpos, hcap, hmax⟩, hpow⟩ := h
  have e : i32 (b.indices.readerIndex_ + k) = b.indices.readerIndex_ + k := i32_eq (by omega) (by omega)
  simp only [Method.bind_apply, CharBuf.checkReadable, readerIndex_charBuf, writerIndex_charBuf, e]
  rw [if_neg (by omega), Outcome.bind_ok, Method.bind_apply, hget]
  show Outcome.ok x (charBuf.setIndex0 (i32 (b.indices.readerIndex_ + k)) b.indices.writerIndex_ b) = _
  rw [e]
  rfl

end Roomy

theorem Wrote.refl (h : b.Roomy) : Wrote b [] b :=
  ⟨h, rfl, by simp, rfl, fun _ _ => rfl, rfl⟩

theorem Wrote.trans {b'' : UnpooledHeapCharBuf} {bs' : List UInt8} (h : b.Roomy) (h₁ : Wrote b bs b')
    (h₂ : Wrote b' bs' b'') : Wrote b (bs ++ bs') b'' where
  roomy := h₂.roomy
  reader := h₂.reader.trans h₁.reader
  writer := by rw [h₂.writer, h₁.writer, List.length_append]; omega
  maxCapacity := h₂.maxCapacity.trans h₁.maxCapacity
  array k hk := (h₂.array k (by rw [h₁.writer]; omega)).trans (h₁.array k hk)
  written := by
    have hr := h.reader_nonneg
    have hrw := h.reader_le
    have e : b'.indices.writerIndex_.toNat = b.indices.writerIndex_.toNat + bs.length := by rw [h₁.writer]; omega
    have hfirst : b''.array_.read b.indices.writerIndex_.toNat bs.length = bs :=
      (Mem.read_congr fun k hk => h₂.array _ (by rw [h₁.writer]; omega)).trans h₁.written
    rw [List.length_append, Mem.read_add, hfirst, ← e, h₂.written]

end UnpooledHeapCharBuf

namespace Value

open UnpooledHeapCharBuf

variable {b b' : UnpooledHeapCharBuf} {v : Value} {vs : List Value}

/-- A value that fits is written behind the others. -/
theorem write_wrote (h : b.Roomy) (hfit : b.indices.writerIndex_ + v.size ≤ b.indices.maxCapacity_) :
    ∃ b', v.write charBuf b = .ok () b' ∧ Wrote b v.bytes b' := by
  cases v with
  | bool v => exact h.writeValue hfit
  | typed t v => exact h.writeValue hfit
  | float bits => exact h.writeValue hfit
  | double bits => exact h.writeValue hfit
  | chars v => exact h.writeChars hfit
  | string v =>
    have hpow := h.max_le_pow
    have hr := h.reader_nonneg
    have hrw := h.reader_le
    have e : i32 (v.length : Int) = v.length := by
      have : (v.length : Int) ≤ 2 ^ 30 := by
        have : b.indices.writerIndex_ + v.length ≤ b.indices.maxCapacity_ := hfit
        omega
      exact i32_eq (by omega) (by omega)
    show ∃ b', charBuf.writeChars v (i32 v.length) b = _ ∧ _
    rw [e]
    exact h.writeChars hfit

/-- Reading where the bytes of a value are gives the value. -/
theorem read_eq (h : b.Roomy) (hv : v.WellFormed) (hk : b.indices.readerIndex_ + v.size ≤ b.indices.writerIndex_)
    (hb : b.array_.read b.indices.readerIndex_.toNat v.size = v.bytes) :
    v.read charBuf b = .ok v (b.withReader (b.indices.readerIndex_ + v.size)) := by
  have hr := h.reader_nonneg
  have hw := h.writer_le
  have hpeek : ∀ n : Nat, n = v.size → UnpooledHeapCharBuf.peek b.indices.readerIndex_ n b = .ok v.bytes b := by
    rintro n rfl
    rw [peek, if_pos ⟨hr, by omega, by omega⟩, Int.toNat_natCast, hb]
  -- the typed reads take the bytes of the value, and decode them
  have htyped : ∀ (t : Ty) (x : Int), v.bytes = t.encode x → t.InRange x →
      charBuf.readTyped t b = .ok x (b.withReader (b.indices.readerIndex_ + v.size)) := by
    intro t x hx hin
    have hs : t.size = v.size := by rw [Value.size, hx, Ty.length_encode]
    have hread : charBuf.readValue t.size b = .ok v.bytes (b.withReader (b.indices.readerIndex_ + v.size)) := by
      rw [hs]
      exact h.read_eq (fun i => charBuf._get i v.size) hk (hpeek _ rfl)
    simp only [CharBuf.readTyped, Method.bind_apply, hread, Outcome.bind_ok, Method.pure_apply, hx,
      Ty.decode_encode hin]
  cases v with
  | bool x =>
    have e := htyped .char (if x then 1 else 0) rfl (by cases x <;> simp [Ty.InRange])
    simp only [Value.read, CharBuf.readBool, CharBuf.readChar, Method.bind_apply, e, Outcome.bind_ok, Method.pure_apply]
    cases x <;> rfl
  | typed t x =>
    have e := htyped t x rfl hv
    simp only [Value.read, Method.bind_apply, e, Outcome.bind_ok, Method.pure_apply]
  | float x =>
    have e := htyped .int x rfl hv
    simp only [Value.read, CharBuf.readFloat, CharBuf.readInt, Method.bind_apply, e, Outcome.bind_ok, Method.pure_apply]
  | double x =>
    have e := htyped .long x rfl hv
    simp only [Value.read, CharBuf.readDouble, CharBuf.readLong, Method.bind_apply, e, Outcome.bind_ok, Method.pure_apply]
  | string s =>
    have hget : charBuf._getString b.indices.readerIndex_ s.length b = .ok s b := by
      show (if (s.length : Int) < 0 then Outcome.throw "basic_string::assign" b
        else peek b.indices.readerIndex_ s.length b) = _
      rw [if_neg (by omega)]
      exact hpeek _ rfl
    have e := h.read_eq (fun i => charBuf._getString i s.length) hk hget
    exact congrArg (fun o : Outcome UnpooledHeapCharBuf _ => o.bind fun x => pure (Value.string x)) e
  | chars s =>
    have hget : charBuf.getChars b.indices.readerIndex_ s.length b = .ok s b := by
      rw [h.getChars hr (by omega) (by
        have : b.indices.readerIndex_ + (s.length : Int) ≤ b.indices.writerIndex_ := hk
        omega), Int.toNat_natCast]
      exact congrArg (Outcome.ok · b) hb
    have e := h.read_eq (fun i => charBuf.getChars i s.length) hk hget
    exact congrArg (fun o : Outcome UnpooledHeapCharBuf _ => o.bind fun x => pure (Value.chars x)) e

/-! ## Sequences -/

theorem totalSize_cons (v : Value) (vs : List Value) : totalSize (v :: vs) = v.size + totalSize vs := by
  simp [totalSize, size]

theorem writeAll_wrote (h : b.Roomy) (hfit : b.indices.writerIndex_ + totalSize vs ≤ b.indices.maxCapacity_) :
    ∃ b', writeAll charBuf vs b = .ok () b' ∧ Wrote b (vs.flatMap bytes) b' := by
  induction vs generalizing b with
  | nil => exact ⟨b, rfl, .refl h⟩
  | cons v vs ih =>
    rw [totalSize_cons] at hfit
    obtain ⟨b₁, e₁, h₁⟩ := write_wrote (v := v) h (by omega)
    obtain ⟨b₂, e₂, h₂⟩ := ih h₁.roomy (by
      rw [h₁.writer, h₁.maxCapacity]
      have : (v.bytes.length : Int) = v.size := rfl
      omega)
    refine ⟨b₂, ?_, h₁.trans h h₂⟩
    rw [writeAll, Method.bind_apply, e₁, Outcome.bind_ok, e₂]

theorem readAll_eq (h : b.Roomy) (hv : ∀ v ∈ vs, v.WellFormed)
    (hk : b.indices.readerIndex_ + totalSize vs ≤ b.indices.writerIndex_)
    (hb : b.array_.read b.indices.readerIndex_.toNat (totalSize vs) = vs.flatMap bytes) :
    readAll charBuf vs b = .ok vs (b.withReader (b.indices.readerIndex_ + totalSize vs)) := by
  induction vs generalizing b with
  | nil =>
    rw [readAll, Method.pure_apply, totalSize, List.flatMap_nil, List.length_nil, Int.natCast_zero, Int.add_zero]
    rfl
  | cons v vs ih =>
    have hr := h.reader_nonneg
    rw [totalSize_cons] at hk hb
    rw [Mem.read_add, List.flatMap_cons] at hb
    obtain ⟨hb₁, hb₂⟩ := List.append_inj hb (by rw [Mem.length_read]; rfl)
    have e₁ := read_eq h (hv v List.mem_cons_self) (by omega) hb₁
    have h₁ : (b.withReader (b.indices.readerIndex_ + v.size)).Roomy :=
      ⟨h.withReader (by omega) (by omega), h.max_le_pow⟩
    have e₂ := ih h₁ (fun w hw => hv w (List.mem_cons_of_mem _ hw))
      (by show b.indices.readerIndex_ + v.size + totalSize vs ≤ b.indices.writerIndex_; omega)
      (by
        show b.array_.read (b.indices.readerIndex_ + v.size).toNat _ = _
        rw [show (b.indices.readerIndex_ + v.size).toNat = b.indices.readerIndex_.toNat + v.size by omega, hb₂])
    rw [readAll, Method.bind_apply, e₁, Outcome.bind_ok, Method.bind_apply, e₂, Outcome.bind_ok, Method.pure_apply,
      totalSize_cons]
    refine congrArg (Outcome.ok (v :: vs)) ?_
    show b.withReader (b.indices.readerIndex_ + v.size + totalSize vs) = _
    congr 1
    push_cast
    omega

/-- Each write asks for room first. -/
theorem write_eq (v : Value) : ∃ rest : Method UnpooledHeapCharBuf Unit,
    v.write charBuf = (charBuf.ensureWritable v.intSize >>= fun _ => rest) := by
  cases v with
  | bool v => exact ⟨_, rfl⟩
  | typed t v => exact ⟨_, rfl⟩
  | float bits => exact ⟨_, rfl⟩
  | double bits => exact ⟨_, rfl⟩
  | string v => exact ⟨_, rfl⟩
  | chars v => exact ⟨_, rfl⟩

theorem write_throw (h : b.Roomy) (hlt : b.indices.maxCapacity_ - b.indices.writerIndex_ < v.intSize) :
    v.write charBuf b = .throw "writerIndex exceeds maxCapacity" b := by
  obtain ⟨rest, e⟩ := write_eq v
  rw [e, Method.bind_apply, h.ensureWritable_throw hlt, Outcome.bind_throw]

/-- A string whose length wraps to an `int` there is room for is not refused. -/
theorem writeString_not_throw {s : List UInt8} (h : b.Roomy)
    (hle : i32 s.length ≤ b.indices.maxCapacity_ - b.indices.writerIndex_) (e : String) (b' : UnpooledHeapCharBuf) :
    charBuf.writeString s b ≠ .throw e b' := by
  obtain ⟨g, eg, -⟩ := h.ensureWritable hle (i32_range _).1
  rw [CharBuf.writeString]
  generalize i32 s.length = n at eg ⊢
  rw [CharBuf.writeChars, Method.bind_apply, eg, Outcome.bind_ok, Method.bind_apply]
  show (pokeSome (charBuf.writerIndex g) s n g).bind (fun _ => charBuf.advanceWriter n) ≠ _
  unfold pokeSome
  split
  · unfold poke
    split
    · simp [CharBuf.advanceWriter]
    · simp [Outcome.bind]
  · simp [Outcome.bind]

/-- A value that does not fit is refused exactly when its size, as an `int`, does not fit either. -/
theorem write_throw_iff (h : b.Roomy) (hfit : b.indices.maxCapacity_ < b.indices.writerIndex_ + v.size) :
    (∃ e b', v.write charBuf b = .throw e b') ↔ b.indices.maxCapacity_ - b.indices.writerIndex_ < v.intSize := by
  refine ⟨fun ⟨e, b', he⟩ => ?_, fun hlt => ⟨_, _, write_throw h hlt⟩⟩
  cases v with
  | string s =>
    by_contra hn
    exact writeString_not_throw h (Int.not_lt.mp hn) e b' he
  | bool | typed | float | double | chars =>
    show _ < ((Value.size _ : Nat) : Int)
    omega

/-- Values that fit are read back as they were written, and leave both indices behind them, whatever
the capacity the buffer starts with; a value that does not fit is refused, with everything as it was,
exactly when its size as an `int` is more than the room there is. -/
theorem write_read {c m : Int} (hc : 1 ≤ c) (hcm : c ≤ m) (hm : m ≤ 2 ^ 30) (hv : ∀ v ∈ vs, v.WellFormed)
    (hfit : totalSize vs ≤ m) :
    ∃ b, writeAll charBuf vs (new c m) = .ok () b ∧
      (∃ b', readAll charBuf vs b = .ok vs b' ∧ b'.indices.readerIndex_ = totalSize vs ∧
        b'.indices.writerIndex_ = totalSize vs) ∧
      ∀ v : Value, v.WellFormed → m < totalSize vs + v.size →
        ((∃ e b', v.write charBuf b = .throw e b' ∧ b'.indices = b.indices ∧
            b'.array_.read 0 (totalSize vs) = vs.flatMap bytes) ↔
          m - totalSize vs < v.intSize) := by
  have h := new_roomy hc hcm hm
  obtain ⟨b, e, hw⟩ := writeAll_wrote h (show (0 : Int) + totalSize vs ≤ m by omega)
  have hwi : b.indices.writerIndex_ = totalSize vs := by
    rw [hw.writer]
    exact Int.zero_add _
  have hmax : b.indices.maxCapacity_ = m := hw.maxCapacity
  have hread : b.array_.read 0 (totalSize vs) = vs.flatMap bytes := hw.written
  have hri : b.indices.readerIndex_ = 0 := hw.reader
  refine ⟨b, e, ⟨_, readAll_eq hw.roomy hv (by rw [hri, hwi]; omega) (by rw [hri]; exact hread), ?_, hwi⟩, ?_⟩
  · show b.indices.readerIndex_ + totalSize vs = _
    rw [hri, Int.zero_add]
  · intro v _ hlt
    have hiff := write_throw_iff (v := v) hw.roomy (by rw [hmax, hwi]; exact hlt)
    rw [hmax, hwi] at hiff
    refine ⟨fun ⟨x, b', hx, _⟩ => hiff.mp ⟨x, b', hx⟩, fun hlt => ?_⟩
    exact ⟨_, b, write_throw hw.roomy (by rwa [hmax, hwi]), rfl, hread⟩

/-- A sequence that makes the buffer grow from one byte. -/
theorem write_read_grows : ∃ b, writeAll charBuf [.bool true, .typed .short (-2), .string [1, 2, 3], .double (-1)]
      (new 1 16) = .ok () b ∧
    ∃ b', readAll charBuf [.bool true, .typed .short (-2), .string [1, 2, 3], .double (-1)] b =
      .ok [.bool true, .typed .short (-2), .string [1, 2, 3], .double (-1)] b' ∧ b'.indices.readerIndex_ = 14 := by
  obtain ⟨b, e, ⟨b', e', h, -⟩, -⟩ := write_read (c := 1) (m := 16)
    (by decide) (by decide) (by decide) (show ∀ v ∈ [Value.bool true, .typed .short (-2), .string [1, 2, 3], .double (-1)],
      v.WellFormed by simp [WellFormed, Ty.InRange]) (by decide)
  exact ⟨b, e, b', e', h⟩

/-- A string of `2 ^ 32` bytes, whose length as an `int` is `0`, is accepted by a buffer of one byte. -/
theorem write_huge_string : ∃ b, (Value.string (List.replicate (2 ^ 32) 0)).write charBuf (new 1 1) = .ok () b ∧
    (1 : Int) < (Value.string (List.replicate (2 ^ 32) 0)).size := by
  have key : ∀ s : List UInt8, i32 s.length = 0 → charBuf.writeString s (new 1 1) =
      .ok () (withWriter { new 1 1 with array_ := (new 1 1).array_.write 0 [] } 0) := by
    intro s hs
    show charBuf.writeChars s (i32 s.length) (new 1 1) = _
    rw [hs]
    show (pokeSome 0 s 0 (new 1 1)).bind _ = _
    rw [pokeSome, if_pos ⟨Int.le_refl 0, Int.natCast_nonneg _⟩]
    rfl
  have hlen : (List.replicate (2 ^ 32) (0 : UInt8)).length = 2 ^ 32 := List.length_replicate
  refine ⟨_, key _ (by rw [hlen]; decide), ?_⟩
  show (1 : Int) < ((List.replicate (2 ^ 32) (0 : UInt8)).length : Nat)
  rw [hlen]
  decide

end Value

end Nio.Buffer
