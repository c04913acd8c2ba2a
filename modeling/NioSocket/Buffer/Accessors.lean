import NioSocket.Buffer.Sliced

/-!
# The accessors

What is read and written at an index, or behind the writer index, by the functions of
`AbstractCharBuf`: `Get` and `Put` list them, with their arguments other than the index, and
`getAt`, `setAt` and `write` are the functions. Within the capacity of a `Store` each reads, or
puts, the bytes at the index.
-/

namespace Nio.Buffer

open CharBuf (Ty)

/-- `getChar` and the like, `getBool`, `getFloat`, `getDouble`, `getString` and `getChars`. -/
inductive Get
  | typed (t : Ty)
  | bool
  | float
  | double
  | string (len : Int)
  | chars (length : Int)

/-- What is read. -/
inductive Result
  | int (v : Int)
  | bool (v : Bool)
  | bytes (bs : List UInt8)
  deriving DecidableEq

namespace Get

/-- How many bytes are read. -/
def size : Get → Int
  | typed t => t.size
  | bool => 1
  | float => 4
  | double => 8
  | string len => len
  | chars length => length

/-- What some bytes are read as. -/
def value : Get → List UInt8 → Result
  | typed t, bs => .int (t.decode bs)
  | bool, bs => .bool (Ty.char.decode bs != 0)
  | float, bs => .int (Ty.int.decode bs)
  | double, bs => .int (Ty.long.decode bs)
  | string _, bs => .bytes bs
  | chars _, bs => .bytes bs

end Get

/-- `setChar` and the like, `setBool`, `setFloat`, `setDouble`, `setString` and both of `setChars`;
and the functions that write the same behind the writer index. -/
inductive Put
  | typed (t : Ty) (v : Int)
  | bool (v : Bool)
  | float (bits : Int)
  | double (bits : Int)
  | string (v : List UInt8)
  | chars (src : List UInt8) (length : Int)
  | buf (src : Source) (srcIndex length : Int)

namespace Put

/-- How many bytes are written. -/
def size : Put → Int
  | typed t _ => t.size
  | bool _ => 1
  | float _ => 4
  | double _ => 8
  | string v => v.length
  | chars _ length => length
  | buf _ _ length => length

/-- The size as the `int` that the functions pass on: `writeString` and `setString` make one of a
`size_t`. -/
def intSize : Put → Int
  | string v => i32 v.length
  | p => p.size

/-- The bytes that are written, if the arguments are in order: the pointer is to as many bytes, a
string has no more than an `int` can say, and the other buffer gives them. -/
def Gives : Put → List UInt8 → Prop
  | typed t v, bs => bs = t.encode v
  | bool v, bs => bs = Ty.char.encode (if v then 1 else 0)
  | float bits, bs => bs = Ty.int.encode bits
  | double bits, bs => bs = Ty.long.encode bits
  | string v, bs => bs = v ∧ (v.length : Int) ≤ intMax
  | chars src length, bs => 0 ≤ length ∧ length ≤ src.length ∧ bs = src.take length.toNat
  | buf src srcIndex length, bs => src srcIndex length = .ok bs () ∧ (bs.length : Int) = length

end Put

theorem Put.Gives.length {p : Put} {bs : List UInt8} (h : p.Gives bs) : (bs.length : Int) = p.size := by
  cases p with
  | typed t v => rw [h, t.length_encode]; rfl
  | bool | float | double => rw [h, Ty.length_encode]; rfl
  | string v => rw [h.1]; rfl
  | chars src length =>
    obtain ⟨h0, hl, rfl⟩ := h
    rw [List.length_take]
    show ((min length.toNat src.length : Nat) : Int) = length
    omega
  | buf => exact h.2

theorem Put.intSize_eq (p : Put) : p.intSize = p.size ∨ ∃ src, p = .string src := by
  cases p with
  | string src => exact .inr ⟨src, rfl⟩
  | _ => exact .inl rfl

namespace CharBuf

variable {σ : Type} (c : CharBuf σ)

/-- A `get` at an index. -/
def getAt (g : Get) (index : Int) : Method σ Result :=
  match g with
  | .typed t => do pure (.int (← c.getTyped t index))
  | .bool => do pure (.bool (← c.getBool index))
  | .float => do pure (.int (← c.getFloat index))
  | .double => do pure (.int (← c.getDouble index))
  | .string len => do pure (.bytes (← c.getString index len))
  | .chars length => do pure (.bytes (← c.getChars index length))

/-- A `set` at an index. -/
def setAt (p : Put) (index : Int) : Method σ Unit :=
  match p with
  | .typed t v => c.setTyped t index v
  | .bool v => c.setBool index v
  | .float bits => c.setFloat index bits
  | .double bits => c.setDouble index bits
  | .string v => c.setString index v
  | .chars src length => c.setChars index src length
  | .buf src srcIndex length => c.setCharsFrom index src srcIndex length

/-- `writeChar` and the like, `writeString` and both of `writeChars`. -/
def write (p : Put) : Method σ Unit :=
  match p with
  | .typed t v => c.writeTyped t v
  | .bool v => c.writeBool v
  | .float bits => c.writeFloat bits
  | .double bits => c.writeDouble bits
  | .string v => c.writeString v
  | .chars src length => c.writeChars src length
  | .buf src srcIndex length => c.writeCharsFrom src srcIndex length

namespace Store

variable {c} (B : Store c) {s : σ} {i : Nat} {g : Get} {p : Put} {bs : List UInt8}

/-- What is read within the capacity. -/
theorem getAt_ok (h : B.Live s) (hi : Within i g.size (c.capacity s)) :
    c.getAt g i s = .ok (g.value ((B.byte s).read i g.size.toNat)) s := by
  obtain ⟨-, h0, hi⟩ := hi
  obtain ⟨n, hn⟩ : ∃ n : Nat, g.size = n := ⟨g.size.toNat, by omega⟩
  rw [hn] at hi
  have hi : (i + n : Nat) ≤ c.capacity s := by omega
  have hv := B.getValue_ok h hi
  have hg := B.get_ok h hi
  rw [hn, Int.toNat_natCast]
  cases g with
  | typed t =>
    obtain rfl : t.size = n := Int.ofNat.inj hn
    simp only [getAt, getTyped, Method.bind_apply, hv, Outcome.bind_ok, Method.pure_apply]
    rfl
  | bool =>
    obtain rfl : 1 = n := Int.ofNat.inj hn
    simp only [getAt, getBool, getChar, getTyped, Method.bind_apply, Ty.size, hv, Outcome.bind_ok, Method.pure_apply]
    rfl
  | float =>
    obtain rfl : 4 = n := Int.ofNat.inj hn
    simp only [getAt, getFloat, Method.bind_apply, hg, Outcome.bind_ok, Method.pure_apply]
    rfl
  | double =>
    obtain rfl : 8 = n := Int.ofNat.inj hn
    simp only [getAt, getDouble, Method.bind_apply, hg, Outcome.bind_ok, Method.pure_apply]
    rfl
  | string len =>
    obtain rfl : len = n := hn
    simp only [getAt, Method.bind_apply, B.getString_ok h hi, Outcome.bind_ok, Method.pure_apply]
    rfl
  | chars len =>
    obtain rfl : len = n := hn
    simp only [getAt, Method.bind_apply, B.getChars_ok h hi, Outcome.bind_ok, Method.pure_apply]
    rfl

/-- What is written within the capacity. -/
theorem setAt_ok (h : B.Live s) (hb : p.Gives bs) (hi : (i + bs.length : Nat) ≤ c.capacity s) :
    c.setAt p i s = .ok () (B.put i bs s) := by
  cases p with
  | typed | bool | float | double =>
    obtain rfl := hb
    exact B.setValue_ok h hi
  | string v =>
    obtain ⟨rfl, hv⟩ := hb
    have hv : ((bs.length : Nat) : Int) ≤ 2147483647 := hv
    have e := B.setChars_ok h hi (Nat.le_refl bs.length)
    rw [List.take_length] at e
    rw [setAt, setString, i32_eq (by omega) hv, e]
  | chars src length =>
    obtain ⟨h0, hl, rfl⟩ := hb
    obtain ⟨n, rfl⟩ : ∃ n : Nat, length = n := ⟨length.toNat, by omega⟩
    rw [Int.toNat_natCast] at hi ⊢
    rw [List.length_take, Nat.min_eq_left (by omega)] at hi
    exact B.setChars_ok h hi (by omega)
  | buf src j length =>
    obtain ⟨hsrc, rfl⟩ := hb
    exact B.setCharsFrom_ok h hi hsrc

end Store

variable {c} {s : σ} {p : Put}

/-- A buffer that cannot grow has room for what its capacity leaves behind the writer index. -/
theorem ensureWritable_full (hc : c.capacity s = c.maxCapacity s) (m : Int) : c.ensureWritable m s =
    if i32 (c.maxCapacity s - c.writerIndex s) < m then .throw "writerIndex exceeds maxCapacity" s else .ok () s := by
  simp only [ensureWritable, writableBytes, hc]
  split <;> rfl

/-- Each write asks for room first. -/
theorem write_eq (c : CharBuf σ) (p : Put) :
    ∃ rest : Method σ Unit, c.write p = (c.ensureWritable p.intSize >>= fun _ => rest) := by
  have hvalue : ∀ bs (n : Int), (bs.length : Int) = n →
      ∃ rest : Method σ Unit, c.writeValue bs = (c.ensureWritable n >>= fun _ => rest) := by
    rintro bs n rfl
    exact ⟨_, rfl⟩
  cases p with
  | typed t v => exact hvalue (t.encode v) t.size (by rw [t.length_encode])
  | bool v => exact hvalue (Ty.char.encode (if v then 1 else 0)) 1 (by rw [Ty.length_encode]; rfl)
  | float bits => exact hvalue (Ty.int.encode bits) 4 (by rw [Ty.length_encode]; rfl)
  | double bits => exact hvalue (Ty.long.encode bits) 8 (by rw [Ty.length_encode]; rfl)
  | string v => exact ⟨_, rfl⟩
  | chars src length => exact ⟨_, rfl⟩
  | buf src j length => exact ⟨_, rfl⟩

/-- A write that does not fit into a buffer that cannot grow throws, and changes nothing. -/
theorem write_throws (hc : c.capacity s = c.maxCapacity s) (hn : i32 (c.maxCapacity s - c.writerIndex s) < p.intSize) :
    c.write p s = .throw "writerIndex exceeds maxCapacity" s := by
  obtain ⟨rest, e⟩ := c.write_eq p
  rw [e, Method.bind_apply, ensureWritable_full hc, if_pos hn, Outcome.bind_throw]

/-- A write does not end if making room for it does not. -/
theorem write_hang (h : c.ensureWritable p.intSize s = .hang) : c.write p s = .hang := by
  obtain ⟨rest, e⟩ := c.write_eq p
  rw [e, Method.bind_apply, h]
  rfl

/-- A string whose length is an `int` there is room for is passed on to `_setChars`. -/
theorem writeString_eq {v : List UInt8} (hc : c.capacity s = c.maxCapacity s)
    (hn : i32 v.length ≤ i32 (c.maxCapacity s - c.writerIndex s)) : c.write (.string v) s =
      (c._setChars (c.writerIndex s) v (i32 v.length) s).bind fun _ => c.advanceWriter (i32 v.length) := by
  simp only [write, writeString, writeChars, Method.bind_apply, ensureWritable_full hc, if_neg (Int.not_lt.mpr hn),
    Outcome.bind_ok]

end CharBuf

end Nio.Buffer
