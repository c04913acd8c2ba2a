import NioSocket.Buffer.AbstractCharBuf

/-!
# Typed values as bytes

`HeapCharBufUtil`, with its shifts and masks: the `char`s of memory are signed, and are
promoted before they are masked. `set_eq` and `get_eq` say that what it stores and
takes out is what `Ty.encode` and `Ty.decode` say: the big-endian bytes of a value.
-/

namespace Nio.Buffer

open CharBuf (Ty)

namespace HeapCharBufUtil

/-! ## The functions -/

/-- `memory[index + i] = (char)((value >> k) & 0xff)`, for each of the shifts `ks`. -/
def put {w : Nat} (shr : Nat → BitVec w) (ks : List Nat) : List UInt8 :=
  ks.map fun k => UInt8.ofBitVec ((shr k &&& 0xff#w).setWidth 8)

/-- `(memory[index] & 0xff) << k | (memory[index + 1] & 0xff) << k' | …`, the `char`s promoted to
`w` bits. -/
def take (w : Nat) (ks : List Nat) (bs : List UInt8) : BitVec w :=
  (bs.zip ks).foldl (fun v (b, k) => v ||| (b.toBitVec.signExtend w &&& 0xff#w) <<< k) 0

/-- `setChar(memory, index, value)`: what it puts into memory. -/
def setChar (value : BitVec 8) : List UInt8 := [UInt8.ofBitVec value]

/-- `setShort`: the value is promoted to an `int`, with its sign. -/
def setShort (value : BitVec 16) : List UInt8 := put (value.signExtend 32).sshiftRight [8, 0]

/-- `setUShort`: it is promoted without one. -/
def setUShort (value : BitVec 16) : List UInt8 := put (value.setWidth 32 >>> ·) [8, 0]

/-- `setInt`. -/
def setInt (value : BitVec 32) : List UInt8 := put value.sshiftRight [24, 16, 8, 0]

/-- `setUInt`. -/
def setUInt (value : BitVec 32) : List UInt8 := put (value >>> ·) [24, 16, 8, 0]

/-- `setLong`. -/
def setLong (value : BitVec 64) : List UInt8 := put value.sshiftRight [56, 48, 40, 32, 24, 16, 8, 0]

/-- `setULong`. -/
def setULong (value : BitVec 64) : List UInt8 := put (value >>> ·) [56, 48, 40, 32, 24, 16, 8, 0]

/-- `getChar(memory, index)`, of the bytes from the index on. -/
def getChar (memory : List UInt8) : BitVec 8 := (memory.headD 0).toBitVec

/-- `getShort`: narrowed from an `int`. -/
def getShort (memory : List UInt8) : BitVec 16 := (take 32 [8, 0] memory).setWidth 16

/-- `getUShort`: narrowed too. -/
def getUShort (memory : List UInt8) : BitVec 16 := (take 32 [8, 0] memory).setWidth 16

/-- `getInt`. -/
def getInt (memory : List UInt8) : BitVec 32 := take 32 [24, 16, 8, 0] memory

/-- `getUInt`. -/
def getUInt (memory : List UInt8) : BitVec 32 := take 32 [24, 16, 8, 0] memory

/-- `getLong`. -/
def getLong (memory : List UInt8) : BitVec 64 := take 64 [56, 48, 40, 32, 24, 16, 8, 0] memory

/-- `getULong`. -/
def getULong (memory : List UInt8) : BitVec 64 := take 64 [56, 48, 40, 32, 24, 16, 8, 0] memory

/-! ## Bytes of a number -/

/-- `8 * (n - 1)`, …, `8`, `0`. -/
def shifts : Nat → List Nat
  | 0 => []
  | n + 1 => 8 * n :: shifts n

theorem beBytes_eq_map (n v : Nat) : beBytes n v = (shifts n).map fun k => UInt8.ofNat (v >>> k) := by
  have key : ∀ n v, beBytes (n + 1) v = UInt8.ofNat (v >>> (8 * n)) :: beBytes n v := by
    intro n
    induction n with
    | zero => intro v; rfl
    | succ n ih =>
      intro v
      rw [beBytes, ih, beBytes, List.cons_append, Nat.shiftRight_eq_div_pow, Nat.shiftRight_eq_div_pow,
        Nat.div_div_eq_div_mul, show 8 * (n + 1) = 8 + 8 * n by omega, Nat.pow_add]
  induction n with
  | zero => rfl
  | succ n ih => rw [key, ih]; rfl

theorem getLsbD_mask (w : Nat) {i : Nat} (hi : i < w) : (0xff#w).getLsbD i = decide (i < 8) := by
  rw [BitVec.getLsbD_ofNat, show (0xff : Nat) = 2 ^ 8 - 1 from rfl, Nat.testBit_two_pow_sub_one]
  simp [hi]

/-- What is put into memory, if the shifts give the bits of `v`. -/
theorem put_eq {w w' n : Nat} {v : BitVec w'} {shr : Nat → BitVec w} (hw : 8 ≤ w)
    (h : ∀ k ∈ shifts n, ∀ i < 8, (shr k).getLsbD i = v.getLsbD (k + i)) :
    put shr (shifts n) = beBytes n v.toNat := by
  rw [beBytes_eq_map]
  refine List.map_congr_left fun k hk => UInt8.toBitVec_inj.mp (BitVec.eq_of_getLsbD_eq fun i hi => ?_)
  show ((shr k &&& 0xff#w).setWidth 8).getLsbD i = (BitVec.ofNat 8 (v.toNat >>> k)).getLsbD i
  rw [BitVec.getLsbD_setWidth, BitVec.getLsbD_and, h k hk i hi, getLsbD_mask w (by omega), BitVec.getLsbD_ofNat,
    Nat.testBit_shiftRight]
  simp [hi, BitVec.getLsbD]

theorem mem_shifts {n k : Nat} (h : k ∈ shifts n) : k + 8 ≤ 8 * n := by
  induction n with
  | zero => cases h
  | succ n ih =>
    rcases List.mem_cons.mp h with rfl | h
    · omega
    · have := ih h; omega

theorem beVal_cons (b : UInt8) (bs : List UInt8) : beVal (b :: bs) = b.toNat * 256 ^ bs.length + beVal bs := by
  induction bs using List.reverseRecOn with
  | nil => simp [beVal]
  | append_singleton bs c ih =>
    rw [← List.cons_append, beVal_concat, ih, beVal_concat, List.length_append, List.length_singleton, Nat.pow_succ,
      Nat.add_mul, Nat.mul_assoc]
    omega

/-- Masking a promoted `char` undoes the sign extension. -/
theorem promoted_toNat {w : Nat} (hw : 8 ≤ w) (b : UInt8) : (b.toBitVec.signExtend w &&& 0xff#w).toNat = b.toNat := by
  have e : b.toBitVec.signExtend w &&& 0xff#w = b.toBitVec.setWidth w := BitVec.eq_of_getLsbD_eq fun i hi => by
    rw [BitVec.getLsbD_and, getLsbD_mask w hi, BitVec.getLsbD_setWidth, BitVec.getLsbD_signExtend]
    by_cases h8 : i < 8
    · simp [h8, hi]
    · simp [h8, hi, BitVec.getLsbD_of_ge b.toBitVec i (by omega)]
  rw [e, BitVec.toNat_setWidth]
  exact Nat.mod_eq_of_lt (Nat.lt_of_lt_of_le b.toNat_lt (Nat.pow_le_pow_right (by decide) hw))

/-- What is taken out of memory. -/
theorem take_eq {w : Nat} {bs : List UInt8} (hw : 8 * bs.length ≤ w) (h8 : 8 ≤ w) :
    (take w (shifts bs.length) bs).toNat = beVal bs := by
  have key : ∀ (bs : List UInt8) (v : BitVec w), 2 ^ (8 * bs.length) ∣ v.toNat →
      v.toNat + 2 ^ (8 * bs.length) ≤ 2 ^ w →
      ((bs.zip (shifts bs.length)).foldl (fun v (b, k) => v ||| (b.toBitVec.signExtend w &&& 0xff#w) <<< k) v).toNat =
        v.toNat + beVal bs := by
    intro bs
    induction bs with
    | nil => intro v _ _; simp [beVal]
    | cons b bs ih =>
      intro v hdvd hle
      obtain ⟨q, hq⟩ := hdvd
      have hb : b.toNat < 256 := b.toNat_lt
      have hpos := Nat.two_pow_pos (8 * bs.length)
      have hlen : 2 ^ (8 * (b :: bs).length) = 256 * 2 ^ (8 * bs.length) := by
        rw [List.length_cons, Nat.mul_succ, Nat.add_comm, Nat.pow_add]
      have hmul : b.toNat * 2 ^ (8 * bs.length) < 256 * 2 ^ (8 * bs.length) := Nat.mul_lt_mul_of_pos_right hb hpos
      have hor : (v ||| (b.toBitVec.signExtend w &&& 0xff#w) <<< (8 * bs.length)).toNat =
          v.toNat + b.toNat * 2 ^ (8 * bs.length) := by
        rw [BitVec.toNat_or, BitVec.toNat_shiftLeft, promoted_toNat h8, Nat.shiftLeft_eq, Nat.mod_eq_of_lt (by omega),
          hq, hlen, ← hlen, Nat.two_pow_add_eq_or_of_lt (by omega)]
      refine (ih (v ||| (b.toBitVec.signExtend w &&& 0xff#w) <<< (8 * bs.length)) ?_ ?_).trans ?_
      · rw [hor, hq, hlen]
        exact ⟨256 * q + b.toNat, by rw [Nat.mul_add, Nat.mul_comm b.toNat, ← Nat.mul_assoc, Nat.mul_comm 256]⟩
      · rw [hor]
        have : (b.toNat + 1) * 2 ^ (8 * bs.length) ≤ 256 * 2 ^ (8 * bs.length) := Nat.mul_le_mul_right _ (by omega)
        rw [Nat.add_mul] at this
        omega
      · rw [hor, beVal_cons, show (256 : Nat) = 2 ^ 8 from rfl, ← Nat.pow_mul, Nat.add_assoc]
  have := key bs 0 ⟨0, by simp⟩ (by simpa using Nat.pow_le_pow_right (by decide) hw)
  simpa [take] using this

/-! ## What is stored and taken out -/

/-- `setChar`, `setShort`, …: the bytes of a value. -/
def set : Ty → Int → List UInt8
  | .char, v => setChar (.ofInt 8 v)
  | .short, v => setShort (.ofInt 16 v)
  | .ushort, v => setUShort (.ofInt 16 v)
  | .int, v => setInt (.ofInt 32 v)
  | .uint, v => setUInt (.ofInt 32 v)
  | .long, v => setLong (.ofInt 64 v)
  | .ulong, v => setULong (.ofInt 64 v)

/-- `getChar`, `getShort`, …: the value of some bytes. -/
def get : Ty → List UInt8 → Int
  | .char, bs => (getChar bs).toInt
  | .short, bs => (getShort bs).toInt
  | .ushort, bs => (getUShort bs).toNat
  | .int, bs => (getInt bs).toInt
  | .uint, bs => (getUInt bs).toNat
  | .long, bs => (getLong bs).toInt
  | .ulong, bs => (getULong bs).toNat

theorem getLsbD_sshiftRight {w k i : Nat} {v : BitVec w} (h : k + 8 ≤ w) (hi : i < 8) :
    (v.sshiftRight k).getLsbD i = v.getLsbD (k + i) := by
  rw [BitVec.getLsbD_sshiftRight]
  simp [show i < w by omega, show k + i < w by omega]

theorem set_eq (t : Ty) (v : Int) : set t v = t.encode v := by
  have h2 : ∀ k ∈ shifts 2, k + 8 ≤ 16 := fun k => mem_shifts
  have h4 : ∀ k ∈ shifts 4, k + 8 ≤ 32 := fun k => mem_shifts
  have h8 : ∀ k ∈ shifts 8, k + 8 ≤ 64 := fun k => mem_shifts
  cases t with
  | char =>
    refine congrArg (fun b => [b]) (UInt8.toBitVec_inj.mp (BitVec.eq_of_toNat_eq ?_))
    show (BitVec.ofInt 8 v).toNat = (v % 256).toNat % 2 ^ 8
    rw [BitVec.toNat_ofInt]
    omega
  | short =>
    refine put_eq (n := 2) (v := BitVec.ofInt 16 v) (by decide) fun k hk i hi => ?_
    have := h2 k hk
    rw [getLsbD_sshiftRight (by omega) hi, BitVec.getLsbD_signExtend]
    simp [show k + i < 32 by omega, show k + i < 16 by omega]
  | ushort =>
    refine put_eq (n := 2) (v := BitVec.ofInt 16 v) (by decide) fun k hk i hi => ?_
    have := h2 k hk
    rw [BitVec.getLsbD_ushiftRight, BitVec.getLsbD_setWidth]
    simp [show k + i < 32 by omega]
  | int =>
    exact put_eq (n := 4) (v := BitVec.ofInt 32 v) (by decide) fun k hk i hi => getLsbD_sshiftRight (h4 k hk) hi
  | uint =>
    exact put_eq (n := 4) (v := BitVec.ofInt 32 v) (by decide) fun k hk i hi => BitVec.getLsbD_ushiftRight ..
  | long =>
    exact put_eq (n := 8) (v := BitVec.ofInt 64 v) (by decide) fun k hk i hi => getLsbD_sshiftRight (h8 k hk) hi
  | ulong =>
    exact put_eq (n := 8) (v := BitVec.ofInt 64 v) (by decide) fun k hk i hi => BitVec.getLsbD_ushiftRight ..

theorem get_eq {t : Ty} {bs : List UInt8} (h : bs.length = t.size) : get t bs = t.decode bs := by
  have hlt := beVal_lt bs
  have h16 : bs.length = 2 → ((take 32 [8, 0] bs).setWidth 16).toNat = beVal bs := fun h => by
    have e := take_eq (show 8 * bs.length ≤ 32 by omega) (by decide)
    rw [h] at e hlt
    rw [BitVec.toNat_setWidth, show [8, 0] = shifts 2 from rfl, e]
    exact Nat.mod_eq_of_lt (Nat.lt_of_lt_of_le hlt (by decide))
  have h32 : bs.length = 4 → (take 32 [24, 16, 8, 0] bs).toNat = beVal bs := fun h => by
    have e := take_eq (show 8 * bs.length ≤ 32 by omega) (by decide)
    rwa [h] at e
  have h64 : bs.length = 8 → (take 64 [56, 48, 40, 32, 24, 16, 8, 0] bs).toNat = beVal bs := fun h => by
    have e := take_eq (show 8 * bs.length ≤ 64 by omega) (by decide)
    rwa [h] at e
  cases t with
  | char =>
    obtain ⟨b, rfl⟩ := List.length_eq_one_iff.mp h
    show signed 8 b.toNat = signed 8 (beVal [b])
    rw [beVal_cons]
    simp [beVal]
  | short => exact congrArg (signed 16) (h16 h)
  | ushort => exact congrArg Nat.cast (h16 h)
  | int => exact congrArg (signed 32) (h32 h)
  | uint => exact congrArg Nat.cast (h32 h)
  | long => exact congrArg (signed 64) (h64 h)
  | ulong => exact congrArg Nat.cast (h64 h)

end HeapCharBufUtil

end Nio.Buffer
