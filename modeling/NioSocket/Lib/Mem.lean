import Mathlib.Algebra.Group.Nat.Defs
import Mathlib.Data.List.Induction

/-!
# Memory, byte by byte

A memory gives the byte at each address. `read` and `write` are `memcpy` out of
it and into it; `beBytes` and `beVal` are the big-endian bytes of a number.
-/

namespace Nio

/-- Some memory, byte by byte. -/
abbrev Mem := Nat → UInt8

namespace Mem

/-- The `n` bytes at `i`. -/
def read (m : Mem) (i n : Nat) : List UInt8 := (List.range n).map fun k => m (i + k)

/-- The memory with `bs` at `i`. -/
def write (m : Mem) (i : Nat) (bs : List UInt8) : Mem :=
  fun k => if i ≤ k then (bs[k - i]?).getD (m k) else m k

variable {m m' : Mem} {i j n k : Nat} {bs : List UInt8}

@[simp] theorem length_read (m : Mem) (i n : Nat) : (m.read i n).length = n := by simp [read]

@[simp] theorem read_zero (m : Mem) (i : Nat) : m.read i 0 = [] := rfl

theorem getElem?_read (h : k < n) : (m.read i n)[k]? = some (m (i + k)) := by simp [read, h]

@[simp] theorem getElem_read (h : k < (m.read i n).length) : (m.read i n)[k] = m (i + k) := by simp [read]

theorem read_add (m : Mem) (i a b : Nat) : m.read i (a + b) = m.read i a ++ m.read (i + a) b := by
  simp [read, List.range_add, Function.comp_def, Nat.add_assoc]

theorem take_read (h : k ≤ n) : (m.read i n).take k = m.read i k := by
  obtain ⟨d, rfl⟩ := Nat.exists_eq_add_of_le h
  rw [read_add, List.take_left' (length_read _ _ _)]

theorem drop_read (h : k ≤ n) : (m.read i n).drop k = m.read (i + k) (n - k) := by
  obtain ⟨d, rfl⟩ := Nat.exists_eq_add_of_le h
  rw [read_add, List.drop_left' (length_read _ _ _), Nat.add_sub_cancel_left]

theorem read_congr (h : ∀ k < n, m (i + k) = m' (j + k)) : m.read i n = m'.read j n :=
  List.map_congr_left fun k hk => h k (List.mem_range.mp hk)

theorem write_of_lt (h : k < i) : m.write i bs k = m k := by
  simp only [write, Nat.not_le.mpr h, if_false]

theorem write_of_ge (h : i + bs.length ≤ k) : m.write i bs k = m k := by
  simp only [write, List.getElem?_eq_none (show bs.length ≤ k - i by omega), Option.getD_none, ite_self]

theorem write_add (h : k < bs.length) : m.write i bs (i + k) = bs[k] := by
  simp only [write, Nat.le_add_right, if_true, Nat.add_sub_cancel_left, List.getElem?_eq_getElem h,
    Option.getD_some]

@[simp] theorem write_nil (m : Mem) (i : Nat) : m.write i [] = m := by
  funext k; simp [write]

theorem read_write_self (m : Mem) (i : Nat) (bs : List UInt8) : (m.write i bs).read i bs.length = bs := by
  refine List.ext_getElem (length_read _ _ _) fun k hk _ => ?_
  rw [length_read] at hk
  simp only [read, List.getElem_map, List.getElem_range, write_add hk]

/-- Two memories that agree on a range, after the same write. -/
theorem write_congr {d d' : Nat} (h : m (d + k) = m' (d' + k)) :
    m.write (d + i) bs (d + k) = m'.write (d' + i) bs (d' + k) := by
  by_cases h₁ : k < i
  · rw [write_of_lt (by omega), write_of_lt (by omega), h]
  · by_cases h₂ : k - i < bs.length
    · rw [show d + k = d + i + (k - i) by omega, show d' + k = d' + i + (k - i) by omega, write_add h₂,
        write_add h₂]
    · rw [write_of_ge (by omega), write_of_ge (by omega), h]

/-- The memory from `d` on. -/
def shift (m : Mem) (d : Nat) : Mem := fun k => m (d + k)

theorem read_shift (m : Mem) (d i n : Nat) : (m.shift d).read i n = m.read (d + i) n :=
  read_congr fun k _ => by rw [shift, Nat.add_assoc]

theorem write_shift (m : Mem) (d i : Nat) (bs : List UInt8) : (m.write (d + i) bs).shift d = (m.shift d).write i bs :=
  funext fun k => by
    have h : m.write (d + i) bs (d + k) = (m.shift d).write (0 + i) bs (0 + k) :=
      write_congr (by rw [Nat.zero_add]; rfl)
    rwa [Nat.zero_add, Nat.zero_add] at h

end Mem

/-! ## Big-endian numbers -/

/-- The low `n` bytes of `v`, most significant first. -/
def beBytes : Nat → Nat → List UInt8
  | 0, _ => []
  | n + 1, v => beBytes n (v / 256) ++ [UInt8.ofNat v]

/-- The number whose bytes, most significant first, are `bs`. -/
def beVal (bs : List UInt8) : Nat := bs.foldl (fun a b => a * 256 + b.toNat) 0

@[simp] theorem length_beBytes (n v : Nat) : (beBytes n v).length = n := by
  induction n generalizing v with
  | zero => rfl
  | succ n ih => rw [beBytes, List.length_append, ih]; rfl

theorem beVal_concat (bs : List UInt8) (b : UInt8) : beVal (bs ++ [b]) = beVal bs * 256 + b.toNat := by
  rw [beVal, List.foldl_append]; rfl

theorem beVal_lt (bs : List UInt8) : beVal bs < 256 ^ bs.length := by
  induction bs using List.reverseRecOn with
  | nil => exact Nat.one_pos
  | append_singleton bs b ih =>
    have hb : b.toNat < 256 := b.toNat_lt
    rw [beVal_concat, List.length_append, List.length_singleton, Nat.pow_succ]
    omega

theorem beVal_beBytes (n v : Nat) : beVal (beBytes n v) = v % 256 ^ n := by
  induction n generalizing v with
  | zero => rw [Nat.pow_zero, Nat.mod_one]; rfl
  | succ n ih =>
    have hb : (UInt8.ofNat v).toNat = v % 256 := UInt8.toNat_ofNat'
    rw [beBytes, beVal_concat, ih, hb, Nat.pow_succ, Nat.mul_comm (256 ^ n), Nat.mod_mul]
    omega

end Nio
