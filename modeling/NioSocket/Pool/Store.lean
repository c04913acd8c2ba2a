import NioSocket.Buffer.Sliced
import NioSocket.Pool.Holding

/-!
# A pooled buffer as an array of bytes

The bytes of a buffer that holds a slot are those of its region, wherever the region is
(`Pooled.store`).
-/

namespace Nio.Pool

open Buffer (CharBuf Indices Source)

variable {s : Pooled} {l : Layout} {t : Slot} {ch : PoolChunk} {c i j n : Nat} {bs : List UInt8}

namespace Pooled

/-- The buffer holds a slot of its arena, and was made with no negative length. -/
structure Holding (l : Layout) (t : Slot) (s : Pooled) : Prop where
  whole : s.arena.Whole l
  holds : s.buf.Holds l s.arena t
  length_ : 0 ≤ s.buf.length_

/-- Byte `k` of the buffer. -/
def byte (s : Pooled) : Mem := Mem.shift (s.arena.byte (s.buf.memory_.getD 0)) s.buf.offset_

/-- The buffer with the bytes `bs` at `i`. -/
def put (i : Nat) (bs : List UInt8) (s : Pooled) : Pooled :=
  match s.buf.memory_.bind s.arena.chunk with
  | some ch =>
    ⟨s.arena.setChunk (s.buf.memory_.getD 0) (ch.withMemory (ch.memory.write (s.buf.offset_ + i) bs)), s.buf⟩
  | none => s

theorem buf_put (i : Nat) (bs : List UInt8) (s : Pooled) : (put i bs s).buf = s.buf := by
  unfold put
  split <;> rfl

namespace Holding

variable (h : s.Holding l t)
include h

theorem exists_chunk : ∃ ch, s.arena.chunk t.chunk = some ch ∧ s.buf.offset_ + s.buf.maxLength_ ≤ ch.chunkSize_ :=
  h.whole.chunks.in_chunk h.whole.pools h.holds.given

theorem le_maxLength (hn : (i + n : Nat) ≤ s.buf.length_) : i + n ≤ s.buf.maxLength_ := by
  have := h.holds.length_
  omega

theorem idx (hn : (i + n : Nat) ≤ s.buf.length_) : Pooled.idx i s.buf = (s.buf.offset_ + i : Nat) := by
  have := h.le_maxLength hn
  exact h.holds.idx h.whole (by omega)

theorem put_eq (hc : s.arena.chunk t.chunk = some ch) :
    put i bs s = ⟨s.arena.setChunk t.chunk (ch.withMemory (ch.memory.write (s.buf.offset_ + i) bs)), s.buf⟩ := by
  simp only [put, h.holds.memory_, Option.bind_some, Option.getD_some, hc]

theorem byte_eq (hc : s.arena.chunk t.chunk = some ch) : s.byte = ch.memory.shift s.buf.offset_ :=
  funext fun k => by
    simp only [byte, Mem.shift, h.holds.memory_, Option.getD_some]
    exact PoolArena.byte_eq hc _

theorem put_holding : (put i bs s).Holding l t := by
  obtain ⟨ch, hc, -⟩ := h.exists_chunk
  have R := PoolArena.Rewritten.setChunk hc (ch.memory.write (s.buf.offset_ + i) bs)
  rw [h.put_eq hc]
  exact ⟨R.whole h.whole, h.holds.of_given (congrFun R.given _), h.length_⟩

theorem byte_put : (put i bs s).byte = s.byte.write i bs := by
  obtain ⟨ch, hc, -⟩ := h.exists_chunk
  have hp : (put i bs s).Holding l t := h.put_holding
  have hc' : (put i bs s).arena.chunk t.chunk = some (ch.withMemory (ch.memory.write (s.buf.offset_ + i) bs)) := by
    rw [h.put_eq hc]
    exact PoolArena.chunk_setChunk
  rw [hp.byte_eq hc', h.byte_eq hc, buf_put]
  exact Mem.write_shift ..

theorem peek_ok (hn : (i + n : Nat) ≤ s.buf.length_) : peek i n s = .ok (s.byte.read i n) s := by
  obtain ⟨ch, hc, hin⟩ := h.exists_chunk
  have := h.le_maxLength hn
  simp only [peek, h.holds.memory_, deref_ok, Outcome.bind_ok, h.idx hn, h.byte_eq hc, Mem.read_shift]
  exact onArena_ok (PoolArena.peek_ok hc (by omega))

theorem poke_ok (hn : (i + bs.length : Nat) ≤ s.buf.length_) : poke i bs s = .ok () (put i bs s) := by
  obtain ⟨ch, hc, hin⟩ := h.exists_chunk
  have := h.le_maxLength hn
  simp only [poke, h.holds.memory_, deref_ok, Outcome.bind_ok, h.idx hn, h.put_eq hc]
  exact onArena_ok (PoolArena.poke_ok hc (by omega))

theorem pokeSome_ok {src : List UInt8} (hn : (i + n : Nat) ≤ s.buf.length_) (hl : n ≤ src.length) :
    pokeSome i src n s = .ok () (put i (src.take n) s) := by
  rw [pokeSome, if_pos (by omega), Int.toNat_natCast, h.poke_ok (by rw [List.length_take]; omega)]

theorem length_le : s.buf.length_ ≤ intMax := by
  have h1 := h.holds.length_
  have h2 := h.holds.int
  unfold intMax
  omega

theorem setCharsSelf_eq (hi : (i + n : Nat) ≤ s.buf.length_) (hj : (j + n : Nat) ≤ s.buf.length_) :
    setCharsSelf i j n s = if i + n ≤ j ∨ j + n ≤ i then .ok () (put i (s.byte.read j n) s) else .ub := by
  obtain ⟨ch, hc, hin⟩ := h.exists_chunk
  have := h.le_maxLength hi
  have := h.le_maxLength hj
  simp only [setCharsSelf, h.holds.memory_, deref_ok, Outcome.bind_ok, h.idx hi, h.idx hj]
  split
  · rw [h.put_eq hc, h.byte_eq hc, Mem.read_shift]
    exact onArena_ok (PoolArena.memcpy_ok hc (by omega) hc (by omega) (.inr (by omega)))
  · have e : PoolArena.memcpy t.chunk (s.buf.offset_ + i : Nat) t.chunk (s.buf.offset_ + j : Nat) n s.arena = .ub := by
      rw [PoolArena.memcpy, Method.bind_apply, PoolArena.peek_ok hc (by omega), Outcome.bind_ok, if_neg (by omega)]
    simp only [onArena, e]

/-- A buffer that grows keeps its bytes, in its region or in another. -/
theorem grow_ok {n : Int} (hn : s.buf.length_ < n) (hm : n ≤ s.buf.indices.maxCapacity_) (hi : n ≤ intMax) :
    ∃ s' t', setCapacity n s = .ok () s' ∧ s'.Holding l t' ∧ s'.buf.indices = s.buf.indices ∧ s'.buf.length_ = n ∧
      ∀ k : Nat, (k : Int) < s.buf.length_ → s'.byte k = s.byte k := by
  obtain ⟨a, b⟩ := s
  have W : a.Whole l := h.whole
  have H : b.Holds l a t := h.holds
  have h0 : 0 ≤ b.length_ := h.length_
  unfold intMax at hi
  dsimp only at hn hm ⊢
  rcases Pooled.setCapacity_cases W H (i32_eq (by omega) hi) with ⟨he, -⟩ | ⟨-, hb, -⟩ |
    ⟨-, -, ⟨hle, e⟩ | ⟨-, r, t', a', e, M⟩ | ⟨hneg, -⟩⟩
  · omega
  · omega
  · rw [PooledCharBuf.settle, if_pos hn] at e
    exact ⟨_, t, e, ⟨h.whole, { H with length_ := hle }, by show 0 ≤ n; omega⟩, rfl, rfl, fun _ _ => rfl⟩
  · rw [PooledCharBuf.settle, if_pos hn] at e
    refine ⟨_, t', e, ⟨M.whole, M.holds H b, by show 0 ≤ r.length_; rw [M.length_]; omega⟩, rfl, M.length_,
      fun k hk => ?_⟩
    have hcopy := M.copied k (by omega)
    simp only [byte, Mem.shift, (M.holds H b).memory_, H.memory_, Option.getD_some]
    exact hcopy
  · omega

end Holding

/-- The buffer holds a slot. -/
def Live (s : Pooled) : Prop := ∃ l t, s.Holding l t

/-- The region is the memory. -/
def store : CharBuf.Store charBuf where
  Live := Live
  byte := byte
  put := put
  capacity_nonneg := fun ⟨_, _, h⟩ => h.length_
  capacity_le := fun ⟨_, _, h⟩ => h.length_le
  indices_setIndices _ _ := rfl
  capacity_setIndices _ := rfl
  byte_setIndices _ _ := rfl
  live_setIndices := fun _ ⟨l, t, h⟩ => ⟨l, t, h.whole, { h.holds with }, h.length_⟩
  indices_put i bs s := congrArg (·.indices) (buf_put i bs s)
  capacity_put i bs s := congrArg (·.length_) (buf_put i bs s)
  byte_put := fun ⟨_, _, h⟩ _ => h.byte_put
  live_put := fun ⟨l, t, h⟩ _ => ⟨l, t, h.put_holding⟩
  set_ok := fun ⟨_, _, h⟩ hn => h.poke_ok hn
  get_ok := fun ⟨_, _, h⟩ hn => h.peek_ok hn
  _setChars_ok := fun ⟨_, _, h⟩ hn hl => h.pokeSome_ok hn hl
  _getString_ok {i n s} := fun ⟨_, _, h⟩ hn => by
    show (if (n : Int) < 0 then .throw "basic_string::assign" s else peek i n s) = _
    rw [if_neg (by omega), h.peek_ok hn]
  setChars_ok {i n src s} := fun ⟨_, _, h⟩ hn hl => by
    have hn : (i + n : Nat) ≤ s.buf.length_ := hn
    have hc : s.buf.length_ ≤ 2147483647 := h.length_le
    show (CharBuf.checkRangeBounds i n s.buf.length_ s).bind (fun _ => pokeSome i src n) = _
    rw [CharBuf.checkRangeBounds_within (i32_eq (by omega) (by omega)) (i32_eq (by omega) (by omega)) h.length_ hc,
      if_pos ⟨by omega, by omega, by omega⟩, Outcome.bind_ok, h.pokeSome_ok hn hl]
  getChars_ok := fun ⟨_, _, h⟩ hn => h.peek_ok hn
  setCharsFrom_ok {i bs src srcIndex s} := fun ⟨_, _, h⟩ hn e => by
    show setCharsFrom i src srcIndex bs.length s = _
    simp only [setCharsFrom, e]
    exact h.poke_ok hn
  setCharsSelf_eq := fun ⟨_, _, h⟩ hi hj => h.setCharsSelf_eq hi hj
  grow_ok := fun ⟨l, _, h⟩ hn hm hi => by
    obtain ⟨s', t', e, h', hs⟩ := h.grow_ok hn hm hi
    exact ⟨s', e, ⟨l, t', h'⟩, hs⟩

end Pooled

end Nio.Pool
