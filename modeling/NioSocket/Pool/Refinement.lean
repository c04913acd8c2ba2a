import NioSocket.Buffer.Agreement
import NioSocket.Pool.Isolation

/-!
# Pooled buffers behave as unpooled ones

The buffers of an arena (`Buffers`), and beside them unpooled buffers under the same ids
(`Unpooled`), each with an array of its own. Calls on any of them in any order, with what they
return and the indices they leave, make up a trace; the arena has just the traces that the
unpooled buffers have (`trace_iff`), whatever the regions are and wherever the buffers move.
-/

namespace Nio

/-! ## Changing the capacity -/

namespace Buffer.UnpooledHeapCharBuf

variable {b : UnpooledHeapCharBuf} {n : Int}

theorem trim_eq (hb : store.Sound b) (hn : 0 ≤ n) (hlt : n < b.capacity_) :
    trim n { b with capacity_ := n } = .ok () { b with capacity_ := n, indices := b.indices.cut n } := by
  have h0 : 0 ≤ b.indices.readerIndex_ := hb.reader_nonneg
  have hr : b.indices.readerIndex_ ≤ b.indices.writerIndex_ := hb.reader_le
  have hm : b.capacity_ ≤ b.indices.maxCapacity_ := hb.capacity_le
  simp only [trim, Indices.cut]
  by_cases h1 : b.indices.readerIndex_ < n
  · rw [if_pos h1]
    by_cases h2 : b.indices.writerIndex_ > n
    · rw [if_pos h2, if_pos h2, CharBuf.checkIndexBounds_ok h0 (by omega) (by omega), Int.min_eq_left (by omega)]
      rfl
    · rw [if_neg h2, if_neg h2]
  · rw [if_neg h1, Int.min_eq_right (by omega)]
    by_cases h2 : b.indices.writerIndex_ > n
    · rw [if_pos h2]
    · -- both indices are `n` already
      obtain ⟨i, cap, a, rc⟩ := b
      obtain ⟨r, w, mr, mw, mx⟩ := i
      obtain rfl : r = n := by dsimp only at *; omega
      obtain rfl : w = r := by dsimp only at *; omega
      rw [if_neg h2]

theorem resizes : store.Resizes where
  setCapacity_ok {b n} hb h0 hn := by
    have hw : b.indices.writerIndex_ ≤ b.capacity_ := hb.writer_le
    have hmax : b.indices.maxCapacity_ ≤ intMax := hb.max_le
    have hn : n ≤ b.indices.maxCapacity_ := hn
    show ∃ b', setCapacity n b = .ok () b' ∧ (0 ≤ b'.capacity_ ∧ b'.capacity_ ≤ intMax) ∧ b'.indices = b.indices.cut n ∧
      b'.capacity_ = n ∧ ∀ k : Nat, (k : Int) < b.capacity_ → (k : Int) < n → b'.array_ k = b.array_ k
    rcases Int.lt_trichotomy n b.capacity_ with hlt | rfl | hgt
    · simp only [setCapacity]
      rw [if_neg (by omega), if_pos hlt, trim_eq hb h0 hlt, Outcome.bind_ok]
      exact ⟨_, rfl, ⟨h0, by dsimp only [realloc]; omega⟩, rfl, rfl, fun k hk hk' => if_pos (by omega)⟩
    · exact ⟨b, by simp only [setCapacity, if_true], hb.live, by rw [Indices.cut, if_neg (by omega)], rfl, fun _ _ _ => rfl⟩
    · rw [Sound.setCapacity_grow hgt]
      refine ⟨_, rfl, ⟨h0, by dsimp only [realloc]; omega⟩, ?_, rfl, fun k hk hk' => if_pos (by omega)⟩
      rw [Indices.cut, if_neg (by omega)]
      rfl

end Buffer.UnpooledHeapCharBuf

namespace Pool

open Buffer (CharBuf Indices Use UnpooledHeapCharBuf)

variable {l : Layout} {a : PoolArena} {t : Slot} {n : Int} {b : PooledCharBuf} {r : Region}

/-- With the indices within the old length, both ways to settle cut them. -/
theorem PooledCharBuf.settle_eq_cut {old : Int} (h : b.indices.writerIndex_ ≤ old) :
    b.settle old n = { b with indices := b.indices.cut n } := by
  simp only [settle, trimIndicesToCapacity, Indices.cut]
  by_cases hn : n > old
  · rw [if_pos hn, if_neg (by omega)]
  · rw [if_neg hn]
    split <;> rfl

theorem Pooled.resizes : store.Resizes where
  setCapacity_ok {s n} hs h0 hn := by
    obtain ⟨l, t, h⟩ := hs.live
    obtain ⟨a, b⟩ := s
    have H : b.Holds l a t := h.holds
    have hw : b.indices.writerIndex_ ≤ b.length_ := hs.writer_le
    have hmax : b.indices.maxCapacity_ ≤ intMax := hs.max_le
    have hn : n ≤ b.indices.maxCapacity_ := hn
    have hlen : 0 ≤ b.length_ := h.length_
    show ∃ p, setCapacity n ⟨a, b⟩ = .ok () p ∧ Live p ∧ p.buf.indices = b.indices.cut n ∧ p.buf.length_ = n ∧
      ∀ k : Nat, (k : Int) < b.length_ → (k : Int) < n → p.byte k = Pooled.byte ⟨a, b⟩ k
    unfold intMax at hmax
    rcases setCapacity_cases h.whole H (i32_eq (show -2147483648 ≤ n by omega) (by omega)) with ⟨rfl, e⟩ | ⟨-, hout, -⟩ |
      ⟨-, -, ⟨hle, e⟩ | ⟨-, r, t', a', e, M⟩ | ⟨hneg, -⟩⟩
    · exact ⟨_, e, ⟨l, t, h⟩, by rw [Indices.cut, if_neg (by omega)], rfl, fun _ _ _ => rfl⟩
    · omega
    · rw [PooledCharBuf.settle_eq_cut (b := b.withLength n) hw] at e
      exact ⟨_, e, ⟨l, t, h.whole, { H with length_ := hle }, h0⟩, rfl, rfl, fun _ _ _ => rfl⟩
    · rw [PooledCharBuf.settle_eq_cut (b := b.init0 r) hw] at e
      refine ⟨_, e, ⟨l, t', M.whole, { M.holds H b with }, ?_⟩, rfl, M.length_, fun k hk hk' => ?_⟩
      · show 0 ≤ r.length_
        rw [M.length_]
        exact h0
      · have hcopy := M.copied k (by omega)
        simp only [byte, Mem.shift, (M.holds H b).memory_, H.memory_, Option.getD_some]
        exact hcopy
    · omega

namespace Buffers

/-! ## One buffer of many -/

variable {s s' : Buffers} {p p' : Pooled} {id k : Nat} {σ : Nat → Slot}

theorem set_set (s : Buffers) (id : Nat) (p p' : Pooled) : (s.set id p).set id p' = s.set id p' := by
  simp only [set, Function.update_idem]

/-- Buffer `id` is `p` by now; the others have the bytes they have in `s`. -/
structure Works (l : Layout) (s : Buffers) (id : Nat) (p : Pooled) : Prop where
  held : ∃ σ, Held l (s.set id p) σ
  length_ : 0 ≤ p.buf.length_
  spared : ∀ k b, k ≠ id → s.buf k = some b → ∀ i : Nat, (i : Int) < b.length_ →
    Pooled.byte ⟨p.arena, b⟩ i = Pooled.byte ⟨s.arena, b⟩ i

namespace Works

theorem start (H : Held l s σ) (hb : s.buf id = some b) (h0 : 0 ≤ b.length_) : Works l s id ⟨s.arena, b⟩ where
  held := by
    have e : s.set id ⟨s.arena, b⟩ = s := by
      obtain ⟨a, f, m⟩ := s
      simp only [set, Buffers.mk.injEq, true_and, and_true]
      rw [← hb, Function.update_eq_self]
    refine ⟨σ, ?_⟩
    rw [e]
    exact H
  length_ := h0
  spared _ _ _ _ _ _ := rfl

/-- A call of its own takes the buffer on. -/
theorem step {c : Call} (W : Works l s id p) (hc : c.target (s.set id p) = id) (st : Step (s.set id p) c (s.set id p'))
    (h0 : 0 ≤ p'.buf.length_) : Works l s id p' where
  held := by
    obtain ⟨σ, H⟩ := W.held
    exact st.held H
  length_ := h0
  spared k b hne hb i hi := by
    obtain ⟨σ, H⟩ := W.held
    have hb' : (s.set id p).buf k = some b := by rw [set_buf_of_ne hne, hb]
    exact ((Step.frame H st (hc ▸ hne) hb').2 i hi).trans (W.spared k b hne hb i hi)

theorem setIndices {x : Indices} (W : Works l s id p) : Works l s id (Pooled.charBuf.setIndices x p) where
  held := by
    obtain ⟨σ, H⟩ := W.held
    have hb : (s.set id p).buf id = some p.buf := set_buf
    have h1 : p.buf.refCnt_ = 1 := H.refCnt_ id _ hb
    have hx : ({ p.buf with indices := x } : PooledCharBuf).Holds l p.arena (σ id) := { H.holds id _ hb with }
    have hk := H.keep hb H.whole rfl hx h1
    rw [set_set] at hk
    exact ⟨σ, hk⟩
  length_ := W.length_
  spared := W.spared

theorem put {i : Nat} {bs : List UInt8} (W : Works l s id p) (hi : (i + bs.length : Nat) ≤ p.buf.length_) :
    Works l s id (Pooled.put i bs p) := by
  obtain ⟨σ, H⟩ := W.held
  have hb : (s.set id p).buf id = some p.buf := set_buf
  have hold : Pooled.Holding l (σ id) p := ⟨H.whole, H.holds id _ hb, W.length_⟩
  have st : Step (s.set id p) (.write id i bs) ((s.set id p).set id (Pooled.put i bs p)) :=
    .write hb hi (hold.poke_ok hi)
  rw [set_set] at st
  exact W.step rfl st (by rw [Pooled.buf_put]; exact W.length_)

theorem setCapacity (W : Works l s id p) (h0 : 0 ≤ n) (hn : n ≤ intMax)
    (e : Pooled.setCapacity n p = .ok () p') : Works l s id p' := by
  obtain ⟨σ, H⟩ := W.held
  have hb : (s.set id p).buf id = some p.buf := set_buf
  have hi : i32 n = n := by unfold intMax at hn; exact i32_eq (by omega) hn
  have st : Step (s.set id p) (.capacity id n) ((s.set id p).set id p') := .capacity hb hi e
  rw [set_set] at st
  refine W.step rfl st ?_
  rcases Pooled.setCapacity_cases H.whole (H.holds id _ hb) hi with ⟨rfl, e'⟩ | ⟨-, -, what, e'⟩ |
    ⟨-, -, ⟨-, e'⟩ | ⟨-, r, t', a', e', M⟩ | ⟨-, e'⟩⟩
  · obtain ⟨-, rfl⟩ := Outcome.ok.inj (e'.symm.trans e)
    exact h0
  · cases e'.symm.trans e
  · obtain ⟨-, rfl⟩ := Outcome.ok.inj (e'.symm.trans e)
    obtain ⟨i, hs⟩ := (p.buf.withLength n).settle_eq p.buf.length_ n
    rw [hs]
    exact h0
  · obtain ⟨-, rfl⟩ := Outcome.ok.inj (e'.symm.trans e)
    obtain ⟨i, hs⟩ := (p.buf.init0 r).settle_eq p.buf.length_ n
    rw [hs]
    exact h0.trans_eq M.length_.symm
  · cases e'.symm.trans e

end Works

/-- The functions of buffer `id`, and what becomes of the other buffers. -/
def store (l : Layout) (s : Buffers) (id : Nat) : Pooled.charBuf.Store :=
  Pooled.store.restrict (Works l s id) (fun _ W => W.setIndices) (fun hi W => W.put hi) fun h0 hn e W =>
    W.setCapacity h0 hn e

theorem resizes (l : Layout) (s : Buffers) (id : Nat) : (store l s id).Resizes := Pooled.resizes.restrict

/-- A fair call on a buffer that matches an unpooled one is answered alike. -/
theorem use_alike {u : UnpooledHeapCharBuf} {x : Use} (H : Held l s σ) (hb : s.buf id = some b)
    (M : Pooled.store.Matched UnpooledHeapCharBuf.store ⟨s.arena, b⟩ u) (hx : x.Fair b.indices b.length_) :
    (Pooled.charBuf.use x ⟨s.arena, b⟩).Alike
      (fun p u' => Pooled.store.Matched UnpooledHeapCharBuf.store p u' ∧ Works l s id p)
      (x.Endless b.indices b.length_) (UnpooledHeapCharBuf.charBuf.use x u) := by
  obtain ⟨_, _, hold⟩ := M.agree.live
  have M' : (store l s id).Matched UnpooledHeapCharBuf.store ⟨s.arena, b⟩ u :=
    M.restrict (Works.start H hb hold.length_)
  exact (M'.use (resizes l s id) UnpooledHeapCharBuf.resizes hx).imp fun _ _ hp => hp.of_restrict

/-- Every request in range is served with a buffer that matches a new unpooled one. -/
theorem allocate_matched {initial max : Int} (H : Held l s σ) (h0 : 1 ≤ initial) (hm : initial ≤ max) (hmax : max ≤ intMax) :
    ∃ b a', s.arena.allocateBuf initial max = .ok b a' ∧ Step s (.allocate initial max) (s.add a' b) ∧
      (s.add a' b).buf s.nextBuf = some b ∧
      Pooled.store.Matched UnpooledHeapCharBuf.store ⟨(s.add a' b).arena, b⟩ (.new initial max) := by
  have hi : i32 initial = initial := i32_eq (by omega) (by unfold intMax at hmax; omega)
  obtain ⟨r, t, a', e, hS, -, -⟩ := PoolArena.allocate_ok H.whole hi (by unfold intMin; omega)
  have ea : s.arena.allocateBuf initial max = .ok ((PooledCharBuf.new max).init0 r) a' := by
    rw [PoolArena.allocateBuf, Method.bind_apply, e]
    rfl
  have st : Step s (.allocate initial max) (s.add a' ((PooledCharBuf.new max).init0 r)) :=
    .allocate hi (i32_eq (by omega) hmax) ea
  obtain ⟨σ', H'⟩ := st.held H
  have hself : (s.add a' ((PooledCharBuf.new max).init0 r)).buf s.nextBuf = some ((PooledCharBuf.new max).init0 r) :=
    Function.update_self ..
  have hlen : r.length_ = initial := hS.length_
  refine ⟨_, a', ea, st, hself, ⟨Int.le_refl 0, Int.le_refl 0, ?_, ?_⟩,
    ⟨⟨l, σ' s.nextBuf, H'.whole, H'.holds _ _ hself, ?_⟩, ⟨?_, ?_⟩, rfl, hlen, fun k hk => ?_⟩, hmax⟩
  · show 0 ≤ r.length_
    omega
  · show r.length_ ≤ max
    omega
  · show 0 ≤ r.length_
    omega
  · show 0 ≤ initial
    omega
  · exact hm.trans hmax
  · have hk : (k : Int) < 0 := hk
    omega

end Buffers

/-! ## What the calls answer -/

/-- What a call on a buffer returns or throws, and the indices and the capacity it leaves. -/
structure Answer where
  result : Except String (Option Buffer.Result)
  indices : Indices
  capacity : Int

/-- What is done with a buffer, and what is seen of it. -/
inductive Event
  | allocate (initialCapacity maxCapacity : Int)
  | use (id : Nat) (u : Use) (answer : Answer)
  | release (id : Nat)

/-- A fair call on a buffer of the arena, and its answer. -/
inductive Buffers.Serves (s : Buffers) : Event → Buffers → Prop
  | allocate {initial max : Int} {b : PooledCharBuf} {a' : PoolArena} : 1 ≤ initial → initial ≤ max → max ≤ intMax →
      s.arena.allocateBuf initial max = .ok b a' → Serves s (.allocate initial max) (s.add a' b)
  | returns {id : Nat} {u : Use} {b : PooledCharBuf} {r : Option Buffer.Result} {p : Pooled} : s.buf id = some b →
      u.Fair b.indices b.length_ → Pooled.charBuf.use u ⟨s.arena, b⟩ = .ok r p →
      Serves s (.use id u ⟨.ok r, p.buf.indices, p.buf.length_⟩) (s.set id p)
  | throws {id : Nat} {u : Use} {b : PooledCharBuf} {what : String} {p : Pooled} : s.buf id = some b →
      u.Fair b.indices b.length_ → Pooled.charBuf.use u ⟨s.arena, b⟩ = .throw what p →
      Serves s (.use id u ⟨.error what, p.buf.indices, p.buf.length_⟩) (s.set id p)
  | release {id : Nat} {b : PooledCharBuf} {p : Pooled} : s.buf id = some b →
      Pooled.release 1 ⟨s.arena, b⟩ = .ok () p → Serves s (.release id) (s.remove id p.arena)

/-- The unpooled buffers that are in use. -/
structure Unpooled where
  buf : Nat → Option UnpooledHeapCharBuf
  nextBuf : Nat

namespace Unpooled

/-- No buffers. -/
def init : Unpooled := ⟨fun _ => none, 0⟩

/-- A buffer changes. -/
def set (h : Unpooled) (id : Nat) (b : UnpooledHeapCharBuf) : Unpooled :=
  { h with buf := Function.update h.buf id (some b) }

/-- A buffer is made. -/
def add (h : Unpooled) (b : UnpooledHeapCharBuf) : Unpooled :=
  ⟨Function.update h.buf h.nextBuf (some b), h.nextBuf + 1⟩

/-- A buffer is gone. -/
def remove (h : Unpooled) (id : Nat) : Unpooled := { h with buf := Function.update h.buf id none }

/-- A fair call on an unpooled buffer, and its answer. -/
inductive Serves (h : Unpooled) : Event → Unpooled → Prop
  | allocate {initial max : Int} : 1 ≤ initial → initial ≤ max → max ≤ intMax →
      Serves h (.allocate initial max) (h.add (.new initial max))
  | returns {id : Nat} {u : Use} {b b' : UnpooledHeapCharBuf} {r : Option Buffer.Result} : h.buf id = some b →
      u.Fair b.indices b.capacity_ → UnpooledHeapCharBuf.charBuf.use u b = .ok r b' →
      Serves h (.use id u ⟨.ok r, b'.indices, b'.capacity_⟩) (h.set id b')
  | throws {id : Nat} {u : Use} {b b' : UnpooledHeapCharBuf} {what : String} : h.buf id = some b →
      u.Fair b.indices b.capacity_ → UnpooledHeapCharBuf.charBuf.use u b = .throw what b' →
      Serves h (.use id u ⟨.error what, b'.indices, b'.capacity_⟩) (h.set id b')
  | release {id : Nat} {b : UnpooledHeapCharBuf} : h.buf id = some b → Serves h (.release id) (h.remove id)

end Unpooled

/-! ## The two side by side -/

/-- Each buffer of the arena matches the unpooled buffer with the same id. -/
structure Twins (l : Layout) (s : Buffers) (h : Unpooled) : Prop where
  held : ∃ σ, Buffers.Held l s σ
  nextBuf : h.nextBuf = s.nextBuf
  dead : ∀ id, s.buf id = none ↔ h.buf id = none
  live : ∀ id b u, s.buf id = some b → h.buf id = some u →
    Pooled.store.Matched UnpooledHeapCharBuf.store ⟨s.arena, b⟩ u

namespace Twins

open Buffers (Held)

variable {s s' : Buffers} {h h' : Unpooled} {id : Nat} {u : UnpooledHeapCharBuf} {σ : Nat → Slot} {x : Use}
  {a' : PoolArena}

theorem init (l : Layout) : Twins l (.init l) .init where
  held := ⟨_, Buffers.init_held l⟩
  nextBuf := rfl
  dead _ := ⟨fun _ => rfl, fun _ => rfl⟩
  live _ _ _ hb _ := by cases hb

theorem exists_twin (T : Twins l s h) (hb : s.buf id = some b) : ∃ u, h.buf id = some u :=
  Option.ne_none_iff_exists'.mp fun hn => by
    rw [(T.dead id).mpr hn] at hb
    cases hb

theorem exists_twin' (T : Twins l s h) (hu : h.buf id = some u) : ∃ b, s.buf id = some b :=
  Option.ne_none_iff_exists'.mp fun hn => by
    rw [(T.dead id).mp hn] at hu
    cases hu

/-- A buffer whose bytes are spared still matches. -/
theorem spared (M : Pooled.store.Matched UnpooledHeapCharBuf.store ⟨a, b⟩ u) (H : Held l s' σ) (hb : s'.buf id = some b)
    (hs : ∀ i : Nat, (i : Int) < b.length_ → Pooled.byte ⟨s'.arena, b⟩ i = Pooled.byte ⟨a, b⟩ i) :
    Pooled.store.Matched UnpooledHeapCharBuf.store ⟨s'.arena, b⟩ u where
  reader_nonneg := M.reader_nonneg
  reader_le := M.reader_le
  writer_le := M.writer_le
  capacity_le := M.capacity_le
  max_le := M.max_le
  agree := by
    have hw : b.indices.writerIndex_ ≤ b.length_ := M.writer_le
    obtain ⟨_, _, hl⟩ := M.agree.live
    refine ⟨⟨l, σ id, H.whole, H.holds id b hb, hl.length_⟩, M.agree.live', M.agree.indices, M.agree.capacity,
      fun k hk => ?_⟩
    have hk : (k : Int) < b.indices.writerIndex_ := hk
    exact (hs k (by omega)).trans (M.agree.byte k hk)

/-- The buffer of a call and its twin match again, and the others are spared. -/
theorem of_target (T : Twins l s h) (H : Held l s' σ) (hn : h'.nextBuf = s'.nextBuf)
    (hs : ∀ k, k ≠ id → s'.buf k = s.buf k) (hh : ∀ k, k ≠ id → h'.buf k = h.buf k)
    (hd : s'.buf id = none ↔ h'.buf id = none)
    (hf : ∀ k b, k ≠ id → s.buf k = some b → ∀ i : Nat, (i : Int) < b.length_ →
      Pooled.byte ⟨s'.arena, b⟩ i = Pooled.byte ⟨s.arena, b⟩ i)
    (hl : ∀ b u, s'.buf id = some b → h'.buf id = some u →
      Pooled.store.Matched UnpooledHeapCharBuf.store ⟨s'.arena, b⟩ u) : Twins l s' h' where
  held := ⟨σ, H⟩
  nextBuf := hn
  dead k := by
    by_cases he : k = id
    · rw [he]
      exact hd
    · rw [hs k he, hh k he]
      exact T.dead k
  live k b u hb hu := by
    by_cases he : k = id
    · subst he
      exact hl b u hb hu
    · rw [hh k he] at hu
      have hb' := hb
      rw [hs k he] at hb
      exact spared (T.live k b u hb hu) H hb' (hf k b he hb)

/-- A fair call is answered alike. -/
theorem use (T : Twins l s h) (hb : s.buf id = some b) (hu : h.buf id = some u) (hx : x.Fair b.indices b.length_) :
    (Pooled.charBuf.use x ⟨s.arena, b⟩).Alike
      (fun p u' => p.buf.indices = u'.indices ∧ p.buf.length_ = u'.capacity_ ∧ Twins l (s.set id p) (h.set id u'))
      (x.Endless b.indices b.length_) (UnpooledHeapCharBuf.charBuf.use x u) := by
  obtain ⟨σ, H⟩ := T.held
  refine (Buffers.use_alike H hb (T.live id b u hb hu) hx).imp fun p u' ⟨hM, W⟩ => ?_
  obtain ⟨σ', H'⟩ := W.held
  refine ⟨hM.agree.indices, hM.agree.capacity, T.of_target H' T.nextBuf (fun k (hk : k ≠ id) => Buffers.set_buf_of_ne hk)
    (fun k hk => Function.update_of_ne hk ..) ?_ W.spared fun b₁ u₁ hb₁ hu₁ => ?_⟩
  · rw [Buffers.set_buf]
    show _ ↔ Function.update h.buf id (some u') id = none
    rw [Function.update_self]
    simp
  · rw [Buffers.set_buf] at hb₁
    have hu₁ : Function.update h.buf id (some u') id = some u₁ := hu₁
    rw [Function.update_self] at hu₁
    cases hb₁
    cases hu₁
    exact hM

/-- Every request in range is served. -/
theorem allocate {initial max : Int} (T : Twins l s h) (h0 : 1 ≤ initial) (hm : initial ≤ max) (hmax : max ≤ intMax) :
    ∃ b a', s.arena.allocateBuf initial max = .ok b a' ∧ Twins l (s.add a' b) (h.add (.new initial max)) := by
  obtain ⟨σ, H⟩ := T.held
  obtain ⟨b, a', e, st, hself, M⟩ := Buffers.allocate_matched H h0 hm hmax
  obtain ⟨σ', H'⟩ := st.held H
  have hself' : (h.add (.new initial max)).buf s.nextBuf = some (.new initial max) := by
    rw [← T.nextBuf]
    exact Function.update_self ..
  refine ⟨b, a', e, T.of_target H' (congrArg (· + 1) T.nextBuf)
    (fun k (hk : k ≠ s.nextBuf) => Function.update_of_ne hk ..)
    (fun k hk => Function.update_of_ne (T.nextBuf ▸ hk) ..) ?_ (fun k b hk hb => (Buffers.Step.frame H st hk hb).2)
    fun b u hb hu => ?_⟩
  · rw [hself, hself']
    simp
  · rw [hself] at hb
    rw [hself'] at hu
    cases hb
    cases hu
    exact M

/-- A buffer is released with its twin. -/
theorem release (T : Twins l s h) (hb : s.buf id = some b) :
    ∃ p, Pooled.release 1 ⟨s.arena, b⟩ = .ok () p ∧ Twins l (s.remove id p.arena) (h.remove id) := by
  obtain ⟨σ, H⟩ := T.held
  obtain ⟨a', b', e, -⟩ := Pooled.release_one H.whole (H.holds id b hb) (H.refCnt_ id b hb)
  have st : Buffers.Step s (.release id) (s.remove id a') := .release hb e
  obtain ⟨σ', H'⟩ := st.held H
  have hself : (s.remove id a').buf id = none := Function.update_self ..
  have hself' : (h.remove id).buf id = none := Function.update_self ..
  refine ⟨_, e, T.of_target H' T.nextBuf (fun k (hk : k ≠ id) => Function.update_of_ne hk ..)
    (fun k hk => Function.update_of_ne hk ..) (iff_of_true hself hself')
    (fun k b hk hb => (Buffers.Step.frame H st hk hb).2)
    fun b u hb hu => ?_⟩
  rw [hself] at hb
  cases hb

/-- What the arena answers, the unpooled buffers answer. -/
theorem serves {e : Event} (T : Twins l s h) (st : s.Serves e s') : ∃ h', h.Serves e h' ∧ Twins l s' h' := by
  cases st with
  | allocate h0 hm hmax ea =>
    obtain ⟨b, a', e, T'⟩ := T.allocate h0 hm hmax
    obtain ⟨rfl, rfl⟩ := Outcome.ok.inj (ea.symm.trans e)
    exact ⟨_, .allocate h0 hm hmax, T'⟩
  | @returns id x b r p hb hx e =>
    obtain ⟨u, hu⟩ := T.exists_twin hb
    have M := (T.live id b u hb hu).agree
    obtain ⟨u', e', hi, hc, T'⟩ := (T.use hb hu hx).exists_ok e
    have hi' : b.indices = u.indices := M.indices
    have hc' : b.length_ = u.capacity_ := M.capacity
    rw [hi, hc]
    rw [hi', hc'] at hx
    exact ⟨_, .returns hu hx e', T'⟩
  | @throws id x b what p hb hx e =>
    obtain ⟨u, hu⟩ := T.exists_twin hb
    have M := (T.live id b u hb hu).agree
    obtain ⟨u', e', hi, hc, T'⟩ := (T.use hb hu hx).exists_throw e
    have hi' : b.indices = u.indices := M.indices
    have hc' : b.length_ = u.capacity_ := M.capacity
    rw [hi, hc]
    rw [hi', hc'] at hx
    exact ⟨_, .throws hu hx e', T'⟩
  | release hb e =>
    obtain ⟨u, hu⟩ := T.exists_twin hb
    obtain ⟨p, e', T'⟩ := T.release hb
    obtain ⟨-, rfl⟩ := Outcome.ok.inj (e.symm.trans e')
    exact ⟨_, .release hu, T'⟩

/-- What the unpooled buffers answer, the arena answers. -/
theorem serves' {e : Event} (T : Twins l s h) (st : h.Serves e h') : ∃ s', s.Serves e s' ∧ Twins l s' h' := by
  cases st with
  | allocate h0 hm hmax =>
    obtain ⟨b, a', e, T'⟩ := T.allocate h0 hm hmax
    exact ⟨_, .allocate h0 hm hmax e, T'⟩
  | @returns id x u u' r hu hx e =>
    obtain ⟨b, hb⟩ := T.exists_twin' hu
    have M := (T.live id b u hb hu).agree
    have hi' : b.indices = u.indices := M.indices
    have hc' : b.length_ = u.capacity_ := M.capacity
    rw [← hi', ← hc'] at hx
    obtain ⟨p, e', hi, hc, T'⟩ := (T.use hb hu hx).flip.exists_ok e
    rw [← hi, ← hc]
    exact ⟨_, .returns hb hx e', T'⟩
  | @throws id x u u' what hu hx e =>
    obtain ⟨b, hb⟩ := T.exists_twin' hu
    have M := (T.live id b u hb hu).agree
    have hi' : b.indices = u.indices := M.indices
    have hc' : b.length_ = u.capacity_ := M.capacity
    rw [← hi', ← hc'] at hx
    obtain ⟨p, e', hi, hc, T'⟩ := (T.use hb hu hx).flip.exists_throw e
    rw [← hi, ← hc]
    exact ⟨_, .throws hb hx e', T'⟩
  | release hu =>
    obtain ⟨b, hb⟩ := T.exists_twin' hu
    obtain ⟨p, e, T'⟩ := T.release hb
    exact ⟨_, .release hb e, T'⟩

end Twins

/-- The arena answers the calls on its buffers, in whatever order they come, as the unpooled buffers do: the
same values are returned, the same calls throw, and the indices and the capacity are the same behind each. -/
theorem trace_iff (l : Layout) (es : List Event) :
    (∃ s, Run Buffers.Serves (.init l) es s) ↔ ∃ h, Run Unpooled.Serves .init es h := by
  constructor
  · rintro ⟨s, hr⟩
    obtain ⟨h, hr', -⟩ := hr.simulate (Twins.init l) fun _ _ _ _ T st => T.serves st
    exact ⟨h, hr'⟩
  · rintro ⟨h, hr⟩
    obtain ⟨s, hr', -⟩ := hr.simulate (R := fun h s => Twins l s h) (Twins.init l) fun _ _ _ _ T st => T.serves' st
    exact ⟨s, hr'⟩

/-- A fair call on a buffer in use is answered, unless it has to make room up to a capacity that the loop for a
larger capacity does not reach: then that loop does not end, and so the call does not. -/
theorem use_answered {l : Layout} {es : List Event} {s : Buffers} {id : Nat} {b : PooledCharBuf} {x : Use}
    (hr : Run Buffers.Serves (.init l) es s) (hb : s.buf id = some b) (hx : x.Fair b.indices b.length_) :
    ((∃ answer s', s.Serves (.use id x answer) s') ↔ ¬x.Endless b.indices b.length_) ∧
    (x.Endless b.indices b.length_ → ∃ p, x = .move (.write p) ∧
      Pooled.charBuf.calculateNewCapacity (b.indices.writerIndex_ + p.size) b.indices.maxCapacity_ ⟨s.arena, b⟩ = .hang ∧
      Pooled.charBuf.use x ⟨s.arena, b⟩ = .hang) := by
  obtain ⟨h, -, T⟩ := hr.simulate (Twins.init l) fun _ _ _ _ T st => T.serves st
  obtain ⟨u, hu⟩ := T.exists_twin hb
  have A := T.use hb hu hx
  have M := T.live id b u hb hu
  have hloop : x.Endless b.indices b.length_ → ∃ p, x = .move (.write p) ∧
      Pooled.charBuf.calculateNewCapacity (b.indices.writerIndex_ + p.size) b.indices.maxCapacity_ ⟨s.arena, b⟩ = .hang ∧
      Pooled.charBuf.use x ⟨s.arena, b⟩ = .hang := fun hE => by
    match x, hx, hE with
    | .move (.write p), ⟨bs, hp⟩, ⟨hlt, hle, hroom⟩ =>
      have hw0 : 0 ≤ b.indices.writerIndex_ := M.writer_nonneg
      have hmax : b.indices.maxCapacity_ ≤ 2147483647 := M.max_le
      have hsize : p.intSize = p.size := by
        rcases p.intSize_eq with e | ⟨src, rfl⟩
        · exact e
        · exact i32_eq (by show -2147483648 ≤ (src.length : Int); omega) hp.2
      have hE : Pooled.charBuf.Endless ⟨s.arena, b⟩ p.size :=
        ⟨by show b.length_ - b.indices.writerIndex_ < _; omega,
          by show _ ≤ b.indices.maxCapacity_ - b.indices.writerIndex_; omega, hroom⟩
      obtain ⟨hcalc, hens⟩ := hE.hang hw0 M.writer_le M.capacity_le M.max_le
      have hwrite := CharBuf.write_hang (hsize.symm ▸ hens)
      refine ⟨p, rfl, hcalc, ?_⟩
      show (Pooled.charBuf.write p ⟨s.arena, b⟩).bind _ = _
      rw [hwrite]
      rfl
  refine ⟨⟨fun ⟨answer, s', st⟩ hE => ?_, fun hE => ?_⟩, hloop⟩
  · obtain ⟨-, -, -, e⟩ := hloop hE
    cases st with
    | returns hb' _ e' =>
      cases hb.symm.trans hb'
      cases e.symm.trans e'
    | throws hb' _ e' =>
      cases hb.symm.trans hb'
      cases e.symm.trans e'
  · cases e : Pooled.charBuf.use x ⟨s.arena, b⟩ with
    | ok r p => exact ⟨_, _, .returns hb hx e⟩
    | throw what p => exact ⟨_, _, .throws hb hx e⟩
    | ub =>
      rw [e] at A
      cases A
    | hang => exact absurd (A.of_hang e) hE

/-- Three bytes are written to a buffer of two: it returns, with the writer index behind them and a capacity of
four, as the unpooled buffer does. -/
theorem use_answered_write : ∃ s s' answer, Run Buffers.Serves (.init Buffers.twoPages)
      [.allocate 2 100, .use 0 (.move (.write (.chars [1, 2, 3] 3))) answer] s' ∧
    Run Buffers.Serves (.init Buffers.twoPages) [.allocate 2 100] s ∧
    answer.result = .ok none ∧ answer.indices.writerIndex_ = 3 ∧ answer.capacity = 4 := by
  obtain ⟨b, a', e, T⟩ := (Twins.init Buffers.twoPages).allocate (show (1 : Int) ≤ 2 by decide)
    (show (2 : Int) ≤ 100 by decide) (by decide)
  have hr : Run Buffers.Serves (.init Buffers.twoPages) [.allocate 2 100] ((Buffers.init Buffers.twoPages).add a' b) :=
    .one (.allocate (by decide) (by decide) (by decide) e)
  have hb : ((Buffers.init Buffers.twoPages).add a' b).buf 0 = some b :=
    show Function.update (Buffers.init Buffers.twoPages).buf 0 (some b) 0 = some b from Function.update_self ..
  have hu : (Unpooled.init.add (.new 2 100)).buf 0 = some (.new 2 100) :=
    show Function.update Unpooled.init.buf 0 _ 0 = _ from Function.update_self ..
  have M := (T.live 0 b _ hb hu).agree
  have hi : b.indices = (UnpooledHeapCharBuf.new 2 100).indices := M.indices
  have hl : b.length_ = 2 := M.capacity
  obtain ⟨hans, -⟩ := use_answered hr hb (x := .move (.write (.chars [1, 2, 3] 3))) ⟨[1, 2, 3], by decide, by decide, rfl⟩
  rw [hi, hl] at hans
  obtain ⟨answer, s', st⟩ := hans.mpr fun hE => hE.2.2 (by decide)
  refine ⟨_, s', answer, hr.append (.one st), hr, ?_⟩
  obtain ⟨h', st', -⟩ := T.serves st
  -- what the unpooled buffer answers is computed
  obtain ⟨r, y, hy, hp⟩ := Outcome.any_eq_true.mp (show
    (UnpooledHeapCharBuf.charBuf.use (.move (.write (.chars [1, 2, 3] 3))) (.new 2 100)).any (fun r y =>
      r.isNone && y.indices.writerIndex_ == 3 && y.capacity_ == 4) = true by decide +kernel)
  simp only [Bool.and_eq_true, Option.isNone_iff_eq_none, beq_iff_eq] at hp
  obtain ⟨⟨rfl, hw⟩, hc⟩ := hp
  cases st' with
  | returns hu' _ e' =>
    obtain rfl := Option.some_inj.mp (hu.symm.trans hu')
    obtain ⟨rfl, rfl⟩ := Outcome.ok.inj (hy.symm.trans e')
    exact ⟨rfl, hw, hc⟩
  | throws hu' _ e' =>
    obtain rfl := Option.some_inj.mp (hu.symm.trans hu')
    cases hy.symm.trans e'

end Pool

end Nio
