import NioSocket.Buffer.Appending
import NioSocket.Buffer.IndexOrder
import NioSocket.Pool.Refinement

/-!
# A pooled buffer in the place of an unpooled one

A buffer of an arena and an unpooled buffer get the same calls, while the arena goes on serving
other buffers (`Beside`). Where neither the sum of the reader index and a length nor the length
of a string leaves the range of an `int` (`Use.InRange`), both return the same and both throw the
same, whichever way the arena finds the room (`refines_unpooled`). Where a sum does, `readChars`
of the one is refused by a check that the other does not make (`unchecked_read`).
-/

namespace Nio

/-! ## The calls -/

namespace Buffer

variable {i : Indices} {u : Use} {p : Put} {capacity : Int} {σ : Type} {c : CharBuf σ} {s : σ} {bs : List UInt8}

/-- What is to be written is there, and its length is not negative. -/
def Put.There : Put → Prop
  | chars src length => 0 ≤ length ∧ length ≤ src.length
  | buf src srcIndex length => ∃ bs, src srcIndex length = .ok bs () ∧ (bs.length : Int) = length
  | _ => True

/-- Relative reads and writes of lengths that are not negative, accesses below the writer index, skipping,
setting an index below the writer index, and a capacity from 1 to the largest. -/
def Use.Ordinary (i : Indices) : Use → Prop
  | move (.readerIndex index) | move (.writerIndex index) => 0 ≤ index ∧ index ≤ i.writerIndex_
  | move (.skipBytes n) => 0 ≤ n ∧ n ≤ intMax
  | move (.write p) => p.There
  | move (.capacity n) => 1 ≤ n ∧ n ≤ i.maxCapacity_
  | read g => 0 ≤ g.size ∧ g.size ≤ intMax
  | getAt g index => Within index g.size i.writerIndex_
  | setAt p index => p.There ∧ Within index p.size i.writerIndex_
  | _ => False

/-- The sum of the reader index and the length does not wrap around, and the length of a string that is
written is not negative as an `int`. -/
def Use.InRange (i : Indices) : Use → Prop
  | move (.skipBytes n) => i.readerIndex_ + n ≤ intMax
  | move (.write (.string v)) => 0 ≤ i32 v.length
  | read g => i.readerIndex_ + g.size ≤ intMax
  | _ => True

theorem Put.There.gives (h : p.There) (hs : ∀ v, p = .string v → (v.length : Int) ≤ intMax) : ∃ bs, p.Gives bs := by
  cases p with
  | string v => exact ⟨v, rfl, hs v rfl⟩
  | chars src length => exact ⟨_, h.1, h.2, rfl⟩
  | buf src srcIndex length => exact h
  | _ => exact ⟨_, rfl⟩

/-- An ordinary call in range is a fair one: of a longer string, `writeString` writes as many bytes as its length
is as an `int`. -/
theorem Use.Ordinary.fair (h : u.Ordinary i) (hr : u.InRange i) (h0 : 0 ≤ i.readerIndex_) (hw : i.writerIndex_ ≤ capacity)
    (hcap : 1 ≤ capacity) (hm : capacity ≤ i.maxCapacity_) (hmax : i.maxCapacity_ ≤ 2 ^ 30) :
    ∃ u' : Use, u'.Ordinary i ∧ u'.Fair i capacity ∧ ¬u'.Endless i capacity ∧
      ∀ {σ : Type} (c : CharBuf σ), c.use u = c.use u' := by
  have hend : ∀ p : Put, ¬(Use.move (.write p)).Endless i capacity := fun p hE => hE.2.2 ⟨by omega, hE.2.1.trans hmax⟩
  cases u with
  | move m =>
    cases m with
    | readerIndex index => exact ⟨.move (.readerIndex index), h, trivial, id, fun _ => rfl⟩
    | writerIndex index => exact ⟨.move (.writerIndex index), h, .inl h.2, id, fun _ => rfl⟩
    | skipBytes n => exact ⟨.move (.skipBytes n), h, ⟨Int.add_nonneg h0 h.1, hr⟩, id, fun _ => rfl⟩
    | capacity n =>
      have hn : 1 ≤ n := h.1
      exact ⟨.move (.capacity n), h, ⟨by omega, h.2⟩, id, fun _ => rfl⟩
    | write p =>
      by_cases hs : ∃ v, p = .string v
      · obtain ⟨v, rfl⟩ := hs
        have hv : 0 ≤ i32 v.length := hr
        have hle : i32 v.length ≤ v.length := by
          unfold i32 at hv ⊢
          omega
        exact ⟨.move (.write (.chars v (i32 v.length))), ⟨hv, hle⟩, ⟨_, hv, hle, rfl⟩, hend _, fun _ => rfl⟩
      · exact ⟨.move (.write p), h, Put.There.gives h fun v e => absurd ⟨v, e⟩ hs, hend p, fun _ => rfl⟩
    | _ => exact h.elim
  | read g => exact ⟨.read g, h, ⟨h.1, hr⟩, id, fun _ => rfl⟩
  | getAt g index => exact ⟨.getAt g index, h, h, id, fun _ => rfl⟩
  | setAt p index =>
    obtain ⟨hp, hi0, hsize, hle⟩ := id h
    obtain ⟨bs, hb⟩ := hp.gives fun v e => by
      subst e
      have hle : index + (v.length : Int) ≤ i.writerIndex_ := hle
      unfold intMax
      omega
    exact ⟨.setAt p index, h, ⟨bs, hb, by rw [hb.length]; exact ⟨hi0, hsize, hle.trans hw⟩⟩, id, fun _ => rfl⟩

namespace CharBuf.Store

variable {B : Store c} {α β : Type} {o : Outcome σ α}

/-- The capacity is at least 1, and the largest capacity `m`. -/
def Sized (c : CharBuf σ) (m : Int) (s : σ) : Prop := 1 ≤ c.capacity s ∧ c.maxCapacity s = m

/-- A call that leaves the buffer sized, whether it returns or throws. -/
abbrev Sizes (c : CharBuf σ) (m : Int) (o : Outcome σ α) : Prop := o.Sat (fun _ => Sized c m) (Sized c m)

theorem Sizes.map {m : Int} (h : Sizes c m o) (f : α → β) : Sizes c m (o.bind fun x => .ok (f x)) := by
  cases o with
  | ok x s' => exact h
  | throw what s' => exact h
  | ub | hang => trivial

theorem Sized.setIndex0 {m : Int} (B : Store c) (h : Sized c m s) (r w : Int) : Sized c m (c.setIndex0 r w s) := by
  refine ⟨(B.capacity_setIndex0 r w s).symm ▸ h.1, ?_⟩
  rw [CharBuf.setIndex0, CharBuf.maxCapacity, B.indices_setIndices]
  exact h.2

/-- A read moves the reader index. -/
theorem fetch_sizes {m n : Int} {f : Method σ α} (h : Sized c m s) (B : Store c) (hf : Fetches c s n (f s)) :
    Sizes c m ((do c.checkReadable n; let x ← f; c.advanceReader n; pure x : Method σ α) s) := by
  simp only [Method.bind_apply, checkReadable]
  split
  · exact h
  rw [Outcome.bind_ok, Method.bind_apply]
  cases e : f s with
  | ok x s' =>
    rw [e] at hf
    obtain ⟨rfl, -⟩ := hf
    exact h.setIndex0 B _ _
  | throw what s' =>
    rw [e] at hf
    obtain rfl : s' = s := hf
    exact h
  | ub | hang => trivial

variable (hs : B.Sound s)
include hs

theorem read_sizes {m : Int} (G : B.Guarded) (h : Sized c m s) (g : Get) : Sizes c m (c.read g s) :=
  read_of (P := fun o => Sizes c m o) (fun h f => h.map f) (fun _ => fetch_sizes h B (G._get hs))
    (fun n => fetch_sizes h B (G._getString n hs)) (fun n => fetch_sizes h B (G.getChars n hs)) g

/-- A write makes the capacity no smaller. -/
theorem append_sizes {m : Int} {f : Int → Method σ Unit} (h : Sized c m s)
    (hf : ∀ (k : Nat) (t : σ), B.Live t → (k + bs.length : Nat) ≤ c.capacity t → f k t = .ok () (B.put k bs t)) :
    Sizes c m ((do c.ensureWritable bs.length
                   fun s => f (c.writerIndex s) s
                   c.advanceWriter bs.length) s) := by
  have W : B.Writable s :=
    ⟨hs.live, Int.le_trans hs.reader_nonneg hs.reader_le, hs.writer_le, hs.capacity_le, hs.max_le⟩
  by_cases hn : c.Room s bs.length
  · obtain ⟨s', e, A⟩ := W.append hn hf
    rw [e]
    exact ⟨h.1.trans A.grown, A.maxCapacity.trans h.2⟩
  · have hr := ensureWritable_roomy hs bs.length
    rw [Method.bind_apply]
    cases e : c.ensureWritable bs.length s with
    | ok x s' => exact absurd e (W.ensureWritable_not_ok hn s')
    | throw what s' =>
      rw [e] at hr
      obtain rfl : s' = s := hr
      exact h
    | ub | hang => trivial

theorem write_sizes {m : Int} (h : Sized c m s) {p : Put} (hp : p.Gives bs) : Sizes c m (c.write p s) := by
  have hvalue : ∀ bs, Sizes c m (c.writeValue bs s) := fun bs =>
    append_sizes hs h (f := (c._set · bs)) fun _ _ hL hk => B.set_ok hL hk
  have hchars : ∀ (src : List UInt8) (k : Nat), k ≤ src.length → Sizes c m (c.writeChars src k s) := fun src k hk => by
    have hlen : (src.take k).length = k := List.length_take_of_le hk
    have hput : ∀ (i : Nat) (t : σ), B.Live t → (i + (src.take k).length : Nat) ≤ c.capacity t →
        c._setChars i src k t = .ok () (B.put i (src.take k) t) :=
      fun i t hL hi => B._setChars_ok hL (by rwa [hlen] at hi) hk
    have e := append_sizes hs h (f := (c._setChars · src k)) hput
    rwa [hlen] at e
  cases p with
  | typed | bool | float | double => exact hvalue _
  | string v =>
    have hv : (v.length : Int) ≤ intMax := hp.2
    unfold intMax at hv
    show Sizes c m (c.writeChars v (i32 v.length) s)
    rw [i32_eq (by omega) hv]
    exact hchars v v.length (Nat.le_refl _)
  | chars src length =>
    obtain ⟨h0, hl, -⟩ := hp
    obtain ⟨k, rfl⟩ : ∃ k : Nat, length = k := ⟨length.toNat, by omega⟩
    exact hchars src k (by omega)
  | buf src j length =>
    obtain ⟨hsrc, rfl⟩ := hp
    exact append_sizes hs h (f := (c.setCharsFrom · src j bs.length)) fun k t hL hk => B.setCharsFrom_ok hL hk hsrc

/-- An ordinary call leaves a capacity of at least 1, and the largest capacity. -/
theorem use_sizes {m : Int} (hB : B.Resizes) (G : B.Guarded) (h : Sized c m s) (ho : u.Ordinary (c.indices s))
    (hu : u.Fair (c.indices s) (c.capacity s)) : Sizes c m (c.use u s) := by
  have hcheck : ∀ r w x r' w', Sizes c m ((checkIndexBounds r w x s).bind fun _ => .modify (c.setIndex0 r' w')) :=
    fun r w x r' w' => by
      unfold checkIndexBounds
      split
      · exact h
      · exact h.setIndex0 B _ _
  cases u with
  | move v =>
    refine Sizes.map (o := c.move v s) ?_ fun _ => none
    cases v with
    | readerIndex index => exact hcheck _ _ _ _ _
    | writerIndex index => exact hcheck _ _ _ _ _
    | skipBytes n =>
      rw [CharBuf.move, skipBytes_eq]
      split
      · exact h
      · exact h.setIndex0 B _ _
    | capacity n =>
      obtain ⟨s', e, -, hi, hc, -⟩ := hB.setCapacity_ok hs hu.1 hu.2
      rw [CharBuf.move, e]
      refine ⟨hc ▸ ho.1, ?_⟩
      rw [CharBuf.maxCapacity, hi, Indices.cut_maxCapacity_]
      exact h.2
    | write p =>
      obtain ⟨bs, hp⟩ := hu
      exact write_sizes hs h hp
    | _ => exact ho.elim
  | read g => exact (read_sizes hs G h g).map some
  | getAt g index =>
    obtain ⟨h0, hn, hle⟩ := hu
    have hw := hs.writer_le
    have hle : index + g.size ≤ c.writerIndex s := hle
    refine Sizes.map (o := c.getAt g index s) ?_ some
    obtain ⟨i, rfl⟩ : ∃ i : Nat, index = i := ⟨index.toNat, by omega⟩
    rw [B.getAt_ok hs.live ⟨by omega, hn, by omega⟩]
    exact h
  | setAt p index =>
    obtain ⟨bs, hp, h0, -, hle⟩ := hu
    refine Sizes.map (o := c.setAt p index s) ?_ fun _ => none
    obtain ⟨i, rfl⟩ : ∃ i : Nat, index = i := ⟨index.toNat, by omega⟩
    rw [B.setAt_ok hs.live hp (by omega)]
    refine ⟨(B.capacity_put i bs s).symm ▸ h.1, ?_⟩
    rw [CharBuf.maxCapacity, B.indices_put]
    exact h.2

end CharBuf.Store

end Buffer

/-! ## Both side by side -/

namespace Pool

open Buffer (CharBuf Indices Use UnpooledHeapCharBuf)
open Buffer.CharBuf.Store (Sized)

/-- A buffer of an arena, and an unpooled buffer that gets the same calls. -/
structure Beside where
  buffers : Buffers
  id : Nat
  unpooled : UnpooledHeapCharBuf

/-- The same indices and the same capacity, and the same bytes below the writer index. -/
structure Same (q : Pooled) (t : UnpooledHeapCharBuf) : Prop where
  readerIndex : q.buf.indices.readerIndex_ = t.indices.readerIndex_
  writerIndex : q.buf.indices.writerIndex_ = t.indices.writerIndex_
  capacity : q.buf.length_ = t.capacity_
  byte : ∀ k : Nat, (k : Int) < t.indices.writerIndex_ → q.byte k = t.array_ k

namespace Beside

variable {l : Layout} {p p' : Beside} {m : Int} {b : PooledCharBuf} {u : Use}

/-- What comes next: a call on both, or one on another buffer of the arena. -/
inductive Event
  | call (u : Use)
  | other (c : Buffers.Call)

/-- An ordinary call, which returns or throws. -/
inductive Step (p : Beside) : Event → Beside → Prop
  | call {u : Use} {b : PooledCharBuf} {q : Pooled} {t : UnpooledHeapCharBuf} : p.buffers.buf p.id = some b →
      u.Ordinary b.indices → (Pooled.charBuf.use u ⟨p.buffers.arena, b⟩).Leaves q →
      (UnpooledHeapCharBuf.charBuf.use u p.unpooled).Leaves t → Step p (.call u) ⟨p.buffers.set p.id q, p.id, t⟩
  | other {c : Buffers.Call} {s : Buffers} : c.target p.buffers ≠ p.id → Buffers.Step p.buffers c s →
      Step p (.other c) ⟨s, p.id, p.unpooled⟩

/-- No length leaves the range. -/
def Event.InRange (p : Beside) : Event → Prop
  | call u => u.InRange p.unpooled.indices
  | other _ => True

/-- The buffer that the arena has just made, and an unpooled buffer of the same capacities. -/
def start (s : Buffers) (a : PoolArena) (b : PooledCharBuf) (initialCapacity maxCapacity : Int) : Beside :=
  ⟨s.add a b, s.nextBuf, .new initialCapacity maxCapacity⟩

/-- The two match, and the unpooled one has a capacity of at least 1 and the largest capacity `m`. -/
structure Twinned (l : Layout) (m : Int) (p : Beside) : Prop where
  held : ∃ σ, Buffers.Held l p.buffers σ
  matched : ∃ b, p.buffers.buf p.id = some b ∧
    Pooled.store.Matched UnpooledHeapCharBuf.store ⟨p.buffers.arena, b⟩ p.unpooled
  sized : Sized UnpooledHeapCharBuf.charBuf m p.unpooled

theorem same_of_matched {q : Pooled} {t : UnpooledHeapCharBuf} (M : Pooled.store.Matched UnpooledHeapCharBuf.store q t) :
    Same q t where
  readerIndex := M.agree.readerIndex.symm
  writerIndex := M.agree.writerIndex.symm
  capacity := M.agree.capacity
  byte k hk := M.agree.byte k (hk.trans_eq M.agree.writerIndex)

namespace Twinned

/-- An ordinary call in range returns, or throws, the same. -/
theorem call (T : Twinned l m p) (hm : m ≤ 2 ^ 30) (hb : p.buffers.buf p.id = some b) (ho : u.Ordinary b.indices)
    (hr : u.InRange p.unpooled.indices) : (Pooled.charBuf.use u ⟨p.buffers.arena, b⟩).Rel
      (fun q t => Same q t ∧ Twinned l m ⟨p.buffers.set p.id q, p.id, t⟩)
      (UnpooledHeapCharBuf.charBuf.use u p.unpooled) := by
  obtain ⟨σ, H⟩ := T.held
  obtain ⟨b', hb', M⟩ := T.matched
  obtain rfl := Option.some_inj.mp (hb.symm.trans hb')
  have hi : b.indices = p.unpooled.indices := M.agree.indices
  have hl : b.length_ = p.unpooled.capacity_ := M.agree.capacity
  have hc : 1 ≤ p.unpooled.capacity_ := T.sized.1
  have hmax : p.unpooled.indices.maxCapacity_ = m := T.sized.2
  obtain ⟨u', ho', hf, hend, e⟩ := ho.fair (hi ▸ hr) M.reader_nonneg M.writer_le (hl ▸ hc : 1 ≤ b.length_) M.capacity_le
    (by rw [hi]; omega)
  rw [e Pooled.charBuf, e UnpooledHeapCharBuf.charBuf]
  refine ((Buffers.use_alike H hb M hf).rel hend).and_sat
    (Buffer.CharBuf.Store.use_sizes M.sound' UnpooledHeapCharBuf.resizes UnpooledHeapCharBuf.guarded T.sized
      (show u'.Ordinary p.unpooled.indices from hi ▸ ho')
      (show u'.Fair p.unpooled.indices p.unpooled.capacity_ from hl ▸ hi ▸ hf))
    fun q t ⟨M', W⟩ hs => ⟨same_of_matched M', ?_⟩
  obtain ⟨σ', H'⟩ := W.held
  exact ⟨⟨σ', H'⟩, ⟨_, Buffers.set_buf, M'⟩, hs⟩

theorem step {e : Event} (T : Twinned l m p) (hm : m ≤ 2 ^ 30) (hr : e.InRange p) (st : Step p e p') :
    Twinned l m p' := by
  cases st with
  | call hb ho hq ht => exact ((T.call hm hb ho hr).of_leaves hq ht).2
  | other hne st =>
    obtain ⟨σ, H⟩ := T.held
    obtain ⟨b, hb, M⟩ := T.matched
    obtain ⟨σ', H'⟩ := st.held H
    obtain ⟨hb', hs⟩ := st.frame H hne.symm hb
    exact ⟨⟨σ', H'⟩, ⟨b, hb', Twins.spared M H' hb' hs⟩, T.sized⟩

theorem start {s : Buffers} {σ : Nat → Slot} {initial max : Int} (H : Buffers.Held l s σ) (h1 : 1 ≤ initial)
    (hm : initial ≤ max) (hmax : max ≤ intMax) :
    ∃ b a, s.arena.allocateBuf initial max = .ok b a ∧ Twinned l max (Beside.start s a b initial max) := by
  obtain ⟨b, a, e, st, hb, M⟩ := Buffers.allocate_matched H h1 hm hmax
  exact ⟨b, a, e, ⟨st.held H, ⟨b, hb, M⟩, h1, rfl⟩⟩

theorem run {es : List Event} (T : Twinned l m p) (hm : m ≤ 2 ^ 30)
    (h : Run (fun p e p' => e.InRange p ∧ Step p e p') p es p') : Twinned l m p' :=
  h.inv T fun _ _ _ T ⟨hr, st⟩ => T.step hm hr st

/-- A call that the unpooled buffer returns from is a step of both. -/
theorem exists_call {r : Option Buffer.Result} {t : UnpooledHeapCharBuf} (T : Twinned l m p) (hm : m ≤ 2 ^ 30)
    (ho : u.Ordinary p.unpooled.indices) (hr : u.InRange p.unpooled.indices)
    (e : UnpooledHeapCharBuf.charBuf.use u p.unpooled = .ok r t) :
    ∃ p', (Event.InRange p (.call u) ∧ Step p (.call u) p') ∧ p'.unpooled = t := by
  obtain ⟨b, hb, M⟩ := T.matched
  have hi : b.indices = p.unpooled.indices := M.agree.indices
  have hR := T.call hm hb (hi ▸ ho) hr
  obtain ⟨q, -, hq, -⟩ := hR.exists_leaves
  exact ⟨_, ⟨hr, .call hb (hi ▸ ho) hq (.inl ⟨_, e⟩)⟩, rfl⟩

/-- The arena makes another buffer. -/
theorem exists_other {initial max : Int} (T : Twinned l m p) (h1 : 1 ≤ initial) (hm : initial ≤ max)
    (hmax : max ≤ intMax) :
    ∃ p', (Event.InRange p (.other (.allocate initial max)) ∧ Step p (.other (.allocate initial max)) p') ∧
      p'.unpooled = p.unpooled := by
  obtain ⟨σ, H⟩ := T.held
  obtain ⟨b, hb, -⟩ := T.matched
  obtain ⟨b', a', -, st, -⟩ := Buffers.allocate_matched H h1 hm hmax
  have hne : p.buffers.nextBuf ≠ p.id := fun h => by
    rw [H.fresh p.id (Nat.le_of_eq h)] at hb
    cases hb
  exact ⟨_, ⟨trivial, .other hne st⟩, rfl⟩

end Twinned

/-- Whatever the arena has done before, it makes the buffer; and whatever it does in between, as long as no
length leaves its range the buffer has the indices and the capacity of the unpooled one and the bytes that were
written, each call returns the same or throws the same, and a change of the capacity keeps the bytes that fit
and cuts the indices in both. -/
theorem refines_unpooled {cs : List Buffers.Call} {s : Buffers} {initialCapacity maxCapacity : Int}
    (hr : Run Buffers.Step (.init l) cs s) (h1 : 1 ≤ initialCapacity) (hm : initialCapacity ≤ maxCapacity)
    (hmax : maxCapacity ≤ 2 ^ 30) :
    ∃ b a, s.arena.allocateBuf initialCapacity maxCapacity = .ok b a ∧ ∀ es p,
      Run (fun p e p' => e.InRange p ∧ Step p e p') (start s a b initialCapacity maxCapacity) es p →
      ∃ b, p.buffers.buf p.id = some b ∧ Same ⟨p.buffers.arena, b⟩ p.unpooled ∧
        (∀ u : Use, u.Ordinary b.indices → u.InRange p.unpooled.indices →
          (Pooled.charBuf.use u ⟨p.buffers.arena, b⟩).Rel Same (UnpooledHeapCharBuf.charBuf.use u p.unpooled)) ∧
        ∀ n, 1 ≤ n → n ≤ maxCapacity → ∃ q t, Pooled.setCapacity n ⟨p.buffers.arena, b⟩ = .ok () q ∧
          UnpooledHeapCharBuf.setCapacity n p.unpooled = .ok () t ∧ q.buf.indices = b.indices.cut n ∧
          t.indices = p.unpooled.indices.cut n ∧ ∀ k : Nat, (k : Int) < min b.length_ n →
            q.byte k = Pooled.byte ⟨p.buffers.arena, b⟩ k ∧ t.array_ k = p.unpooled.array_ k := by
  obtain ⟨σ, H⟩ := Buffers.run_held hr
  obtain ⟨b, a, e, T⟩ := Twinned.start H h1 hm (by unfold intMax; omega)
  refine ⟨b, a, e, fun es p h => ?_⟩
  have T := T.run hmax h
  obtain ⟨b, hb, M⟩ := T.matched
  refine ⟨b, hb, same_of_matched M, fun u ho hr => ?_, fun n hn hle => ?_⟩
  · exact (T.call hmax hb ho hr).imp fun _ _ h => h.1
  · have hl : b.length_ = p.unpooled.capacity_ := M.agree.capacity
    have hi : b.indices = p.unpooled.indices := M.agree.indices
    have hle' : n ≤ p.unpooled.indices.maxCapacity_ := hle.trans_eq T.sized.2.symm
    obtain ⟨q, eq, -, hqi, -, hqb⟩ := Pooled.resizes.setCapacity_ok M.sound (by omega) (hi ▸ hle' : n ≤ b.indices.maxCapacity_)
    obtain ⟨t, et, -, hti, -, htb⟩ := UnpooledHeapCharBuf.resizes.setCapacity_ok M.sound' (by omega) hle'
    refine ⟨q, t, eq, et, hqi, hti, fun k hk => ⟨hqb k ?_ ?_, htb k ?_ ?_⟩⟩
    · show (k : Int) < b.length_
      omega
    · omega
    · show (k : Int) < p.unpooled.capacity_
      omega
    · omega

/-- Twenty bytes written to a buffer of sixteen make it one of thirty-two; the arena makes another buffer, and three
bytes are skipped. The next five are read. -/
theorem refines_unpooled_grown : ∃ b a p, (Buffers.init Buffers.twoPages).arena.allocateBuf 16 64 = .ok b a ∧
    Run (fun p e p' => e.InRange p ∧ Step p e p') (start (.init Buffers.twoPages) a b 16 64)
      [.call (.move (.write (.chars ((List.range 20).map UInt8.ofNat) 20))), .other (.allocate 16 16),
        .call (.move (.skipBytes 3))] p ∧
    ∃ b q, p.buffers.buf p.id = some b ∧ b.length_ = 32 ∧
      Pooled.charBuf.use (.read (.chars 5)) ⟨p.buffers.arena, b⟩ = .ok (some (.bytes [3, 4, 5, 6, 7])) q := by
  obtain ⟨b, a, e, T⟩ := Twinned.start (Buffers.init_held Buffers.twoPages) (show (1 : Int) ≤ 16 by decide)
    (show (16 : Int) ≤ 64 by decide) (by decide)
  obtain ⟨b', a', e', hall⟩ := refines_unpooled (l := Buffers.twoPages) .nil (show (1 : Int) ≤ 16 by decide)
    (show (16 : Int) ≤ 64 by decide) (by decide)
  obtain ⟨rfl, rfl⟩ := Outcome.ok.inj (e.symm.trans e')
  -- what the unpooled buffer does is computed
  obtain ⟨r, t, h, hrt⟩ := Outcome.any_eq_true.mp (show ((do
      let _ ← UnpooledHeapCharBuf.charBuf.use (.move (.write (.chars ((List.range 20).map UInt8.ofNat) 20)))
      let i ← Method.get (·.indices.readerIndex_)
      let _ ← UnpooledHeapCharBuf.charBuf.use (.move (.skipBytes 3))
      let b ← Method.get fun b => (b.indices.readerIndex_, b.capacity_)
      let r ← UnpooledHeapCharBuf.charBuf.use (.read (.chars 5))
      pure (i, b, r) : Method UnpooledHeapCharBuf _) (.new 16 64)).any (fun r _ =>
        r == (0, (3, 32), some (.bytes [3, 4, 5, 6, 7]))) = true by decide +kernel)
  obtain rfl := eq_of_beq hrt
  obtain ⟨_, t₁, h₁, h⟩ := Outcome.bind_eq_ok h
  obtain ⟨i, _, ⟨⟩, h⟩ := Outcome.bind_eq_ok h
  obtain ⟨_, t₂, h₂, h⟩ := Outcome.bind_eq_ok h
  obtain ⟨i, _, ⟨⟩, h⟩ := Outcome.bind_eq_ok h
  obtain ⟨x, t₃, h₃, h⟩ := Outcome.bind_eq_ok h
  have hr : (t₁.indices.readerIndex_, (t₂.indices.readerIndex_, t₂.capacity_), x) =
      (0, (3, 32), some (.bytes [3, 4, 5, 6, 7])) := (Outcome.ok.inj h).1
  simp only [Prod.mk.injEq] at hr
  obtain ⟨hr₁, ⟨hr₂, hcap⟩, rfl⟩ := hr
  obtain ⟨p₁, s₁, rfl⟩ := T.exists_call (u := .move (.write (.chars ((List.range 20).map UInt8.ofNat) 20))) (by decide)
    ⟨by decide, by decide⟩ trivial h₁
  have T₁ := T.step (by decide) s₁.1 s₁.2
  obtain ⟨p₂, s₂, e₂⟩ := T₁.exists_other (show (1 : Int) ≤ 16 by decide) (show (16 : Int) ≤ 16 by decide) (by decide)
  have T₂ := T₁.step (by decide) s₂.1 s₂.2
  rw [← e₂] at h₂ hr₁
  obtain ⟨p₃, s₃, rfl⟩ := T₂.exists_call (u := .move (.skipBytes 3)) (by decide) ⟨by decide, by decide⟩
    (show p₂.unpooled.indices.readerIndex_ + 3 ≤ intMax by rw [hr₁]; decide) h₂
  have hrun₁ : Run (fun p e p' => e.InRange p ∧ Step p e p') _ _ p₁ := .one s₁
  have hrun := (hrun₁.append (.one s₂)).append (.one s₃)
  obtain ⟨b₃, hb₃, hsame, hcall, -⟩ := hall _ _ hrun
  refine ⟨b, a, p₃, e, hrun, b₃, ?_⟩
  have hR := hcall (.read (.chars 5)) ⟨by decide, by decide⟩
    (show p₃.unpooled.indices.readerIndex_ + 5 ≤ intMax by rw [hr₂]; decide)
  rw [h₃] at hR
  cases hq : Pooled.charBuf.use (.read (.chars 5)) ⟨p₃.buffers.arena, b₃⟩ with
  | ok r q =>
    rw [hq] at hR
    cases hR
    exact ⟨q, hb₃, hsame.capacity.trans hcap, rfl⟩
  | throw | ub | hang =>
    rw [hq] at hR
    cases hR

/-- Where the sum that is checked is no larger than the writer index, `getChars` gets the length. -/
theorem use_readChars {σ : Type} {c : CharBuf σ} {s : σ} {n : Int} (h : i32 (c.readerIndex s + n) ≤ c.writerIndex s) :
    c.use (.read (.chars n)) s =
      (c.getChars (c.readerIndex s) n s).bind (fun bs => (do c.advanceReader n; pure (some (.bytes bs)))) := by
  have hcheck : c.checkReadable n s = .ok () s := if_neg (by omega)
  show ((c.readChars n s).bind _).bind _ = _
  rw [CharBuf.readChars, Method.bind_apply, hcheck, Outcome.bind_ok, Method.bind_apply, Outcome.bind_assoc,
    Outcome.bind_assoc]
  rfl

/-- Of three bytes one is skipped, and as many are asked for as an `int` can say: the sum with the reader index
is negative, and so no larger than the writer index. What `getChars` of the unpooled buffer refuses, that of
the pooled one copies out of memory that is not there. -/
theorem unchecked_read : ∃ b a p, (Buffers.init Buffers.twoPages).arena.allocateBuf 16 64 = .ok b a ∧
    Run Step (start (.init Buffers.twoPages) a b 16 64)
      [.call (.move (.write (.chars [1, 2, 3] 3))), .call (.move (.skipBytes 1))] p ∧
    ∃ b, p.buffers.buf p.id = some b ∧ (Use.read (.chars intMax)).Ordinary b.indices ∧
      (∃ t, UnpooledHeapCharBuf.charBuf.use (.read (.chars intMax)) p.unpooled = .throw "checkRangeBounds failed" t) ∧
      Pooled.charBuf.use (.read (.chars intMax)) ⟨p.buffers.arena, b⟩ = .ub := by
  obtain ⟨b, a, e, T⟩ := Twinned.start (Buffers.init_held Buffers.twoPages) (show (1 : Int) ≤ 16 by decide)
    (show (16 : Int) ≤ 64 by decide) (by decide)
  obtain ⟨r, t, h, hrt⟩ := Outcome.any_eq_true.mp (show ((do
      let _ ← UnpooledHeapCharBuf.charBuf.use (.move (.write (.chars [1, 2, 3] 3)))
      let i ← Method.get (·.indices.readerIndex_)
      let _ ← UnpooledHeapCharBuf.charBuf.use (.move (.skipBytes 1))
      let b ← Method.get fun b => (b.indices.readerIndex_, b.indices.writerIndex_, b.capacity_)
      pure (i, b) : Method UnpooledHeapCharBuf _) (.new 16 64)).any (fun r _ => r == (0, (1, 3, 16))) = true by decide +kernel)
  obtain rfl := eq_of_beq hrt
  obtain ⟨_, t₁, h₁, h⟩ := Outcome.bind_eq_ok h
  obtain ⟨_, _, ⟨⟩, h⟩ := Outcome.bind_eq_ok h
  obtain ⟨_, t₂, h₂, h⟩ := Outcome.bind_eq_ok h
  obtain ⟨_, _, ⟨⟩, h⟩ := Outcome.bind_eq_ok h
  have hr : (t₁.indices.readerIndex_, (t₂.indices.readerIndex_, t₂.indices.writerIndex_, t₂.capacity_)) =
      (0, (1, 3, 16)) := (Outcome.ok.inj h).1
  simp only [Prod.mk.injEq] at hr
  obtain ⟨hr₁, hreader, hwriter, hcap⟩ := hr
  obtain ⟨p₁, s₁, rfl⟩ := T.exists_call (u := .move (.write (.chars [1, 2, 3] 3))) (by decide) ⟨by decide, by decide⟩ trivial h₁
  have T₁ := T.step (by decide) s₁.1 s₁.2
  obtain ⟨p₂, s₂, rfl⟩ := T₁.exists_call (u := .move (.skipBytes 1)) (by decide) ⟨by decide, by decide⟩
    (show p₁.unpooled.indices.readerIndex_ + 1 ≤ intMax by rw [hr₁]; decide) h₂
  obtain ⟨b₂, hb₂, M⟩ := (T₁.step (by decide) s₂.1 s₂.2).matched
  refine ⟨b, a, p₂, e, (Run.one s₁.2).append (.one s₂.2), b₂, hb₂, ⟨by decide, by decide⟩, ?_, ?_⟩
  · have e := use_readChars (c := UnpooledHeapCharBuf.charBuf) (s := p₂.unpooled) (n := intMax)
      (show i32 (p₂.unpooled.indices.readerIndex_ + intMax) ≤ p₂.unpooled.indices.writerIndex_ by
        rw [hreader, hwriter]; decide)
    have hcheck : CharBuf.checkRangeBounds p₂.unpooled.indices.readerIndex_ intMax p₂.unpooled.capacity_ p₂.unpooled =
        .throw "checkRangeBounds failed" p₂.unpooled := by
      rw [hreader, hcap, CharBuf.checkRangeBounds_eq (by decide) (by decide) (by decide) (by decide), if_neg (by decide)]
    refine ⟨p₂.unpooled, ?_⟩
    rw [e]
    show (((CharBuf.checkRangeBounds p₂.unpooled.indices.readerIndex_ intMax p₂.unpooled.capacity_
      p₂.unpooled).bind _).bind _) = _
    rw [hcheck]
    rfl
  · have hr : b₂.indices.readerIndex_ = 1 := M.agree.readerIndex.symm.trans hreader
    have hw : b₂.indices.writerIndex_ = 3 := M.agree.writerIndex.symm.trans hwriter
    have e := use_readChars (c := Pooled.charBuf) (s := ⟨p₂.buffers.arena, b₂⟩) (n := intMax)
      (show i32 (b₂.indices.readerIndex_ + intMax) ≤ b₂.indices.writerIndex_ by rw [hr, hw]; decide)
    have hub : Pooled.charBuf.getChars b₂.indices.readerIndex_ intMax ⟨p₂.buffers.arena, b₂⟩ = .ub := by
      obtain ⟨_, -, -, hle⟩ | e := Pooled.peek_cases M.sound intMax
      · have hle : b₂.indices.readerIndex_ + intMax ≤ intMax := hle
        omega
      · exact e
    rw [e]
    show (Pooled.charBuf.getChars b₂.indices.readerIndex_ intMax ⟨p₂.buffers.arena, b₂⟩).bind _ = _
    rw [hub]
    rfl

end Beside
end Pool
end Nio
