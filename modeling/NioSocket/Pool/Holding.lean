import NioSocket.Pool.CharBuf

/-!
# Buffers that hold a slot

A buffer holds a slot that its arena has given out (`PooledCharBuf.Holds`). Writing to a
chunk's memory changes nothing else of the arena (`Rewritten`). `PooledCharBuf::capacity`
changes the length in place, or moves the buffer to another slot (`Moved`).
-/

namespace Nio.Pool

variable {l : Layout} {a a' a'' : PoolArena} {ch ch' : PoolChunk} {t t' : Slot} {c c' : Nat} {n : Int}

/-! ## Memory -/

def PoolChunk.withMemory (ch : PoolChunk) (m : Mem) : PoolChunk := { ch with memory := m }

namespace PoolArena

/-- From `a` to `a'`, nothing changes but the bytes of the chunks. -/
structure Rewritten (a a' : PoolArena) : Prop where
  chunk : ∀ c, (a'.chunk c).map (·.withMemory fun _ => 0) = (a.chunk c).map (·.withMemory fun _ => 0)
  rest : a' = { a with chunk := a'.chunk }

namespace Rewritten

theorem refl (a : PoolArena) : a.Rewritten a := ⟨fun _ => rfl, rfl⟩

theorem setChunk (hch : a.chunk c = some ch) (m : Mem) : a.Rewritten (a.setChunk c (ch.withMemory m)) where
  chunk n := by
    by_cases hn : n = c
    · subst hn
      rw [chunk_setChunk, hch]
      rfl
    · rw [chunk_setChunk_of_ne hn]
  rest := rfl

variable (R : a.Rewritten a')
include R

theorem symm : a'.Rewritten a := ⟨fun c => (R.chunk c).symm, by rw [R.rest]⟩

theorem exists_chunk (h : a.chunk c = some ch) : ∃ m, a'.chunk c = some (ch.withMemory m) := by
  have he := R.chunk c
  rw [h] at he
  obtain ⟨ch', hc', he⟩ := Option.map_eq_some_iff.mp he
  refine ⟨ch'.memory, hc'.trans (congrArg some ?_)⟩
  exact congrArg (·.withMemory ch'.memory) he

theorem bind_chunk {α : Type} (f : PoolChunk → Option α) (hf : ∀ ch m, f (ch.withMemory m) = f ch) (n : Nat) :
    (a'.chunk n).bind f = (a.chunk n).bind f := by
  cases h : a.chunk n with
  | none =>
    have he := R.chunk n
    rw [h] at he
    rw [Option.map_eq_none_iff.mp he]
  | some ch =>
    obtain ⟨m, h'⟩ := R.exists_chunk h
    rw [h']
    exact hf ch m

theorem subpages : a'.subpages = a.subpages := by rw [R.rest]

theorem list : a'.list = a.list := by rw [R.rest]

theorem poolOf : a'.poolOf = a.poolOf := by
  funext r
  cases r with
  | tiny | small => rfl
  | page c i => rw [PoolArena.poolOf, PoolArena.poolOf, R.subpages]

theorem nodesOf : a'.nodesOf = a.nodesOf := by
  funext n
  have h := R.bind_chunk (fun ch => some ch.nodes) (fun _ _ => rfl) n
  have key : ∀ a : PoolArena, a.nodesOf n = ((a.chunk n).bind fun ch => some ch.nodes).getD ∅ := fun a => by
    rw [PoolArena.nodesOf]
    cases a.chunk n <;> rfl
  rw [key, key, h]

theorem given : a'.given l = a.given l := by
  funext t
  cases t with
  | run c id =>
    have hp : a'.Paged l c id ↔ a.Paged l c id := by rw [Paged, Paged, R.subpages]
    simp only [PoolArena.given, R.nodesOf, hp]
  | elem c i j => rw [PoolArena.given, PoolArena.given, R.subpages]
  | huge c =>
    cases h : a.chunk c with
    | none =>
      have he := R.chunk c
      rw [h] at he
      rw [PoolArena.given, PoolArena.given, h, Option.map_eq_none_iff.mp he]
    | some ch =>
      obtain ⟨m, h'⟩ := R.exists_chunk h
      rw [PoolArena.given, PoolArena.given, h, h']
      rfl

theorem sound (S : a.Sound l) : a'.Sound l where
  laid := by
    have hr := R.rest
    generalize a'.chunk = f at hr
    subst hr
    exact { S.laid with }
  pools := by
    have hn : a'.next_ = a.next_ := by rw [R.rest]
    have hp : a'.prev_ = a.prev_ := by rw [R.rest]
    refine ⟨fun c i s h => S.pools.page c i s (R.subpages ▸ h), ?_, fun c i s c' i' s' h h' =>
      S.pools.idle c i s c' i' s' (R.subpages ▸ h) (R.subpages ▸ h')⟩
    rw [R.poolOf, hn, hp]
    exact S.pools.rings
  chunks := by
    refine ⟨fun c hc => ?_, fun c ch hc hu => ?_, fun c ch hc hu => ?_, fun c i s h => ?_, fun c i s h hd => ?_⟩
    · have hnext : a'.nextChunk = a.nextChunk := by rw [R.rest]
      have he := R.chunk c
      rw [S.chunks.fresh c (hnext ▸ hc)] at he
      exact Option.map_eq_none_iff.mp he
    · obtain ⟨m, hc'⟩ := R.symm.exists_chunk hc
      exact { S.chunks.pooled c _ hc' hu with }
    · obtain ⟨m, hc'⟩ := R.symm.exists_chunk hc
      exact { S.chunks.huge c _ hc' hu with }
    · obtain ⟨hi, ch, hc, hu⟩ := S.chunks.page c i s (R.subpages ▸ h)
      obtain ⟨m, hc'⟩ := R.exists_chunk hc
      exact ⟨hi, _, hc', hu⟩
    · rw [R.nodesOf]
      exact S.chunks.kept c i s (R.subpages ▸ h) hd

theorem listed (L : a.Listed) : a'.Listed where
  lists := by
    have h1 : a'.nextChunkOf = a.nextChunkOf := funext (R.bind_chunk _ fun _ _ => rfl)
    have h2 : a'.prevChunkOf = a.prevChunkOf := funext (R.bind_chunk _ fun _ _ => rfl)
    have h3 : a'.listOf = a.listOf := funext (R.bind_chunk _ fun _ _ => rfl)
    have h4 : a'.headChunk = a.headChunk := funext fun x => by rw [headChunk, headChunk, R.list]
    rw [h1, h2, h3, h4]
    exact L.lists
  fit n ch hc hu := by
    obtain ⟨m, hc'⟩ := R.symm.exists_chunk hc
    rw [R.list]
    exact L.fit n (ch.withMemory m) hc' hu

theorem whole (W : a.Whole l) : a'.Whole l := ⟨R.sound W.toSound, R.listed W.listed⟩

end Rewritten

/-- Byte `i` of chunk `c`. -/
def byte (a : PoolArena) (c i : Nat) : UInt8 := ((a.chunk c).map fun ch => ch.memory i).getD 0

theorem byte_eq (h : a.chunk c = some ch) (i : Nat) : a.byte c i = ch.memory i := by rw [byte, h]; rfl

theorem Extends.byte (h : a.Extends a') (hc : a.chunk c ≠ none) (i : Nat) : a'.byte c i = a.byte c i := by
  obtain ⟨ch, hch⟩ := Option.ne_none_iff_exists'.mp hc
  obtain ⟨ch', hch', hm, -⟩ := h c ch hch
  rw [byte_eq hch, byte_eq hch', hm]

variable {o k : Nat} {bs : List UInt8}

theorem peek_ok (h : a.chunk c = some ch) (hk : o + k ≤ ch.chunkSize_) : peek c o k a = .ok (ch.memory.read o k) a := by
  simp only [peek, Method.bind_apply, chunkAt_ok h, Outcome.bind_ok]
  rw [if_pos (by omega)]
  rfl

theorem poke_ok (h : a.chunk c = some ch) (hk : o + bs.length ≤ ch.chunkSize_) :
    poke c o bs a = .ok () (a.setChunk c (ch.withMemory (ch.memory.write o bs))) := by
  simp only [poke, Method.bind_apply, chunkAt_ok h, Outcome.bind_ok]
  rw [if_pos (by omega)]
  rfl

theorem memcpy_ok {d : Nat} (h : a.chunk c = some ch) (hk : o + k ≤ ch.chunkSize_) (h' : a.chunk c' = some ch')
    (hk' : d + k ≤ ch'.chunkSize_) (ha : c' ≠ c ∨ d + k ≤ o ∨ o + k ≤ d) :
    memcpy c' d c o k a = .ok () (a.setChunk c' (ch'.withMemory (ch'.memory.write d (ch.memory.read o k)))) := by
  simp only [memcpy, Method.bind_apply, peek_ok h hk, Outcome.bind_ok]
  rw [if_pos (by omega)]
  exact poke_ok h' (by rw [Mem.length_read]; exact hk')

/-- A `memcpy` of a negative length has no meaning. -/
theorem memcpy_neg {d o k : Int} (hk : k < 0) : memcpy c' d c o k a = .ub := by
  have hpeek : peek c o k a = .ub := by
    simp only [peek, Method.bind_apply, chunkAt]
    cases a.chunk c with
    | none => rfl
    | some ch =>
      rw [Outcome.bind_ok, if_neg (by omega)]
  rw [memcpy, Method.bind_apply, hpeek]
  rfl

end PoolArena

/-! ## The slot of a buffer -/

/-- The buffer holds slot `t`. -/
structure PooledCharBuf.Holds (l : Layout) (a : PoolArena) (t : Slot) (b : PooledCharBuf) : Prop where
  given : a.given l t = some ⟨b.offset_, b.maxLength_⟩
  chunk_ : b.chunk_ = some t.chunk
  handle_ : b.handle_ = t.handle l
  memory_ : b.memory_ = some t.chunk
  length_ : b.length_ ≤ b.maxLength_
  int : b.maxLength_ < 2 ^ 31

theorem PooledCharBuf.Holds.of_given {b : PooledCharBuf} (H : b.Holds l a t) (h : a'.given l t = a.given l t) :
    b.Holds l a' t :=
  { H with given := h.trans H.given }

/-- The slot of a region just given out, in the arena it was given out of. -/
theorem Served.holds {r : Region} {req : Int} (h : Served l a a' req n t r) (hn : i32 n = n)
    (b : PooledCharBuf) : (b.init0 r).Holds l a' t where
  given := by
    rw [h.given, Function.update_self]
    rfl
  chunk_ := congrArg some h.chunk_
  handle_ := h.handle_
  memory_ := congrArg some h.chunk_
  length_ := by
    show r.length_ ≤ r.maxLength_
    rw [h.length_]
    exact h.le
  int := by
    have := h.size
    show r.maxLength_ < 2 ^ 31
    unfold i32 at hn
    omega

/-- The region of a buffer ends where an `int` can say. -/
theorem PooledCharBuf.Holds.lt {b : PooledCharBuf} (W : a.Whole l) (H : b.Holds l a t) :
    b.offset_ + b.maxLength_ < 2 ^ 31 := by
  obtain ⟨ch, hch, hin⟩ := W.chunks.in_chunk W.pools H.given
  have hc := l.chunkSize_le
  by_cases hu : ch.unpooled = true
  · have hg : a.given l (.huge t.chunk) = some ⟨ch.offset, ch.chunkSize_⟩ := PoolArena.given_huge.mpr ⟨ch, hch, hu, rfl⟩
    have ht := W.chunks.not_huge_of W.pools hg rfl H.given rfl
    have hgiven := H.given
    rw [ht, hg, (W.chunks.huge _ ch hch hu).offset] at hgiven
    have := (Extent.mk.inj (Option.some.inj hgiven)).1
    have := H.int
    omega
  · have hC := W.chunks.pooled _ ch hch (by simpa using hu)
    rw [hC.chunkSize_] at hin
    dsimp only at hin
    omega

theorem PooledCharBuf.Holds.idx {b : PooledCharBuf} (W : a.Whole l) (H : b.Holds l a t) {i : Nat}
    (hi : i ≤ b.maxLength_) : Pooled.idx i b = (b.offset_ + i : Nat) := by
  have := H.lt W
  unfold Pooled.idx i32
  omega

/-! ## Changing the capacity -/

/-- What follows when the length was `old` and is `n`. -/
def PooledCharBuf.settle (old n : Int) (b : PooledCharBuf) : PooledCharBuf :=
  if n > old then b else b.trimIndicesToCapacity n

/-- Only the indices are settled. -/
theorem PooledCharBuf.settle_eq (old n : Int) (b : PooledCharBuf) : ∃ i, b.settle old n = { b with indices := i } := by
  unfold settle trimIndicesToCapacity
  split
  · exact ⟨_, rfl⟩
  · dsimp only
    split <;> exact ⟨_, rfl⟩

theorem PooledCharBuf.settle_maxCapacity_ (old n : Int) (b : PooledCharBuf) :
    (b.settle old n).indices.maxCapacity_ = b.indices.maxCapacity_ := by
  unfold settle trimIndicesToCapacity
  split
  · rfl
  · dsimp only
    split <;> rfl

/-- From `a` to `a'`, the buffer moves from slot `t` to slot `t'`, the region `r`. -/
structure PoolArena.Moved (l : Layout) (a a' : PoolArena) (b : PooledCharBuf) (n : Int) (t t' : Slot) (r : Region) :
    Prop where
  whole : a'.Whole l
  given : a'.given l = if b.maxLength_ = 0 then Function.update (a.given l) t' (some ⟨r.offset_, r.maxLength_⟩)
    else Function.update (Function.update (a.given l) t' (some ⟨r.offset_, r.maxLength_⟩)) t none
  fresh : a.given l t' = none ∨ r.maxLength_ = 0 ∧ a.given l t' = some ⟨r.offset_, r.maxLength_⟩
  chunk_ : r.chunk_ = t'.chunk
  handle_ : r.handle_ = t'.handle l
  length_ : r.length_ = n
  le : n ≤ r.maxLength_
  int : r.maxLength_ < 2 ^ 31
  destroyed : ∀ c ch, a.chunk c = some ch → ch.unpooled = false → a'.chunk c = none →
    ∃ a₁, destroyChunk c a₁ = .ok () a' ∧ a₁.Sound l ∧ a₁.Unused l c
  copied : ∀ i : Nat, i < min b.length_ n → a'.byte t'.chunk (r.offset_ + i) = a.byte t.chunk (b.offset_ + i)
  kept : ∀ c i, a.chunk c ≠ none → a'.chunk c ≠ none →
    (c ≠ t'.chunk ∨ i < r.offset_ ∨ r.offset_ + r.maxLength_ ≤ i) → a'.byte c i = a.byte c i

namespace Pooled

variable {b b' : PooledCharBuf} {r : Region}

theorem onArena_ok {α : Type} {m : Method PoolArena α} {x : α} (h : m a = .ok x a') :
    onArena m ⟨a, b⟩ = .ok x ⟨a', b⟩ := by
  simp only [onArena, h]

theorem onBuf_ok (f : PooledCharBuf → PooledCharBuf) : onBuf f ⟨a, b⟩ = .ok () ⟨a, f b⟩ := rfl

theorem deref_ok (c : Nat) (s : Pooled) : deref (some c) s = .ok c s := rfl

theorem trim_ok (old n : Int) (m : Method Pooled Unit) :
    (if ¬n > old then do
      onBuf (.trimIndicesToCapacity n)
      m
    else m) ⟨a, b⟩ = m ⟨a, b.settle old n⟩ := by
  rw [PooledCharBuf.settle]
  split
  · rfl
  · rw [if_pos (by omega)]

variable (W : a.Whole l) (H : b.Holds l a t) (h0 : 0 ≤ b.length_) (hi : i32 n = n)
include W H h0 hi

/-- `reallocate`: the bytes that both lengths have are copied, and the old slot is given back. -/
theorem reallocate_ok (hn : 0 ≤ n) (hmax : n ≤ b.indices.maxCapacity_) (hne : b.length_ ≠ n) :
    ∃ r t' a', reallocate n true ⟨a, b⟩ = .ok () ⟨a', (b.init0 r).settle b.length_ n⟩ ∧ a.Moved l a' b n t t' r := by
  obtain ⟨r, t', a₁, ea, hS, hL, hE⟩ := PoolArena.allocate_ok W hi (by unfold intMin; omega)
  have W₁ : a₁.Whole l := ⟨hS.sound, hL⟩
  have hfresh := hS.fresh
  have hsame : t = t' → r.maxLength_ = 0 ∧ b.maxLength_ = 0 := by
    rintro rfl
    rcases hfresh with hf | ⟨hf, hg⟩
    · rw [H.given] at hf
      cases hf
    · rw [H.given] at hg
      have := congrArg (Option.map Extent.length) hg
      simp only [Option.map_some, Option.some.injEq] at this
      omega
  have h₁ : a₁.given l t = some ⟨b.offset_, b.maxLength_⟩ := by
    rw [hS.given]
    by_cases he : t = t'
    · subst he
      rw [Function.update_self]
      rcases hfresh with hf | ⟨-, hg⟩
      · rw [H.given] at hf
        cases hf
      · rw [← hg, H.given]
    · rw [Function.update_of_ne he, H.given]
  have h₂ : a₁.given l t' = some ⟨r.offset_, r.maxLength_⟩ := by rw [hS.given, Function.update_self]
  obtain ⟨ch, hch, hin⟩ := W₁.chunks.in_chunk W₁.pools h₁
  obtain ⟨ch', hch', hin'⟩ := W₁.chunks.in_chunk W₁.pools h₂
  have hle := H.length_
  have hle' := hS.le
  obtain ⟨k, hk⟩ : ∃ k : Nat, min b.length_ n = k := ⟨(min b.length_ n).toNat, by omega⟩
  have hapart : t'.chunk ≠ t.chunk ∨ r.offset_ + k ≤ b.offset_ ∨ b.offset_ + k ≤ r.offset_ := by
    by_cases he : t = t'
    · have := hsame he
      omega
    · by_cases hc : t'.chunk = t.chunk
      · rcases W₁.chunks.apart W₁.pools h₁ h₂ he hc.symm with h | h <;> dsimp only at h <;> omega
      · exact .inl hc
  dsimp only at hin hin'
  have em := PoolArena.memcpy_ok hch (o := b.offset_) (k := k) (by omega) hch' (d := r.offset_) (by omega) hapart
  have R := PoolArena.Rewritten.setChunk hch' (ch'.memory.write r.offset_ (ch.memory.read b.offset_ k))
  have W₂ := R.whole W₁
  have hg₂ := R.given (l := l)
  generalize hm : a₁.setChunk t'.chunk (ch'.withMemory (ch'.memory.write r.offset_ (ch.memory.read b.offset_ k))) = a₂ at *
  obtain ⟨a₃, ef, hF⟩ := PoolArena.free_ok W₂ (show a₂.given l t = _ by rw [hg₂]; exact h₁)
  have hbyte₁ : ∀ c i, a.chunk c ≠ none → a₁.byte c i = a.byte c i := fun c i hc => hE.byte hc i
  have hbyte₃ : ∀ c i, a₃.chunk c ≠ none → a₃.byte c i = a₂.byte c i := fun c i hc => (hF.carried.byte hc i).symm
  have h₃ : a₃.given l t' = some ⟨r.offset_, r.maxLength_⟩ := by
    rw [hF.given, hg₂]
    dsimp only
    split
    · exact h₂
    · rename_i hb
      rw [Function.update_of_ne (fun he => hb (hsame he.symm).2), h₂]
  refine ⟨r, t', a₃, ?_, ⟨hF.whole, ?_, hfresh, hS.chunk_, hS.handle_, hS.length_, hle',
    (hS.holds ((W.laid.normalizeCapacity hi (by unfold intMin; omega)).int hi) b).int, fun c chn hc hu hgone => ?_,
    fun i hi => ?_, fun c i hc hc' hout => ?_⟩⟩
  · have hok : n ≥ 0 ∧ n ≤ b.indices.maxCapacity_ := ⟨hn, hmax⟩
    simp only [reallocate, Method.bind_apply, assert_ok hok, Outcome.bind_ok, if_neg hne, onArena_ok ea, onBuf_ok,
      H.memory_, hk, hS.chunk_, if_true, H.chunk_, H.handle_, trim_ok]
    simp only [Method.bind_apply, deref_ok, Outcome.bind_ok, onArena_ok em, onArena_ok ef]
  · rw [hF.given, hg₂, hS.given]
  · obtain ⟨ch₁, hc₁, -, hu₁⟩ := hE c chn hc
    obtain ⟨m, hc₂⟩ := R.exists_chunk hc₁
    exact hF.destroyed c _ hc₂ (hu₁.trans hu) hgone
  · obtain ⟨ch₃, hch₃, -⟩ := hF.whole.chunks.in_chunk hF.whole.pools h₃
    obtain ⟨ch₀, hch₀, -⟩ := W.chunks.in_chunk W.pools H.given
    have hik : i < k := by omega
    rw [hbyte₃ _ _ (by rw [hch₃]; simp), ← hbyte₁ _ _ (by rw [hch₀]; simp), ← hm, PoolArena.byte_eq PoolArena.chunk_setChunk,
      PoolArena.byte_eq hch]
    show ch'.memory.write r.offset_ (ch.memory.read b.offset_ k) (r.offset_ + i) = _
    rw [Mem.write_add (by rw [Mem.length_read]; exact hik), Mem.getElem_read]
  · rw [hbyte₃ _ _ hc', ← hbyte₁ _ _ hc, ← hm]
    by_cases he : c = t'.chunk
    · subst he
      rw [PoolArena.byte_eq PoolArena.chunk_setChunk, PoolArena.byte_eq hch']
      rcases hout with h | h | h
      · exact absurd rfl h
      · exact Mem.write_of_lt h
      · refine Mem.write_of_ge ?_
        rw [Mem.length_read]
        omega
    · rw [PoolArena.byte, PoolArena.byte, PoolArena.chunk_setChunk_of_ne he]

omit h0 in
theorem reallocate_neg (h0 : b.length_ < 0) (hn : 0 ≤ n) (hmax : n ≤ b.indices.maxCapacity_) :
    reallocate n true ⟨a, b⟩ = .ub := by
  obtain ⟨r, t', a₁, ea, -⟩ := PoolArena.allocate_ok W hi (by unfold intMin; omega)
  have hok : n ≥ 0 ∧ n ≤ b.indices.maxCapacity_ := ⟨hn, hmax⟩
  have hk : min b.length_ n < 0 := by omega
  simp only [reallocate, Method.bind_apply, assert_ok hok, Outcome.bind_ok, if_neg (show b.length_ ≠ n by omega),
    onArena_ok ea, onBuf_ok, H.memory_, if_true, H.chunk_, trim_ok]
  simp only [Method.bind_apply, deref_ok, Outcome.bind_ok, onArena, PoolArena.memcpy_neg hk]
  rfl

omit h0 in
/-- `capacity(n)`. A buffer that was made with a negative length cannot be moved. -/
theorem setCapacity_cases :
    n = b.length_ ∧ setCapacity n ⟨a, b⟩ = .ok () ⟨a, b⟩ ∨
    n ≠ b.length_ ∧ (n < 0 ∨ n > b.indices.maxCapacity_) ∧ (∃ e, setCapacity n ⟨a, b⟩ = .throw e ⟨a, b⟩) ∨
    n ≠ b.length_ ∧ (0 ≤ n ∧ n ≤ b.indices.maxCapacity_) ∧
      (n ≤ b.maxLength_ ∧ setCapacity n ⟨a, b⟩ = .ok () ⟨a, (b.withLength n).settle b.length_ n⟩ ∨
        (0 ≤ b.length_ ∧ ∃ r t' a', setCapacity n ⟨a, b⟩ = .ok () ⟨a', (b.init0 r).settle b.length_ n⟩ ∧
          a.Moved l a' b n t t' r) ∨
        b.length_ < 0 ∧ setCapacity n ⟨a, b⟩ = .ub) := by
  by_cases he : n = b.length_
  · exact .inl ⟨he, by simp only [setCapacity, if_pos he]⟩
  right
  by_cases hb : n < 0 ∨ n > b.indices.maxCapacity_
  · left
    obtain ⟨what, e⟩ : ∃ what, checkNewCapacity n ⟨a, b⟩ = .throw what ⟨a, b⟩ := ⟨_, if_pos hb⟩
    exact ⟨he, hb, what, by simp only [setCapacity, if_neg he, Method.bind_apply, e, Outcome.bind_throw]⟩
  right
  have hb' : 0 ≤ n ∧ n ≤ b.indices.maxCapacity_ := by omega
  refine ⟨he, hb', ?_⟩
  obtain ⟨ch, hch, -⟩ := W.chunks.in_chunk W.pools H.given
  have hle := H.length_
  simp only [setCapacity, if_neg he, Method.bind_apply, checkNewCapacity, if_neg hb, H.chunk_, deref_ok, Outcome.bind_ok,
    onArena_ok (PoolArena.chunkAt_ok hch)]
  split
  · rename_i hg
    refine .inl ⟨hg.2.2, ?_⟩
    rw [onBuf_ok, PooledCharBuf.settle, if_pos hg.2.1]
  split
  · rename_i hg
    refine .inl ⟨by omega, ?_⟩
    rw [Method.bind_apply, onBuf_ok, Outcome.bind_ok, onBuf_ok, PooledCharBuf.settle, if_neg hg.2.1]
  right
  by_cases h0 : 0 ≤ b.length_
  · obtain ⟨r, t', a', e, hM⟩ := reallocate_ok W H h0 hi hb'.1 hb'.2 (Ne.symm he)
    exact .inl ⟨h0, r, t', a', e, hM⟩
  · exact .inr ⟨by omega, reallocate_neg W H hi (by omega) hb'.1 hb'.2⟩

end Pooled

/-- The buffer in the slot it has moved to. -/
theorem PoolArena.Moved.holds {b : PooledCharBuf} {r : Region} (M : a.Moved l a' b n t t' r) (H : b.Holds l a t)
    (b₀ : PooledCharBuf) : (b₀.init0 r).Holds l a' t' where
  given := by
    rw [M.given]
    split
    · rw [Function.update_self]
      rfl
    · rename_i hb
      have hne : t' ≠ t := by
        rintro rfl
        rcases M.fresh with hf | ⟨h0, hf⟩
        · rw [H.given] at hf
          cases hf
        · rw [H.given] at hf
          exact hb ((Extent.mk.inj (Option.some.inj hf)).2.trans h0)
      rw [Function.update_of_ne hne, Function.update_self]
      rfl
  chunk_ := congrArg some M.chunk_
  handle_ := M.handle_
  memory_ := congrArg some M.chunk_
  length_ := by
    show r.length_ ≤ r.maxLength_
    rw [M.length_]
    exact M.le
  int := M.int

/-- Writing in the region of a buffer. -/
theorem Pooled.poke_ok {b : PooledCharBuf} {i : Nat} {bs : List UInt8} (W : a.Whole l) (H : b.Holds l a t)
    (hi : i + bs.length ≤ b.maxLength_) : ∃ ch, a.chunk t.chunk = some ch ∧
      poke i bs ⟨a, b⟩ = .ok () ⟨a.setChunk t.chunk (ch.withMemory (ch.memory.write (b.offset_ + i) bs)), b⟩ := by
  obtain ⟨ch, hch, hin⟩ := W.chunks.in_chunk W.pools H.given
  dsimp only at hin
  refine ⟨ch, hch, ?_⟩
  simp only [poke, H.memory_, deref_ok, Outcome.bind_ok, H.idx W (show i ≤ b.maxLength_ by omega)]
  exact onArena_ok (PoolArena.poke_ok hch (by omega))

/-! ## The end of a buffer -/

/-- A buffer that was deallocated. -/
def PooledCharBuf.gone (b : PooledCharBuf) : PooledCharBuf := { b with memory_ := none, handle_ := -1, chunk_ := none }

theorem Slot.handle_nonneg (t : Slot) : 0 ≤ t.handle l := by
  cases t with
  | run | elem => exact Int.natCast_nonneg _
  | huge => exact Int.le_refl _

/-- `deallocate` gives the slot back to the arena. -/
theorem Pooled.deallocate_ok {b : PooledCharBuf} (W : a.Whole l) (H : b.Holds l a t) :
    ∃ a', deallocate ⟨a, b⟩ = .ok () ⟨a', b.gone⟩ ∧ PoolArena.Freed l a a' t ⟨b.offset_, b.maxLength_⟩ ∧
      PoolArena.free t.chunk b.handle_ a = .ok () a' := by
  obtain ⟨a', e, hF⟩ := PoolArena.free_ok W H.given
  refine ⟨a', ?_, hF, by rw [H.handle_, e]⟩
  have hh : t.handle l ≥ 0 := t.handle_nonneg
  simp only [deallocate, H.handle_, if_pos hh, Method.bind_apply, H.chunk_, deref_ok, Outcome.bind_ok, onArena_ok e]
  rfl

/-- `release`, of a count that does not wrap. -/
theorem Pooled.release_eq {b : PooledCharBuf} (hn : i32 (b.refCnt_ - max n 0) = b.refCnt_ - max n 0) :
    release n ⟨a, b⟩ =
      let b' := { b with refCnt_ := b.refCnt_ - max n 0 }
      if b'.refCnt_ = 0 then deallocate ⟨a, b'⟩ else .ok () ⟨a, b'⟩ := by
  have e : (if n > 0 then { b with refCnt_ := i32 (b.refCnt_ - n) } else b) =
      { b with refCnt_ := b.refCnt_ - max n 0 } := by
    split
    · rw [Int.max_eq_left (by omega)] at hn ⊢
      rw [hn]
    · rw [Int.max_eq_right (by omega), Int.sub_zero]
  simp only [release, Method.bind_apply, onBuf_ok, Outcome.bind_ok, Method.get_apply, e]
  split <;> rfl

/-- `release` of the last references: the slot is given back, by `PoolArena::free`. -/
theorem Pooled.release_last {b : PooledCharBuf} (W : a.Whole l) (H : b.Holds l a t) (h0 : b.refCnt_ = max n 0) :
    ∃ a', release n ⟨a, b⟩ = .ok () ⟨a', ({ b with refCnt_ := 0 } : PooledCharBuf).gone⟩ ∧
      PoolArena.free t.chunk b.handle_ a = .ok () a' ∧ PoolArena.Freed l a a' t ⟨b.offset_, b.maxLength_⟩ := by
  have h0 : b.refCnt_ - max n 0 = 0 := by omega
  obtain ⟨a', e, hF, hfree⟩ := deallocate_ok W ({ H with } : ({ b with refCnt_ := 0 } : PooledCharBuf).Holds l a t)
  rw [release_eq (by rw [h0]; rfl)]
  dsimp only
  rw [h0, if_pos rfl]
  exact ⟨a', e, hfree, hF⟩

/-- `release()` of the only reference. -/
theorem Pooled.release_one {b : PooledCharBuf} (W : a.Whole l) (H : b.Holds l a t) (h1 : b.refCnt_ = 1) :
    ∃ a' b', release 1 ⟨a, b⟩ = .ok () ⟨a', b'⟩ ∧ PoolArena.Freed l a a' t ⟨b.offset_, b.maxLength_⟩ := by
  obtain ⟨a', e, -, hF⟩ := release_last (n := 1) W H h1
  exact ⟨a', _, e, hF⟩

end Nio.Pool
