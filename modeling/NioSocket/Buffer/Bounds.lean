import NioSocket.Buffer.Kinds

/-!
# Which accesses are checked

Each absolute accessor of each kind of buffer, with any `int` arguments. `Kind.Checked` is what a
call checks, be it in `AbstractCharBuf`, in the buffer, in the one it is a slice of, or in the one
it copies from (`Kind.checks`); `Kind.Answers` is what it should do, which it does exactly where what
it checks is that the range is in order (`accessor_answers_iff`).
-/

namespace Nio

variable {σ α β : Type}

namespace Outcome

/-- The call throws. -/
def Throws (o : Outcome σ α) : Prop := ∃ e s, o = .throw e s

/-- A call that checks `p`, and is about bytes that are there if `m`: it does not throw if `p`, and has
then done `q` if `m` too; if not `p`, it throws and changes nothing. -/
structure Checks (o : Outcome σ α) (s : σ) (p m : Prop) (q : α → σ → Prop) : Prop where
  ok : p → m → ∃ a s', o = .ok a s' ∧ q a s'
  throw : ¬p → ∃ e, o = .throw e s
  not_throws : p → ¬o.Throws

/-- What a call on a range should do: if it is in order (`r`), its bytes are there, and the call does
`q`; if not, it throws and changes nothing. -/
structure Answers (o : Outcome σ α) (s : σ) (r m : Prop) (q : α → σ → Prop) : Prop where
  ok : r → m ∧ ∃ a s', o = .ok a s' ∧ q a s'
  throw : ¬r → ∃ e, o = .throw e s

variable {o : Outcome σ α} {s : σ} {p m r t u : Prop} {q v : α → σ → Prop}

theorem not_throws_of_ok {a : α} {s' : σ} (h : o = .ok a s') : ¬o.Throws := by
  rintro ⟨e, s'', he⟩
  cases h.symm.trans he

namespace Checks

theorem of_sure (h : p → ∃ a s', o = .ok a s' ∧ q a s') (ht : ¬p → ∃ e, o = .throw e s) : Checks o s p m q where
  ok hp _ := h hp
  throw := ht
  not_throws hp := by
    obtain ⟨a, s', e, -⟩ := h hp
    exact not_throws_of_ok e

theorem congr (h : Checks o s p m q) (hp : p ↔ t) : Checks o s t m q := propext hp ▸ h

theorem imp (h : Checks o s p m q) (hm : p → u → m) (hq : ∀ a s', p → u → q a s' → v a s') : Checks o s p u v where
  ok hp hu := by
    obtain ⟨a, s', e, h'⟩ := h.ok hp (hm hp hu)
    exact ⟨a, s', e, hq a s' hp hu h'⟩
  throw := h.throw
  not_throws := h.not_throws

/-- After a test. -/
theorem bind {o : Outcome σ Unit} {f : Unit → Method σ α} {e : String} [Decidable p]
    (ho : o = if p then .ok () s else .throw e s) (hf : p → Checks (f () s) s t m q) :
    Checks (o.bind f) s (p ∧ t) m q := by
  by_cases hp : p
  · rw [ho, if_pos hp]
    exact (hf hp).congr (and_iff_right hp).symm
  · rw [ho, if_neg hp]
    exact of_sure (fun h => absurd h.1 hp) fun _ => ⟨e, rfl⟩

/-- What is made of the value. -/
theorem map {q : β → σ → Prop} (f : α → β) (h : Checks o s p m fun a => q (f a)) :
    Checks (o.bind fun a => pure (f a)) s p m q where
  ok hp hm := by
    obtain ⟨a, s', e, hq⟩ := h.ok hp hm
    exact ⟨f a, s', by rw [e]; rfl, hq⟩
  throw hp := by
    obtain ⟨e, he⟩ := h.throw hp
    exact ⟨e, by rw [he]; rfl⟩
  not_throws hp := by
    rintro ⟨e, s', he⟩
    cases o with
    | throw => exact h.not_throws hp ⟨_, _, rfl⟩
    | ok | ub | hang => cases he

theorem throws_iff (h : Checks o s p m q) : o.Throws ↔ ¬p := by
  refine ⟨fun ht hp => h.not_throws hp ht, fun hp => ?_⟩
  obtain ⟨e, he⟩ := h.throw hp
  exact ⟨e, s, he⟩

theorem answers_iff (h : Checks o s p m q) : Answers o s r m q ↔ (p ↔ r) ∧ (r → m) := by
  constructor
  · intro ha
    refine ⟨⟨fun hp => ?_, fun hr => ?_⟩, fun hr => (ha.ok hr).1⟩
    · by_contra hr
      obtain ⟨e, he⟩ := ha.throw hr
      exact h.not_throws hp ⟨e, s, he⟩
    · by_contra hp
      obtain ⟨-, a, s', e, -⟩ := ha.ok hr
      exact not_throws_of_ok e (h.throws_iff.mpr hp)
  · rintro ⟨hpr, hm⟩
    exact ⟨fun hr => ⟨hm hr, h.ok (hpr.mpr hr) (hm hr)⟩, fun hr => h.throw (mt hpr.mp hr)⟩

end Checks

end Outcome

end Nio

namespace Nio.Buffer

open Pool (Pooled PoolArena)
open Outcome (Throws Checks)

/-! ## A buffer with bytes of its own -/

theorem Within.exists_nat {i n cap : Int} (h : Within i n cap) :
    ∃ k m : Nat, i = k ∧ n = m ∧ (k + m : Nat) ≤ cap := by
  obtain ⟨h0, hn, hle⟩ := h
  exact ⟨i.toNat, n.toNat, by omega, by omega, by omega⟩

namespace CharBuf.Store

variable {σ : Type} {c : CharBuf σ} (B : Store c) {s : σ} {i n : Int} {m : Prop} {bs src : List UInt8}

/-- What checks the range first does so of any `int`s. -/
theorem check {α : Type} {f : Unit → Method σ α} {q : α → σ → Prop} (hs : B.Live s) (hi : i32 i = i) (hn : i32 n = n)
    (hf : ∀ k l : Nat, i = k → n = l → (k + l : Nat) ≤ c.capacity s → ∃ a s', f () s = .ok a s' ∧ q a s') :
    Checks ((c.checkIndex i n s).bind f) s (Within i n (c.capacity s)) m q := by
  refine (Checks.bind (t := True) (B.checkIndex_eq hs hi hn) fun hw => ?_).congr (iff_of_eq (and_true _))
  obtain ⟨k, l, hk, hl, hle⟩ := hw.exists_nat
  exact .of_sure (fun _ => hf k l hk hl hle) fun h => absurd trivial h

theorem setValue_checks (hs : B.Live s) (hi : i32 i = i) (hn : i32 bs.length = bs.length) :
    Checks (c.setValue i bs s) s (Within i bs.length (c.capacity s)) m fun _ s' => s' = B.put i.toNat bs s := by
  refine B.check hs hi hn fun k l hk hl hle => ?_
  subst hk
  exact ⟨(), _, B.set_ok hs (by omega), rfl⟩

theorem getValue_checks {n : Nat} (hs : B.Live s) (hi : i32 i = i) (hn : i32 n = n) :
    Checks (c.getValue i n s) s (Within i n (c.capacity s)) m
      fun bs s' => bs = (B.byte s).read i.toNat n ∧ s' = s := by
  refine B.check hs hi hn fun k l hk hl hle => ?_
  subst hk
  exact ⟨_, s, B.get_ok hs (by omega), rfl, rfl⟩

theorem getString_checks (hs : B.Live s) (hi : i32 i = i) (hn : i32 n = n) :
    Checks (c.getString i n s) s (Within i n (c.capacity s)) m
      fun bs s' => bs = (B.byte s).read i.toNat n.toNat ∧ s' = s := by
  refine B.check hs hi hn fun k l hk hl hle => ?_
  subst hk hl
  exact ⟨_, s, B._getString_ok hs hle, rfl, rfl⟩

end CharBuf.Store

namespace Heap

variable {h : Heap} {s : h.State} {i j n : Int} {m : Prop}

/-- What `getChars` checks. -/
def Copies : (h : Heap) → h.State → Int → Int → Prop
  | unpooled, b, i, n => Within i n b.capacity_
  | pooled, _, _, _ => True

theorem setChars_checks (hs : h.store.Live s) (hi : i32 i = i) (hn : i32 n = n) {src : List UInt8}
    (hl : n ≤ src.length) : Checks (h.charBuf.setChars i src n s) s (Within i n (h.charBuf.capacity s)) m
      fun _ s' => s' = h.store.put i.toNat (src.take n.toNat) s := by
  have e : h.charBuf.setChars i src n s =
      (h.charBuf.checkIndex i n s).bind fun _ => h.charBuf._setChars i src n := by cases h <;> rfl
  rw [e]
  refine h.store.check hs hi hn fun k l hk hl' hle => ?_
  subst hk hl'
  exact ⟨(), _, h.store._setChars_ok hs hle (by omega), rfl⟩

/-! ### What never throws -/

theorem onArena_not_throws {α : Type} {f : Method PoolArena α} {p : Pooled} (h : ¬(f p.arena).Throws) :
    ¬(Pooled.onArena f p).Throws := by
  rintro ⟨e, p', he⟩
  unfold Pooled.onArena at he
  split at he
  · cases he
  · rename_i e' a he'
    exact h ⟨e', a, he'⟩
  · cases he
  · cases he

theorem deref_not_throws {α : Type} (o : Option Nat) {f : Nat → Method Pooled α} {p : Pooled}
    (h : ∀ c, ¬(f c p).Throws) : ¬((Pooled.deref o p).bind f).Throws := by
  cases o with
  | none =>
    rintro ⟨e, p', he⟩
    cases he
  | some c => exact h c

theorem arena_peek_not_throws (c : Nat) (i n : Int) (a : PoolArena) : ¬(PoolArena.peek c i n a).Throws := by
  rintro ⟨e, a', he⟩
  simp only [PoolArena.peek, Method.bind_apply, PoolArena.chunkAt] at he
  split at he
  · rw [Outcome.bind_ok] at he
    split at he <;> cases he
  · cases he

theorem arena_poke_not_throws (c : Nat) (i : Int) (bs : List UInt8) (a : PoolArena) :
    ¬(PoolArena.poke c i bs a).Throws := by
  rintro ⟨e, a', he⟩
  simp only [PoolArena.poke, Method.bind_apply, PoolArena.chunkAt] at he
  split at he
  · rw [Outcome.bind_ok] at he
    split at he <;> cases he
  · cases he

theorem peek_not_throws (i n : Int) (p : Pooled) : ¬(Pooled.peek i n p).Throws :=
  deref_not_throws _ fun c => onArena_not_throws (arena_peek_not_throws c _ n _)

theorem get_not_throws (i : Int) (n : Nat) (s : h.State) : ¬(h.charBuf._get i n s).Throws := by
  cases h with
  | unpooled =>
    rintro ⟨e, b, he⟩
    have he : UnpooledHeapCharBuf.peek i n s = .throw e b := he
    unfold UnpooledHeapCharBuf.peek at he
    split at he <;> cases he
  | pooled => exact peek_not_throws i n s

theorem set_not_throws (i : Int) (bs : List UInt8) (s : h.State) : ¬(h.charBuf._set i bs s).Throws := by
  cases h with
  | unpooled =>
    rintro ⟨e, b, he⟩
    have he : UnpooledHeapCharBuf.poke i bs s = .throw e b := he
    unfold UnpooledHeapCharBuf.poke at he
    split at he <;> cases he
  | pooled => exact deref_not_throws _ fun c => onArena_not_throws (arena_poke_not_throws c _ bs _)

/-! ### What leaves the check to another -/

theorem get_checks {n : Nat} (hs : h.store.Live s) :
    Checks (h.charBuf._get i n s) s True (Within i n (h.charBuf.capacity s))
      fun bs s' => bs = (h.store.byte s).read i.toNat n ∧ s' = s where
  ok _ hw := by
    obtain ⟨k, l, rfl, hl, hle⟩ := hw.exists_nat
    exact ⟨_, s, h.store.get_ok hs (by omega), rfl, rfl⟩
  throw hp := absurd trivial hp
  not_throws _ := get_not_throws i n s

theorem getChars_checks (hs : h.store.Live s) (hi : i32 i = i) (hn : i32 n = n) :
    Checks (h.charBuf.getChars i n s) s (h.Copies s i n) (Within i n (h.charBuf.capacity s))
      fun bs s' => bs = (h.store.byte s).read i.toNat n.toNat ∧ s' = s := by
  cases h with
  | unpooled =>
    refine unpooled.store.check hs hi hn fun k l hk hl hle => ?_
    subst hk hl
    exact ⟨_, s, UnpooledHeapCharBuf.peek_ok hle, rfl, rfl⟩
  | pooled =>
    refine ⟨fun _ hw => ?_, fun hp => absurd trivial hp, fun _ => peek_not_throws i n s⟩
    obtain ⟨k, l, rfl, rfl, hle⟩ := hw.exists_nat
    exact ⟨_, s, pooled.store.getChars_ok hs hle, rfl, rfl⟩

section

variable {src : Source} {bs : List UInt8} {what : String} {u : Unit}

theorem setCharsFrom_ok (e : src j n = .ok bs u) : h.charBuf.setCharsFrom i src j n s = h.charBuf._set i bs s := by
  cases h with
  | unpooled =>
    show UnpooledHeapCharBuf.setCharsFrom i src j n s = _
    rw [UnpooledHeapCharBuf.setCharsFrom, e]
    rfl
  | pooled =>
    show Pooled.setCharsFrom i src j n s = _
    rw [Pooled.setCharsFrom, e]
    rfl

theorem setCharsFrom_throw (e : src j n = .throw what u) : h.charBuf.setCharsFrom i src j n s = .throw what s := by
  cases h with
  | unpooled =>
    show UnpooledHeapCharBuf.setCharsFrom i src j n s = _
    rw [UnpooledHeapCharBuf.setCharsFrom, e]
  | pooled =>
    show Pooled.setCharsFrom i src j n s = _
    rw [Pooled.setCharsFrom, e]

theorem setCharsFrom_not_throws (e : src j n = .ub ∨ src j n = .hang) :
    ¬(h.charBuf.setCharsFrom i src j n s).Throws := by
  rintro ⟨what, s', h'⟩
  cases h with
  | unpooled =>
    change UnpooledHeapCharBuf.setCharsFrom i src j n s = _ at h'
    rw [UnpooledHeapCharBuf.setCharsFrom] at h'
    rcases e with e | e <;> rw [e] at h' <;> cases h'
  | pooled =>
    change Pooled.setCharsFrom i src j n s = _ at h'
    rw [Pooled.setCharsFrom] at h'
    rcases e with e | e <;> rw [e] at h' <;> cases h'

end

/-- The range of the other buffer is checked by that. -/
theorem setCharsFrom_checks (hs : h.store.Live s) (src : Source) (bs : List UInt8) :
    Checks (h.charBuf.setCharsFrom i src j n s) s (¬(src j n).Throws)
      (Within i n (h.charBuf.capacity s) ∧ (src j n = .ok bs () ∧ (bs.length : Int) = n))
      fun _ s' => s' = h.store.put i.toNat bs s := by
  constructor
  · rintro - ⟨hw, hsrc, rfl⟩
    obtain ⟨k, l, rfl, hl, hle⟩ := hw.exists_nat
    exact ⟨(), _, h.store.setCharsFrom_ok hs (by omega) hsrc, rfl⟩
  · intro ht
    obtain ⟨what, u, he⟩ := not_not.mp ht
    exact ⟨what, setCharsFrom_throw he⟩
  · intro ht
    cases he : src j n with
    | ok bs u =>
      rw [setCharsFrom_ok he]
      exact set_not_throws i bs s
    | throw what u => exact absurd ⟨what, u, he⟩ ht
    | ub => exact setCharsFrom_not_throws (.inl he)
    | hang => exact setCharsFrom_not_throws (.inr he)

theorem setCharsSelf_checks (hs : h.store.Live s) (hj : i32 j = j) (hn : i32 n = n) :
    Checks (h.charBuf.setCharsSelf i j n s) s (h.Copies s j n)
      (Within i n (h.charBuf.capacity s) ∧ Within j n (h.charBuf.capacity s) ∧ (i + n ≤ j ∨ j + n ≤ i))
      fun _ s' => s' = h.store.put i.toNat ((h.store.byte s).read j.toNat n.toNat) s where
  ok := by
    rintro - ⟨hi, hj, hd⟩
    obtain ⟨k, l, rfl, rfl, hle⟩ := hi.exists_nat
    obtain ⟨k', l', rfl, hl, hle'⟩ := hj.exists_nat
    have e := h.store.setCharsSelf_eq hs (i := k) (j := k') (n := l) hle (by omega)
    rw [if_pos (by omega)] at e
    exact ⟨(), _, e, rfl⟩
  throw hp := by
    cases h with
    | unpooled =>
      obtain ⟨e, he⟩ := (getChars_checks (h := unpooled) hs hj hn).throw hp
      have he : UnpooledHeapCharBuf.getChars j n s = .throw e s := he
      refine ⟨e, ?_⟩
      show (UnpooledHeapCharBuf.getChars j n s).bind _ = _
      rw [he]
      rfl
    | pooled => exact absurd trivial hp
  not_throws hp := by
    cases h with
    | unpooled =>
      obtain ⟨bs, s', e, -⟩ := (getChars_checks (h := unpooled) hs hj hn).ok hp hp
      have e : UnpooledHeapCharBuf.getChars j n s = .ok bs s' := e
      show ¬((UnpooledHeapCharBuf.getChars j n s).bind _).Throws
      rw [e, Outcome.bind_ok]
      split
      · exact set_not_throws (h := unpooled) i bs s'
      · rintro ⟨_, _, h⟩
        cases h
    | pooled =>
      refine deref_not_throws _ fun c => onArena_not_throws ?_
      rintro ⟨e, a, he⟩
      rw [PoolArena.memcpy, Method.bind_apply] at he
      cases hp : PoolArena.peek c (Pooled.idx j s.buf) n s.arena with
      | ok bs a' =>
        rw [hp, Outcome.bind_ok] at he
        split at he
        · exact arena_poke_not_throws _ _ _ _ ⟨e, a, he⟩
        · cases he
      | throw e' a' => exact arena_peek_not_throws _ _ _ _ ⟨e', a', hp⟩
      | ub | hang =>
        rw [hp] at he
        cases he

end Heap

/-! ## A buffer of any kind -/

namespace Kind

/-- The buffer that has the bytes. -/
def base : Kind → Heap
  | heap h => h
  | unpooledSliced h => h
  | pooledSliced => .pooled

/-- The buffer that a view is of. -/
def unwrap : (k : Kind) → k.State → k.base.State
  | heap _, s => s
  | unpooledSliced _, x => x.base
  | pooledSliced, x => x.base

/-- A view of that buffer, changed. -/
def rewrap : (k : Kind) → k.base.State → k.State → k.State
  | heap _, s, _ => s
  | unpooledSliced _, s, x => { x with base := s }
  | pooledSliced, s, x => { x with base := s }

/-- Where an index is in the buffer that has the bytes. -/
def idx : (k : Kind) → Int → k.State → Int
  | heap _, index, _ => index
  | unpooledSliced _, index, x => x.idx index
  | pooledSliced, index, x => x.idx index

/-- The memory that a buffer is in. -/
def memory (k : Kind) (s : k.State) : Mem := k.base.store.byte (k.unwrap s)

/-- The buffer, with bytes at an index of the one that has them. -/
def put (k : Kind) (i : Int) (bs : List UInt8) (s : k.State) : k.State :=
  k.rewrap (k.base.store.put i.toNat bs (k.unwrap s)) s

/-- The bytes from a place on. -/
def read (k : Kind) (s : k.State) (i n : Int) : List UInt8 := (k.memory s).read i.toNat n.toNat

/-- A buffer that is in use, or a slice of one: its length is one, and it may begin anywhere. -/
structure Valid (k : Kind) (s : k.State) : Prop where
  live : k.base.store.Live (k.unwrap s)
  capacity_nonneg : 0 ≤ k.charBuf.capacity s
  capacity_le : k.charBuf.capacity s ≤ intMax

/-- The range is in the buffer. -/
def InRange (k : Kind) (s : k.State) (i n : Int) : Prop := Within i n (k.charBuf.capacity s)

instance (k : Kind) (s : k.State) (i n : Int) : Decidable (k.InRange s i n) := inferInstanceAs (Decidable (Within ..))

/-- The bytes of the range are in the buffer that has the bytes. -/
def Inside (k : Kind) (s : k.State) (i n : Int) : Prop :=
  Within (k.idx i s) n (k.base.charBuf.capacity (k.unwrap s))

/-! ### What is checked -/

/-- What a slice checks before it calls its buffer. -/
def Window : (k : Kind) → k.State → Int → Int → Prop
  | heap _, _, _, _ => True
  | unpooledSliced h, x, i, n => InRange (unpooledSliced h) x i n
  | pooledSliced, x, i, n => InRange pooledSliced x i n

/-- What `_getInt` and `_getLong` check: a slice calls `getInt` and `getLong` of its buffer. -/
def Peeks : (k : Kind) → k.State → Int → Int → Prop
  | heap _, _, _, _ => True
  | unpooledSliced h, x, i, n => Inside (unpooledSliced h) x i n
  | pooledSliced, x, i, n => Inside pooledSliced x i n

/-- What `getChars` checks. -/
def Copies (k : Kind) (s : k.State) (i n : Int) : Prop :=
  k.Window s i n ∧ k.base.Copies (k.unwrap s) (k.idx i s) n

/-- What `slice` checks. -/
def Slices : (k : Kind) → k.State → Int → Int → Prop
  | heap _, _, _, n => 0 ≤ n
  | unpooledSliced h, x, i, n => InRange (unpooledSliced h) x i n
  | pooledSliced, _, _, _ => False

/-- What `retainedSlice` checks. -/
def RetainedSlices : (k : Kind) → k.State → Int → Int → Prop
  | heap .pooled, s, i, n => InRange (heap .pooled) s i n
  | k, s, i, n => k.Slices s i n

end Kind

/-- A buffer that a call copies from. -/
structure Other where
  kind : Kind
  state : kind.State

namespace Other

/-- What is copied from another buffer. -/
def source (o : Other) : Source := fun srcIndex length =>
  match o.kind.charBuf.getChars srcIndex length o.state with
  | .ok bs _ => .ok bs ()
  | .throw e _ => .throw e ()
  | .ub => .ub
  | .hang => .hang

end Other

/-- The absolute accessors, `slice` and `retainedSlice`, with their arguments other than the index;
another buffer that `setChars` copies from is in `setFrom`, the buffer itself in `setSelf`. -/
inductive Accessor
  | get (g : Get)
  | set (p : Put)
  | setFrom (src : Other) (srcIndex length : Int)
  | setSelf (srcIndex length : Int)
  | slice (length : Int)
  | retainedSlice (length : Int)

namespace Accessor

/-- How many bytes are accessed. -/
def size : Accessor → Int
  | get g => g.size
  | set p => p.size
  | setFrom _ _ n | setSelf _ n | slice n | retainedSlice n => n

/-- The lengths are `int`s, and a pointer is to that many bytes. -/
def Valid : Accessor → Prop
  | set (.chars src n) => i32 n = n ∧ n ≤ src.length
  | set (.buf _ _ _) => False
  | set _ => True
  | setFrom o j n => i32 j = j ∧ i32 n = n ∧ o.kind.Valid o.state
  | setSelf j n => i32 j = j ∧ i32 n = n
  | a => i32 a.size = a.size

end Accessor

namespace Kind

variable (k : Kind) (s : k.State) (i : Int)

/-- The range of the call is in the buffer, and that of the other in the other. -/
def Addresses : Accessor → Prop
  | .setFrom o j n => k.InRange s i n ∧ o.kind.InRange o.state j n
  | .setSelf j n => k.InRange s i n ∧ k.InRange s j n
  | a => k.InRange s i a.size

/-- The bytes that the call is about are in the buffers that have them; what is copied within one
is copied to a range that it does not overlap. -/
def Reaches : Accessor → Prop
  | .setFrom o j n => k.Inside s i n ∧ o.kind.Inside o.state j n
  | .setSelf j n => k.Inside s i n ∧ k.Inside s j n ∧ (k.idx i s + n ≤ k.idx j s ∨ k.idx j s + n ≤ k.idx i s)
  | .slice _ | .retainedSlice _ => True
  | a => k.Inside s i a.size

/-- What the call checks. -/
def Checked : Accessor → Prop
  | .get .float => k.Peeks s i 4
  | .get .double => k.Peeks s i 8
  | .get (.chars n) => k.Copies s i n
  | .set (.string v) => k.Window s i (i32 v.length) ∧ k.Inside s i (i32 v.length)
  | .setFrom o j n => k.Window s i n ∧ o.kind.Copies o.state j n
  | .setSelf j n => k.Window s i n ∧ k.Copies s j n
  | .slice n => k.Slices s i n
  | .retainedSlice n => k.RetainedSlices s i n
  | a => k.Window s i a.size ∧ k.Inside s i a.size

/-- The value is the one of the bytes there. -/
def Gets (g : Get) (v : Result) (s' : k.State) : Prop :=
  v = g.value (k.read s (k.idx i s) g.size) ∧ s' = s

/-- The bytes of the value are put there, and nothing else changes. -/
def Puts (p : Put) (_ : Unit) (s' : k.State) : Prop := ∃ bs, p.Gives bs ∧ s' = k.put (k.idx i s) bs s

/-- The view is of these bytes. -/
def Views (n : Int) (v : Slice) (s' : k.State) : Prop := v = Slice.new (k.idx i s) n ∧ s' = s

/-- The same, with one reference more. -/
def RetainedViews (n : Int) (v : Slice) (s' : k.State) : Prop :=
  v = Slice.new (k.idx i s) n ∧ s' = k.rewrap (k.base.retain (k.unwrap s)) s

/-- What the call should do: it reads, or writes, the bytes of its range and no others if all is in
range, and throws and changes nothing if not. -/
def Answers (a : Accessor) : Prop :=
  let r := k.Addresses s i a
  let m := k.Reaches s i a
  match a with
  | .get g => (k.charBuf.getAt g i s).Answers s r m (k.Gets s i g)
  | .set p => (k.charBuf.setAt p i s).Answers s r m (k.Puts s i p)
  | .setFrom o j n => (k.charBuf.setCharsFrom i o.source j n s).Answers s r m fun _ s' =>
    s' = k.put (k.idx i s) (o.kind.read o.state (o.kind.idx j o.state) n) s
  | .setSelf j n => (k.charBuf.setCharsSelf i j n s).Answers s r m fun _ s' =>
    s' = k.put (k.idx i s) (k.read s (k.idx j s) n) s
  | .slice n => (k.slice i n s).Answers s r m (k.Views s i n)
  | .retainedSlice n => (k.retainedSlice i n s).Answers s r m (k.RetainedViews s i n)

/-- What the call checks is that all is in range, and what is in range is there. -/
def Guards (a : Accessor) : Prop := (k.Checked s i a ↔ k.Addresses s i a) ∧ (k.Addresses s i a → k.Reaches s i a)

end Kind

/-! ## What is checked -/

theorem Sliced.onBase_checks {σ α : Type} {f : Method σ α} {x : Sliced σ} {p m : Prop} {q : α → Sliced σ → Prop}
    (h : Checks (f x.base) x.base p m fun a s => q a { x with base := s }) : Checks (onBase f x) x p m q where
  ok hp hm := by
    obtain ⟨a, s, e, hq⟩ := h.ok hp hm
    exact ⟨a, _, onBase_ok e, hq⟩
  throw hp := by
    obtain ⟨e, he⟩ := h.throw hp
    exact ⟨e, onBase_throw he⟩
  not_throws hp := by
    rintro ⟨e, x', he⟩
    unfold onBase at he
    split at he
    · cases he
    · rename_i e' s' he'
      exact h.not_throws hp ⟨e', s', he'⟩
    · cases he
    · cases he

namespace Kind

variable {k : Kind} {s : k.State} {i j n : Int} {m : Prop}

theorem i32_idx (hi : i32 i = i) (s : k.State) : i32 (k.idx i s) = k.idx i s := by
  have h := fun x => i32_range x
  cases k with
  | heap => exact hi
  | unpooledSliced | pooledSliced => exact i32_eq (h _).1 (h _).2

theorem rewrap_unwrap (k : Kind) (s : k.State) : k.rewrap (k.unwrap s) s = s := by cases k <;> rfl

/-- A call that a slice checks, and leaves to its buffer. -/
def via {α : Type} : (k : Kind) → (index length : Int) → (Int → Method k.base.State α) → Method k.State α
  | heap _, index, _, f => f index
  | unpooledSliced _, index, length, f => fun x =>
    (Sliced.checkIndex index length x).bind fun _ x => Sliced.onBase (f (x.idx index)) x
  | pooledSliced, index, length, f => fun x =>
    (Sliced.checkIndex index length x).bind fun _ x => Sliced.onBase (f (x.idx index)) x

section

variable {α : Type} {f : Int → Method k.base.State α} {p : Prop} {q : α → k.State → Prop}

theorem via_checks (hs : k.Valid s) (hi : i32 i = i) (hn : i32 n = n)
    (h : Checks (f (k.idx i s) (k.unwrap s)) (k.unwrap s) p m fun a t => q a (k.rewrap t s)) :
    Checks (k.via i n f s) s (k.Window s i n ∧ p) m q := by
  cases k with
  | heap => exact h.congr (iff_of_eq (true_and p)).symm
  | unpooledSliced | pooledSliced =>
    exact .bind (p := Within i n _) (CharBuf.checkRangeBounds_within hi hn hs.capacity_nonneg hs.capacity_le s)
      fun _ => Sliced.onBase_checks h

end

theorem setValue_checks (hs : k.Valid s) (hi : i32 i = i) {bs : List UInt8} (hn : i32 bs.length = bs.length) :
    Checks (k.charBuf.setValue i bs s) s (k.Window s i bs.length ∧ k.Inside s i bs.length) m
      fun _ s' => s' = k.put (k.idx i s) bs s := by
  have e : k.charBuf.setValue i bs s = k.via i bs.length (fun j => k.base.charBuf.setValue j bs) s := by
    cases k <;> rfl
  rw [e]
  exact via_checks hs hi hn ((k.base.store.setValue_checks (m := m) hs.live (i32_idx hi s) hn).imp (fun _ h => h)
    fun _ _ _ _ h => h ▸ rfl)

theorem getValue_checks (hs : k.Valid s) (hi : i32 i = i) {n : Nat} (hn : i32 n = n) :
    Checks (k.charBuf.getValue i n s) s (k.Window s i n ∧ k.Inside s i n) m
      fun bs s' => bs = k.read s (k.idx i s) n ∧ s' = s := by
  have e : k.charBuf.getValue i n s = k.via i n (fun j => k.base.charBuf.getValue j n) s := by cases k <;> rfl
  rw [e]
  refine via_checks hs hi hn ((k.base.store.getValue_checks (m := m) hs.live (i32_idx hi s) hn).imp (fun _ h => h) ?_)
  rintro bs t - - ⟨rfl, rfl⟩
  exact ⟨rfl, k.rewrap_unwrap s⟩

theorem getString_checks (hs : k.Valid s) (hi : i32 i = i) (hn : i32 n = n) :
    Checks (k.charBuf.getString i n s) s (k.Window s i n ∧ k.Inside s i n) m
      fun bs s' => bs = k.read s (k.idx i s) n ∧ s' = s := by
  have e : k.charBuf.getString i n s = k.via i n (fun j => k.base.charBuf.getString j n) s := by cases k <;> rfl
  rw [e]
  refine via_checks hs hi hn ((k.base.store.getString_checks (m := m) hs.live (i32_idx hi s) hn).imp (fun _ h => h) ?_)
  rintro bs t - - ⟨rfl, rfl⟩
  exact ⟨rfl, k.rewrap_unwrap s⟩

theorem get_checks (hs : k.Valid s) (hi : i32 i = i) {n : Nat} (hn : i32 n = n) :
    Checks (k.charBuf._get i n s) s (k.Peeks s i n) (k.Inside s i n)
      fun bs s' => bs = k.read s (k.idx i s) n ∧ s' = s := by
  cases k with
  | heap h => exact Heap.get_checks hs.live
  | unpooledSliced | pooledSliced =>
    refine Sliced.onBase_checks ((CharBuf.Store.getValue_checks _ hs.live (i32_idx hi s) hn).imp (fun _ h => h) ?_)
    rintro bs t - - ⟨rfl, rfl⟩
    exact ⟨rfl, rfl⟩

theorem setChars_checks (hs : k.Valid s) (hi : i32 i = i) (hn : i32 n = n) {src : List UInt8} (hl : n ≤ src.length) :
    Checks (k.charBuf.setChars i src n s) s (k.Window s i n ∧ k.Inside s i n) m
      fun _ s' => s' = k.put (k.idx i s) (src.take n.toNat) s := by
  have e : k.charBuf.setChars i src n s = k.via i n (fun j => k.base.charBuf.setChars j src n) s := by cases k <;> rfl
  rw [e]
  exact via_checks hs hi hn ((Heap.setChars_checks (m := m) hs.live (i32_idx hi s) hn hl).imp (fun _ h => h)
    fun _ _ _ _ h => h ▸ rfl)

theorem getChars_checks (hs : k.Valid s) (hi : i32 i = i) (hn : i32 n = n) :
    Checks (k.charBuf.getChars i n s) s (k.Copies s i n) (k.Inside s i n)
      fun bs s' => bs = k.read s (k.idx i s) n ∧ s' = s := by
  have e : k.charBuf.getChars i n s = k.via i n (fun j => k.base.charBuf.getChars j n) s := by cases k <;> rfl
  rw [e]
  refine via_checks hs hi hn ((Heap.getChars_checks hs.live (i32_idx hi s) hn).imp (fun _ h => h) ?_)
  rintro bs t - - ⟨rfl, rfl⟩
  exact ⟨rfl, k.rewrap_unwrap s⟩

/-- The other buffer checks its range, as `getChars` does. -/
theorem setCharsFrom_checks (hs : k.Valid s) (hi : i32 i = i) (hn : i32 n = n) (hj : i32 j = j) {o : Other}
    (ho : o.kind.Valid o.state) :
    Checks (k.charBuf.setCharsFrom i o.source j n s) s (k.Window s i n ∧ o.kind.Copies o.state j n)
      (k.Inside s i n ∧ o.kind.Inside o.state j n)
      fun _ s' => s' = k.put (k.idx i s) (o.kind.read o.state (o.kind.idx j o.state) n) s := by
  have e : k.charBuf.setCharsFrom i o.source j n s =
      k.via i n (fun l => k.base.charBuf.setCharsFrom l o.source j n) s := by cases k <;> rfl
  have hg := getChars_checks ho hj hn
  have hthrows : (o.source j n).Throws ↔ ¬o.kind.Copies o.state j n := by
    rw [← hg.throws_iff, Other.source]
    cases o.kind.charBuf.getChars j n o.state with
    | throw what t => exact iff_of_true ⟨what, (), rfl⟩ ⟨what, t, rfl⟩
    | ok | ub | hang =>
      refine iff_of_false ?_ ?_ <;>
      · rintro ⟨_, _, h⟩
        cases h
  rw [e]
  refine via_checks hs hi hn (((Heap.setCharsFrom_checks hs.live o.source
    (o.kind.read o.state (o.kind.idx j o.state) n)).congr (not_iff_comm.mpr hthrows.symm)).imp ?_
    fun _ _ _ _ h => h ▸ rfl)
  rintro hc ⟨hin, hsrc⟩
  obtain ⟨bs, t, hbs, rfl, rfl⟩ := hg.ok hc hsrc
  refine ⟨hin, by rw [Other.source, hbs], ?_⟩
  rw [read, Mem.length_read]
  exact Int.toNat_of_nonneg hin.2.1

theorem setCharsSelf_checks (hs : k.Valid s) (hi : i32 i = i) (hn : i32 n = n) (hj : i32 j = j) :
    Checks (k.charBuf.setCharsSelf i j n s) s (k.Window s i n ∧ k.Copies s j n)
      (k.Inside s i n ∧ k.Inside s j n ∧ (k.idx i s + n ≤ k.idx j s ∨ k.idx j s + n ≤ k.idx i s))
      fun _ s' => s' = k.put (k.idx i s) (k.read s (k.idx j s) n) s := by
  have h := (Heap.setCharsSelf_checks (i := k.idx i s) hs.live (i32_idx hj s) hn).imp (fun _ h => h)
    (v := fun _ t => k.rewrap t s = k.put (k.idx i s) (k.read s (k.idx j s) n) s) fun _ _ _ _ h => h ▸ rfl
  cases k with
  | heap => exact h.congr (by simp only [Window, Copies, true_and])
  | unpooledSliced | pooledSliced =>
    have hw := fun {l : Int} (hl : i32 l = l) =>
      CharBuf.checkRangeBounds_within hl hn hs.capacity_nonneg hs.capacity_le s
    exact .bind (p := Within i n _) (hw hi) fun _ => .bind (p := Within j n _) (hw hj) fun _ => Sliced.onBase_checks h

theorem isOutOfBounds_iff {capacity : Int} (hi : i32 i = i) (hn : i32 n = n) (h0 : 0 ≤ capacity)
    (hc : capacity ≤ intMax) : Pool.PooledSlicedCharBuf.isOutOfBounds i n capacity = true ↔ ¬Within i n capacity := by
  have h := CharBuf.checkRangeBounds_within hi hn h0 hc ()
  have e : CharBuf.checkRangeBounds i n capacity () =
      if Pool.PooledSlicedCharBuf.isOutOfBounds i n capacity then .throw "checkRangeBounds failed" ()
      else .ok () () := by
    simp only [CharBuf.checkRangeBounds, Pool.PooledSlicedCharBuf.isOutOfBounds, decide_eq_true_eq, Method.ite_apply]
    rfl
  rw [e] at h
  by_cases hw : Within i n capacity
  · rw [if_pos hw] at h
    refine iff_of_false (fun hb => ?_) (fun hn => hn hw)
    rw [if_pos hb] at h
    cases h
  · rw [if_neg hw] at h
    refine iff_of_true ?_ hw
    by_contra hb
    rw [if_neg hb] at h
    cases h

/-- The sign of the four words, in `checkRangeBounds` and in `isOutOfBounds`, says of any `int`s what
three comparisons of the integers say: no sum that wraps slips through. -/
theorem outOfRange_iff {σ : Type} {index length capacity : Int} (hi : i32 index = index) (hl : i32 length = length)
    (h0 : 0 ≤ capacity) (hc : i32 capacity = capacity) (s : σ) :
    ((CharBuf.checkRangeBounds index length capacity s).Throws ↔
      index < 0 ∨ length < 0 ∨ capacity < index + length) ∧
    (Pool.PooledSlicedCharBuf.isOutOfBounds index length capacity = true ↔
      index < 0 ∨ length < 0 ∨ capacity < index + length) := by
  have hmax : capacity ≤ intMax := hc ▸ (i32_range capacity).2
  have hw : ¬Within index length capacity ↔ index < 0 ∨ length < 0 ∨ capacity < index + length := by
    unfold Within
    omega
  refine ⟨?_, (isOutOfBounds_iff hi hl h0 hmax).trans hw⟩
  rw [CharBuf.checkRangeBounds_within hi hl h0 hmax, ← hw]
  by_cases h : Within index length capacity
  · rw [if_pos h]
    exact iff_of_false (Outcome.not_throws_of_ok rfl) fun hn => hn h
  · rw [if_neg h]
    exact iff_of_true ⟨_, _, rfl⟩ h

/-- The sum of the two largest `int`s is `-2` where it wraps. -/
theorem outOfRange_iff_wrapped :
    ((CharBuf.checkRangeBounds intMax intMax 16 ()).Throws ↔ intMax < 0 ∨ intMax < 0 ∨ 16 < intMax + intMax) ∧
    (Pool.PooledSlicedCharBuf.isOutOfBounds intMax intMax 16 = true ↔
      intMax < 0 ∨ intMax < 0 ∨ 16 < intMax + intMax) :=
  outOfRange_iff (by decide) (by decide) (by decide) (by decide) ()

theorem slice_checks (hs : k.Valid s) (hi : i32 i = i) (hn : i32 n = n) :
    Checks (k.slice i n s) s (k.Slices s i n) True (k.Views s i n) := by
  have hheap : ∀ (h : Heap) (t : h.State) (j : Int),
      Checks (CharBuf.slice j n t) t (0 ≤ n) True fun v t' => v = Slice.new j n ∧ t' = t := fun h t j => by
    rw [CharBuf.slice, Method.bind_apply, CharBuf.checkIndexBounds]
    split
    · exact .of_sure (by omega) fun _ => ⟨_, rfl⟩
    · exact .of_sure (fun _ => ⟨_, t, rfl, rfl, rfl⟩) (by omega)
  cases k with
  | heap h => exact hheap h s i
  | unpooledSliced h =>
    refine (Checks.bind (p := Within i n _) (CharBuf.checkRangeBounds_within hi hn hs.capacity_nonneg hs.capacity_le s)
      fun _ => Sliced.onBase_checks ((hheap h s.base (s.idx i)).imp (fun _ h => h) ?_)).congr
        (and_iff_left_of_imp (·.2.1))
    rintro v t - - ⟨rfl, rfl⟩
    exact ⟨rfl, rfl⟩
  | pooledSliced => exact .of_sure False.elim fun _ => ⟨_, rfl⟩

theorem retainedSlice_checks (hs : k.Valid s) (hi : i32 i = i) (hn : i32 n = n) :
    Checks (k.retainedSlice i n s) s (k.RetainedSlices s i n) True (k.RetainedViews s i n) := by
  have hv : ∀ (k : Kind) (s : k.State), k.Valid s → Checks (CharBuf.retainedSlice k.slice
      (fun t => k.rewrap (k.base.retain (k.unwrap t)) t) i n s) s (k.Slices s i n) True (k.RetainedViews s i n) :=
    fun k s hs => by
      have h := slice_checks hs hi hn
      refine .of_sure (fun hp => ?_) fun hp => ?_
      · obtain ⟨v, s', e, rfl, rfl⟩ := h.ok hp trivial
        exact ⟨_, _, by rw [CharBuf.retainedSlice, Method.bind_apply, e]; rfl, rfl, rfl⟩
      · obtain ⟨e, he⟩ := h.throw hp
        exact ⟨e, by rw [CharBuf.retainedSlice, Method.bind_apply, he]; rfl⟩
  cases k with
  | heap h =>
    cases h with
    | unpooled => exact hv (heap .unpooled) s hs
    | pooled =>
      have hb : Pool.PooledSlicedCharBuf.isOutOfBounds i n s.buf.length_ = true ↔ ¬Within i n s.buf.length_ :=
        isOutOfBounds_iff hi hn hs.capacity_nonneg hs.capacity_le
      show Checks ((Pooled.newInstance i n s).bind fun x => pure x.view) s _ _ _
      rw [Pooled.newInstance]
      refine .of_sure (fun hp => ?_) fun hp => ?_
      · rw [if_neg (mt hb.mp (not_not.mpr hp))]
        exact ⟨_, _, rfl, rfl, rfl⟩
      · rw [if_pos (hb.mpr hp)]
        exact ⟨_, rfl⟩
  | unpooledSliced h => exact hv (unpooledSliced h) s hs
  | pooledSliced => exact .of_sure False.elim fun _ => ⟨_, rfl⟩

/-! ## The accessors -/

theorem gets {o : Outcome k.State (List UInt8)} {p : Prop} {g : Get}
    (h : Checks o s p m fun bs s' => bs = k.read s (k.idx i s) g.size ∧ s' = s) :
    Checks o s p m fun bs => k.Gets s i g (g.value bs) :=
  h.imp (fun _ h => h) fun _ _ _ _ h => ⟨congrArg g.value h.1, h.2⟩

theorem getAt_checks (hs : k.Valid s) (hi : i32 i = i) {g : Get} (hg : i32 g.size = g.size) :
    Checks (k.charBuf.getAt g i s) s (k.Checked s i (.get g)) (k.Inside s i g.size) (k.Gets s i g) := by
  cases g with
  | typed t => exact .map Result.int (.map t.decode (gets (g := .typed t) (getValue_checks hs hi hg)))
  | bool => exact .map Result.bool (.map (· != 0) (.map _ (gets (g := .bool) (getValue_checks hs hi hg))))
  | float => exact .map Result.int (.map _ (gets (g := .float) (get_checks hs hi hg)))
  | double => exact .map Result.int (.map _ (gets (g := .double) (get_checks hs hi hg)))
  | string n => exact .map Result.bytes (gets (g := .string n) (getString_checks hs hi hg))
  | chars n => exact .map Result.bytes (gets (g := .chars n) (getChars_checks hs hi hg))

theorem setAt_checks (hs : k.Valid s) (hi : i32 i = i) {p : Put} (hp : (Accessor.set p).Valid) :
    Checks (k.charBuf.setAt p i s) s (k.Checked s i (.set p)) (k.Inside s i p.size) (k.Puts s i p) := by
  have hval : ∀ (t : CharBuf.Ty) (v : Int), i32 (t.encode v).length = (t.encode v).length := fun t v => by
    rw [t.length_encode]
    cases t <;> decide
  have h1 := fun t v => setValue_checks (m := k.Inside s i (t.encode v).length) hs hi (hval t v)
  simp only [CharBuf.Ty.length_encode] at h1
  cases p with
  | typed t v => exact (h1 t v).imp (fun _ h => h) fun _ _ _ _ h => ⟨_, rfl, h⟩
  | bool v => exact (h1 .char (if v then 1 else 0)).imp (fun _ h => h) fun _ _ _ _ h => ⟨_, rfl, h⟩
  | float v => exact (h1 .int v).imp (fun _ h => h) fun _ _ _ _ h => ⟨_, rfl, h⟩
  | double v => exact (h1 .long v).imp (fun _ h => h) fun _ _ _ _ h => ⟨_, rfl, h⟩
  | string v =>
    have h := setChars_checks (m := k.Inside s i v.length) hs hi (i32_eq (i32_range _).1 (i32_range _).2)
      (show i32 v.length ≤ v.length by unfold i32; omega)
    refine h.imp (fun _ h => h) fun _ _ _ hm h => ⟨v, ?_⟩
    -- what is there has no more bytes than an `int` can say
    have hv : (v.length : Int) ≤ intMax := by
      have := k.base.store.capacity_le hs.live
      have := hm.1
      have hw : k.idx i s + v.length ≤ k.base.charBuf.capacity (k.unwrap s) := hm.2.2
      omega
    unfold intMax at hv
    rw [i32_eq (by omega) hv, Int.toNat_natCast, List.take_length] at h
    exact ⟨⟨rfl, hv⟩, h⟩
  | chars src n =>
    refine (setChars_checks (m := k.Inside s i n) hs hi hp.1 hp.2).imp (fun _ h => h) fun _ _ _ hm h => ?_
    exact ⟨_, ⟨hm.2.1, hp.2, rfl⟩, h⟩
  | buf => exact hp.elim

/-- An accessor is right for a range, in order or not, exactly where what it checks is that the range is
in the buffer it is called on, and nothing of the range is outside the buffer that has the bytes. -/
theorem accessor_answers_iff {a : Accessor} (hs : k.Valid s) (hi : i32 i = i) (ha : a.Valid) :
    k.Answers s i a ↔ k.Guards s i a := by
  cases a with
  | get g => exact (getAt_checks hs hi ha).answers_iff
  | set p => exact (setAt_checks hs hi ha).answers_iff
  | setFrom o j n => exact (setCharsFrom_checks hs hi ha.2.1 ha.1 ha.2.2).answers_iff
  | setSelf j n => exact (setCharsSelf_checks hs hi ha.2 ha.1).answers_iff
  | slice n => exact (slice_checks hs hi ha).answers_iff
  | retainedSlice n => exact (retainedSlice_checks hs hi ha).answers_iff

theorem accessor_answers_get : let b := UnpooledHeapCharBuf.new 8 8
    (heap .unpooled).Answers b 9 (.get (.typed .int)) ↔ (heap .unpooled).Guards b 9 (.get (.typed .int)) :=
  accessor_answers_iff (k := .heap .unpooled) ⟨⟨by decide, by decide⟩, by decide, by decide⟩ (by decide) rfl

/-- Four bytes at 6 of a buffer of 8: `getFloat` does not throw. Nor does `slice(4, 100)`, and a slice of
two bytes gives a `float` of four, the last of which are not its own. -/
theorem accessor_unchecked :
    let b := UnpooledHeapCharBuf.new 8 8
    let x : Sliced UnpooledHeapCharBuf := ⟨b, Slice.new 0 2⟩
    ((heap .unpooled).Valid b ∧ (heap .unpooled).charBuf.getFloat 6 b = .ub ∧
        ¬(heap .unpooled).Answers b 6 (.get .float)) ∧
      ((heap .unpooled).slice 4 100 b = .ok (Slice.new 4 100) b ∧ ¬(heap .unpooled).Answers b 4 (.slice 100)) ∧
      (unpooledSliced .unpooled).Valid x ∧ (∃ v, (unpooledSliced .unpooled).charBuf.getAt .float 0 x = .ok v x) ∧
        ¬(unpooledSliced .unpooled).Answers x 0 (.get .float) := by
  intro b x
  have hx : (unpooledSliced .unpooled).Valid x := ⟨⟨by decide, by decide⟩, by decide, by decide⟩
  refine ⟨⟨⟨⟨by decide, by decide⟩, by decide, by decide⟩, rfl, fun h => ?_⟩, ⟨rfl, fun h => ?_⟩, hx, ?_, fun h => ?_⟩
  · have hn : ¬Within 6 4 8 := by decide
    obtain ⟨e, he⟩ := h.throw hn
    cases he
  · have hn : ¬Within 4 100 8 := by decide
    obtain ⟨e, he⟩ := h.throw hn
    cases he
  · have hw : Within 0 4 8 := by decide
    obtain ⟨v, x', e, -, rfl⟩ := (getAt_checks (g := .float) hx (i := 0) rfl rfl).ok hw hw
    exact ⟨v, e⟩
  · have hw : Within 0 4 8 := by decide
    have hn : ¬Within 0 4 2 := by decide
    exact hn (((getAt_checks (g := .float) hx (i := 0) rfl rfl).answers_iff.mp h).1.mp hw)

end Kind

end Nio.Buffer
