import NioSocket.Lib.Trans
import NioSocket.Pool.Holding

/-!
# The buffers of an arena

Buffers are allocated of an arena, written to, given other capacities and released, in any
order (`Buffers.Step`). In every state a run reaches, each live buffer holds a slot of its own
(`Held`), and what is given out of the arena is what the live buffers hold.
-/

namespace Nio.Pool

variable {l : Layout} {a a' : PoolArena} {t t' : Slot} {c : Nat} {n : Int} {b b' : PooledCharBuf} {r : Region}

/-- An arena, and the buffers that were allocated of it and are not released. -/
structure Buffers where
  arena : PoolArena
  buf : Nat → Option PooledCharBuf
  /-- The buffer that is allocated next. -/
  nextBuf : Nat

namespace Buffers

/-- A call on the arena, or on a buffer of it. -/
inductive Call
  | allocate (reqCapacity maxCapacity : Int)
  | capacity (id : Nat) (newCapacity : Int)
  | write (id index : Nat) (src : List UInt8)
  | release (id : Nat)
  deriving DecidableEq, Repr

/-- An arena that has given out nothing. -/
def init (l : Layout) : Buffers := ⟨l.arena, fun _ => none, 0⟩

/-- A call has worked on buffer `id`. -/
def set (s : Buffers) (id : Nat) (p : Pooled) : Buffers := ⟨p.arena, Function.update s.buf id (some p.buf), s.nextBuf⟩

/-- A buffer is made. -/
def add (s : Buffers) (a : PoolArena) (b : PooledCharBuf) : Buffers :=
  ⟨a, Function.update s.buf s.nextBuf (some b), s.nextBuf + 1⟩

/-- A buffer is gone. -/
def remove (s : Buffers) (id : Nat) (a : PoolArena) : Buffers := ⟨a, Function.update s.buf id none, s.nextBuf⟩

/-- A call that returns or throws. Writes are inside the buffer, and a buffer is released once. -/
inductive Step (s : Buffers) : Call → Buffers → Prop
  | allocate {req max : Int} {b : PooledCharBuf} {a' : PoolArena} : i32 req = req → i32 max = max →
      s.arena.allocateBuf req max = .ok b a' →
      Step s (.allocate req max) (s.add a' b)
  | capacity {id : Nat} {n : Int} {b : PooledCharBuf} {p : Pooled} : s.buf id = some b → i32 n = n →
      Pooled.setCapacity n ⟨s.arena, b⟩ = .ok () p → Step s (.capacity id n) (s.set id p)
  | refused {id : Nat} {n : Int} {b : PooledCharBuf} {what : String} {p : Pooled} : s.buf id = some b → i32 n = n →
      Pooled.setCapacity n ⟨s.arena, b⟩ = .throw what p → Step s (.capacity id n) (s.set id p)
  | write {id index : Nat} {src : List UInt8} {b : PooledCharBuf} {p : Pooled} : s.buf id = some b →
      (index + src.length : Nat) ≤ b.length_ → Pooled.poke index src ⟨s.arena, b⟩ = .ok () p →
      Step s (.write id index src) (s.set id p)
  | release {id : Nat} {b : PooledCharBuf} {p : Pooled} : s.buf id = some b →
      Pooled.release 1 ⟨s.arena, b⟩ = .ok () p →
      Step s (.release id) (s.remove id p.arena)

/-- The step, computed. -/
def next (s : Buffers) : Call → Option Buffers
  | .allocate req max =>
    if i32 req = req ∧ i32 max = max then
      match s.arena.allocateBuf req max with
      | .ok b a' => some (s.add a' b)
      | _ => none
    else none
  | .capacity id n =>
    (s.buf id).bind fun b =>
      if i32 n = n then
        match Pooled.setCapacity n ⟨s.arena, b⟩ with
        | .ok () p | .throw _ p => some (s.set id p)
        | _ => none
      else none
  | .write id index src =>
    (s.buf id).bind fun b =>
      if (index + src.length : Nat) ≤ b.length_ then
        match Pooled.poke index src ⟨s.arena, b⟩ with
        | .ok () p => some (s.set id p)
        | _ => none
      else none
  | .release id =>
    (s.buf id).bind fun b =>
      match Pooled.release 1 ⟨s.arena, b⟩ with
      | .ok () p => some (s.remove id p.arena)
      | _ => none

section

variable {s : Buffers} {id k : Nat} {p : Pooled}

theorem set_buf : (s.set id p).buf id = some p.buf := Function.update_self ..

theorem set_buf_of_ne (h : k ≠ id) : (s.set id p).buf k = s.buf k := Function.update_of_ne h ..

theorem of_set_buf (h : (s.set id p).buf k = some b) : k = id ∧ p.buf = b ∨ k ≠ id ∧ s.buf k = some b := by
  by_cases he : k = id
  · subst he
    rw [set_buf, Option.some_inj] at h
    exact .inl ⟨rfl, h⟩
  · rw [set_buf_of_ne he] at h
    exact .inr ⟨he, h⟩

theorem of_add_buf (h : (s.add a b').buf k = some b) : k = s.nextBuf ∧ b' = b ∨ k ≠ s.nextBuf ∧ s.buf k = some b := by
  have h : Function.update s.buf s.nextBuf (some b') k = some b := h
  by_cases he : k = s.nextBuf
  · rw [he, Function.update_self, Option.some_inj] at h
    exact .inl ⟨he, h⟩
  · rw [Function.update_of_ne he] at h
    exact .inr ⟨he, h⟩

theorem of_remove_buf (h : (s.remove id a).buf k = some b) : k ≠ id ∧ s.buf k = some b := by
  have h : Function.update s.buf id none k = some b := h
  by_cases he : k = id
  · rw [he, Function.update_self] at h
    cases h
  · rw [Function.update_of_ne he] at h
    exact ⟨he, h⟩

end

variable {s s' : Buffers} {e : Call} {es : List Call} {σ : Nat → Slot} {id id' : Nat}

theorem Step.of_next (h : s.next e = some s') : Step s e s' := by
  cases e with
  | allocate req max =>
    simp only [next] at h
    split at h
    · rename_i hi
      split at h
      · cases h
        exact .allocate hi.1 hi.2 ‹_›
      · cases h
    · cases h
  | capacity id n =>
    obtain ⟨b, hb, h⟩ := Option.bind_eq_some_iff.mp h
    split at h
    · split at h
      · cases h
        exact .capacity hb ‹_› ‹_›
      · cases h
        exact .refused hb ‹_› ‹_›
      · cases h
    · cases h
  | write id index src =>
    obtain ⟨b, hb, h⟩ := Option.bind_eq_some_iff.mp h
    split at h
    · split at h
      · cases h
        exact .write hb ‹_› ‹_›
      · cases h
    · cases h
  | release id =>
    obtain ⟨b, hb, h⟩ := Option.bind_eq_some_iff.mp h
    split at h
    · cases h
      exact .release hb ‹_›
    · cases h

theorem exists_run {P : Buffers → Prop} [DecidablePred P] (es : List Call)
    (h : ((es.foldlM next s).any fun s => P s) = true) : ∃ s', Run Step s es s' ∧ P s' :=
  Run.exists_of_next (fun _ _ _ => .of_next) es h

/-! ## Who holds what -/

/-- Buffer `id` holds slot `σ id`, and no other holds it unless there is nothing in it. -/
structure Held (l : Layout) (s : Buffers) (σ : Nat → Slot) : Prop where
  whole : s.arena.Whole l
  holds : ∀ id b, s.buf id = some b → b.Holds l s.arena (σ id)
  apart : ∀ id id' b b', s.buf id = some b → s.buf id' = some b' → id ≠ id' → σ id = σ id' → b.maxLength_ = 0
  covered : ∀ t e, s.arena.given l t = some e → e.length ≠ 0 → ∃ id b, s.buf id = some b ∧ σ id = t
  fresh : ∀ id, s.nextBuf ≤ id → s.buf id = none
  refCnt_ : ∀ id b, s.buf id = some b → b.refCnt_ = 1

theorem init_held (l : Layout) : Held l (init l) fun _ => .huge 0 where
  whole := l.arena_whole
  holds _ _ := nofun
  apart _ _ _ _ := nofun
  covered t e h := by
    cases t with
    | run c id =>
      obtain ⟨⟨hid, -⟩, -⟩ := PoolArena.given_run.mp h
      exact absurd hid (Finset.notMem_empty _)
    | elem c i j =>
      obtain ⟨s, hs, -⟩ := PoolArena.given_elem.mp h
      cases hs
    | huge c =>
      obtain ⟨ch, hch, -⟩ := PoolArena.given_huge.mp h
      cases hch
  fresh _ _ := rfl
  refCnt_ _ _ := nofun

namespace Held

variable (H : Held l s σ)
include H

theorem fresh_set (hb : s.buf id = some b) (p : Pooled) (k : Nat) (hk : s.nextBuf ≤ k) : (s.set id p).buf k = none := by
  rw [set_buf_of_ne, H.fresh k hk]
  rintro rfl
  rw [H.fresh k hk] at hb
  cases hb

theorem refCnt_set {p : Pooled} (h1 : p.buf.refCnt_ = 1) (k : Nat) (bk : PooledCharBuf)
    (hk : (s.set id p).buf k = some bk) : bk.refCnt_ = 1 := by
  rcases of_set_buf hk with ⟨-, rfl⟩ | ⟨-, hk⟩
  · exact h1
  · exact H.refCnt_ k bk hk

/-- A buffer keeps its slot. -/
theorem keep (hb : s.buf id = some b) (W : a'.Whole l) (hg : a'.given l = s.arena.given l) (hb' : b'.Holds l a' (σ id))
    (h1 : b'.refCnt_ = 1) : Held l (s.set id ⟨a', b'⟩) σ := by
  -- the buffer has the length of the slot, as before
  have old : ∀ {k bk}, (s.set id ⟨a', b'⟩).buf k = some bk → ∃ b₀, s.buf k = some b₀ ∧ b₀.maxLength_ = bk.maxLength_ :=
    fun {k bk} hk => by
      rcases of_set_buf hk with ⟨rfl, rfl⟩ | ⟨-, hk⟩
      · have hgiven := hb'.given
        rw [hg, (H.holds k b hb).given] at hgiven
        exact ⟨b, hb, (Extent.mk.inj (Option.some.inj hgiven)).2⟩
      · exact ⟨bk, hk, rfl⟩
  refine ⟨W, fun k bk hk => ?_, fun k k' bk bk' hk hk' hne hσ => ?_, fun t e ht he => ?_, H.fresh_set hb _, H.refCnt_set h1⟩
  · rcases of_set_buf hk with ⟨rfl, rfl⟩ | ⟨-, hk⟩
    · exact hb'
    · exact (H.holds k bk hk).of_given (congrFun hg _)
  · obtain ⟨b₀, h₀, hm⟩ := old hk
    obtain ⟨b₁, h₁, -⟩ := old hk'
    rw [← hm]
    exact H.apart k k' b₀ b₁ h₀ h₁ hne hσ
  · have ht : a'.given l t = some e := ht
    rw [hg] at ht
    obtain ⟨k, bk, hk, hσ⟩ := H.covered t e ht he
    by_cases hid : k = id
    · subst hid
      exact ⟨k, b', set_buf, hσ⟩
    · exact ⟨k, bk, by rw [set_buf_of_ne hid, hk], hσ⟩

/-- A slot that is given out once more has nothing in it. -/
theorem of_fresh {k : Nat} {bk : PooledCharBuf}
    (hf : s.arena.given l t' = none ∨ r.maxLength_ = 0 ∧ s.arena.given l t' = some ⟨r.offset_, r.maxLength_⟩)
    (hk : s.buf k = some bk) (he : σ k = t') :
    r.maxLength_ = 0 ∧ bk.maxLength_ = 0 ∧ s.arena.given l t' = some ⟨r.offset_, r.maxLength_⟩ := by
  have h := (H.holds k bk hk).given
  rw [he] at h
  rcases hf with hf | ⟨h0, hf⟩
  · rw [hf] at h
    cases h
  · rw [hf] at h
    exact ⟨h0, (Extent.mk.inj (Option.some.inj h)).2.symm.trans h0, hf⟩

theorem given_fresh {k : Nat} {bk : PooledCharBuf}
    (hf : s.arena.given l t' = none ∨ r.maxLength_ = 0 ∧ s.arena.given l t' = some ⟨r.offset_, r.maxLength_⟩)
    (hk : s.buf k = some bk) : Function.update (s.arena.given l) t' (some ⟨r.offset_, r.maxLength_⟩) (σ k) =
      s.arena.given l (σ k) := by
  by_cases he : σ k = t'
  · rw [he, Function.update_self, (H.of_fresh hf hk he).2.2]
  · rw [Function.update_of_ne he]

/-- A buffer gets another slot. -/
theorem move (hb : s.buf id = some b) (M : s.arena.Moved l a' b n (σ id) t' r) (hb' : b'.Holds l a' t')
    (hm : b'.maxLength_ = r.maxLength_) (h1 : b'.refCnt_ = 1) :
    Held l (s.set id ⟨a', b'⟩) (Function.update σ id t') := by
  have hkeep : ∀ k bk, k ≠ id → s.buf k = some bk → a'.given l (σ k) = s.arena.given l (σ k) := fun k bk hne hk => by
    rw [M.given]
    split
    · exact H.given_fresh M.fresh hk
    · rename_i hb0
      rw [Function.update_of_ne, H.given_fresh M.fresh hk]
      exact fun he => hb0 (H.apart id k b bk hb hk (Ne.symm hne) he.symm)
  refine ⟨M.whole, fun k bk hk => ?_, fun k k' bk bk' hk hk' hne hσ => ?_, fun t e ht he => ?_, H.fresh_set hb _,
    H.refCnt_set h1⟩
  · rcases of_set_buf hk with ⟨rfl, rfl⟩ | ⟨hne, hk⟩
    · rw [Function.update_self]
      exact hb'
    · rw [Function.update_of_ne hne]
      exact (H.holds k bk hk).of_given (hkeep k bk hne hk)
  · rcases of_set_buf hk with ⟨rfl, rfl⟩ | ⟨hid, h₀⟩
    · rw [Function.update_self, Function.update_of_ne (Ne.symm hne)] at hσ
      rw [set_buf_of_ne (Ne.symm hne)] at hk'
      exact hm.trans (H.of_fresh M.fresh hk' hσ.symm).1
    · rw [Function.update_of_ne hid] at hσ
      rcases of_set_buf hk' with ⟨rfl, rfl⟩ | ⟨hid', h₁⟩
      · rw [Function.update_self] at hσ
        exact (H.of_fresh M.fresh h₀ hσ).2.1
      · rw [Function.update_of_ne hid'] at hσ
        exact H.apart k k' bk bk' h₀ h₁ hne hσ
  · by_cases htt : t = t'
    · exact ⟨id, b', set_buf, by rw [htt, Function.update_self]⟩
    obtain ⟨hold, h0⟩ : s.arena.given l t = some e ∧ (t = σ id → b.maxLength_ = 0) := by
      have ht : a'.given l t = some e := ht
      rw [M.given] at ht
      split at ht
      · rw [Function.update_of_ne htt] at ht
        exact ⟨ht, fun _ => by assumption⟩
      · by_cases hti : t = σ id
        · rw [hti, Function.update_self] at ht
          cases ht
        · rw [Function.update_of_ne hti, Function.update_of_ne htt] at ht
          exact ⟨ht, fun h => absurd h hti⟩
    obtain ⟨k, bk, hk, hσ⟩ := H.covered t e hold he
    have hid : k ≠ id := by
      rintro rfl
      rw [← hσ, (H.holds k b hb).given] at hold
      exact he ((Extent.mk.inj (Option.some.inj hold)).2.symm.trans (h0 hσ.symm))
    exact ⟨k, bk, by rw [set_buf_of_ne hid, hk], by rw [Function.update_of_ne hid, hσ]⟩

/-- A buffer is released. -/
theorem drop (hb : s.buf id = some b) (F : s.arena.Freed l a' (σ id) ⟨b.offset_, b.maxLength_⟩) :
    Held l (s.remove id a') σ := by
  refine ⟨F.whole, fun k bk hk => ?_, fun k k' bk bk' hk hk' => ?_, fun t e ht he => ?_, fun k hk => ?_, fun k bk hk => ?_⟩
  · obtain ⟨hne, hk⟩ := of_remove_buf hk
    refine (H.holds k bk hk).of_given ?_
    rw [show (s.remove id a').arena = a' from rfl, F.given]
    split
    · rfl
    · rename_i h0
      rw [Function.update_of_ne]
      exact fun he => h0 (H.apart id k b bk hb hk (Ne.symm hne) he.symm)
  · exact H.apart k k' bk bk' (of_remove_buf hk).2 (of_remove_buf hk').2
  · have ht : a'.given l t = some e := ht
    have hold : s.arena.given l t = some e ∧ (t = σ id → b.maxLength_ = 0) := by
      rw [F.given] at ht
      split at ht
      · exact ⟨ht, fun _ => by assumption⟩
      · by_cases hti : t = σ id
        · rw [hti, Function.update_self] at ht
          cases ht
        · rw [Function.update_of_ne hti] at ht
          exact ⟨ht, fun h => absurd h hti⟩
    obtain ⟨hold, h0⟩ := hold
    obtain ⟨k, bk, hk, hσ⟩ := H.covered t e hold he
    refine ⟨k, bk, ?_, hσ⟩
    show Function.update s.buf id none k = _
    rw [Function.update_of_ne, hk]
    rintro rfl
    rw [← hσ, (H.holds k b hb).given] at hold
    exact he ((Extent.mk.inj (Option.some.inj hold)).2.symm.trans (h0 hσ.symm))
  · show Function.update s.buf id none k = none
    by_cases he : k = id
    · rw [he, Function.update_self]
    · rw [Function.update_of_ne he, H.fresh k hk]
  · exact H.refCnt_ k bk (of_remove_buf hk).2

/-- A new buffer gets a slot. -/
theorem add {req : Int} (S : Served l s.arena a' req n t' r) (L : a'.Listed) (hb : b.Holds l a' t')
    (hm : b.maxLength_ = r.maxLength_) (h1 : b.refCnt_ = 1) :
    Held l (s.add a' b) (Function.update σ s.nextBuf t') := by
  refine ⟨⟨S.sound, L⟩, fun k bk hk => ?_, fun k k' bk bk' hk hk' hne hσ => ?_, fun t e ht he => ?_, fun k hk => ?_,
    fun k bk hk => ?_⟩
  · rcases of_add_buf hk with ⟨rfl, rfl⟩ | ⟨hne, hk⟩
    · rw [Function.update_self]
      exact hb
    · rw [Function.update_of_ne hne]
      refine (H.holds k bk hk).of_given ?_
      rw [show (s.add a' b).arena = a' from rfl, S.given, H.given_fresh S.fresh hk]
  · rcases of_add_buf hk with ⟨rfl, rfl⟩ | ⟨hid, hk⟩
    · rcases of_add_buf hk' with ⟨rfl, -⟩ | ⟨hid', hk'⟩
      · exact absurd rfl hne
      · rw [Function.update_self, Function.update_of_ne hid'] at hσ
        exact hm.trans (H.of_fresh S.fresh hk' hσ.symm).1
    · rw [Function.update_of_ne hid] at hσ
      rcases of_add_buf hk' with ⟨rfl, -⟩ | ⟨hid', hk'⟩
      · rw [Function.update_self] at hσ
        exact (H.of_fresh S.fresh hk hσ).2.1
      · rw [Function.update_of_ne hid'] at hσ
        exact H.apart k k' bk bk' hk hk' hne hσ
  · by_cases htt : t = t'
    · exact ⟨s.nextBuf, b, Function.update_self .., by rw [htt, Function.update_self]⟩
    have ht : a'.given l t = some e := ht
    rw [S.given, Function.update_of_ne htt] at ht
    obtain ⟨k, bk, hk, hσ⟩ := H.covered t e ht he
    have hid : k ≠ s.nextBuf := by
      rintro rfl
      rw [H.fresh _ (Nat.le_refl _)] at hk
      cases hk
    exact ⟨k, bk, (Function.update_of_ne hid ..).trans hk, by rw [Function.update_of_ne hid, hσ]⟩
  · have hk : s.nextBuf + 1 ≤ k := hk
    exact (Function.update_of_ne (by omega) ..).trans (H.fresh k (by omega))
  · rcases of_add_buf hk with ⟨-, rfl⟩ | ⟨-, hk⟩
    · exact h1
    · exact H.refCnt_ k bk hk

end Held

/-- Each call keeps the buffers apart. -/
theorem Step.held (H : Held l s σ) (st : Step s e s') : ∃ σ', Held l s' σ' := by
  cases st with
  | @allocate req max b a' hi _ ea =>
    have hm : req ≠ intMin := by
      rintro rfl
      rw [PoolArena.allocateBuf, Method.bind_apply, PoolArena.allocate_intMin H.whole] at ea
      cases ea
    obtain ⟨r, t, a₁, e₁, hS, hL, -⟩ := PoolArena.allocate_ok H.whole hi hm
    rw [PoolArena.allocateBuf, Method.bind_apply, e₁] at ea
    obtain ⟨rfl, rfl⟩ := Outcome.ok.inj ea
    have hN := H.whole.laid.normalizeCapacity hi hm
    exact ⟨_, H.add hS hL (hS.holds (hN.int hi) _) rfl rfl⟩
  | @capacity id n b p hb hi ec =>
    have hH := H.holds id b hb
    rcases Pooled.setCapacity_cases H.whole hH hi with ⟨-, e⟩ | ⟨-, -, what, e⟩ | ⟨-, -, ⟨hle, e⟩ | ⟨-, r, t', a', e, M⟩ |
      ⟨-, e⟩⟩
    · obtain ⟨-, rfl⟩ := Outcome.ok.inj (e.symm.trans ec)
      exact ⟨σ, H.keep hb H.whole rfl hH (H.refCnt_ id b hb)⟩
    · cases e.symm.trans ec
    · obtain ⟨-, rfl⟩ := Outcome.ok.inj (e.symm.trans ec)
      obtain ⟨i, e⟩ := (b.withLength n).settle_eq b.length_ n
      rw [e]
      exact ⟨σ, H.keep hb H.whole rfl { hH with length_ := hle } (H.refCnt_ id b hb)⟩
    · obtain ⟨-, rfl⟩ := Outcome.ok.inj (e.symm.trans ec)
      obtain ⟨i, e⟩ := (b.init0 r).settle_eq b.length_ n
      rw [e]
      exact ⟨_, H.move hb M { M.holds hH b with } rfl (H.refCnt_ id b hb)⟩
    · cases e.symm.trans ec
  | @refused id n b what p hb hi ec =>
    have hH := H.holds id b hb
    rcases Pooled.setCapacity_cases H.whole hH hi with ⟨-, e⟩ | ⟨-, -, what, e⟩ | ⟨-, -, ⟨-, e⟩ | ⟨-, r, t', a', e, -⟩ |
      ⟨-, e⟩⟩
    · cases e.symm.trans ec
    · obtain ⟨-, rfl⟩ := Outcome.throw.inj (e.symm.trans ec)
      exact ⟨σ, H.keep hb H.whole rfl hH (H.refCnt_ id b hb)⟩
    · cases e.symm.trans ec
    · cases e.symm.trans ec
    · cases e.symm.trans ec
  | @write id index src b p hb hle ep =>
    have hH := H.holds id b hb
    have hlen := hH.length_
    obtain ⟨ch, hch, e⟩ := Pooled.poke_ok H.whole hH (show index + src.length ≤ b.maxLength_ by omega)
    obtain ⟨-, rfl⟩ := Outcome.ok.inj (e.symm.trans ep)
    have R := PoolArena.Rewritten.setChunk hch (ch.memory.write (b.offset_ + index) src)
    exact ⟨σ, H.keep hb (R.whole H.whole) R.given (hH.of_given (congrFun R.given _)) (H.refCnt_ id b hb)⟩
  | @release id b p hb er =>
    obtain ⟨a', b', e, F⟩ := Pooled.release_one H.whole (H.holds id b hb) (H.refCnt_ id b hb)
    obtain ⟨-, rfl⟩ := Outcome.ok.inj (e.symm.trans er)
    exact ⟨σ, H.drop hb F⟩

theorem run_held (h : Run Step (init l) es s) : ∃ σ, Held l s σ :=
  h.inv (P := fun s => ∃ σ, Held l s σ) ⟨_, init_held l⟩ fun _ _ _ ⟨_, H⟩ => Step.held H

end Buffers

end Nio.Pool
