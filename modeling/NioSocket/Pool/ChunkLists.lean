import NioSocket.Pool.SizeClass
import NioSocket.Pool.Usage
import NioSocket.Lib.Links

/-!
# The chunk lists of an arena

Each pooled chunk is in one of the six lists, the one that is its `parent` and whose
range its usage is in (`Listed`). A chunk whose usage has gone up is moved up, one whose
usage has gone down is moved down or is to be destroyed: the recursions of `add` and
`move` end, and what they assert holds.
-/

namespace Nio.Pool

variable {l : Layout} {a a' a'' : PoolArena} {ch ch' : PoolChunk} {c n : Nat} {m : Nat → Option ListName}
  {x y : ListName}

/-! ## Links -/

namespace PoolArena

/-- The chunk lists as lists of links. -/
def nextChunkOf (a : PoolArena) (c : Nat) : Option Nat := (a.chunk c).bind (·.next)

/-- `chunk->prev`. -/
def prevChunkOf (a : PoolArena) (c : Nat) : Option Nat := (a.chunk c).bind (·.prev)

/-- `head_` of a list. -/
def headChunk (a : PoolArena) (x : ListName) : Option Nat := (a.list x).head_

@[simp] theorem chunk_setChunk : (a.setChunk c ch).chunk c = some ch := Function.update_self ..

theorem chunk_setChunk_of_ne (h : n ≠ c) : (a.setChunk c ch).chunk n = a.chunk n := Function.update_of_ne h ..

theorem setChunk_self (h : a.chunk c = some ch) : a.setChunk c ch = a := by
  rw [setChunk, ← h, Function.update_eq_self]

@[simp] theorem setChunk_setChunk : (a.setChunk c ch).setChunk c ch' = a.setChunk c ch' := by
  simp [setChunk]

theorem chunkAt_ok (h : a.chunk c = some ch) : chunkAt c a = .ok ch a := by
  rw [chunkAt, h]

end PoolArena

/-- The chunk but for its place in the lists. -/
def PoolChunk.unlinked (ch : PoolChunk) : PoolChunk := { ch with parent := none, prev := none, next := none }

namespace PoolArena

/-- From `a` to `a'`, only the chunk lists change. -/
structure Relinked (a a' : PoolArena) : Prop where
  chunk : ∀ c, (a'.chunk c).map PoolChunk.unlinked = (a.chunk c).map PoolChunk.unlinked
  list : ∀ x, { a'.list x with head_ := none } = { a.list x with head_ := none }
  rest : a' = { a with chunk := a'.chunk, list := a'.list }

namespace Relinked

theorem refl (a : PoolArena) : a.Relinked a := ⟨fun _ => rfl, fun _ => rfl, rfl⟩

theorem trans (h : a.Relinked a') (h' : a'.Relinked a'') : a.Relinked a'' where
  chunk c := (h'.chunk c).trans (h.chunk c)
  list x := (h'.list x).trans (h.list x)
  rest := by rw [h'.rest, h.rest]

theorem exists_chunk (h : a.Relinked a') (hc : a.chunk c = some ch) :
    ∃ ch', a'.chunk c = some ch' ∧ ch'.unlinked = ch.unlinked := by
  have := h.chunk c
  rw [hc, Option.map_some, Option.map_eq_some_iff] at this
  exact this

theorem setChunk (hc : a.chunk c = some ch) (hu : ch'.unlinked = ch.unlinked) : a.Relinked (a.setChunk c ch') where
  chunk n := by
    by_cases hn : n = c
    · subst hn
      simp [hc, hu]
    · rw [chunk_setChunk_of_ne hn]
  list _ := rfl
  rest := rfl

theorem laid (h : a.Relinked a') (H : a.Laid l) : a'.Laid l := by
  have hr := h.rest
  refine ⟨?_, ?_, ?_, ?_, ?_, fun x => ?_⟩
  · rw [hr]; exact H.maxOrder_
  · rw [hr]; exact H.pageSize_
  · rw [hr]; exact H.pageShifts_
  · rw [hr]; exact H.chunkSize_
  · rw [hr]; exact H.numSmallSubpagePools_
  · have h1 := h.list x
    rw [H.list x] at h1
    exact congrArg (fun q : PoolChunkList => { q with head_ := (a'.list x).head_ }) h1

end Relinked

/-- `chunk->parent`. -/
def parentOf (a : PoolArena) (c : Nat) : Option ListName := (a.chunk c).bind (·.parent)

/-- From `a` to `a'`, only the chunk lists change, and these are the links after it. -/
structure Edited (a a' : PoolArena) (next prev : Nat → Option Nat) (head : ListName → Option Nat)
    (parent : Nat → Option ListName) : Prop where
  relinked : a.Relinked a'
  next : a'.nextChunkOf = next
  prev : a'.prevChunkOf = prev
  head : a'.headChunk = head
  parent : a'.parentOf = parent

theorem bind_setChunk {α : Type} (f : PoolChunk → Option α) :
    (fun n => ((a.setChunk c ch).chunk n).bind f) = Function.update (fun n => (a.chunk n).bind f) c (f ch) := by
  funext n
  by_cases hn : n = c
  · subst hn
    simp
  · rw [chunk_setChunk_of_ne hn, Function.update_of_ne hn]

theorem Edited.setChunk (ch' : PoolChunk) (hc : a.chunk c = some ch) (hu : ch'.unlinked = ch.unlinked) :
    a.Edited (a.setChunk c ch') (Function.update a.nextChunkOf c ch'.next) (Function.update a.prevChunkOf c ch'.prev)
      a.headChunk (Function.update a.parentOf c ch'.parent) :=
  ⟨.setChunk hc hu, bind_setChunk _, bind_setChunk _, rfl, bind_setChunk _⟩

end PoolArena


namespace PoolChunkList

open PoolArena

/-! ## The edits -/

theorem setFields_ok (hc : a.chunk c = some ch) (f : PoolChunk → PoolChunk) :
    setFields (some c) f a = .ok () (a.setChunk c (f ch)) := by
  rw [setFields, hc]

theorem setHead_ok (x : ListName) (v : Option Nat) : ∃ a', setHead x v a = .ok () a' ∧
    a.Edited a' a.nextChunkOf a.prevChunkOf (Function.update a.headChunk x v) a.parentOf ∧ a'.chunk = a.chunk := by
  refine ⟨_, rfl, ⟨⟨fun _ => rfl, fun y => ?_, rfl⟩, rfl, rfl, ?_, rfl⟩, rfl⟩
  · by_cases hy : y = x
    · subst hy
      simp
    · simp [hy]
  · funext y
    by_cases hy : y = x
    · subst hy
      simp [headChunk]
    · simp [headChunk, hy]

/-- `if (next) next->prev = v`. -/
theorem setPrev_ok {next : Option Nat} (hc : ∀ h, next = some h → a.chunk h ≠ none) (v : Option Nat) :
    ∃ a', (if next ≠ none then setFields next fun c => { c with prev := v } else pure ()) a = .ok () a' ∧
      a.Edited a' a.nextChunkOf (fun y => if next = some y then v else a.prevChunkOf y) a.headChunk a.parentOf := by
  cases next with
  | none => exact ⟨a, rfl, .refl a, rfl, by simp, rfl, rfl⟩
  | some h =>
    obtain ⟨ch, hch⟩ := Option.ne_none_iff_exists'.mp (hc h rfl)
    have key := Edited.setChunk { ch with prev := v } hch rfl
    refine ⟨_, ?_, key.relinked, ?_, ?_, rfl, ?_⟩
    · rw [if_pos (by simp)]
      exact setFields_ok hch _
    · rw [key.next, Function.update_eq_self_iff, nextChunkOf, hch]
      rfl
    · rw [key.prev]
      funext y
      by_cases hy : y = h
      · subst hy
        simp
      · simp [hy, Ne.symm hy]
    · rw [key.parent, Function.update_eq_self_iff, parentOf, hch]
      rfl

/-- What `remove` leaves of the lists. -/
theorem remove_ok (L : Lists a.nextChunkOf a.prevChunkOf a.headChunk m) (hex : ∀ c, m c ≠ none → a.chunk c ≠ none)
    (hm : m c = some x) : ∃ a', remove x c a = .ok () a' ∧ a.Relinked a' ∧
      Lists a'.nextChunkOf a'.prevChunkOf a'.headChunk (Function.update m c none) ∧ a'.parentOf = a.parentOf := by
  obtain ⟨ch, hch⟩ := Option.ne_none_iff_exists'.mp (hex c (by simp [hm]))
  have hnext : a.nextChunkOf c = ch.next := by rw [nextChunkOf, hch]; rfl
  have hprev : a.prevChunkOf c = ch.prev := by rw [prevChunkOf, hch]; rfl
  have hn : ∀ h, ch.next = some h → a.chunk h ≠ none := fun h hh =>
    hex h (by simp [L.next_of hm (hnext.trans hh)])
  have hhead : ∀ j, a.headChunk j = some c → j = x := fun j hj =>
    Option.some_inj.mp ((L.head_of hj).symm.trans hm)
  simp only [remove, Method.bind_apply, chunkAt_ok hch, Outcome.bind_ok, Method.get_apply]
  rcases L.prev_of hm with ⟨hh, hp⟩ | ⟨hh, y, hp, hy⟩
  · -- the first of its list
    obtain ⟨a₁, e₁, E₁, hc₁⟩ := setHead_ok (a := a) x ch.next
    obtain ⟨a₂, e₂, E₂⟩ := setPrev_ok (a := a₁) (fun h hh => hc₁ ▸ hn h hh) none
    refine ⟨a₂, ?_, E₁.relinked.trans E₂.relinked, ?_, E₂.parent.trans E₁.parent⟩
    · rw [if_pos (show some c = (a.list x).head_ from hh.symm), Method.bind_apply, e₁, Outcome.bind_ok]
      exact e₂
    · refine L.remove hm (fun z _ => ?_) (fun z _ => ?_) fun j => ?_
      · rw [E₂.next, E₁.next, hp, if_neg (by simp)]
      · rw [E₂.prev, E₁.prev, hnext, hp]
      · rw [E₂.head, E₁.head, hnext]
        by_cases hj : j = x
        · subst hj
          rw [Function.update_self, if_pos hh]
        · rw [Function.update_of_ne hj, if_neg fun h => hj (hhead j h)]
  · obtain ⟨chy, hchy⟩ := Option.ne_none_iff_exists'.mp (hex y (by simp [hy]))
    have E₁ := Edited.setChunk { chy with next := ch.next } hchy rfl
    have hn₁ : ∀ h, ch.next = some h → (a.setChunk y { chy with next := ch.next }).chunk h ≠ none := fun h hh => by
      by_cases he : h = y
      · subst he
        simp
      · rw [chunk_setChunk_of_ne he]
        exact hn h hh
    obtain ⟨a₂, e₂, E₂⟩ := setPrev_ok hn₁ ch.prev
    refine ⟨a₂, ?_, E₁.relinked.trans E₂.relinked, ?_, ?_⟩
    · rw [if_neg (fun h => hh h.symm), Method.bind_apply, hprev.symm.trans hp, setFields_ok hchy, Outcome.bind_ok]
      rw [hprev.symm.trans hp] at e₂
      exact e₂
    · refine L.remove hm (fun z _ => ?_) (fun z _ => ?_) fun j => ?_
      · rw [E₂.next, E₁.next, hp, hnext]
        by_cases hz : z = y
        · subst hz
          simp
        · rw [Function.update_of_ne hz, if_neg (by simpa using Ne.symm hz)]
      · rw [E₂.prev, E₁.prev, hnext, hprev]
        have : Function.update a.prevChunkOf y chy.prev = a.prevChunkOf := by
          rw [Function.update_eq_self_iff, prevChunkOf, hchy]
          rfl
        rw [this]
      · rw [E₂.head, E₁.head, if_neg]
        intro hj
        exact hh (hhead j hj ▸ hj)
    · rw [E₂.parent, E₁.parent, Function.update_eq_self_iff, parentOf, hchy]
      rfl

/-- `add0` makes a chunk that is in no list the first of one. -/
theorem add0_ok (L : Lists a.nextChunkOf a.prevChunkOf a.headChunk m) (hex : ∀ c, m c ≠ none → a.chunk c ≠ none)
    (hch : a.chunk c = some ch) (hm : m c = none) (x : ListName) : ∃ a', add0 x c a = .ok () a' ∧ a.Relinked a' ∧
      Lists a'.nextChunkOf a'.prevChunkOf a'.headChunk (Function.update m c (some x)) ∧
      a'.parentOf = Function.update a.parentOf c (some x) := by
  have E₁ := Edited.setChunk { ch with parent := some x } hch rfl
  have hnext : Function.update a.nextChunkOf c ch.next = a.nextChunkOf := by
    rw [Function.update_eq_self_iff, nextChunkOf, hch]
    rfl
  have hprev : Function.update a.prevChunkOf c ch.prev = a.prevChunkOf := by
    rw [Function.update_eq_self_iff, prevChunkOf, hch]
    rfl
  simp only [add0, Method.bind_apply, setFields_ok hch, Outcome.bind_ok, Method.get_apply]
  cases hh : a.headChunk x with
  | none =>
    obtain ⟨a₂, e₂, E₂, hc₂⟩ := setHead_ok (a := a.setChunk c { ch with parent := some x }) x (some c)
    have hch₂ : a₂.chunk c = some { ch with parent := some x } := by rw [hc₂, chunk_setChunk]
    have E₃ := Edited.setChunk { ch with parent := some x, prev := none, next := none } hch₂ rfl
    refine ⟨_, ?_, (E₁.relinked.trans E₂.relinked).trans E₃.relinked, ?_, ?_⟩
    · rw [show ((a.setChunk c { ch with parent := some x }).list x).head_ = none from hh]
      simp only [Method.bind_apply, e₂, Outcome.bind_ok]
      exact setFields_ok hch₂ _
    · rw [E₃.head, E₂.head, E₁.head]
      refine L.push hm x (fun y => ?_) fun y => ?_
      · rw [E₃.next, E₂.next, E₁.next, hnext, hh, Function.update_apply]
      · rw [E₃.prev, E₂.prev, E₁.prev, hprev, hh, Function.update_apply]
        simp
    · rw [E₃.parent, E₂.parent, E₁.parent, Function.update_idem]
  | some h =>
    have hmh := L.head_of hh
    have hhc : h ≠ c := by
      rintro rfl
      rw [hm] at hmh
      cases hmh
    obtain ⟨chh, hchh⟩ := Option.ne_none_iff_exists'.mp (hex h (by simp [hmh]))
    have hch₁ : (a.setChunk c { ch with parent := some x }).chunk c = some { ch with parent := some x } := chunk_setChunk
    have E₂ := Edited.setChunk { ch with parent := some x, prev := none, next := some h } hch₁ rfl
    have hchh₂ : ((a.setChunk c { ch with parent := some x }).setChunk c
        { ch with parent := some x, prev := none, next := some h }).chunk h = some chh := by
      rw [chunk_setChunk_of_ne hhc, chunk_setChunk_of_ne hhc, hchh]
    have E₃ := Edited.setChunk { chh with prev := some c } hchh₂ rfl
    obtain ⟨a₄, e₄, E₄, -⟩ := setHead_ok (a := ((a.setChunk c { ch with parent := some x }).setChunk c
        { ch with parent := some x, prev := none, next := some h }).setChunk h { chh with prev := some c }) x (some c)
    refine ⟨a₄, ?_, ((E₁.relinked.trans E₂.relinked).trans E₃.relinked).trans E₄.relinked, ?_, ?_⟩
    · rw [show ((a.setChunk c { ch with parent := some x }).list x).head_ = some h from hh]
      simp only [Method.bind_apply, setFields_ok hch₁, Outcome.bind_ok, setFields_ok hchh₂]
      exact e₄
    · rw [E₄.head, E₃.head, E₂.head, E₁.head]
      refine L.push hm x (fun y => ?_) fun y => ?_
      · have he : a.nextChunkOf h = chh.next := by rw [nextChunkOf, hchh]; rfl
        rw [E₄.next, E₃.next, E₂.next, E₁.next, hnext, hh]
        simp only [Function.update_apply]
        by_cases hy : y = h
        · subst hy
          rw [if_pos rfl, if_neg hhc, he]
        · rw [if_neg hy]
      · rw [E₄.prev, E₃.prev, E₂.prev, E₁.prev, hprev, hh]
        simp only [Function.update_apply, Option.some_inj]
        by_cases hy : y = h
        · subst hy
          rw [if_pos rfl, if_neg hhc, if_pos rfl]
        · rw [if_neg hy, if_neg (Ne.symm hy)]
    · have he : a.parentOf h = chh.parent := by rw [parentOf, hchh]; rfl
      rw [E₄.parent, E₃.parent, E₂.parent, E₁.parent, Function.update_idem, Function.update_eq_self_iff,
        Function.update_of_ne hhc, he]

/-! ## Moving up and down -/

/-- How many lists there are from one on upwards. -/
def up : ListName → Nat
  | .q100 => 1 | .q075 => 2 | .q050 => 3 | .q025 => 4 | .q000 => 5 | .qInit => 6

/-- How many lists there are from one on downwards. -/
def down : ListName → Nat
  | .qInit => 1 | .q000 => 1 | .q025 => 2 | .q050 => 3 | .q075 => 4 | .q100 => 5

theorem up_le (x : ListName) : up x ≤ numLists := by
  cases x <;> decide

theorem down_le (x : ListName) : down x ≤ numLists := by
  cases x <;> decide

/-- A list that is left upwards has one above it, which takes what leaves it. -/
theorem newList_next (n : Nat) {x : ListName} {u : Int} (hu : u ≤ 100) (h : (newList n x).maxUsage_ ≤ u) :
    ∃ y, (newList n x).nextList_ = some y ∧ up x = up y + 1 ∧ (newList n y).minUsage_ ≤ u := by
  cases x with
  | q100 =>
    have h : (2147483647 : Int) ≤ u := h
    omega
  | q075 => exact ⟨.q100, rfl, rfl, h⟩
  | q050 => exact ⟨.q075, rfl, rfl, Int.le_trans (show (75 : Int) ≤ 100 by decide) h⟩
  | q025 => exact ⟨.q050, rfl, rfl, Int.le_trans (show (50 : Int) ≤ 75 by decide) h⟩
  | q000 => exact ⟨.q025, rfl, rfl, Int.le_trans (show (25 : Int) ≤ 50 by decide) h⟩
  | qInit => exact ⟨.q000, rfl, rfl, Int.le_trans (show (1 : Int) ≤ 25 by decide) h⟩

/-- A list that is left downwards has one below it that has room for what leaves it, or what
leaves it is not used at all. -/
theorem newList_prev (n : Nat) {x : ListName} {u : Int} (hu : 0 ≤ u) (h : u < (newList n x).minUsage_) :
    ((newList n x).prevList_ = none ∧ u = 0) ∨
      ∃ y, (newList n x).prevList_ = some y ∧ down x = down y + 1 ∧ u < (newList n y).maxUsage_ := by
  cases x with
  | qInit =>
    have h : u < -2147483648 := h
    omega
  | q000 =>
    have h : u < 1 := h
    exact .inl ⟨rfl, by omega⟩
  | q025 => exact .inr ⟨.q000, rfl, rfl, Int.lt_of_lt_of_le h (show (25 : Int) ≤ 50 by decide)⟩
  | q050 => exact .inr ⟨.q025, rfl, rfl, Int.lt_of_lt_of_le h (show (50 : Int) ≤ 75 by decide)⟩
  | q075 => exact .inr ⟨.q050, rfl, rfl, Int.lt_of_lt_of_le h (show (75 : Int) ≤ 100 by decide)⟩
  | q100 => exact .inr ⟨.q075, rfl, rfl, Int.lt_of_lt_of_le h (show (100 : Int) ≤ 100 by decide)⟩

/-- The usage is in the range of the list. -/
def Fits (q : PoolChunkList) (usage : Int) : Prop := q.minUsage_ ≤ usage ∧ usage < q.maxUsage_

/-- Chunk `c`, which was in no list, is in list `y`. -/
structure Placed (a : PoolArena) (m : Nat → Option ListName) (c : Nat) (y : ListName) (a' : PoolArena) : Prop where
  relinked : a.Relinked a'
  lists : Lists a'.nextChunkOf a'.prevChunkOf a'.headChunk (Function.update m c (some y))
  parent : a'.parentOf = Function.update a.parentOf c (some y)

section

variable (H : a.Laid l) (L : Lists a.nextChunkOf a.prevChunkOf a.headChunk m)
  (hex : ∀ c, m c ≠ none → a.chunk c ≠ none) (hch : a.chunk c = some ch) (hm : m c = none)
include H L hex hch hm

/-- `add` goes up to the list that the usage fits. -/
theorem add_ok (hu : ch.usage ≤ 100) {fuel : Nat} (hf : up x ≤ fuel) (hmin : (a.list x).minUsage_ ≤ ch.usage) :
    ∃ a' y, add fuel (some x) c a = .ok () a' ∧ Placed a m c y a' ∧ (a.list y).Fits ch.usage := by
  induction fuel generalizing x with
  | zero => cases x <;> simp [up] at hf
  | succ fuel ih =>
    simp only [add, Method.bind_apply, Method.get_apply, Outcome.bind_ok, chunkAt_ok hch]
    split
    case isTrue hge =>
      rw [H.list x] at hge
      obtain ⟨y, hy, hup, hmin'⟩ := newList_next l.chunkSize hu hge
      have hnext : (a.list x).nextList_ = some y := by rw [H.list x, hy]
      rw [hnext]
      refine ih (by omega) ?_
      rw [H.list y]
      exact hmin'
    case isFalse hlt =>
      obtain ⟨a', e, hr, hl, hp⟩ := add0_ok L hex hch hm x
      exact ⟨a', x, e, ⟨hr, hl, hp⟩, hmin, by omega⟩

/-- `move` goes down to the list that the usage fits, or there is none. -/
theorem move_ok (hu : 0 ≤ ch.usage) {fuel : Nat} (hf : down x ≤ fuel) (hmax : ch.usage < (a.list x).maxUsage_) :
    (∃ a' y, move fuel x c a = .ok true a' ∧ Placed a m c y a' ∧ (a.list y).Fits ch.usage) ∨
      (move fuel x c a = .ok false a ∧ ch.usage = 0) := by
  induction fuel generalizing x with
  | zero => cases x <;> simp [down] at hf
  | succ fuel ih =>
    simp only [move, Method.bind_apply, Method.get_apply, Outcome.bind_ok, chunkAt_ok hch, assert_ok hmax]
    split
    case isTrue hlt =>
      rw [H.list x] at hlt
      simp only [move0, Method.bind_apply, Method.get_apply, Outcome.bind_ok]
      rcases newList_prev l.chunkSize hu hlt with ⟨hp, h0⟩ | ⟨y, hy, hdown, hmax'⟩
      · have hprev : (a.list x).prevList_ = none := by rw [H.list x, hp]
        simp only [hprev, Method.bind_apply, chunkAt_ok hch, Outcome.bind_ok, assert_ok h0]
        exact .inr ⟨rfl, h0⟩
      · have hprev : (a.list x).prevList_ = some y := by rw [H.list x, hy]
        rw [hprev]
        refine ih (by omega) ?_
        rw [H.list y]
        exact hmax'
    case isFalse hge =>
      obtain ⟨a', e, hr, hl, hp⟩ := add0_ok L hex hch hm x
      refine .inl ⟨a', x, ?_, ⟨hr, hl, hp⟩, by omega, hmax⟩
      rw [Method.bind_apply, e]
      rfl

end

end PoolChunkList

/-! ## Every chunk in its list -/

namespace PoolArena

/-- The list a pooled chunk is in: its parent. -/
def listOf (a : PoolArena) (c : Nat) : Option ListName :=
  (a.chunk c).bind fun ch => if ch.unpooled then none else ch.parent

/-- Every pooled chunk but `c` fits the list it is in. -/
def FitBut (a : PoolArena) (c : Nat) : Prop :=
  ∀ n ch, n ≠ c → a.chunk n = some ch → ch.unpooled = false → ∃ x, ch.parent = some x ∧ (a.list x).Fits ch.usage

/-- The chunk lists hold the pooled chunks, and each fits the list it is in. -/
structure Listed (a : PoolArena) : Prop where
  lists : Lists a.nextChunkOf a.prevChunkOf a.headChunk a.listOf
  fit : ∀ n ch, a.chunk n = some ch → ch.unpooled = false → ∃ x, ch.parent = some x ∧ (a.list x).Fits ch.usage

namespace Relinked

variable (h : a.Relinked a')
include h

theorem exists_chunk' (hc : a'.chunk c = some ch) : ∃ ch', a.chunk c = some ch' ∧ ch.unlinked = ch'.unlinked := by
  have := h.chunk c
  rw [hc, Option.map_some] at this
  obtain ⟨ch', h1, h2⟩ := Option.map_eq_some_iff.mp this.symm
  exact ⟨ch', h1, h2.symm⟩

theorem listOf (hp : a'.parentOf c = a.parentOf c) : a'.listOf c = a.listOf c := by
  unfold PoolArena.listOf
  unfold parentOf at hp
  cases hc : a'.chunk c with
  | none =>
    have := h.chunk c
    rw [hc, Option.map_none, eq_comm, Option.map_eq_none_iff] at this
    rw [this]
  | some ch =>
    obtain ⟨ch', hc', he⟩ := h.exists_chunk' hc
    rw [hc, hc', Option.bind_some, Option.bind_some] at hp
    have hu := congrArg PoolChunk.unpooled he
    change ch.unpooled = ch'.unpooled at hu
    rw [hc', Option.bind_some, Option.bind_some, hp, hu]

theorem fits_iff (x : ListName) (u : Int) : (a'.list x).Fits u ↔ (a.list x).Fits u := by
  have h1 := congrArg PoolChunkList.minUsage_ (h.list x)
  have h2 := congrArg PoolChunkList.maxUsage_ (h.list x)
  simp only at h1 h2
  rw [PoolChunkList.Fits, PoolChunkList.Fits, h1, h2]

end Relinked

theorem Relinked.usage {ch ch' : PoolChunk} (h : ch'.unlinked = ch.unlinked) : ch'.usage = ch.usage := by
  show ch'.unlinked.usage = ch.unlinked.usage
  rw [h]

theorem listOf_ne_none (h : a.listOf c ≠ none) : a.chunk c ≠ none := by
  intro hc
  rw [listOf, hc] at h
  exact h rfl

theorem listOf_eq (hch : a.chunk c = some ch) (hu : ch.unpooled = false) : a.listOf c = ch.parent := by
  rw [listOf, hch, Option.bind_some, hu]
  rfl

/-- The last chunk is placed. -/
theorem Listed.of_placed {y : ListName} (F : a.FitBut c) (hch : a.chunk c = some ch) (hu : ch.unpooled = false)
    (hP : PoolChunkList.Placed a (Function.update a.listOf c none) c y a') (hy : (a.list y).Fits ch.usage) :
    a'.Listed where
  lists := by
    have e : a'.listOf = Function.update a.listOf c (some y) := by
      funext n
      by_cases hn : n = c
      · subst hn
        obtain ⟨ch', hch', he⟩ := hP.relinked.exists_chunk hch
        have hp := congrFun hP.parent n
        rw [parentOf, hch', Function.update_self, Option.bind_some] at hp
        rw [listOf_eq hch' ((congrArg PoolChunk.unpooled he).trans hu), hp, Function.update_self]
      · rw [Function.update_of_ne hn, hP.relinked.listOf (by rw [hP.parent, Function.update_of_ne hn])]
    have := hP.lists
    rwa [Function.update_idem, ← e] at this
  fit n ch' hn hu' := by
    have hp := congrFun hP.parent n
    rw [parentOf, hn] at hp
    obtain ⟨ch₀, hch₀, he⟩ := hP.relinked.exists_chunk' hn
    by_cases hnc : n = c
    · subst hnc
      obtain rfl := Option.some_inj.mp (hch.symm.trans hch₀)
      rw [Function.update_self] at hp
      refine ⟨y, hp, ?_⟩
      rw [hP.relinked.fits_iff, Relinked.usage he]
      exact hy
    · rw [Function.update_of_ne hnc, parentOf, hch₀] at hp
      have hu₀ : ch₀.unpooled = false := by
        have := congrArg PoolChunk.unpooled he
        exact this.symm.trans hu'
      obtain ⟨x, hx, hfit⟩ := F n ch₀ hnc hch₀ hu₀
      refine ⟨x, hp.trans hx, ?_⟩
      rw [hP.relinked.fits_iff, Relinked.usage he]
      exact hfit

/-- Every pooled chunk but `c` is in its list, and `c` is in none. -/
structure Unlisted (a : PoolArena) (c : Nat) : Prop where
  lists : Lists a.nextChunkOf a.prevChunkOf a.headChunk (Function.update a.listOf c none)
  fit : a.FitBut c

namespace Unlisted

theorem ne_none (h : Function.update a.listOf c none n ≠ none) : a.chunk n ≠ none := by
  by_cases hn : n = c
  · subst hn
    simp at h
  · rw [Function.update_of_ne hn] at h
    exact listOf_ne_none h

variable (H : a.Laid l) (U : a.Unlisted c) (hch : a.chunk c = some ch) (hu : ch.unpooled = false)
include H U hch hu

/-- A chunk is added, to a list or to one above it. -/
theorem add (h100 : ch.usage ≤ 100) (hmin : (a.list x).minUsage_ ≤ ch.usage) :
    ∃ a', PoolChunkList.add PoolChunkList.numLists (some x) c a = .ok () a' ∧ a.Relinked a' ∧ a'.Listed := by
  obtain ⟨a', y, e, hP, hy⟩ := PoolChunkList.add_ok H U.lists (fun _ => ne_none) hch (Function.update_self ..) h100
    (PoolChunkList.up_le x) hmin
  exact ⟨a', e, hP.relinked, .of_placed U.fit hch hu hP hy⟩

/-- A chunk below the range of a list finds its place further down, unless it is not used at all. -/
theorem move0 (h0 : 0 ≤ ch.usage) (hlt : ch.usage < (a.list x).minUsage_) :
    (∃ a', PoolChunkList.move0 (PoolChunkList.move PoolChunkList.numLists) x c a = .ok true a' ∧ a.Relinked a' ∧
      a'.Listed) ∨
      (PoolChunkList.move0 (PoolChunkList.move PoolChunkList.numLists) x c a = .ok false a ∧ ch.usage = 0) := by
  rw [H.list x] at hlt
  simp only [PoolChunkList.move0, Method.bind_apply, Method.get_apply, Outcome.bind_ok]
  rcases PoolChunkList.newList_prev l.chunkSize h0 hlt with ⟨hp, hz⟩ | ⟨y, hy, -, hmax⟩
  · have hprev : (a.list x).prevList_ = none := by rw [H.list x, hp]
    simp only [hprev, Method.bind_apply, chunkAt_ok hch, Outcome.bind_ok, assert_ok hz]
    exact .inr ⟨rfl, hz⟩
  · have hprev : (a.list x).prevList_ = some y := by rw [H.list x, hy]
    simp only [hprev]
    have hmax' : ch.usage < (a.list y).maxUsage_ := by
      rw [H.list y]
      exact hmax
    rcases PoolChunkList.move_ok H U.lists (fun _ => ne_none) hch (Function.update_self ..) h0
      (PoolChunkList.down_le y) hmax' with ⟨a', z, e, hP, hz⟩ | h
    · exact .inl ⟨a', e, hP.relinked, .of_placed U.fit hch hu hP hz⟩
    · exact .inr h

end Unlisted

/-- Every pooled chunk is in its list, but the usage of `c` may be out of the range. -/
structure ListedBut (a : PoolArena) (c : Nat) : Prop where
  lists : Lists a.nextChunkOf a.prevChunkOf a.headChunk a.listOf
  fit : a.FitBut c

theorem Listed.but (h : a.Listed) (c : Nat) : a.ListedBut c := ⟨h.lists, fun n ch _ => h.fit n ch⟩

/-- A chunk that has no parent is in no list. -/
theorem ListedBut.unlisted (F : a.ListedBut c) (h : a.listOf c = none) : a.Unlisted c where
  lists := by
    rw [← h, Function.update_eq_self]
    exact F.lists
  fit := F.fit

namespace ListedBut

variable (F : a.ListedBut c) (hch : a.chunk c = some ch) (hu : ch.unpooled = false) (hp : ch.parent = some x)
include F hch hu hp

omit hu in
theorem listed (hfit : (a.list x).Fits ch.usage) : a.Listed where
  lists := F.lists
  fit n ch' hn hu' := by
    by_cases hnc : n = c
    · subst hnc
      obtain rfl := Option.some_inj.mp (hch.symm.trans hn)
      exact ⟨x, hp, hfit⟩
    · exact F.fit n ch' hnc hn hu'

theorem remove : ∃ a', PoolChunkList.remove x c a = .ok () a' ∧ a.Relinked a' ∧ a'.Unlisted c := by
  obtain ⟨a', e, R, L, hpar⟩ := PoolChunkList.remove_ok F.lists (fun _ => listOf_ne_none)
    ((listOf_eq hch hu).trans hp)
  have hlist : a'.listOf = a.listOf := funext fun n => R.listOf (congrFun hpar n)
  refine ⟨a', e, R, hlist ▸ L, fun n ch' hn hc hu' => ?_⟩
  obtain ⟨ch₀, hch₀, he⟩ := R.exists_chunk' hc
  have hu₀ : ch₀.unpooled = false := (congrArg PoolChunk.unpooled he).symm.trans hu'
  obtain ⟨z, hz, hfit⟩ := F.fit n ch₀ hn hch₀ hu₀
  have hparn := congrFun hpar n
  rw [parentOf, parentOf, hc, hch₀] at hparn
  refine ⟨z, Eq.trans hparn hz, ?_⟩
  rw [R.fits_iff, Relinked.usage he]
  exact hfit

variable (H : a.Laid l)
include H

/-- A chunk that is used more than its list allows moves up. -/
theorem moveUp (h100 : ch.usage ≤ 100) (hge : ch.usage ≥ (a.list x).maxUsage_) :
    ∃ a₁ a', PoolChunkList.remove x c a = .ok () a₁ ∧
      PoolChunkList.add PoolChunkList.numLists (a.list x).nextList_ c a₁ = .ok () a' ∧ a.Relinked a' ∧ a'.Listed := by
  obtain ⟨a₁, e, R, U⟩ := F.remove hch hu hp
  obtain ⟨ch₁, hch₁, he⟩ := R.exists_chunk hch
  have hu₁ : ch₁.unpooled = false := (congrArg PoolChunk.unpooled he).trans hu
  rw [H.list x] at hge
  obtain ⟨y, hy, -, hmin⟩ := PoolChunkList.newList_next l.chunkSize h100 hge
  have hnext : (a.list x).nextList_ = some y := by rw [H.list x, hy]
  rw [← Relinked.usage he] at h100 hmin
  have H₁ := R.laid H
  obtain ⟨a', e', R', hL⟩ := U.add H₁ hch₁ hu₁ h100 (x := y) (by rw [H₁.list y]; exact hmin)
  exact ⟨a₁, a', e, hnext ▸ e', R.trans R', hL⟩

/-- A chunk that is used less than its list asks for moves down, or is not used at all. -/
theorem moveDown (h0 : 0 ≤ ch.usage) (hlt : ch.usage < (a.list x).minUsage_) :
    ∃ a₁, PoolChunkList.remove x c a = .ok () a₁ ∧ a.Relinked a₁ ∧
      ((∃ a', PoolChunkList.move0 (PoolChunkList.move PoolChunkList.numLists) x c a₁ = .ok true a' ∧ a.Relinked a' ∧
        a'.Listed) ∨
      (PoolChunkList.move0 (PoolChunkList.move PoolChunkList.numLists) x c a₁ = .ok false a₁ ∧ ch.usage = 0 ∧
        a₁.Unlisted c)) := by
  obtain ⟨a₁, e, R, U⟩ := F.remove hch hu hp
  obtain ⟨ch₁, hch₁, he⟩ := R.exists_chunk hch
  have hu₁ : ch₁.unpooled = false := (congrArg PoolChunk.unpooled he).trans hu
  have H₁ := R.laid H
  have hlt₁ : ch₁.usage < (a₁.list x).minUsage_ := by
    rw [Relinked.usage he, H₁.list x]
    rwa [H.list x] at hlt
  rw [← Relinked.usage he] at h0
  rcases U.move0 H₁ hch₁ hu₁ h0 hlt₁ with ⟨a', e', R', hL⟩ | ⟨e', hz⟩
  · exact ⟨a₁, e, R, .inl ⟨a', e', R.trans R', hL⟩⟩
  · exact ⟨a₁, e, R, .inr ⟨e', (Relinked.usage he).symm.trans hz, U⟩⟩

end ListedBut

end PoolArena

end Nio.Pool
