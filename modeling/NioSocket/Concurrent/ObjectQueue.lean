import NioSocket.Lib.Chain
import NioSocket.Lib.MachineInt
import NioSocket.Lib.Outcome

/-!
# The object queue

`ObjectQueue`, a singly linked list with a pointer to its last item, and what its functions do
once they hold the mutex. The items are allocated and deleted one by one; reading an item
that was deleted, a null pointer, a `BOOST_VERIFY` that fails or an `int` that overflows has no
meaning. Whatever is called in whatever order, the queue is a list of what was added and not taken
(`queue_is_list`), and no item is left over.
-/

namespace Nio.Concurrent

/-- The data members of an `Item`. -/
structure Item (T : Type) where
  data : T
  next : Option Nat

/-- The data members of an `ObjectQueue`, and its items. -/
structure ObjectQueue (T : Type) where
  /-- The items that were allocated and are not deleted. -/
  item : Nat → Option (Item T)
  /-- The item that is allocated next. -/
  nextItem : Nat
  head_ : Option Nat
  tail_ : Option Nat
  size_ : Int

namespace ObjectQueue

variable {T : Type}

/-- An empty queue. -/
def init : ObjectQueue T := ⟨fun _ => none, 0, none, none, 0⟩

/-- `BOOST_VERIFY`. -/
def verify (p : Prop) [Decidable p] : Method (ObjectQueue T) Unit := fun q => if p then .ok () q else .ub

/-- `new Item(data)`. -/
def newItem (data : T) : Method (ObjectQueue T) Nat := fun q =>
  .ok q.nextItem { q with item := Function.update q.item q.nextItem (some ⟨data, none⟩), nextItem := q.nextItem + 1 }

/-- Dereferencing an `Item*`. -/
def deref (p : Option Nat) : Method (ObjectQueue T) (Nat × Item T) := fun q =>
  match p with
  | some i =>
    match q.item i with
    | some x => .ok (i, x) q
    | none => .ub
  | none => .ub

/-- `size_ ++`. -/
def grow : Method (ObjectQueue T) Unit := fun q =>
  if q.size_ < intMax then .ok () { q with size_ := q.size_ + 1 } else .ub

/-- `addItem(pItem)`. -/
def addItem (p : Nat) : Method (ObjectQueue T) Unit := fun q =>
  (if q.head_ = none then do
    verify (q.size_ = 0)
    .modify fun q => { q with head_ := some p, tail_ := some p }
    grow
  else do
    verify (q.size_ > 0 ∧ q.tail_ ≠ none)
    let (t, x) ← deref q.tail_
    .modify fun q => { q with item := Function.update q.item t (some { x with next := some p }), tail_ := some p }
    grow : Method (ObjectQueue T) Unit) q

/-- The data of the first item, which is deleted. -/
def pop : Method (ObjectQueue T) T := fun q =>
  (do
    let (i, x) ← deref q.head_
    .modify fun q => { q with item := Function.update q.item i none, head_ := x.next, size_ := q.size_ - 1 }
    pure x.data : Method (ObjectQueue T) T) q

/-- `take(timeout)`, after the wait; `default` is `T()`. -/
def take [Inhabited T] : Method (ObjectQueue T) T := fun q => if q.size_ ≤ 0 then .ok default q else pop q

/-- The loop of `take(l, drain_num, timeout)`. -/
def drain : Nat → Method (ObjectQueue T) (List T)
  | 0 => pure []
  | n + 1 => do
    fun q => verify (q.head_ ≠ none ∧ q.size_ > 0) q
    let x ← pop
    let xs ← drain n
    pure (x :: xs)

/-- `take(l, drain_num, timeout)`, after the wait: what is added to `l`. -/
def takeList (drain_num : Int) : Method (ObjectQueue T) (List T) := fun q =>
  if q.size_ ≤ 0 then .ok [] q
  else
    let drain_num := if drain_num ≤ 0 then q.size_ else if drain_num < q.size_ then drain_num else q.size_
    drain drain_num.toNat q

/-- `peek()`: `T()` if the queue is empty. -/
def peek [Inhabited T] : Method (ObjectQueue T) T := fun q =>
  if q.size_ ≤ 0 then .ok default q
  else
    (do
      verify (q.head_ ≠ none)
      let (_, x) ← deref q.head_
      pure x.data : Method (ObjectQueue T) T) q

/-- `size()`. -/
def size : Method (ObjectQueue T) Int := .get (·.size_)

/-- `add(data)`, with the size that it returns. -/
def add (data : T) : Method (ObjectQueue T) Int := do
  addItem (← newItem data)
  size

/-- The loop of `add(datas)`. -/
def addItems : List T → Method (ObjectQueue T) Unit
  | [] => pure ()
  | x :: xs => do
    addItem (← newItem x)
    addItems xs

/-- `add(datas)`. -/
def addList (datas : List T) : Method (ObjectQueue T) Int := do
  addItems datas
  size

/-- The loop of `clear()`, in `fuel` rounds. -/
def clearLoop : Nat → Method (ObjectQueue T) Unit
  | 0 => fun _ => .hang
  | fuel + 1 => fun q =>
    if q.head_ = none then .ok () q
    else
      (do
        discard pop
        clearLoop fuel) q

/-- `clear()`, in so many rounds. -/
def clear (fuel : Nat) : Method (ObjectQueue T) Unit := do
  clearLoop fuel
  fun q => verify (q.size_ = 0) q

/-! ## The queue as a list -/

/-- `next` of an item. -/
def nextOf (q : ObjectQueue T) (i : Nat) : Option Nat := (q.item i).bind (·.next)

/-- The items `ids` are linked, they are all there are, and they hold the data `xs`. -/
structure Holds (q : ObjectQueue T) (ids : List Nat) (xs : List T) : Prop where
  chain : Chain q.nextOf q.head_ ids
  nodup : ids.Nodup
  data : ids.map (fun i => (q.item i).map (·.data)) = xs.map some
  all : ∀ i, q.item i ≠ none ↔ i ∈ ids
  tail_ : ∀ ids' t, ids = ids' ++ [t] → q.tail_ = some t
  size_ : q.size_ = xs.length
  fresh : ∀ i, q.nextItem ≤ i → i ∉ ids

theorem init_holds : (init : ObjectQueue T).Holds [] [] where
  chain := rfl
  nodup := .nil
  data := rfl
  all i := by simp [init]
  tail_ ids' t h := by simp at h
  size_ := rfl
  fresh _ _ := List.not_mem_nil

variable {q : ObjectQueue T} {ids : List Nat} {xs ys : List T} {x : T}

namespace Holds

theorem length_ids (h : q.Holds ids xs) : ids.length = xs.length := by
  have := congrArg List.length h.data
  simpa using this

theorem size_le_zero (h : q.Holds ids xs) : q.size_ ≤ 0 ↔ xs = [] := by
  rw [h.size_, ← List.length_eq_zero_iff]
  omega

theorem head_eq_none (h : q.Holds ids xs) : q.head_ = none ↔ xs = [] := by
  rw [← List.length_eq_zero_iff, ← h.length_ids, List.length_eq_zero_iff]
  have hc := h.chain
  cases ids with
  | nil => simpa using hc
  | cons i ids => simp [hc.1]

/-- The first item. -/
theorem first (h : q.Holds ids (x :: xs)) :
    ∃ i n ids', ids = i :: ids' ∧ q.head_ = some i ∧ q.item i = some ⟨x, n⟩ ∧ Chain q.nextOf n ids' := by
  have hd := h.data
  have hc := h.chain
  cases ids with
  | nil => simp at hd
  | cons i ids =>
    obtain ⟨hi, -⟩ := List.cons.inj hd
    obtain ⟨⟨x', n⟩, hx, rfl⟩ := Option.map_eq_some_iff.mp hi
    refine ⟨i, n, ids, rfl, hc.1, hx, ?_⟩
    have hn := hc.2
    rwa [nextOf, hx] at hn

end Holds

theorem deref_ok {i : Nat} {y : Item T} (h : q.item i = some y) : deref (some i) q = .ok (i, y) q := by
  simp only [deref, h]

theorem pop_ok (h : q.Holds ids (x :: xs)) : ∃ q' ids', pop q = .ok x q' ∧ q'.Holds ids' xs := by
  obtain ⟨i, n, ids, rfl, hhead, hi, hc⟩ := h.first
  obtain ⟨hni, hd⟩ := List.nodup_cons.mp h.nodup
  have hne : ∀ j ∈ ids, Function.update q.item i none j = q.item j := fun j hj =>
    Function.update_of_ne (fun e => hni (by rwa [← e])) ..
  refine ⟨{ q with item := Function.update q.item i none, head_ := n, size_ := q.size_ - 1 }, ids, ?_, ?_⟩
  · simp only [pop, hhead, Method.bind_apply, deref_ok hi, Outcome.bind_ok]
    rfl
  · refine ⟨hc.congr fun j hj => by simp only [nextOf, hne j hj], hd, ?_, fun j => ?_, fun ids' t ht => ?_, ?_,
      fun j hj => ?_⟩
    · have hdata := (List.cons.inj h.data).2
      rw [← hdata]
      exact List.map_congr_left fun j hj => by simp only [hne j hj]
    · have hall := h.all j
      by_cases hj : j = i
      · subst hj
        simp [hni]
      · simpa [Function.update_of_ne hj, hj] using hall
    · exact h.tail_ (i :: ids') t (by rw [ht, List.cons_append])
    · have := h.size_
      rw [List.length_cons] at this
      simp only
      omega
    · exact fun hm => h.fresh j hj (List.mem_cons_of_mem _ hm)

theorem add_ok (h : q.Holds ids xs) (hlen : (xs.length : Int) < intMax) (x : T) :
    ∃ q' ids', (newItem x q).bind addItem = .ok () q' ∧ q'.Holds ids' (xs ++ [x]) := by
  have hp : q.nextItem ∉ ids := h.fresh _ (Nat.le_refl _)
  have hold : ∀ i ∈ ids, i ≠ q.nextItem := fun i hi e => hp (e ▸ hi)
  have hsize := h.size_
  simp only [newItem, Outcome.bind_ok]
  by_cases he : xs = []
  · subst he
    obtain rfl : ids = [] := List.length_eq_zero_iff.mp h.length_ids
    have hh : q.head_ = none := h.head_eq_none.mpr rfl
    have h0 : q.size_ = 0 := hsize
    refine ⟨⟨Function.update q.item q.nextItem (some ⟨x, none⟩), q.nextItem + 1, some q.nextItem, some q.nextItem,
      q.size_ + 1⟩,
      [q.nextItem], ?_, ?_⟩
    · simp only [addItem, hh, if_pos, Method.bind_apply, verify, h0, Outcome.bind_ok, Method.modify_apply, grow]
      rw [if_pos (by unfold intMax; omega)]
    · refine ⟨?_, by simp, by simp, fun i => ?_, fun ids' t ht => ?_, by simp [h0], fun i hi => ?_⟩
      · simp [nextOf]
      · have hall := h.all i
        by_cases hi : i = q.nextItem
        · simp [hi]
        · simpa [Function.update_of_ne hi, hi] using hall
      · rw [← List.nil_append [q.nextItem]] at ht
        rw [(List.cons.inj (List.append_inj' ht rfl).2).1]
      · have hi : q.nextItem + 1 ≤ i := hi
        simp only [List.mem_singleton]
        omega
  · obtain ⟨ids, t, rfl⟩ : ∃ ids' t, ids = ids' ++ [t] := by
      rcases List.eq_nil_or_concat ids with rfl | ⟨l, t, rfl⟩
      · exact absurd (List.length_eq_zero_iff.mp h.length_ids.symm) he
      · exact ⟨l, t, List.concat_eq_append ..⟩
    have hh : q.head_ ≠ none := fun e => he (h.head_eq_none.mp e)
    have hpos : q.size_ > 0 := by
      have := h.size_le_zero.not.mpr he
      omega
    have htail := h.tail_ ids t rfl
    have htne : t ≠ q.nextItem := hold t (by simp)
    obtain ⟨y, hy⟩ := Option.ne_none_iff_exists'.mp ((h.all t).mpr (by simp))
    have hy' : Function.update q.item q.nextItem (some ⟨x, none⟩) t = some y := by rw [Function.update_of_ne htne, hy]
    refine ⟨⟨Function.update (Function.update q.item q.nextItem (some ⟨x, none⟩)) t (some { y with next := some q.nextItem }),
      q.nextItem + 1, q.head_, some q.nextItem, q.size_ + 1⟩, ids ++ [t] ++ [q.nextItem], ?_, ?_⟩
    · have hv : q.size_ > 0 ∧ some t ≠ none := ⟨hpos, by simp⟩
      simp only [addItem, if_neg hh, Method.bind_apply, verify, htail, if_pos hv, Outcome.bind_ok, deref, hy',
        Method.modify_apply, grow]
      rw [if_pos (by rw [hsize]; exact hlen)]
    · have hn : ∀ i, nextOf ⟨Function.update (Function.update q.item q.nextItem (some ⟨x, none⟩)) t
          (some { y with next := some q.nextItem }), q.nextItem + 1, q.head_, some q.nextItem, q.size_ + 1⟩ i =
          Function.update (Function.update q.nextOf q.nextItem none) t (some q.nextItem) i := fun i => by
        by_cases h₁ : i = t
        · subst h₁
          simp [nextOf]
        · by_cases h₂ : i = q.nextItem
          · subst h₂
            simp [nextOf, Function.update_of_ne h₁]
          · simp [nextOf, Function.update_of_ne h₁, Function.update_of_ne h₂]
      have hdata : ∀ i ∈ ids ++ [t], (Function.update (Function.update q.item q.nextItem (some ⟨x, none⟩)) t
          (some { y with next := some q.nextItem }) i).map (·.data) = (q.item i).map (·.data) := fun i hi => by
        by_cases h₁ : i = t
        · subst h₁
          simp [hy]
        · rw [Function.update_of_ne h₁, Function.update_of_ne (hold i hi)]
      refine ⟨?_, ?_, ?_, fun i => ?_, fun ids' t' ht => ?_, ?_, fun i hi => ?_⟩
      · have hc : Chain (Function.update q.nextOf q.nextItem none) q.head_ (ids ++ [t]) :=
          h.chain.congr fun i hi => Function.update_of_ne (hold i hi) ..
        exact (hc.snoc h.nodup hp (Function.update_self ..)).congr fun i _ => hn i
      · exact List.nodup_append.mpr ⟨h.nodup, by simp, fun i hi j hj e => by
          rw [List.mem_singleton.mp hj] at e
          exact hold i hi e⟩
      · rw [List.map_append, List.map_congr_left hdata, h.data]
        simp [Function.update_of_ne htne.symm]
      · have hall := h.all i
        by_cases h₁ : i = t
        · subst h₁
          simp
        · by_cases h₂ : i = q.nextItem
          · subst h₂
            simp [Function.update_of_ne h₁]
          · simpa [Function.update_of_ne h₁, Function.update_of_ne h₂, h₁, h₂] using hall
      · rw [(List.cons.inj (List.append_inj' ht rfl).2).1]
      · simp only [hsize, List.length_append, List.length_singleton]
        omega
      · have hi : q.nextItem + 1 ≤ i := hi
        have := h.fresh i (by omega)
        rw [List.mem_append, List.mem_singleton, not_or]
        exact ⟨this, by omega⟩

theorem verify_of_ok {p : Prop} [Decidable p] {q' : ObjectQueue T} {u : Unit} (e : verify p q = .ok u q') : q' = q := by
  unfold verify at e
  split at e <;> cases e
  rfl

theorem deref_of_ok {p : Option Nat} {y : Nat × Item T} {q' : ObjectQueue T} (e : deref p q = .ok y q') : q' = q := by
  unfold deref at e
  split at e
  · split at e <;> cases e
    rfl
  · cases e

/-- Adding to a queue that is full does not return. -/
theorem add_lt {q' : ObjectQueue T} (h : q.Holds ids xs) (e : (newItem x q).bind addItem = .ok () q') :
    (xs.length : Int) < intMax := by
  cases hh : q.head_ with
  | none =>
    rw [h.head_eq_none.mp hh, List.length_nil]
    decide
  | some i =>
    simp only [newItem, Outcome.bind_ok, addItem, hh] at e
    rw [if_neg (by simp)] at e
    obtain ⟨_, q₁, e₁, e⟩ := Outcome.bind_eq_ok e
    obtain rfl := verify_of_ok e₁
    obtain ⟨⟨t, y⟩, q₂, e₂, e⟩ := Outcome.bind_eq_ok e
    obtain rfl := deref_of_ok e₂
    simp only [Method.bind_apply, Method.modify_apply, Outcome.bind_ok, grow] at e
    split at e
    · rename_i hlt
      rwa [h.size_] at hlt
    · cases e

theorem addItems_ok (h : q.Holds ids xs) (hlen : ((xs ++ ys).length : Int) ≤ intMax) :
    ∃ q' ids', addItems ys q = .ok () q' ∧ q'.Holds ids' (xs ++ ys) := by
  induction ys generalizing q ids xs with
  | nil => exact ⟨q, ids, rfl, by rwa [List.append_nil]⟩
  | cons y ys ih =>
    rw [List.length_append, List.length_cons] at hlen
    obtain ⟨q₁, ids₁, e₁, h₁⟩ := add_ok h (by omega) y
    obtain ⟨q₂, ids₂, e₂, h₂⟩ := ih h₁ (by simp only [List.length_append, List.length_singleton]; omega)
    refine ⟨q₂, ids₂, ?_, by rwa [List.append_assoc] at h₂⟩
    rw [addItems, Method.bind_apply]
    refine (Outcome.bind_assoc (newItem y q) addItem fun _ => addItems ys).symm.trans ?_
    rw [e₁]
    exact e₂

theorem addItems_holds {q' : ObjectQueue T} (h : q.Holds ids xs) (e : addItems ys q = .ok () q') :
    ∃ ids', q'.Holds ids' (xs ++ ys) := by
  induction ys generalizing q ids xs with
  | nil =>
    obtain ⟨-, rfl⟩ := Outcome.ok.inj e
    exact ⟨ids, by rwa [List.append_nil]⟩
  | cons y ys ih =>
    have e : (newItem y q).bind (fun p => addItem p >>= fun _ => addItems ys) = .ok () q' := e
    obtain ⟨_, q₁, e₁, e⟩ := Outcome.bind_eq_ok ((Outcome.bind_assoc (newItem y q) addItem fun _ => addItems ys).trans e)
    obtain ⟨q₂, ids₂, e₂, h₂⟩ := add_ok h (add_lt h e₁) y
    obtain ⟨-, rfl⟩ := Outcome.ok.inj (e₁.symm.trans e₂)
    obtain ⟨ids', h'⟩ := ih h₂ e
    exact ⟨ids', by rwa [List.append_assoc] at h'⟩

theorem drain_ok {n : Nat} (h : q.Holds ids xs) (hn : n ≤ xs.length) :
    ∃ q' ids', drain n q = .ok (xs.take n) q' ∧ q'.Holds ids' (xs.drop n) := by
  induction n generalizing q ids xs with
  | zero => exact ⟨q, ids, rfl, h⟩
  | succ n ih =>
    cases xs with
    | nil => simp at hn
    | cons x xs =>
      have hv : q.head_ ≠ none ∧ q.size_ > 0 := by
        have h₁ := h.head_eq_none
        have h₂ := h.size_le_zero
        simp only [List.cons_ne_nil, iff_false] at h₁ h₂
        exact ⟨h₁, by omega⟩
      obtain ⟨q₁, ids₁, e₁, h₁⟩ := pop_ok h
      obtain ⟨q₂, ids₂, e₂, h₂⟩ := ih h₁ (by simpa using hn)
      refine ⟨q₂, ids₂, ?_, h₂⟩
      simp only [drain, Method.bind_apply, verify, if_pos hv, Outcome.bind_ok, e₁, e₂]
      rfl

theorem clearLoop_ok {fuel : Nat} (h : q.Holds ids xs) (hf : xs.length < fuel) :
    ∃ q', clearLoop fuel q = .ok () q' ∧ q'.Holds [] [] := by
  induction fuel generalizing q ids xs with
  | zero => omega
  | succ fuel ih =>
    cases xs with
    | nil =>
      obtain rfl : ids = [] := List.length_eq_zero_iff.mp h.length_ids
      exact ⟨q, by simp only [clearLoop, if_pos (h.head_eq_none.mpr rfl)], h⟩
    | cons x xs =>
      have hh : q.head_ ≠ none := h.head_eq_none.not.mpr (List.cons_ne_nil _ _)
      obtain ⟨q₁, ids₁, e₁, h₁⟩ := pop_ok h
      obtain ⟨q₂, e₂, h₂⟩ := ih h₁ (by simpa using hf)
      refine ⟨q₂, ?_, h₂⟩
      simp only [clearLoop, if_neg hh, Method.bind_apply]
      show ((pop q).bind _).bind _ = _
      rw [e₁]
      exact e₂

/-! ## Runs -/

/-- A call on the queue. -/
inductive Op (T : Type)
  | add (data : T)
  | addList (datas : List T)
  | take
  | takeList (drain_num : Int)
  | peek
  | clear
  deriving DecidableEq

/-- What a call returns: a number of items, or some data. -/
inductive Reply (T : Type)
  | size (n : Int)
  | data (xs : List T)
  deriving DecidableEq

/-- A call, with `fuel` rounds for the loop of `clear()`. -/
def Op.call [Inhabited T] (fuel : Nat) : Op T → Method (ObjectQueue T) (Reply T)
  | .add x => do pure (.size (← ObjectQueue.add x))
  | .addList ys => do pure (.size (← ObjectQueue.addList ys))
  | .take => do pure (.data [← ObjectQueue.take])
  | .takeList n => do pure (.data (← ObjectQueue.takeList n))
  | .peek => do pure (.data [← ObjectQueue.peek])
  | .clear => do
    ObjectQueue.clear fuel
    pure (.data [])

/-- How many items `takeList(n)` takes. -/
def drained (n : Int) (xs : List T) : Nat := if n ≤ 0 then xs.length else min n.toNat xs.length

/-- A call on a list: what it returns, and the list it leaves. -/
def Op.spec [Inhabited T] (xs : List T) : Op T → Reply T × List T
  | .add x => (.size (xs.length + 1 : Nat), xs ++ [x])
  | .addList ys => (.size (xs.length + ys.length : Nat), xs ++ ys)
  | .take => (.data [xs.headD default], xs.tail)
  | .takeList n => (.data (xs.take (drained n xs)), xs.drop (drained n xs))
  | .peek => (.data [xs.headD default], xs)
  | .clear => (.data [], [])

variable [Inhabited T] {fuel : Nat}

theorem call_ok (h : q.Holds ids xs) (op : Op T) (hfit : ((op.spec xs).2.length : Int) ≤ intMax) (hf : xs.length < fuel) :
    ∃ q' ids', op.call fuel q = .ok (op.spec xs).1 q' ∧ q'.Holds ids' (op.spec xs).2 := by
  have hlen := h.length_ids
  cases op with
  | add x =>
    simp only [Op.spec, List.length_append, List.length_singleton] at hfit ⊢
    obtain ⟨q', ids', e, h'⟩ := add_ok h (by omega) x
    refine ⟨q', ids', ?_, h'⟩
    have hs := h'.size_
    rw [List.length_append, List.length_singleton] at hs
    have hadd : add x q = .ok (xs.length + 1 : Nat) q' := by
      rw [add, Method.bind_apply]
      refine (Outcome.bind_assoc (newItem x q) addItem fun _ => size).symm.trans ?_
      rw [e, Outcome.bind_ok, size, Method.get_apply, hs]
    simp only [Op.call, Method.bind_apply, hadd]
    rfl
  | addList ys =>
    have hfit : ((xs ++ ys).length : Int) ≤ intMax := hfit
    obtain ⟨q', ids', e, h'⟩ := addItems_ok h hfit
    refine ⟨q', ids', ?_, h'⟩
    have hs := h'.size_
    rw [List.length_append] at hs
    simp only [Op.call, addList, Method.bind_apply, e, Outcome.bind_ok, size, Method.get_apply, hs]
    rfl
  | take =>
    simp only [Op.call, take, Method.bind_apply]
    cases xs with
    | nil =>
      rw [if_pos (h.size_le_zero.mpr rfl)]
      exact ⟨q, ids, rfl, h⟩
    | cons x xs =>
      obtain ⟨q', ids', e, h'⟩ := pop_ok h
      rw [if_neg (h.size_le_zero.not.mpr (List.cons_ne_nil _ _)), e]
      exact ⟨q', ids', rfl, h'⟩
  | takeList n =>
    simp only [Op.call, takeList, Method.bind_apply]
    by_cases hxs : xs = []
    · subst hxs
      rw [if_pos (h.size_le_zero.mpr rfl)]
      exact ⟨q, ids, by simp [Op.spec], by simpa [Op.spec] using h⟩
    · rw [if_neg (h.size_le_zero.not.mpr hxs)]
      have hn : (if n ≤ 0 then q.size_ else if n < q.size_ then n else q.size_).toNat = drained n xs := by
        unfold drained
        rw [h.size_]
        split
        · exact Int.toNat_natCast _
        · split <;> omega
      obtain ⟨q', ids', e, h'⟩ := drain_ok (n := drained n xs) h (by unfold drained; split <;> omega)
      refine ⟨q', ids', ?_, h'⟩
      rw [hn, e]
      rfl
  | peek =>
    simp only [Op.call, peek, Method.bind_apply]
    cases xs with
    | nil =>
      rw [if_pos (h.size_le_zero.mpr rfl)]
      exact ⟨q, ids, rfl, h⟩
    | cons x xs =>
      obtain ⟨i, n, ids', -, hhead, hi, -⟩ := h.first
      have hv : some i ≠ none := by simp
      rw [if_neg (h.size_le_zero.not.mpr (List.cons_ne_nil _ _))]
      refine ⟨q, ids, ?_, h⟩
      rw [hhead, verify, if_pos hv, Outcome.bind_ok, Method.bind_apply, deref_ok hi]
      rfl
  | clear =>
    obtain ⟨q', e, h'⟩ := clearLoop_ok h hf
    have hv : q'.size_ = 0 := h'.size_
    refine ⟨q', [], ?_, h'⟩
    simp only [Op.call, clear, Method.bind_apply, e, Outcome.bind_ok, verify, if_pos hv]
    rfl

/-- Calls, one after another. -/
def runOps (fuel : Nat) : List (Op T) → Method (ObjectQueue T) (List (Reply T))
  | [] => pure []
  | op :: ops => do
    let r ← op.call fuel
    let rs ← runOps fuel ops
    pure (r :: rs)

/-- The same calls on a list. -/
def specRun : List (Op T) → List T → List (Reply T) × List T
  | [], xs => ([], xs)
  | op :: ops, xs =>
    let (r, xs) := op.spec xs
    let (rs, xs) := specRun ops xs
    (r :: rs, xs)

/-- The list never has more than `n` items. -/
def Fits (n : Nat) : List (Op T) → List T → Prop
  | [], xs => xs.length ≤ n
  | op :: ops, xs => xs.length ≤ n ∧ Fits n ops (op.spec xs).2

instance {n : Nat} {ops : List (Op T)} {xs : List T} : Decidable (Fits n ops xs) :=
  match ops with
  | [] => inferInstanceAs (Decidable (_ ≤ _))
  | _ :: ops => @instDecidableAnd _ _ _ (@instDecidableFits _ ops _)

theorem Fits.length_le {n : Nat} {ops : List (Op T)} (h : Fits n ops xs) : xs.length ≤ n := by
  cases ops with
  | nil => exact h
  | cons op ops => exact h.1

theorem runOps_ok {n : Nat} (hn : (n : Int) ≤ intMax) (hf : n < fuel) (h : q.Holds ids xs) {ops : List (Op T)}
    (hfit : Fits n ops xs) :
    ∃ q' ids', runOps fuel ops q = .ok (specRun ops xs).1 q' ∧ q'.Holds ids' (specRun ops xs).2 := by
  induction ops generalizing q ids xs with
  | nil => exact ⟨q, ids, rfl, h⟩
  | cons op ops ih =>
    have hle := hfit.2.length_le
    obtain ⟨q₁, ids₁, e₁, h₁⟩ := call_ok h op (by omega) (Nat.lt_of_le_of_lt hfit.1 hf)
    obtain ⟨q₂, ids₂, e₂, h₂⟩ := ih h₁ hfit.2
    refine ⟨q₂, ids₂, ?_, h₂⟩
    simp only [runOps, Method.bind_apply, e₁, Outcome.bind_ok, e₂]
    rfl

/-- As long as the queue has no more items than an `int` counts, calls return what they return on a list,
none of them reads an item that is not there, and the items that are not deleted are those of the list. -/
theorem queue_is_list {n : Nat} {ops : List (Op T)} (hn : (n : Int) ≤ intMax) (hf : n < fuel) (hfit : Fits n ops []) :
    ∃ q ids, runOps fuel ops init = .ok (specRun ops []).1 q ∧ Chain q.nextOf q.head_ ids ∧
      ids.map (fun i => (q.item i).map (·.data)) = (specRun ops []).2.map some ∧ (∀ i, q.item i ≠ none ↔ i ∈ ids) ∧
      q.size_ = (specRun ops []).2.length := by
  obtain ⟨q, ids, e, h⟩ := runOps_ok hn hf init_holds hfit
  exact ⟨q, ids, e, h.chain, h.data, h.all, h.size_⟩

theorem queue_is_list_mixed : ∃ q ids, runOps (T := Nat) 4 [.addList [1, 2], .take, .add 3, .takeList 0, .add 4] init =
      .ok [.size 2, .data [1], .size 2, .data [2, 3], .size 1] q ∧ Chain q.nextOf q.head_ ids ∧ ids.length = 1 := by
  obtain ⟨q, ids, e, hc, hd, -⟩ := @queue_is_list Nat _ 4 3 [.addList [1, 2], .take, .add 3, .takeList 0, .add 4]
    (by decide) (by decide) (by decide)
  exact ⟨q, ids, e, hc, by rw [← List.length_map, hd]; rfl⟩

end ObjectQueue

end Nio.Concurrent
